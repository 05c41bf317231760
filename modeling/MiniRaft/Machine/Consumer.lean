import Mathlib.Data.List.Basic

/-!
# Consumers that may refuse

A `Consumer` takes items one at a time.  It may refuse an item, and may have changed when it does.
An *attempt* on a list of items ends with the first one refused; the next attempt starts over
there.

* `Consumer.accepted`, `Consumer.attempt` : the items taken in one attempt, and what it leaves.
* `Consumer.overcomes` : so many attempts take all items.
-/

namespace MiniRaft

/-- A state that items are handed to, one after the other. -/
structure Consumer (σ α : Type*) where
  /-- What is left when an item has been handed over, and whether it has been taken. -/
  offer : σ → α → σ × Bool

namespace Consumer

variable {σ α : Type*} (C : Consumer σ α)

/-- The items taken before the first one refused. -/
def accepted (s : σ) : List α → List α
  | [] => []
  | x :: xs =>
    match C.offer s x with
    | (_, false) => []
    | (s', true) => x :: accepted s' xs

/-- What the attempt leaves. -/
def attempt (s : σ) : List α → σ
  | [] => s
  | x :: xs =>
    match C.offer s x with
    | (s', false) => s'
    | (s', true) => attempt s' xs

/-- All items are taken within `n` attempts, each of which starts over at the item refused last. -/
def overcomes : ℕ → σ → List α → Bool
  | 0, _, xs => xs.isEmpty
  | n + 1, s, xs => overcomes n (C.attempt s xs) (xs.drop (C.accepted s xs).length)

variable {C} {s s' : σ} {x : α} {xs : List α}

theorem accepted_of_taken (h : C.offer s x = (s', true)) :
    C.accepted s (x :: xs) = x :: C.accepted s' xs := by
  rw [accepted, h]

theorem accepted_of_refused (h : C.offer s x = (s', false)) : C.accepted s (x :: xs) = [] := by
  rw [accepted, h]

theorem attempt_of_taken (h : C.offer s x = (s', true)) :
    C.attempt s (x :: xs) = C.attempt s' xs := by
  rw [attempt, h]

theorem attempt_of_refused (h : C.offer s x = (s', false)) : C.attempt s (x :: xs) = s' := by
  rw [attempt, h]

theorem accepted_isPrefix (s : σ) (xs : List α) : C.accepted s xs <+: xs := by
  induction xs generalizing s with
  | nil => exact List.prefix_refl _
  | cons x xs ih =>
    cases h : C.offer s x with
    | mk s' taken =>
      cases taken with
      | false =>
        rw [accepted_of_refused h]
        exact List.nil_prefix
      | true =>
        rw [accepted_of_taken h]
        exact (List.prefix_cons_inj x).2 (ih s')

theorem accepted_eq_take (s : σ) (xs : List α) :
    C.accepted s xs = xs.take (C.accepted s xs).length :=
  List.prefix_iff_eq_take.1 (accepted_isPrefix s xs)

theorem length_accepted_le (s : σ) (xs : List α) : (C.accepted s xs).length ≤ xs.length :=
  (accepted_isPrefix s xs).length_le

theorem overcomes_of_accepted_eq (n : ℕ) (h : C.accepted s xs = xs) :
    C.overcomes (n + 1) s xs = true := by
  rw [overcomes, h, List.drop_length]
  generalize C.attempt s xs = s'
  clear h
  induction n generalizing s' with
  | zero => rfl
  | succ n ih => exact ih s'

end Consumer

end MiniRaft
