import Mathlib.Data.List.Basic

/-!
# Incremental decoders

A stream of symbols arrives in chunks.  An `Incremental` decoder looks at the buffer of what has
arrived: it takes a whole item off the front, or finds that there is none yet.  After each chunk it
is *drained*, that is, called until it finds no item.

* `Incremental.drain_append` : what is drained before more symbols arrive does not depend on them.
* `Incremental.feed_eq` : **chunk independence**: draining after each chunk finds the same items and
  leaves the same buffer as draining the whole stream once, however it is cut.
* `Incremental.drain_flatMap` : a stream of encoded items is drained to these items.
-/

namespace MiniRaft

/-- A decoder that takes an item off the front of a buffer, or finds none. -/
structure Incremental (β ρ : Type*) where
  /-- The first item of the buffer and what follows it. -/
  step : List β → Option (ρ × List β)
  /-- An item takes up something. -/
  consumes : ∀ {buf : List β} {r : ρ} {rest : List β}, step buf = some (r, rest) →
    rest.length < buf.length
  /-- An item that is complete does not depend on what follows it. -/
  extends_step : ∀ {buf : List β} {r : ρ} {rest : List β} (more : List β),
    step buf = some (r, rest) → step (buf ++ more) = some (r, rest ++ more)

namespace Incremental

variable {β ρ α : Type*} (d : Incremental β ρ)

/-- Call the decoder until it finds no item: the items found and the symbols left over. -/
def drain (buf : List β) : List ρ × List β :=
  match _h : d.step buf with
  | none => ([], buf)
  | some (r, rest) => (r :: (drain rest).1, (drain rest).2)
termination_by buf.length
decreasing_by all_goals exact d.consumes _h

/-- Drain the buffer after each chunk that arrives. -/
def feed : List β → List (List β) → List ρ × List β
  | buf, [] => ([], buf)
  | buf, chunk :: chunks =>
    let drained := d.drain (buf ++ chunk)
    let later := feed drained.2 chunks
    (drained.1 ++ later.1, later.2)

variable {d}

theorem drain_of_none {buf : List β} (h : d.step buf = none) : d.drain buf = ([], buf) := by
  rw [drain]
  split
  · rfl
  · rename_i hsome
    rw [h] at hsome
    cases hsome

theorem drain_of_some {buf rest : List β} {r : ρ} (h : d.step buf = some (r, rest)) :
    d.drain buf = (r :: (d.drain rest).1, (d.drain rest).2) := by
  rw [drain]
  split
  · rename_i hnone
    rw [h] at hnone
    cases hnone
  · rename_i r' rest' hsome
    rw [h, Option.some.injEq, Prod.mk.injEq] at hsome
    obtain ⟨rfl, rfl⟩ := hsome
    rfl

theorem step_nil : d.step [] = none := by
  cases h : d.step [] with
  | none => rfl
  | some p => exact absurd (d.consumes h) (Nat.not_lt_zero _)

theorem drain_nil : d.drain [] = ([], []) := drain_of_none step_nil

/-- **The rule for the loop**: what holds where no item is found, and is handed on from the rest of
the buffer to the buffer, holds of every buffer. -/
theorem drain_induction {P : List β → Prop} (none : ∀ buf, d.step buf = none → P buf)
    (some : ∀ buf r rest, d.step buf = some (r, rest) → P rest → P buf) (buf : List β) : P buf := by
  induction hn : buf.length using Nat.strongRecOn generalizing buf with
  | ind n ih =>
    cases h : d.step buf with
    | none => exact none buf h
    | some p =>
      obtain ⟨r, rest⟩ := p
      have hlt : rest.length < n := by
        rw [← hn]
        exact d.consumes h
      exact some buf r rest h (ih rest.length hlt rest rfl)

theorem step_drain (buf : List β) : d.step (d.drain buf).2 = none := by
  induction buf using drain_induction (d := d) with
  | none buf h => rwa [drain_of_none h]
  | some buf r rest h ih => rwa [drain_of_some h]

/-- **More symbols arrive**: the items found before stay, and the rest is drained with them. -/
theorem drain_append (buf more : List β) :
    d.drain (buf ++ more) =
      ((d.drain buf).1 ++ (d.drain ((d.drain buf).2 ++ more)).1,
        (d.drain ((d.drain buf).2 ++ more)).2) := by
  induction buf using drain_induction (d := d) with
  | none buf h => rw [drain_of_none h, List.nil_append]
  | some buf r rest h ih =>
    rw [drain_of_some h, drain_of_some (d.extends_step more h), ih, List.cons_append]

/-- **Chunk independence.** -/
theorem feed_eq (buf : List β) (chunks : List (List β)) (h : d.step buf = none) :
    d.feed buf chunks = d.drain (buf ++ chunks.flatten) := by
  induction chunks generalizing buf with
  | nil => rw [feed, List.flatten_nil, List.append_nil, drain_of_none h]
  | cons chunk chunks ih =>
    rw [feed, ih _ (step_drain _), List.flatten_cons, ← List.append_assoc,
      drain_append (buf ++ chunk) chunks.flatten]

theorem feed_nil_eq (chunks : List (List β)) : d.feed [] chunks = d.drain chunks.flatten :=
  feed_eq [] chunks step_nil

/-- **Round trip**: where the decoder finds the code of each item in front of anything, it finds
the items of a stream of codes. -/
theorem drain_flatMap {code : α → List β} {item : α → ρ} {xs : List α}
    (h : ∀ x ∈ xs, ∀ more, d.step (code x ++ more) = some (item x, more)) :
    d.drain (xs.flatMap code) = (xs.map item, []) := by
  induction xs with
  | nil => exact drain_nil
  | cons x xs ih =>
    have hx := h x List.mem_cons_self (xs.flatMap code)
    have hrest := ih fun y hy => h y (List.mem_cons_of_mem x hy)
    rw [List.flatMap_cons, drain_of_some hx, hrest, List.map_cons]

theorem length_drain_mul_le {n : ℕ}
    (h : ∀ {buf : List β} {r : ρ} {rest : List β}, d.step buf = some (r, rest) →
      rest.length + n ≤ buf.length) (buf : List β) :
    n * (d.drain buf).1.length + (d.drain buf).2.length ≤ buf.length := by
  induction buf using drain_induction (d := d) with
  | none buf hnone => simp [drain_of_none hnone]
  | some buf r rest hsome ih =>
    have hle := h hsome
    rw [drain_of_some hsome, List.length_cons, Nat.mul_succ]
    dsimp only
    omega

end Incremental

end MiniRaft
