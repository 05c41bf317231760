import Mathlib.Data.List.Basic

/-!
# Machines and their guarded runs

A `Machine` is an executable transition system: `next s l` is the state after the action `l`, if
`l` can happen in `s`.  A *guard* `G : S → L → Prop` restricts its runs to those whose every
action `l`, taken in the state `s`, satisfies `G s l`; conditions on the environment (how
messages are delivered, which inputs occur) are guards, and the unguarded runs are the runs of
the guard `⊤`.

* `Machine.Run M G s ls s'` : the actions `ls` lead from `s` to `s'`, all within `G`.
* `Machine.Run.invariant` : what one guarded step preserves holds along every guarded run.
* `Machine.Run.imp`, `Machine.Run.congr` : guards that follow from each other on the states reached.
* `Machine.exec` : run a list of actions, checking a decidable guard at each.
-/

namespace MiniRaft

/-- An executable transition system. -/
structure Machine (S L : Type*) where
  /-- The state after an action, or `none` if the action cannot happen. -/
  next : S → L → Option S

namespace Machine

variable {S L : Type*} {M : Machine S L} {G G' : S → L → Prop} {s s' s'' : S} {l : L}
  {ls ls' : List L}

/-- A run of `M` whose actions all satisfy the guard `G` in the state they are taken in. -/
inductive Run (M : Machine S L) (G : S → L → Prop) (s : S) : List L → S → Prop
  | nil : Run M G s [] s
  | snoc {s' s'' : S} {ls : List L} {l : L} :
      Run M G s ls s' → G s' l → M.next s' l = some s'' → Run M G s (ls ++ [l]) s''

/-- `s'` is reached from `s` by some guarded run. -/
def Reach (M : Machine S L) (G : S → L → Prop) (s s' : S) : Prop := ∃ ls, M.Run G s ls s'

/-- The conjunction of two guards. -/
def both (G G' : S → L → Prop) : S → L → Prop := fun s l => G s l ∧ G' s l

namespace Run

theorem append (h : M.Run G s ls s') (h' : M.Run G s' ls' s'') : M.Run G s (ls ++ ls') s'' := by
  induction h' with
  | nil => simpa using h
  | snoc _ hG hn ih => rw [← List.append_assoc]; exact .snoc ih hG hn

/-- **Invariants of guarded runs.**  What holds at the start and is preserved by every guarded
step holds at the end. -/
theorem invariant {I : S → Prop} (h : M.Run G s ls s') (h₀ : I s)
    (step : ∀ s l s', I s → G s l → M.next s l = some s' → I s') : I s' := by
  induction h with
  | nil => exact h₀
  | snoc _ hG hn ih => exact step _ _ _ ih hG hn

/-- A run within a guard is one within any other that follows from it wherever such runs get to. -/
theorem imp {I : S → Prop} (h : M.Run G s ls s') (h₀ : I s)
    (step : ∀ s l s', I s → G s l → M.next s l = some s' → I s')
    (imp : ∀ s l s', I s → M.next s l = some s' → G s l → G' s l) : M.Run G' s ls s' := by
  suffices M.Run G' s ls s' ∧ I s' from this.1
  induction h with
  | nil => exact ⟨.nil, h₀⟩
  | snoc _ hG hn ih =>
    obtain ⟨hr, hI⟩ := ih
    exact ⟨.snoc hr (imp _ _ _ hI hn hG) hn, step _ _ _ hI hG hn⟩

theorem congr {I : S → Prop} (h₀ : I s)
    (step : ∀ s l s', I s → G s l → M.next s l = some s' → I s')
    (iff : ∀ s l s', I s → M.next s l = some s' → (G s l ↔ G' s l)) :
    M.Run G s ls s' ↔ M.Run G' s ls s' := by
  constructor
  · intro h
    exact h.imp h₀ step fun _ _ _ hI hn => (iff _ _ _ hI hn).1
  · intro h
    exact h.imp h₀ (fun _ _ _ hI hG' hn => step _ _ _ hI ((iff _ _ _ hI hn).2 hG') hn)
      fun _ _ _ hI hn => (iff _ _ _ hI hn).2

end Run

namespace Reach

theorem refl (s : S) : M.Reach G s s := ⟨[], .nil⟩

theorem trans (h : M.Reach G s s') (h' : M.Reach G s' s'') : M.Reach G s s'' := by
  obtain ⟨ls, h⟩ := h
  obtain ⟨ls', h'⟩ := h'
  exact ⟨ls ++ ls', h.append h'⟩

theorem invariant {I : S → Prop} (h : M.Reach G s s') (h₀ : I s)
    (step : ∀ s l s', I s → G s l → M.next s l = some s' → I s') : I s' := by
  obtain ⟨ls, h⟩ := h
  exact h.invariant h₀ step

end Reach

/-- Run a list of actions, stopping at the first one that cannot happen or that the guard
forbids. -/
def exec (M : Machine S L) (G : S → L → Prop) [∀ s l, Decidable (G s l)] : S → List L → Option S
  | s, [] => some s
  | s, l :: ls => if G s l then (M.next s l).bind fun s' => exec M G s' ls else none

instance [∀ s l, Decidable (G s l)] [∀ s l, Decidable (G' s l)] (s : S) (l : L) :
    Decidable (both G G' s l) := inferInstanceAs (Decidable (_ ∧ _))

theorem run_of_exec [∀ s l, Decidable (G s l)] (h : M.exec G s ls = some s') :
    M.Run G s ls s' := by
  induction ls generalizing s with
  | nil => cases h; exact .nil
  | cons l ls ih =>
    simp only [exec] at h
    split_ifs at h with hG
    obtain ⟨s₁, hn, h⟩ := Option.bind_eq_some_iff.1 h
    have h₁ : M.Run G s ([] ++ [l]) s₁ := .snoc .nil hG hn
    exact h₁.append (ih h)

theorem exists_reach_of_exec [∀ s l, Decidable (G s l)] {P : S → Prop} [DecidablePred P]
    (h : (M.exec G s ls).any (fun s => decide (P s)) = true) : ∃ s', M.Reach G s s' ∧ P s' := by
  cases hs : M.exec G s ls with
  | none => simp [hs] at h
  | some s' =>
    rw [hs, Option.any_some, decide_eq_true_eq] at h
    exact ⟨s', ⟨ls, run_of_exec hs⟩, h⟩

end Machine

end MiniRaft
