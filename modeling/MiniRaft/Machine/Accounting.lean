import MiniRaft.Machine.Basic
import Mathlib.Algebra.Group.Nat.Defs

/-!
# Accounting for a run

What a run has come to is accounted for by the actions it is made of.

* `Machine.Run.within` : **budgets**: an invariant that each action of one kind raises by one holds
  with the number of these actions, and a guard that follows from it as long as that number stays
  within a bound may be assumed of the whole run.
* `Machine.Occurs`, `Machine.Run.occurs` : **provenance**: every step of a run may be assumed to
  occur in that run.
* `Machine.emitted`, `Machine.Run.invariant_emitted` : **traces**: what relates a state to what the
  steps before it have emitted.
-/

namespace MiniRaft

namespace Machine

variable {S L : Type*} {M : Machine S L} {G G' : S → L → Prop} {s s' s'' : S} {l : L}
  {ls : List L}

/-- Somewhere on the run `ls` from `s`, the action `l` is taken in the state `s'`. -/
def Occurs (M : Machine S L) (G : S → L → Prop) (s : S) (ls : List L) (s' : S) (l : L) : Prop :=
  ∃ before after, ls = before ++ l :: after ∧ M.Run G s before s'

theorem Occurs.append (h : M.Occurs G s ls s' l) (more : List L) :
    M.Occurs G s (ls ++ more) s' l := by
  obtain ⟨before, after, rfl, h⟩ := h
  exact ⟨before, after ++ more, by rw [List.append_assoc, List.cons_append], h⟩

namespace Run

theorem mono (h : M.Run G s ls s') (hG : ∀ s l, G s l → G' s l) : M.Run G' s ls s' := by
  induction h with
  | nil => exact .nil
  | snoc _ hg hn ih => exact .snoc ih (hG _ _ hg) hn

/-- **Provenance.**  A run is one whose every step occurs in it. -/
theorem occurs (h : M.Run G s ls s') : M.Run (both G (M.Occurs G s ls)) s ls s' := by
  induction h with
  | nil => exact .nil
  | @snoc s₁ _ ls l hrun hg hn ih =>
    refine .snoc (ih.mono fun _ _ hboth => ⟨hboth.1, hboth.2.append [l]⟩) ?_ hn
    exact ⟨hg, ls, [], rfl, hrun⟩

/-- **Budgets.**  Within the bound each step keeps the invariant, at one more for an action that
`p` selects, and is within the guard `G'`. -/
theorem within {I : ℕ → S → Prop} {p : L → Bool} {bound : ℕ} (h : M.Run G s ls s')
    (hle : ls.countP p ≤ bound) (h₀ : I 0 s)
    (step : ∀ n s l s', n + (p l).toNat ≤ bound → I n s → G s l → M.next s l = some s' →
      G' s l ∧ I (n + (p l).toNat) s') :
    M.Run G' s ls s' ∧ I (ls.countP p) s' := by
  induction h with
  | nil => exact ⟨.nil, h₀⟩
  | @snoc _ _ ls l _ hg hn ih =>
    have hcount : (ls ++ [l]).countP p = ls.countP p + (p l).toNat := by
      rw [List.countP_append, List.countP_singleton]
      cases p l <;> rfl
    rw [hcount] at hle ⊢
    obtain ⟨hrun, hI⟩ := ih (by omega)
    obtain ⟨hg', hI'⟩ := step _ _ _ _ hle hI hg hn
    exact ⟨.snoc hrun hg' hn, hI'⟩

end Run

/-! ### Traces -/

variable {α β : Type*} {f : S → L → List α} {g : S → L → List β}

/-- What the steps of a run emit, one after the other. -/
def emitted (M : Machine S L) (f : S → L → List α) : S → List L → List α
  | _, [] => []
  | s, l :: ls => f s l ++ (M.next s l).elim [] fun s' => emitted M f s' ls

theorem Run.emitted_append (h : M.Run G s ls s') (ls' : List L) :
    M.emitted f s (ls ++ ls') = M.emitted f s ls ++ M.emitted f s' ls' := by
  induction h generalizing ls' with
  | nil => rfl
  | @snoc s₁ s₂ ls l _ _ hn ih =>
    have hstep : ∀ rest, M.emitted f s₁ (l :: rest) = f s₁ l ++ M.emitted f s₂ rest := by
      intro rest
      rw [emitted, hn, Option.elim_some]
    rw [List.append_assoc, ih, ih [l], List.singleton_append, hstep, hstep, emitted,
      List.append_nil, List.append_assoc]

theorem Run.emitted_snoc (h : M.Run G s ls s') (hn : M.next s' l = some s'') :
    M.emitted f s (ls ++ [l]) = M.emitted f s ls ++ f s' l := by
  rw [h.emitted_append, emitted, hn, Option.elim_some, emitted, List.append_nil]

theorem emitted_singleton (hn : M.next s l = some s') : M.emitted f s [l] = f s l := by
  rw [emitted, hn, Option.elim_some, emitted, List.append_nil]

theorem exists_run_of_exec [∀ s l, Decidable (G s l)] {P : S → Prop} [DecidablePred P]
    (h : (M.exec G s ls).any (fun s => decide (P s)) = true) : ∃ s', M.Run G s ls s' ∧ P s' := by
  cases hs : M.exec G s ls with
  | none => simp [hs] at h
  | some s' =>
    rw [hs, Option.any_some, decide_eq_true_eq] at h
    exact ⟨s', run_of_exec hs, h⟩

end Machine

end MiniRaft
