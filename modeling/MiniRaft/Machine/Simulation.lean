import MiniRaft.Machine.Basic
import Mathlib.Data.List.Induction

/-!
# Simulations

A machine is simulated by another where every step of it is matched by a run of the other, so that a
relation holds on.  The relation is between states together with the actions that have led to them:
it may say which actions are matched by which, and account for them.  What the other machine never
does, the first never does, either.

* `Machine.Run.simulate` : simulation.
* `Machine.Beside` : a run of each, with how every step of the one is matched.
-/

namespace MiniRaft

namespace Machine

variable {S T L L' : Type*} {M : Machine S L} {M' : Machine T L'} {G : S → L → Prop}
  {G' : T → L' → Prop}

theorem Run.of_nil {s s' : S} (h : M.Run G s [] s') : s' = s := by
  generalize hls : [] = ls at h
  cases h with
  | nil => rfl
  | snoc => exact absurd hls.symm (List.append_ne_nil_of_right_ne_nil _ (List.cons_ne_nil _ _))

theorem Run.of_concat {s s' : S} {ls : List L} {l : L} (h : M.Run G s (ls ++ [l]) s') :
    ∃ s₁, M.Run G s ls s₁ ∧ G s₁ l ∧ M.next s₁ l = some s' := by
  generalize hls : ls ++ [l] = ls' at h
  cases h with
  | nil => exact absurd hls (List.append_ne_nil_of_right_ne_nil _ (List.cons_ne_nil _ _))
  | snoc hr hG hn =>
    obtain ⟨rfl, hlast⟩ := List.append_inj' hls rfl
    cases hlast
    exact ⟨_, hr, hG, hn⟩

theorem Run.of_singleton {s s' : S} {l : L} (h : M.Run G s [l] s') :
    G s l ∧ M.next s l = some s' := by
  obtain ⟨s₁, hr, hG, hn⟩ := Run.of_concat (show M.Run G s ([] ++ [l]) s' from h)
  cases hr.of_nil
  exact ⟨hG, hn⟩

theorem Run.eq_of_run {s s' s'' : S} {ls : List L} {G₁ : S → L → Prop} (h : M.Run G s ls s')
    (h' : M.Run G₁ s ls s'') : s'' = s' := by
  induction h generalizing s'' with
  | nil => exact h'.of_nil
  | snoc _ _ hn ih =>
    obtain ⟨s₁, hr, -, hn'⟩ := h'.of_concat
    rw [ih hr, hn, Option.some.injEq] at hn'
    exact hn'.symm

theorem Run.of_append {s s' : S} {ls ls' : List L} (h : M.Run G s (ls ++ ls') s') :
    ∃ s₁, M.Run G s ls s₁ ∧ M.Run G s₁ ls' s' := by
  induction ls' using List.reverseRecOn generalizing s' with
  | nil =>
    rw [List.append_nil] at h
    exact ⟨s', h, .nil⟩
  | append_singleton ls' l ih =>
    rw [← List.append_assoc] at h
    obtain ⟨s₂, hr, hG, hn⟩ := h.of_concat
    obtain ⟨s₁, hr₁, hr₂⟩ := ih hr
    exact ⟨s₁, hr₁, .snoc hr₂ hG hn⟩

/-- **Simulation.** -/
theorem Run.simulate (rel : List L → S → List L' → T → Prop) {s s' : S} {t : T} {ls : List L}
    (h : M.Run G s ls s') (h₀ : rel [] s [] t)
    (step : ∀ ls s₁ l s₂ ls' t₁, rel ls s₁ ls' t₁ → M'.Run G' t ls' t₁ → G s₁ l →
      M.next s₁ l = some s₂ →
        ∃ more t₂, M'.Run G' t₁ more t₂ ∧ rel (ls ++ [l]) s₂ (ls' ++ more) t₂) :
    ∃ ls' t', M'.Run G' t ls' t' ∧ rel ls s' ls' t' := by
  induction h with
  | nil => exact ⟨[], t, .nil, h₀⟩
  | @snoc s₁ s₂ ls l _ hG hn ih =>
    obtain ⟨ls', t₁, hrun, hrel⟩ := ih
    obtain ⟨more, t₂, hrun', hrel'⟩ := step _ _ _ _ _ _ hrel hrun hG hn
    exact ⟨ls' ++ more, t₂, hrun.append hrun', hrel'⟩

/-- A run of `M` beside one of `M'`: every step of `M` is matched by a run of `M'`, with actions
that `via` allows for it, and `rel` holds after every step. -/
inductive Beside (M : Machine S L) (M' : Machine T L') (G' : T → L' → Prop)
    (via : S → T → L → List L' → Prop) (rel : S → T → Prop) (s : S) (t : T) :
    List L → S → List L' → T → Prop
  | nil : Beside M M' G' via rel s t [] s [] t
  | snoc {ls : List L} {s₁ s₂ : S} {l : L} {ls' more : List L'} {t₁ t₂ : T} :
      Beside M M' G' via rel s t ls s₁ ls' t₁ → M.next s₁ l = some s₂ → via s₁ t₁ l more →
      M'.Run G' t₁ more t₂ → rel s₂ t₂ → Beside M M' G' via rel s t (ls ++ [l]) s₂ (ls' ++ more) t₂

end Machine

end MiniRaft
