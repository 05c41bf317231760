import Mathlib.Data.List.Infix
import Mathlib.Logic.Basic

/-!
# Replaying one sequence

Members that have each taken up a list of commands, and agree at every position that two of them
have reached, have taken up prefixes of one sequence.  A store that each command changes at some
keys only holds at a key what the last command for it has left.

* `Consensus.exists_common` : the common sequence.
* `Consensus.lastWrite` : the last write for a key; `Consensus.lookup_foldl` : what a replayed store
  holds.
-/

namespace MiniRaft.Consensus

/-! ### One sequence for all -/

section

variable {ι α : Type*}

/-- Of two lists that agree wherever both have come to, the shorter is a prefix of the longer. -/
theorem isPrefix_of_agree {l l' : List α} (hle : l.length ≤ l'.length)
    (h : ∀ (k : ℕ) x y, l[k]? = some x → l'[k]? = some y → x = y) : l <+: l' := by
  rw [List.prefix_iff_eq_take]
  refine List.ext_getElem? fun k => ?_
  rw [List.getElem?_take]
  split_ifs with hk
  · have hget : l[k]? = some l[k] := List.getElem?_eq_getElem hk
    have hget' : l'[k]? = some l'[k] := List.getElem?_eq_getElem (by omega)
    rw [hget, hget', h k _ _ hget hget']
  · exact List.getElem?_eq_none (Nat.not_lt.1 hk)

/-- **One sequence.**  Members that agree wherever two of them have come to have all taken prefixes
of what one of them has, if there are any. -/
theorem exists_common (taken : ι → List α) (members : List ι)
    (h : ∀ i ∈ members, ∀ j ∈ members, ∀ (k : ℕ) x y, (taken i)[k]? = some x →
      (taken j)[k]? = some y → x = y) :
    ∃ all, (∀ i ∈ members, taken i <+: all) ∧ (all = [] ∨ ∃ i ∈ members, all = taken i) := by
  induction members with
  | nil => exact ⟨[], by simp, .inl rfl⟩
  | cons i members ih =>
    obtain ⟨all, hall, hfrom⟩ := ih fun j hj j' hj' =>
      h j (List.mem_cons_of_mem _ hj) j' (List.mem_cons_of_mem _ hj')
    -- what the others have taken agrees with what `i` has
    have hagree : ∀ (k : ℕ) x y, (taken i)[k]? = some x → all[k]? = some y → x = y := by
      intro k x y hx hy
      rcases hfrom with rfl | ⟨j, hj, rfl⟩
      · cases hy
      · exact h i List.mem_cons_self j (List.mem_cons_of_mem _ hj) k x y hx hy
    rcases Nat.le_total (taken i).length all.length with hle | hle
    · refine ⟨all, fun j hj => ?_, hfrom.imp_right ?_⟩
      · rcases List.mem_cons.1 hj with rfl | hj
        · exact isPrefix_of_agree hle hagree
        · exact hall j hj
      · rintro ⟨j, hj, heq⟩
        exact ⟨j, List.mem_cons_of_mem _ hj, heq⟩
    · have hpre : all <+: taken i :=
        isPrefix_of_agree hle fun k x y hx hy => (hagree k y x hy hx).symm
      refine ⟨taken i, fun j hj => ?_, .inr ⟨i, List.mem_cons_self, rfl⟩⟩
      rcases List.mem_cons.1 hj with rfl | hj
      · exact List.prefix_refl _
      · exact (hall j hj).trans hpre

end

/-! ### The last write -/

section

variable {S A K V : Type*} {step : S → A → S} {lookup : S → K → V} {write : A → K → Option V}

/-- What the last of the commands that write the key leaves there. -/
def lastWrite (write : A → K → Option V) (commands : List A) (key : K) : Option V :=
  commands.reverse.findSome? fun command => write command key

theorem lastWrite_concat (commands : List A) (command : A) (key : K) :
    lastWrite write (commands ++ [command]) key =
      (write command key).or (lastWrite write commands key) := by
  unfold lastWrite
  rw [List.reverse_concat, List.findSome?_cons]
  cases write command key with
  | none => rfl
  | some value => rfl

/-- **The last writer wins.** -/
theorem lookup_foldl
    (hstep : ∀ s command key, lookup (step s command) key = (write command key).getD (lookup s key))
    (s : S) (commands : List A) (key : K) : lookup (commands.foldl step s) key =
      (lastWrite write commands key).getD (lookup s key) := by
  induction commands using List.reverseRecOn with
  | nil => rfl
  | append_singleton commands command ih =>
    rw [List.foldl_concat, hstep, ih, lastWrite_concat]
    cases write command key with
    | none => rfl
    | some value => rfl

end

end MiniRaft.Consensus
