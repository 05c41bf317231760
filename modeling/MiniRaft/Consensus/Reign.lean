import MiniRaft.Consensus.Graft
import Mathlib.Logic.Function.Basic
import Mathlib.Data.List.Infix

/-!
# Reigns

The *reign* of a term is the log of its leader: the `base` the leader started with and the log it
has made of it by appending entries of its own term.  A log is *rooted* in the reigns if every
entry stands where the leader of its term put it, on top of everything that leader had below it.

* `Rooted.matching` : **log matching**: two rooted logs with entries of one term at one position
  agree up to there.
* `Rooted.grafted` : grafting a piece of one rooted log onto another gives one of the two, as soon
  as they agree just before the piece.
* `Lawful.elect`, `Lawful.push` : the two ways in which reigns grow.
-/

namespace MiniRaft.Consensus

variable {β : Type*}

/-- The log of a leader. -/
structure Reign (β : Type*) where
  /-- What the leader started with. -/
  base : List β
  log : List β

/-- The reign of each term that had a leader. -/
abbrev Reigns (β : Type*) := ℕ → Option (Reign β)

/-- `R'` knows of all the reigns in `R`, as long as they were, or longer. -/
def Grows (R R' : Reigns β) : Prop :=
  ∀ T r, R T = some r → ∃ r', R' T = some r' ∧ r'.base = r.base ∧ r.log <+: r'.log

variable (f : β → ℕ)

/-- Every entry stands where the leader of its term put it, on top of what that leader had. -/
def Rooted (R : Reigns β) (l : List β) : Prop :=
  ∀ (j : ℕ) (x : β), l[j]? = some x →
    ∃ r, R (f x) = some r ∧ r.base.length ≤ j ∧ l.take (j + 1) <+: r.log

/-- A leader starts with entries of lower terms and appends entries of its own. -/
structure Lawful (R : Reigns β) : Prop where
  prefix_log : ∀ {T r}, R T = some r → r.base <+: r.log
  below : ∀ {T r}, R T = some r → ∀ x ∈ r.base, f x < T
  own : ∀ {T r}, R T = some r → ∀ (j : ℕ) (x : β), r.log[j]? = some x → r.base.length ≤ j → f x = T
  rooted : ∀ {T r}, R T = some r → Rooted f R r.base

variable {f} {R R' : Reigns β} {l l' : List β} {r : Reign β} {T : ℕ}

theorem Grows.refl (R : Reigns β) : Grows R R := fun _ r h => ⟨r, h, rfl, List.prefix_refl _⟩

theorem getElem?_of_isPrefix (h : l <+: l') {j : ℕ} {x : β} (hx : l[j]? = some x) :
    l'[j]? = some x := by
  have hj := (List.getElem?_eq_some_iff.1 hx).1
  rw [← hx, List.getElem?_eq_getElem hj]
  exact List.prefix_iff_getElem?.1 h j hj

theorem take_eq_take_of_isPrefix {n : ℕ} {m : List β} (h : l.take n <+: m) (h' : l'.take n <+: m)
    (hl : n ≤ l.length) (hl' : n ≤ l'.length) : l.take n = l'.take n := by
  rw [List.prefix_iff_eq_take.1 h, List.prefix_iff_eq_take.1 h', List.length_take,
    List.length_take, Nat.min_eq_left hl, Nat.min_eq_left hl']

theorem prefix_of_take_eq {n : ℕ} (h : l.take n = l'.take n) (hn : l.length ≤ n) : l <+: l' := by
  rw [List.take_of_length_le hn] at h
  rw [h]
  exact List.take_prefix n l'

namespace Rooted

theorem nil : Rooted f R [] := by
  intro j x hx
  simp at hx

theorem mono (h : Rooted f R l) (hR : Grows R R') : Rooted f R' l := by
  intro j x hx
  obtain ⟨r, hr, hle, hpre⟩ := h j x hx
  obtain ⟨r', hr', hbase, hlog⟩ := hR _ r hr
  exact ⟨r', hr', by rwa [hbase], hpre.trans hlog⟩

theorem of_isPrefix (h : Rooted f R l') (hl : l <+: l') : Rooted f R l := by
  intro j x hx
  obtain ⟨r, hr, hle, hpre⟩ := h j x (getElem?_of_isPrefix hl hx)
  exact ⟨r, hr, hle, (hl.take (j + 1)).trans hpre⟩

/-- **Log matching.** -/
theorem matching (h : Rooted f R l) (h' : Rooted f R l') {j : ℕ} {x y : β} (hx : l[j]? = some x)
    (hy : l'[j]? = some y) (hxy : f x = f y) : l.take (j + 1) = l'.take (j + 1) := by
  obtain ⟨r, hr, -, hpre⟩ := h j x hx
  obtain ⟨r', hr', -, hpre'⟩ := h' j y hy
  rw [← hxy, hr, Option.some.injEq] at hr'
  subst hr'
  exact take_eq_take_of_isPrefix hpre hpre' (List.getElem?_eq_some_iff.1 hx).1
    (List.getElem?_eq_some_iff.1 hy).1

theorem matching_map (h : Rooted f R l) (h' : Rooted f R l') {j : ℕ} (hj : j < l'.length)
    (heq : (l[j]?).map f = (l'[j]?).map f) : l.take (j + 1) = l'.take (j + 1) := by
  rw [List.getElem?_eq_getElem hj, Option.map_some, Option.map_eq_some_iff] at heq
  obtain ⟨x, hx, hxy⟩ := heq
  exact h.matching h' hx (List.getElem?_eq_getElem hj) hxy

/-- **Grafting.**  The piece of `l'` from `a` on is grafted onto `l`, and the two agree just before
`a`: the result is `l`, with all of `l'` in it if the piece is not empty, or `l'`. -/
theorem grafted {zs : List β} {a : ℕ} (h : Rooted f R l) (h' : Rooted f R l')
    (hgraft : Grafted f l l' a zs)
    (hjoin : 0 < a → ∀ x ∈ l[a - 1]?, ∀ y ∈ l'[a - 1]?, f x = f y) :
    zs = l ∧ (a < l'.length → l' <+: l) ∨ zs = l' ∧ ¬ l' <+: l := by
  cases hgraft with
  | all hsame =>
    refine .inl ⟨rfl, fun ha => ?_⟩
    have hlast := h.matching_map h' (j := l'.length - 1) (by omega) (hsame _ (by omega) (by omega))
    exact prefix_of_take_eq hlast.symm (by omega)
  | @cut j haj hj hle hsame hdiffers =>
    have hget : l'[j]? = some l'[j] := List.getElem?_eq_getElem hj
    refine .inr ⟨?_, fun hpre => hdiffers _ _ (getElem?_of_isPrefix hpre hget) hget rfl⟩
    have htake : l.take j = l'.take j := by
      rcases Nat.eq_zero_or_pos j with rfl | hpos
      · rfl
      · have hkey : (l[j - 1]?).map f = (l'[j - 1]?).map f := by
          rcases Nat.lt_or_eq_of_le haj with hlt | rfl
          · exact hsame (j - 1) (by omega) (by omega)
          · have hx : l[a - 1]? = some l[a - 1] := List.getElem?_eq_getElem (by omega)
            have hy : l'[a - 1]? = some l'[a - 1] := List.getElem?_eq_getElem (by omega)
            rw [hx, hy, Option.map_some, Option.map_some, hjoin hpos _ hx _ hy]
        have := h.matching_map h' (by omega) hkey
        rwa [Nat.sub_add_cancel hpos] at this
    rw [htake, List.take_append_drop]

end Rooted

namespace Lawful

theorem getElem?_base (h : Lawful f R) (hr : R T = some r) {j : ℕ} {x : β}
    (hx : r.log[j]? = some x) (hj : j < r.base.length) : r.base[j]? = some x := by
  have hget : r.base[j]? = some r.base[j] := List.getElem?_eq_getElem hj
  rw [hget, ← hx, getElem?_of_isPrefix (h.prefix_log hr) hget]

theorem rooted_log (h : Lawful f R) (hr : R T = some r) : Rooted f R r.log := by
  intro j x hx
  rcases Nat.lt_or_ge j r.base.length with hlt | hge
  · obtain ⟨r', hr', hle, hpre⟩ := h.rooted hr j x (h.getElem?_base hr hx hlt)
    refine ⟨r', hr', hle, ?_⟩
    obtain ⟨m, hm⟩ := h.prefix_log hr
    rwa [← hm, List.take_append_of_le_length (by omega)]
  · rw [h.own hr j x hx hge]
    exact ⟨r, hr, hge, List.take_prefix _ _⟩

theorem le_of_mem (h : Lawful f R) (hr : R T = some r) {x : β} (hx : x ∈ r.log) : f x ≤ T := by
  obtain ⟨j, hj⟩ := List.mem_iff_getElem?.1 hx
  rcases Nat.lt_or_ge j r.base.length with hlt | hge
  · exact Nat.le_of_lt (h.below hr x (List.mem_of_getElem? (h.getElem?_base hr hj hlt)))
  · exact Nat.le_of_eq (h.own hr j x hj hge)

theorem empty : Lawful f (fun _ => none : Reigns β) where
  prefix_log h := by cases h
  below h := by cases h
  own h := by cases h
  rooted h := by cases h

theorem grows_elect (hT : R T = none) (l : List β) :
    Grows R (Function.update R T (some ⟨l, l⟩)) := by
  intro T' r hr
  have hne : T' ≠ T := by
    rintro rfl
    rw [hT] at hr
    cases hr
  exact ⟨r, by rw [Function.update_of_ne hne]; exact hr, rfl, List.prefix_refl _⟩

theorem grows_push (hr : R T = some r) (x : β) :
    Grows R (Function.update R T (some ⟨r.base, r.log ++ [x]⟩)) := by
  intro T' r' hr'
  by_cases hT' : T' = T
  · subst hT'
    rw [hr, Option.some.injEq] at hr'
    subst hr'
    exact ⟨_, Function.update_self .., rfl, List.prefix_append _ _⟩
  · exact ⟨r', by rw [Function.update_of_ne hT']; exact hr', rfl, List.prefix_refl _⟩

theorem update_cases {r₀ r : Reign β} {T' : ℕ} (h : Function.update R T (some r₀) T' = some r) :
    T' = T ∧ r = r₀ ∨ R T' = some r := by
  by_cases hT : T' = T
  · subst hT
    rw [Function.update_self, Option.some.injEq] at h
    exact .inl ⟨rfl, h.symm⟩
  · rw [Function.update_of_ne hT] at h
    exact .inr h

/-- **A leader takes office.** -/
theorem elect (h : Lawful f R) (hT : R T = none) (hl : Rooted f R l) (hlt : ∀ x ∈ l, f x < T) :
    Lawful f (Function.update R T (some ⟨l, l⟩)) := by
  have hgrow := grows_elect hT l
  refine ⟨fun hr => ?_, fun hr x hx => ?_, fun hr j x hx hj => ?_, fun hr => ?_⟩
  · rcases update_cases hr with ⟨rfl, rfl⟩ | hr
    · exact List.prefix_refl _
    · exact h.prefix_log hr
  · rcases update_cases hr with ⟨rfl, rfl⟩ | hr
    · exact hlt x hx
    · exact h.below hr x hx
  · rcases update_cases hr with ⟨rfl, rfl⟩ | hr
    · exact absurd (List.getElem?_eq_some_iff.1 hx).1 (Nat.not_lt.2 hj)
    · exact h.own hr j x hx hj
  · rcases update_cases hr with ⟨rfl, rfl⟩ | hr
    · exact hl.mono hgrow
    · exact (h.rooted hr).mono hgrow

/-- **A leader appends an entry.** -/
theorem push (h : Lawful f R) (hr : R T = some r) {x : β} (hx : f x = T) :
    Lawful f (Function.update R T (some ⟨r.base, r.log ++ [x]⟩)) := by
  have hgrow := grows_push hr x
  refine ⟨fun hr' => ?_, fun hr' y hy => ?_, fun hr' j y hy hj => ?_, fun hr' => ?_⟩
  · rcases update_cases hr' with ⟨rfl, rfl⟩ | hr'
    · exact (h.prefix_log hr).trans (List.prefix_append _ _)
    · exact h.prefix_log hr'
  · rcases update_cases hr' with ⟨rfl, rfl⟩ | hr'
    · exact h.below hr y hy
    · exact h.below hr' y hy
  · rcases update_cases hr' with ⟨rfl, rfl⟩ | hr'
    · rcases Nat.lt_or_ge j r.log.length with hlt | hge
      · rw [List.getElem?_append_left hlt] at hy
        exact h.own hr j y hy hj
      · rw [List.getElem?_append_right hge] at hy
        rw [← List.mem_singleton.1 (List.mem_of_getElem? hy)] at hx
        exact hx
    · exact h.own hr' j y hy hj
  · rcases update_cases hr' with ⟨rfl, rfl⟩ | hr'
    · exact (h.rooted hr).mono hgrow
    · exact (h.rooted hr').mono hgrow

end Lawful

end MiniRaft.Consensus
