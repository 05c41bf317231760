import MiniRaft.Consensus.Quorum
import MiniRaft.Consensus.Reign

/-!
# Leader completeness

A member *acknowledges* the position `k` of the term `t` when it holds the log of that term's leader
up to `k`.  It may lose this only to a later leader that lacks it, and every leader starts with the
votes of a quorum whose logs were no more up-to-date than its own.  Then what a quorum has
acknowledged is in the log that every later leader starts with: `holds_of_chosen`.

The acknowledgements of a member are a relation `A : ℕ → ℕ → Prop` between terms and positions.
-/

namespace MiniRaft.Consensus

variable {β : Type*} (f : β → ℕ)

/-- The key of the last element, `0` for an empty list. -/
def lastKey (l : List β) : ℕ := (l.getLast?.map f).getD 0

/-- `l'` is at least as up-to-date as `l`. -/
def UpToDate (l' l : List β) : Prop :=
  lastKey f l < lastKey f l' ∨ lastKey f l = lastKey f l' ∧ l.length ≤ l'.length

/-- `l` holds what the leader of the term `t` has up to the position `k`. -/
def Holds (R : Reigns β) (t k : ℕ) (l : List β) : Prop :=
  ∃ r, R t = some r ∧ k < r.log.length ∧ r.log.take (k + 1) <+: l

/-- `l` does not hold what the leader of the term `t` has up to the position `k`. -/
def Lacks (R : Reigns β) (t k : ℕ) (l : List β) : Prop :=
  ∃ r, R t = some r ∧ k < r.log.length ∧ ¬ r.log.take (k + 1) <+: l

/-- Of the acknowledgements `A` in terms below `T`, the log `l` has kept all but those that a leader
of a term in between did not have. -/
def Kept (R : Reigns β) (A : ℕ → ℕ → Prop) (T : ℕ) (l : List β) : Prop :=
  ∀ t k, t < T → A t k → Holds R t k l ∨
    ∃ t' r', t < t' ∧ t' < T ∧ R t' = some r' ∧ Lacks R t k r'.base

variable {f} {R R' : Reigns β} {l l' : List β} {r : Reign β} {t k T : ℕ} {A A' : ℕ → ℕ → Prop}

theorem lastKey_eq {x : β} (hx : l[l.length - 1]? = some x) : lastKey f l = f x := by
  rw [lastKey, List.getLast?_eq_getElem?, hx]
  rfl

theorem lastKey_pos (hne : l ≠ []) (hpos : ∀ x ∈ l, 0 < f x) : 0 < lastKey f l := by
  rw [lastKey, List.getLast?_eq_some_getLast hne]
  exact hpos _ (List.getLast_mem hne)

namespace Holds

theorem mono_log (h : Holds R t k l) (hl : l <+: l') : Holds R t k l' := by
  obtain ⟨r, hr, hk, hpre⟩ := h
  exact ⟨r, hr, hk, hpre.trans hl⟩

theorem mono (h : Holds R t k l) (hR : Grows R R') : Holds R' t k l := by
  obtain ⟨r, hr, hk, hpre⟩ := h
  obtain ⟨r', hr', -, hlog⟩ := hR t r hr
  obtain ⟨m, hm⟩ := hlog
  refine ⟨r', hr', ?_, ?_⟩
  · rw [← hm, List.length_append]
    exact Nat.lt_add_right _ hk
  · rwa [← hm, List.take_append_of_le_length hk]

theorem lt_length (h : Holds R t k l) : k < l.length := by
  obtain ⟨r, -, hk, hpre⟩ := h
  have := hpre.length_le
  rw [List.length_take, Nat.min_eq_left hk] at this
  exact this

theorem of_isPrefix (hr : R t = some r) (hl : l <+: r.log) (hk : k < l.length) : Holds R t k l := by
  refine ⟨r, hr, Nat.lt_of_lt_of_le hk hl.length_le, ?_⟩
  obtain ⟨m, hm⟩ := hl
  rw [← hm, List.take_append_of_le_length hk]
  exact List.take_prefix _ _

theorem of_le {k' : ℕ} (h : Holds R t k l) (hk : k' ≤ k) : Holds R t k' l := by
  obtain ⟨r, hr, hlt, hpre⟩ := h
  exact ⟨r, hr, by omega, (List.take_prefix_take_left (by omega)).trans hpre⟩

theorem of_take_eq (h : Holds R t k l) (htake : l.take (k + 1) = l'.take (k + 1)) :
    Holds R t k l' := by
  obtain ⟨r, hr, hk, hpre⟩ := h
  refine ⟨r, hr, hk, ?_⟩
  rw [List.prefix_iff_eq_take.1 hpre, List.length_take, Nat.min_eq_left hk, htake]
  exact List.take_prefix _ _

/-- Of two parts of what the leader of the term `T` has, the longer one holds as much. -/
theorem adopt (h : Holds R T k l) (hr : R T = some r) (hlog : l' <+: r.log) (hnot : ¬ l' <+: l) :
    Holds R T k l' := by
  obtain ⟨r₀, hr₀, hk, hpre⟩ := h
  rw [hr, Option.some.injEq] at hr₀
  subst hr₀
  have hlen : (r.log.take (k + 1)).length = k + 1 := by
    rw [List.length_take]
    omega
  refine ⟨r, hr, hk, ?_⟩
  rcases Nat.lt_or_ge k l'.length with hlt | hge
  · exact List.prefix_of_prefix_length_le (List.take_prefix _ _) hlog (by omega)
  · exact absurd ((List.prefix_of_prefix_length_le hlog (List.take_prefix (k + 1) _)
      (by omega)).trans hpre) hnot

theorem getElem?_eq (h : Holds R t k l) (h' : Holds R t k l') {j : ℕ} (hj : j ≤ k) :
    l[j]? = l'[j]? := by
  obtain ⟨r, hr, hk, hpre⟩ := h
  obtain ⟨r', hr', -, hpre'⟩ := h'
  rw [hr, Option.some.injEq] at hr'
  subst hr'
  have hget : (r.log.take (k + 1))[j]? = some r.log[j] := by
    rw [List.getElem?_take_of_lt (by omega)]
    exact List.getElem?_eq_getElem (by omega)
  rw [getElem?_of_isPrefix hpre hget, getElem?_of_isPrefix hpre' hget]

end Holds

theorem Lacks.mono (h : Lacks R t k l) (hR : Grows R R') : Lacks R' t k l := by
  obtain ⟨r, hr, hk, hpre⟩ := h
  obtain ⟨r', hr', -, hlog⟩ := hR t r hr
  obtain ⟨m, hm⟩ := hlog
  refine ⟨r', hr', ?_, ?_⟩
  · rw [← hm, List.length_append]
    exact Nat.lt_add_right _ hk
  · rwa [← hm, List.take_append_of_le_length hk]

theorem Lacks.not_holds (h : Lacks R t k l) : ¬ Holds R t k l := by
  obtain ⟨r, hr, -, hpre⟩ := h
  rintro ⟨r', hr', -, hpre'⟩
  rw [hr, Option.some.injEq] at hr'
  subst hr'
  exact hpre hpre'

theorem holds_or_lacks (hr : R t = some r) (hk : k < r.log.length) (l : List β) :
    Holds R t k l ∨ Lacks R t k l := by
  by_cases hpre : r.log.take (k + 1) <+: l
  · exact .inl ⟨r, hr, hk, hpre⟩
  · exact .inr ⟨r, hr, hk, hpre⟩

namespace Kept

theorem mono (h : Kept R A T l) (hR : Grows R R') (hA : ∀ t k, t < T → A' t k → A t k) :
    Kept R' A' T l := by
  intro t k ht hack
  rcases h t k ht (hA t k ht hack) with hh | ⟨t', r', htt', ht', hr', hlack⟩
  · exact .inl (hh.mono hR)
  · obtain ⟨r'', hr'', hbase, -⟩ := hR t' r' hr'
    exact .inr ⟨t', r'', htt', ht', hr'', by rw [hbase]; exact hlack.mono hR⟩

theorem mono_log (h : Kept R A T l) (hl : l <+: l') : Kept R A T l' := by
  intro t k ht hack
  rcases h t k ht hack with hh | hlost
  · exact .inl (hh.mono_log hl)
  · exact .inr hlost

/-- As long as nothing is acknowledged in the terms from `T` on, a higher term makes no
difference. -/
theorem raise {T' : ℕ} (h : Kept R A T l) (hT : T ≤ T') (hA : ∀ t k, A t k → t < T) :
    Kept R A T' l := by
  intro t k _ hack
  rcases h t k (hA t k hack) hack with hh | ⟨t', r', htt', ht', hr', hlack⟩
  · exact .inl hh
  · exact .inr ⟨t', r', htt', Nat.lt_of_lt_of_le ht' hT, hr', hlack⟩

theorem lower (h : Kept R A (T + 1) l) (hT : R T = none) : Kept R A T l := by
  intro t k ht hack
  rcases h t k (Nat.lt_succ_of_lt ht) hack with hh | ⟨t', r', htt', ht', hr', hlack⟩
  · exact .inl hh
  · have hne : t' ≠ T := by
      rintro rfl
      rw [hT] at hr'
      cases hr'
    exact .inr ⟨t', r', htt', by omega, hr', hlack⟩

theorem insert (h : Kept R A T l) (hA : ∀ t k, t < T → A' t k → A t k ∨ Holds R t k l) :
    Kept R A' T l := by
  intro t k ht hack
  rcases hA t k ht hack with hack | hheld
  · exact h t k ht hack
  · exact .inl hheld

/-- A member gives up its log for that of the leader of the term `T`, of which it had less. -/
theorem adopt {T₀ : ℕ} (h : Kept R A (T₀ + 1) l) (hT : T₀ ≤ T) (hA : ∀ t k, A t k → t ≤ T₀)
    (hr : R T = some r) (hbase : r.base <+: l') (hlog : l' <+: r.log) (hnot : ¬ l' <+: l) :
    Kept R A (T + 1) l' := by
  intro t k _ hack
  have ht := hA t k hack
  rcases h t k (Nat.lt_succ_of_le ht) hack with hheld | ⟨t', r', htt', ht', hr', hlack⟩
  · rcases Nat.lt_or_eq_of_le (Nat.le_trans ht hT) with hlt | rfl
    · obtain ⟨r₀, hr₀, hk, -⟩ := hheld
      rcases holds_or_lacks hr₀ hk r.base with hheld | hlack
      · exact .inl (hheld.mono_log hbase)
      · exact .inr ⟨T, r, hlt, Nat.lt_succ_self T, hr, hlack⟩
    · -- both are parts of the same leader's log
      exact .inl (hheld.adopt hr hlog hnot)
  · exact .inr ⟨t', r', htt', by omega, hr', hlack⟩

end Kept

theorem Rooted.le_lastKey (h : Rooted f R l) (hR : Lawful f R) {x : β} (hx : x ∈ l) :
    f x ≤ lastKey f l := by
  obtain ⟨j, hj⟩ := List.mem_iff_getElem?.1 hx
  have hlt := (List.getElem?_eq_some_iff.1 hj).1
  have hlast : l[l.length - 1]? = some l[l.length - 1] := List.getElem?_eq_getElem (by omega)
  rw [lastKey_eq hlast]
  obtain ⟨r, hr, -, hpre⟩ := h _ _ hlast
  rw [List.take_of_length_le (by omega)] at hpre
  exact hR.le_of_mem hr (hpre.subset hx)

/-- **Leader completeness.**  `A v` are the acknowledgements of the member `v`.  If every leader was
elected by a quorum, each of whose members had a log no more up-to-date than the leader's and had
kept its acknowledgements, then what a quorum has acknowledged of a leader's own entries is in the
log of every later leader. -/
theorem holds_of_chosen {α : Type*} {ids : List α} {A : α → ℕ → ℕ → Prop} (hR : Lawful f R)
    (hvotes : ∀ T r, R T = some r → Quorum ids fun v =>
      ∃ L, Rooted f R L ∧ UpToDate f r.base L ∧ Kept R (A v) T L)
    (hr : R t = some r) (hk : r.base.length ≤ k) (hchosen : Quorum ids fun v => A v t k)
    {r' : Reign β} (hr' : R T = some r') (hT : t < T) : Holds R t k r'.base := by
  -- by strong induction on the later term
  induction T using Nat.strong_induction_on generalizing r' with
  | _ T ih =>
  obtain ⟨v, -, ⟨L, hL, hup, hkept⟩, hack⟩ := (hvotes T r' hr').inter hchosen
  rcases hkept t k hT hack with hheld | ⟨t', r₁, htt', ht', hr₁, hlack⟩
  · have hlt := hheld.lt_length
    have hbase : Rooted f R r'.base := hR.rooted hr'
    have hlast : L[L.length - 1]? = some L[L.length - 1] := List.getElem?_eq_getElem (by omega)
    obtain ⟨r₀, hr₀, hklen, hpre⟩ := hheld
    rw [hr, Option.some.injEq] at hr₀
    subst hr₀
    -- the voter's log has an entry of the term `t`
    have ht : t ≤ lastKey f L := by
      have hget : r.log[k]? = some r.log[k] := List.getElem?_eq_getElem hklen
      rw [← hR.own hr k _ hget hk]
      refine hL.le_lastKey hR (hpre.subset ?_)
      refine List.mem_of_getElem? (i := k) ?_
      rw [List.getElem?_take_of_lt (Nat.lt_succ_self k)]
      exact hget
    have hne : r'.base ≠ [] := by
      intro hnil
      rw [hnil] at hup
      rcases hup with hlt' | ⟨-, hlen⟩
      · exact absurd hlt' (Nat.not_lt_zero _)
      · rw [List.length_nil] at hlen
        omega
    have hpos : 0 < r'.base.length := List.length_pos_iff.2 hne
    have hlast' : r'.base[r'.base.length - 1]? = some r'.base[r'.base.length - 1] :=
      List.getElem?_eq_getElem (by omega)
    rcases hup with hlt' | ⟨heq, hlen⟩
    · -- the leader's last entry is of a term in between, whose leader has it all
      obtain ⟨r₁, hr₁, hle, hpre₁⟩ := hbase _ _ hlast'
      rw [List.take_of_length_le (by omega)] at hpre₁
      rw [← lastKey_eq (f := f) hlast'] at hr₁
      have hbelow : lastKey f r'.base < T := by
        rw [lastKey_eq hlast']
        exact hR.below hr' _ (List.getElem_mem _)
      have hheld₁ : Holds R t k r₁.base := ih _ hbelow hr₁ (by omega)
      obtain ⟨r₂, hr₂, hk₂, hpre₂⟩ := hheld₁
      refine ⟨r₂, hr₂, hk₂, List.prefix_of_prefix_length_le (hpre₂.trans (hR.prefix_log hr₁)) hpre₁ ?_⟩
      have := hpre₂.length_le
      omega
    · -- the two logs end in the same reign
      rw [lastKey_eq hlast, lastKey_eq hlast'] at heq
      obtain ⟨r₁, hr₁, -, hpre₁⟩ := hL _ _ hlast
      obtain ⟨r₂, hr₂, -, hpre₂⟩ := hbase _ _ hlast'
      rw [← heq, hr₁, Option.some.injEq] at hr₂
      subst hr₂
      rw [List.take_of_length_le (by omega)] at hpre₁ hpre₂
      exact ⟨r, hr, hklen, hpre.trans (List.prefix_of_prefix_length_le hpre₁ hpre₂ hlen)⟩
  · exact absurd (ih t' ht' hr₁ htt') hlack.not_holds

end MiniRaft.Consensus
