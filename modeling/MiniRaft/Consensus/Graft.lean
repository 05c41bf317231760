import Mathlib.Data.List.Basic
import Mathlib.Data.List.TakeDrop
import Mathlib.Order.Basic

/-!
# Grafting one list onto another

`graft f xs ys` keeps `xs` as long as its elements have the same key under `f` as those of `ys`,
and goes on with `ys` from the first difference, if `ys` is not exhausted before: the reconciliation
of a replica `xs` with a piece `ys` of a reference log.

* `graft_cases` : either all of `ys` is there already, or the list is cut at the first difference
  and continued with the rest of `ys`.
* `agreed f xs ys` : how far the two lists agree from their start.  Grafting a piece of `ys` onto
  `xs` touches nothing of that prefix (`Grafted.take_eq`), and extends it to the end of a piece that
  starts within it (`Grafted.covers`).
-/

namespace MiniRaft.Consensus

variable {α β : Type*} [DecidableEq β]

/-- Keep `xs` while its keys agree with those of `ys`, and continue with `ys`. -/
def graft (f : α → β) : List α → List α → List α
  | xs, [] => xs
  | [], y :: ys => y :: ys
  | x :: xs, y :: ys => if f x = f y then x :: graft f xs ys else y :: ys

variable (f : α → β)

@[simp] theorem graft_nil_right (xs : List α) : graft f xs [] = xs := by
  cases xs <;> rfl

@[simp] theorem graft_nil_left (ys : List α) : graft f [] ys = ys := by
  cases ys <;> rfl

theorem graft_cons (x y : α) (xs ys : List α) :
    graft f (x :: xs) (y :: ys) = if f x = f y then x :: graft f xs ys else y :: ys := rfl

theorem graft_graft (xs ys : List α) : graft f (graft f xs ys) ys = graft f xs ys := by
  induction ys generalizing xs with
  | nil => simp
  | cons y ys ih =>
    have hself : ∀ zs : List α, graft f zs zs = zs := by
      intro zs
      induction zs with
      | nil => rfl
      | cons z zs ih => rw [graft_cons, if_pos rfl, ih]
    cases xs with
    | nil => rw [graft_nil_left, hself]
    | cons x xs =>
      rw [graft_cons]
      split_ifs with hxy
      · rw [graft_cons, if_pos hxy, ih]
      · rw [hself]

/-- `xs` and `ys` first differ at `j`: the keys before `j` agree, those at `j`, if `xs` reaches so
far, do not. -/
structure DiffersAt (f : α → β) (xs ys : List α) (j : ℕ) : Prop where
  lt : j < ys.length
  le : j ≤ xs.length
  before : ∀ k < j, (xs[k]?).map f = (ys[k]?).map f
  differs : ∀ x y, xs[j]? = some x → ys[j]? = some y → f x ≠ f y

/-- **The two outcomes of a graft.** -/
theorem graft_cases (xs ys : List α) :
    (graft f xs ys = xs ∧ ys.length ≤ xs.length ∧
      ∀ k < ys.length, (xs[k]?).map f = (ys[k]?).map f) ∨
    ∃ j, DiffersAt f xs ys j ∧ graft f xs ys = xs.take j ++ ys.drop j := by
  induction ys generalizing xs with
  | nil => exact .inl ⟨by simp, by simp, by simp⟩
  | cons y ys ih =>
    cases xs with
    | nil => exact .inr ⟨0, ⟨by simp, by simp, by simp, by simp⟩, by simp⟩
    | cons x xs =>
      rw [graft_cons]
      split_ifs with hxy
      · rcases ih xs with ⟨heq, hlen, hagree⟩ | ⟨j, ⟨hlt, hle, hbefore, hat⟩, heq⟩
        · refine .inl ⟨by rw [heq], by simpa using hlen, fun k hk => ?_⟩
          cases k with
          | zero => simp [hxy]
          | succ k => simpa using hagree k (by simpa using hk)
        · refine .inr ⟨j + 1, ⟨by simpa using hlt, by simpa using hle, fun k hk => ?_, ?_⟩, by simp [heq]⟩
          · cases k with
            | zero => simp [hxy]
            | succ k => simpa using hbefore k (by omega)
          · simpa using hat
      · refine .inr ⟨0, ⟨by simp, by simp, by simp, ?_⟩, by simp⟩
        simpa using hxy

/-! ### Grafting the end piece of a list -/

/-- `zs` is `xs` with the piece of `ys` from the position `a` on grafted onto it: either `xs` has
all of it already, or it is cut at the first difference `j` and continued with `ys`. -/
inductive Grafted (f : α → β) (xs ys : List α) (a : ℕ) : List α → Prop
  | all : (∀ k, a ≤ k → k < ys.length → (xs[k]?).map f = (ys[k]?).map f) → Grafted f xs ys a xs
  | cut {j : ℕ} : a ≤ j → j < ys.length → j ≤ xs.length →
      (∀ k, a ≤ k → k < j → (xs[k]?).map f = (ys[k]?).map f) →
      (∀ x y, xs[j]? = some x → ys[j]? = some y → f x ≠ f y) →
      Grafted f xs ys a (xs.take j ++ ys.drop j)

theorem grafted_graft {xs : List α} {a : ℕ} (ys : List α) (ha : a ≤ xs.length) :
    Grafted f xs ys a (xs.take a ++ graft f (xs.drop a) (ys.drop a)) := by
  have shift : ∀ {k}, a ≤ k → (xs.drop a)[k - a]? = xs[k]? ∧ (ys.drop a)[k - a]? = ys[k]? := by
    intro k hk
    rw [List.getElem?_drop, List.getElem?_drop, Nat.add_sub_cancel' hk]
    exact ⟨rfl, rfl⟩
  rcases graft_cases f (xs.drop a) (ys.drop a) with ⟨heq, -, hagree⟩ | ⟨j, hj, heq⟩
  · rw [heq, List.take_append_drop]
    refine .all fun k hak hk => ?_
    have := hagree (k - a) (by rw [List.length_drop]; omega)
    rwa [(shift hak).1, (shift hak).2] at this
  · have hlt : j < ys.length - a := by simpa using hj.lt
    have hle : j ≤ xs.length - a := by simpa using hj.le
    have hcut : xs.take a ++ graft f (xs.drop a) (ys.drop a) =
        xs.take (a + j) ++ ys.drop (a + j) := by
      rw [heq, List.drop_drop, ← List.append_assoc, List.take_add]
    rw [hcut]
    refine .cut (by omega) (by omega) (by omega) (fun k hak hk => ?_) fun x y hx hy => ?_
    · have := hj.before (k - a) (by omega)
      rwa [(shift hak).1, (shift hak).2] at this
    · refine hj.differs x y ?_ ?_
      · rwa [List.getElem?_drop]
      · rwa [List.getElem?_drop]

omit [DecidableEq β] in
theorem getElem?_take_append_drop {xs : List α} {j : ℕ} (hj : j ≤ xs.length) (ys : List α) (k : ℕ) :
    (xs.take j ++ ys.drop j)[k]? = if k < j then xs[k]? else ys[k]? := by
  have hlen : (xs.take j).length = j := by rw [List.length_take, Nat.min_eq_left hj]
  split_ifs with hk
  · rw [List.getElem?_append_left (by omega), List.getElem?_take_of_lt hk]
  · rw [List.getElem?_append_right (by omega), hlen, List.getElem?_drop,
      Nat.add_sub_cancel' (by omega)]

/-- The keys do not decrease along the list. -/
def Ascending [Preorder β] (f : α → β) (l : List α) : Prop :=
  ∀ ⦃i k : ℕ⦄ ⦃x y : α⦄, i ≤ k → l[i]? = some x → l[k]? = some y → f x ≤ f y

namespace Grafted

variable {f : α → β} {xs ys zs : List α} {a : ℕ}

omit [DecidableEq β] in
theorem length_le (h : Grafted f xs ys a zs) : zs.length ≤ max xs.length ys.length := by
  cases h with
  | all => exact Nat.le_max_left _ _
  | cut _ hj hle =>
    rw [List.length_append, List.length_take, List.length_drop]
    omega

omit [DecidableEq β] in
theorem ne_nil (h : Grafted f xs ys a zs) (hxs : xs ≠ []) : zs ≠ [] := by
  cases h with
  | all => exact hxs
  | cut _ hj _ =>
    have hdrop : ys.drop _ ≠ [] := fun hnil => absurd (List.drop_eq_nil_iff.1 hnil) (Nat.not_le.2 hj)
    exact List.append_ne_nil_of_right_ne_nil _ hdrop

omit [DecidableEq β] in
theorem getElem? (h : Grafted f xs ys a zs) {k : ℕ} {z : α} (hz : zs[k]? = some z) :
    xs[k]? = some z ∨ ys[k]? = some z := by
  cases h with
  | all => exact .inl hz
  | cut _ _ hle =>
    rw [getElem?_take_append_drop hle] at hz
    split_ifs at hz
    · exact .inl hz
    · exact .inr hz

omit [DecidableEq β] in
/-- **When a graft is a copy.**  It holds the elements of `ys` just if `xs` held them already,
wherever no key from `a` up to them differs. -/
theorem eq_iff (h : Grafted f xs ys a zs) :
    (∀ k < ys.length, zs[k]? = ys[k]?) ↔ ∀ k < ys.length,
      (∀ m, a ≤ m → m ≤ k → (xs[m]?).map f = (ys[m]?).map f) → xs[k]? = ys[k]? := by
  cases h with
  | all hsame =>
    constructor
    · intro heq k hk _
      exact heq k hk
    · intro heq k hk
      exact heq k hk fun m ham hmk => hsame m ham (Nat.lt_of_le_of_lt hmk hk)
  | @cut j haj hj hle hbefore hdiffers =>
    constructor
    · intro heq k hk hsame
      rcases Nat.lt_or_ge k j with hkj | hjk
      · rw [← heq k hk, getElem?_take_append_drop hle, if_pos hkj]
      · -- the keys differ at the cut
        have hy : ys[j]? = some ys[j] := List.getElem?_eq_getElem hj
        have hmap := hsame j haj hjk
        rw [hy, Option.map_some, Option.map_eq_some_iff] at hmap
        obtain ⟨x, hx, hxy⟩ := hmap
        exact absurd hxy (hdiffers x _ hx hy)
    · intro heq k hk
      rw [getElem?_take_append_drop hle]
      split_ifs with hkj
      · exact heq k hk fun m ham hmk => hbefore m ham (Nat.lt_of_le_of_lt hmk hkj)
      · rfl

omit [DecidableEq β] in
/-- **A graft of one prefix of a list onto another** is one of the two, whichever is longer. -/
theorem of_common {ws : List α} (h : Grafted f xs ys a zs) (hxs : xs <+: ws) (hys : ys <+: ws) :
    xs <+: zs ∧ zs <+: ws := by
  cases h with
  | all => exact ⟨List.prefix_refl _, hxs⟩
  | @cut j _ hj hle _ hdiffers =>
    have hend : j = xs.length := by
      by_contra hne
      have hlt : j < xs.length := by omega
      refine hdiffers xs[j] ys[j] (List.getElem?_eq_getElem hlt) (List.getElem?_eq_getElem hj) ?_
      rw [List.prefix_iff_getElem.1 hxs |>.2 j hlt, List.prefix_iff_getElem.1 hys |>.2 j hj]
    subst hend
    have hpre : xs <+: ys := List.prefix_of_prefix_length_le hxs hys (Nat.le_of_lt hj)
    rw [List.take_length, List.prefix_iff_eq_append.1 hpre]
    exact ⟨hpre, hys⟩

omit [DecidableEq β] in
/-- A graft onto an ascending list is ascending, if at a cut at `a` itself the keys before `a` are
below the piece. -/
theorem ascending [Preorder β] (h : Grafted f xs ys a zs) (hxs : Ascending f xs)
    (hys : Ascending f ys)
    (hstart : ∀ y, ys[a]? = some y → (∀ x, xs[a]? = some x → f x ≠ f y) →
      ∀ i < a, ∀ x, xs[i]? = some x → f x ≤ f y) : Ascending f zs := by
  cases h with
  | all => exact hxs
  | @cut j haj hj hle hsame hdiffers =>
    intro i k x y hik hx hy
    rw [getElem?_take_append_drop hle] at hx hy
    by_cases hkj : k < j
    · rw [if_pos (by omega)] at hx
      rw [if_pos hkj] at hy
      exact hxs hik hx hy
    · rw [if_neg hkj] at hy
      by_cases hij : i < j
      · rw [if_pos hij] at hx
        rcases Nat.lt_or_eq_of_le haj with haj | rfl
        · -- the last agreement before the cut carries the order over
          have hx' : xs[j - 1]? = some xs[j - 1] := List.getElem?_eq_getElem (by omega)
          have hy' : ys[j - 1]? = some ys[j - 1] := List.getElem?_eq_getElem (by omega)
          have heq : f xs[j - 1] = f ys[j - 1] := by
            have := hsame (j - 1) (by omega) (by omega)
            rwa [hx', hy', Option.map_some, Option.map_some, Option.some.injEq] at this
          calc f x ≤ f xs[j - 1] := hxs (by omega) hx hx'
            _ = f ys[j - 1] := heq
            _ ≤ f y := hys (by omega) hy' hy
        · have hy' : ys[a]? = some ys[a] := List.getElem?_eq_getElem hj
          exact le_trans (hstart _ hy' (fun x hx => hdiffers x _ hx hy') i hij x hx)
            (hys (by omega) hy' hy)
      · rw [if_neg hij] at hx
        exact hys hik hx hy

end Grafted

/-! ### How far two lists agree -/

/-- The number of leading positions at which `xs` and `ys` have the same key. -/
def agreed (f : α → β) : List α → List α → ℕ
  | [], _ => 0
  | _, [] => 0
  | x :: xs, y :: ys => if f x = f y then agreed f xs ys + 1 else 0

theorem le_agreed_iff {f : α → β} {xs ys : List α} {n : ℕ} :
    n ≤ agreed f xs ys ↔ n ≤ ys.length ∧ ∀ k < n, (xs[k]?).map f = (ys[k]?).map f := by
  induction xs generalizing ys n with
  | nil =>
    simp only [agreed, Nat.le_zero_eq]
    constructor
    · rintro rfl
      exact ⟨Nat.zero_le _, fun k hk => absurd hk (Nat.not_lt_zero k)⟩
    · rintro ⟨hlen, hsame⟩
      by_contra hn
      have hget : ys[0]? = some ys[0] := List.getElem?_eq_getElem (by omega)
      simpa [hget] using hsame 0 (by omega)
  | cons x xs ih =>
    cases ys with
    | nil => simp +contextual [agreed]
    | cons y ys =>
      cases n with
      | zero => simp
      | succ n =>
        have hstep : (∀ k < n + 1, ((x :: xs)[k]?).map f = ((y :: ys)[k]?).map f) ↔
            f x = f y ∧ ∀ k < n, (xs[k]?).map f = (ys[k]?).map f := by
          rw [Nat.forall_lt_succ_left]
          simp
        rw [hstep, agreed]
        split_ifs with hxy
        · simp [hxy, ih]
        · simp [hxy]

theorem agreed_le_right (f : α → β) (xs ys : List α) : agreed f xs ys ≤ ys.length :=
  (le_agreed_iff.1 (Nat.le_refl _)).1

theorem map_eq_of_lt_agreed {f : α → β} {xs ys : List α} {k : ℕ} (h : k < agreed f xs ys) :
    (xs[k]?).map f = (ys[k]?).map f := (le_agreed_iff.1 (Nat.le_refl _)).2 k h

namespace Grafted

variable {f : α → β} {xs ys zs : List α} {a b : ℕ}

theorem agreed_le_cut {j : ℕ} (hj : j < (ys.take b).length)
    (hdiffers : ∀ x y, xs[j]? = some x → (ys.take b)[j]? = some y → f x ≠ f y) :
    agreed f xs ys ≤ j := by
  by_contra hlt
  have hsame := map_eq_of_lt_agreed (Nat.lt_of_not_le hlt)
  have hy : (ys.take b)[j]? = some (ys.take b)[j] := List.getElem?_eq_getElem hj
  have hjb : j < b := by
    rw [List.length_take] at hj
    omega
  have htake : (ys.take b)[j]? = ys[j]? := List.getElem?_take_of_lt hjb
  rw [← htake, hy, Option.map_some, Option.map_eq_some_iff] at hsame
  obtain ⟨x, hx, hxy⟩ := hsame
  exact hdiffers x _ hx hy hxy

/-- **A graft of a piece of `ys` leaves the agreed prefix untouched.** -/
theorem take_eq (h : Grafted f xs (ys.take b) a zs) {n : ℕ} (hn : n ≤ agreed f xs ys) :
    zs.take n = xs.take n := by
  cases h with
  | all => rfl
  | @cut j _ hj hle _ hdiffers =>
    have hnj : n ≤ j := Nat.le_trans hn (agreed_le_cut hj hdiffers)
    rw [List.take_append_of_le_length (by rw [List.length_take]; omega), List.take_take,
      Nat.min_eq_left hnj]

theorem agreed_le (h : Grafted f xs (ys.take b) a zs) : agreed f xs ys ≤ agreed f zs ys := by
  refine le_agreed_iff.2 ⟨agreed_le_right f xs ys, fun k hk => ?_⟩
  have htake := congrArg (·[k]?) (h.take_eq (Nat.le_refl _))
  simp only [List.getElem?_take_of_lt hk] at htake
  rw [htake]
  exact map_eq_of_lt_agreed hk

/-- **A piece that starts within the agreed prefix extends it to its own end.** -/
theorem covers (h : Grafted f xs (ys.take b) a zs) (hb : b ≤ ys.length)
    (ha : a ≤ agreed f xs ys) : b ≤ agreed f zs ys := by
  have hlen : (ys.take b).length = b := by rw [List.length_take, Nat.min_eq_left hb]
  refine le_agreed_iff.2 ⟨hb, fun k hk => ?_⟩
  rcases Nat.lt_or_ge k a with hka | hak
  · have hk' : k < agreed f zs ys := by
      have := h.agreed_le
      omega
    exact map_eq_of_lt_agreed hk'
  · have htake : (ys.take b)[k]? = ys[k]? := List.getElem?_take_of_lt hk
    rw [← htake]
    cases h with
    | all hsame => exact hsame k hak (by omega)
    | @cut j haj hj hle hsame hdiffers =>
      rw [getElem?_take_append_drop hle]
      split_ifs with hkj
      · exact hsame k hak hkj
      · rfl

end Grafted

end MiniRaft.Consensus
