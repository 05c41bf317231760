import Mathlib.Data.Finset.Card
import Mathlib.Data.Finset.Image
import Mathlib.Data.List.Count

/-!
# Counting and quorums

`AtLeast n P` : at least `n` elements satisfy `P`.  A *quorum* of a list `ids` of members is more
than half of its length; whatever two quorums hold true, some member holds both.
-/

namespace MiniRaft.Consensus

variable {α : Type*} {P P' : α → Prop} {n : ℕ}

/-- At least `n` elements satisfy `P`. -/
def AtLeast (n : ℕ) (P : α → Prop) : Prop := ∃ Q : Finset α, n ≤ Q.card ∧ ∀ x ∈ Q, P x

namespace AtLeast

theorem zero : AtLeast 0 P := ⟨∅, Nat.zero_le _, fun x hx => absurd hx (Finset.notMem_empty x)⟩

theorem mono (h : AtLeast n P) (hP : ∀ x, P x → P' x) : AtLeast n P' := by
  obtain ⟨Q, hn, hQ⟩ := h
  exact ⟨Q, hn, fun x hx => hP x (hQ x hx)⟩

theorem of_le {m : ℕ} (h : AtLeast n P) (hm : m ≤ n) : AtLeast m P := by
  obtain ⟨Q, hn, hQ⟩ := h
  exact ⟨Q, Nat.le_trans hm hn, hQ⟩

theorem succ {v : α} (h : AtLeast n P) (hP : ∀ x, P x → P' x) (hv : ¬ P v) (hv' : P' v) :
    AtLeast (n + 1) P' := by
  classical
  obtain ⟨Q, hn, hQ⟩ := h
  have hnotin : v ∉ Q := fun hmem => hv (hQ v hmem)
  refine ⟨insert v Q, ?_, fun x hx => ?_⟩
  · rw [Finset.card_insert_of_notMem hnotin]
    exact Nat.succ_le_succ hn
  · rcases Finset.mem_insert.1 hx with rfl | hx
    · exact hv'
    · exact hP x (hQ x hx)

end AtLeast

theorem atLeast_countP {β : Type*} (p : β → Bool) (l : List β) :
    AtLeast (l.countP p) fun i : ℕ => ∃ x, l[i]? = some x ∧ p x = true := by
  induction l with
  | nil => exact AtLeast.zero
  | cons y l ih =>
    obtain ⟨Q, hn, hQ⟩ := ih
    -- the positions found in the tail move up by one
    have htail : AtLeast (l.countP p) fun i : ℕ =>
        0 < i ∧ ∃ x, (y :: l)[i]? = some x ∧ p x = true := by
      refine ⟨Q.map ⟨Nat.succ, Nat.succ_injective⟩, by rwa [Finset.card_map], fun i hi => ?_⟩
      obtain ⟨j, hj, rfl⟩ := Finset.mem_map.1 hi
      obtain ⟨x, hx, hp⟩ := hQ j hj
      exact ⟨Nat.succ_pos j, x, hx, hp⟩
    rw [List.countP_cons]
    split_ifs with hy
    · exact htail.succ (v := 0) (fun _ h => h.2) (fun h => absurd h.1 (Nat.lt_irrefl 0)) ⟨y, rfl, hy⟩
    · exact htail.mono fun _ h => h.2

/-- More than half of the members satisfy `P`. -/
def Quorum (ids : List α) (P : α → Prop) : Prop :=
  AtLeast (ids.length / 2 + 1) fun x => x ∈ ids ∧ P x

namespace Quorum

variable {ids : List α}

theorem mono (h : Quorum ids P) (hP : ∀ x ∈ ids, P x → P' x) : Quorum ids P' :=
  AtLeast.mono h fun x hx => ⟨hx.1, hP x hx.1 hx.2⟩

/-- **Two quorums intersect.** -/
theorem inter (h : Quorum ids P) (h' : Quorum ids P') : ∃ x ∈ ids, P x ∧ P' x := by
  classical
  obtain ⟨Q, hn, hQ⟩ := h
  obtain ⟨Q', hn', hQ'⟩ := h'
  have hcard : ids.toFinset.card < Q.card + Q'.card := by
    have := List.toFinset_card_le ids
    omega
  have hsub : ∀ x ∈ Q, x ∈ ids.toFinset := fun x hx => List.mem_toFinset.2 (hQ x hx).1
  have hsub' : ∀ x ∈ Q', x ∈ ids.toFinset := fun x hx => List.mem_toFinset.2 (hQ' x hx).1
  obtain ⟨x, hx⟩ := Finset.inter_nonempty_of_card_lt_card_add_card hsub hsub' hcard
  rw [Finset.mem_inter] at hx
  exact ⟨x, (hQ x hx.1).1, (hQ x hx.1).2, (hQ' x hx.2).2⟩

end Quorum

end MiniRaft.Consensus
