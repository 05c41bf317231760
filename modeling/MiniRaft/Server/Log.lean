import MiniRaft.Server.Inversion
import MiniRaft.Consensus.Graft
import Mathlib.Data.Nat.Basic

/-!
# Merging entries into a log

On contiguous entries the two loops of `delete_conflicting_and_append_new_entries` compute the
graft of the entries onto the log, by their terms.

* `Server.mergedLog_drop` : for the end piece of a log, and `none`, the panic of `Vec::insert`, for
  a piece that starts past the end.
* `Server.LogOk` : a well-formed log.  `Server.LogOk.merge` : an accepted message keeps it so.
-/

namespace MiniRaft

variable {σ : Type}

namespace Server

open Consensus

/-- The entries are numbered from `n` on. -/
def NumberedFrom (n : ℕ) (entries : List LogEntry) : Prop :=
  ∀ k entry, entries[k]? = some entry → entry.index = n + k

theorem NumberedFrom.head {n : ℕ} {entry : LogEntry} {entries : List LogEntry}
    (h : NumberedFrom n (entry :: entries)) : entry.index = n := h 0 entry rfl

theorem NumberedFrom.tail {n : ℕ} {entry : LogEntry} {entries : List LogEntry}
    (h : NumberedFrom n (entry :: entries)) : NumberedFrom (n + 1) entries := by
  intro k entry' hk
  have := h (k + 1) entry' (by simpa using hk)
  omega

theorem numberedFrom_iff {n : ℕ} {entries : List LogEntry} :
    NumberedFrom n entries ↔ entries.map LogEntry.index = List.range' n entries.length := by
  induction entries generalizing n with
  | nil => simp [NumberedFrom]
  | cons entry entries ih =>
    rw [List.map_cons, List.length_cons, List.range'_succ, List.cons.injEq, ← ih]
    constructor
    · intro h
      exact ⟨h.head, h.tail⟩
    · rintro ⟨hindex, htail⟩ k entry' hk
      cases k with
      | zero =>
        cases hk
        exact hindex
      | succ k =>
        have := htail k entry' hk
        omega

instance (n : ℕ) (entries : List LogEntry) : Decidable (NumberedFrom n entries) :=
  decidable_of_iff _ numberedFrom_iff.symm

theorem NumberedFrom.drop {log : List LogEntry} (h : NumberedFrom 0 log) (a : ℕ) :
    NumberedFrom a (log.drop a) := by
  intro k entry hk
  rw [List.getElem?_drop] at hk
  have := h (a + k) entry hk
  omega

theorem NumberedFrom.take {n : ℕ} {entries : List LogEntry} (h : NumberedFrom n entries) (b : ℕ) :
    NumberedFrom n (entries.take b) := by
  intro k entry hk
  rw [List.getElem?_take] at hk
  split_ifs at hk
  exact h k entry hk

theorem NumberedFrom.index_getLast? {log : List LogEntry} {a : ℕ} {last : LogEntry}
    (h : NumberedFrom 0 log) (hlast : (log.drop a).getLast? = some last) :
    last.index + 1 = log.length ∧ log[last.index]? = some last := by
  rw [List.getLast?_drop] at hlast
  split_ifs at hlast with hle
  rw [List.getLast?_eq_getElem?] at hlast
  have hidx := h _ _ hlast
  have hindex : last.index = log.length - 1 := by omega
  refine ⟨by omega, ?_⟩
  rw [hindex]
  exact hlast

theorem mem_drop_iff {L : List LogEntry} {a : ℕ} (hL : NumberedFrom 0 L) {entry : LogEntry} :
    entry ∈ L.drop a ↔ a ≤ entry.index ∧ L[entry.index]? = some entry := by
  rw [List.mem_iff_getElem?]
  constructor
  · rintro ⟨k, hk⟩
    have hidx : entry.index = a + k := hL.drop a k entry hk
    rw [List.getElem?_drop] at hk
    exact ⟨by omega, by rw [hidx]; exact hk⟩
  · rintro ⟨hle, hget⟩
    refine ⟨entry.index - a, ?_⟩
    rw [List.getElem?_drop, Nat.add_sub_cancel' hle]
    exact hget

theorem collectNewEntries_of_length_le {log acc entries : List LogEntry} {n : ℕ}
    (h : NumberedFrom n entries) (hn : log.length ≤ n) :
    collectNewEntries log acc entries = (log, acc ++ entries) := by
  induction entries generalizing acc n with
  | nil => simp [collectNewEntries]
  | cons entry entries ih =>
    have hnone : log[entry.index]? = none := by
      rw [h.head]
      exact List.getElem?_eq_none hn
    simp only [collectNewEntries, hnone]
    rw [ih h.tail (by omega), List.append_assoc, List.singleton_append]

/-- Entries numbered from the end of the log on are appended. -/
theorem insertNewEntries_of_length_eq {log entries : List LogEntry}
    (h : NumberedFrom log.length entries) : insertNewEntries log entries = some (log ++ entries) := by
  induction entries generalizing log with
  | nil => simp [insertNewEntries]
  | cons entry entries ih =>
    have hins : log.insertIdx entry.index entry = log ++ [entry] := by
      rw [h.head, List.insertIdx_length_self]
    have htail : NumberedFrom (log ++ [entry]).length entries := by
      rw [List.length_append]
      exact h.tail
    rw [insertNewEntries, if_pos (Nat.le_of_eq h.head), hins, ih htail]
    simp

/-- **The loops compute a graft.** -/
theorem mergedLog_eq_graft {log entries : List LogEntry} {n : ℕ} (h : NumberedFrom n entries)
    (hn : n ≤ log.length) :
    mergedLog log entries = some (log.take n ++ graft LogEntry.term (log.drop n) entries) := by
  induction entries generalizing n with
  | nil => simp [mergedLog, collectNewEntries, insertNewEntries]
  | cons entry entries ih =>
    have hindex : entry.index = n := h.head
    have hnum : ∀ l : List LogEntry, l.length = n → NumberedFrom l.length (entry :: entries) := by
      rintro l rfl
      exact h
    rcases Nat.lt_or_eq_of_le hn with hlt | heq
    · have hget : log[n]? = some log[n] := List.getElem?_eq_getElem hlt
      have hdrop : log.drop n = log[n] :: log.drop (n + 1) := List.drop_eq_getElem_cons hlt
      by_cases hterm : log[n].term = entry.term
      · have hsame : mergedLog log (entry :: entries) = mergedLog log entries := by
          simp only [mergedLog, collectNewEntries, hindex, hget, hterm, ne_eq, not_true_eq_false,
            ↓reduceIte]
        rw [hsame, ih h.tail hlt, hdrop, graft_cons, if_pos hterm,
          List.take_succ_eq_append_getElem hlt, List.append_assoc, List.singleton_append]
      · -- the conflict truncates the log, and all that follows is new
        have hlen : (log.take n).length = n := by simp [Nat.min_eq_left hn]
        have hcollect : collectNewEntries log [] (entry :: entries) =
            (log.take n, entry :: entries) := by
          have hpast : collectNewEntries (log.take n) [entry] entries =
              (log.take n, [entry] ++ entries) :=
            collectNewEntries_of_length_le h.tail (by omega)
          simpa only [collectNewEntries, hindex, hget, ne_eq, hterm, not_false_eq_true,
            ↓reduceIte, List.nil_append, List.singleton_append] using hpast
        rw [mergedLog, hcollect, hdrop, graft_cons, if_neg hterm]
        exact insertNewEntries_of_length_eq (hnum _ hlen)
    · subst heq
      rw [mergedLog, collectNewEntries_of_length_le h (Nat.le_refl _), List.nil_append, List.drop_length,
        List.take_length, graft_nil_left]
      exact insertNewEntries_of_length_eq h

/-- A piece that starts past the end of the log cannot be inserted. -/
theorem mergedLog_eq_none {log entries : List LogEntry} {n : ℕ} (h : NumberedFrom n entries)
    (hne : entries ≠ []) (hn : log.length < n) : mergedLog log entries = none := by
  obtain ⟨entry, entries, rfl⟩ := List.exists_cons_of_ne_nil hne
  have hindex : ¬ entry.index ≤ log.length := by
    rw [h.head]
    omega
  rw [mergedLog, collectNewEntries_of_length_le h (Nat.le_of_lt hn), List.nil_append,
    insertNewEntries, if_neg hindex]

theorem grafted_of_mergedLog {log L log' : List LogEntry} {a : ℕ} (hL : NumberedFrom 0 L)
    (h : mergedLog log (L.drop a) = some log') : Grafted LogEntry.term log L a log' := by
  rcases Nat.lt_or_ge log.length a with hlt | hle
  · by_cases hnil : L.drop a = []
    · rw [hnil] at h
      cases h
      rw [List.drop_eq_nil_iff] at hnil
      exact .all fun k hak hk => by omega
    · rw [mergedLog_eq_none (hL.drop a) hnil hlt] at h
      cases h
  · rw [mergedLog_eq_graft (hL.drop a) hle] at h
    cases h
    exact grafted_graft _ L hle

/-- A merge leaves a log as it is just if all entries are there already, as far as their terms
tell. -/
theorem mergedLog_eq_self_iff {log L log' : List LogEntry} {a : ℕ} (hL : NumberedFrom 0 L)
    (h : mergedLog log (L.drop a) = some log') :
    log' = log ↔ ∀ entry ∈ L.drop a, ∃ x ∈ log[entry.index]?, x.term = entry.term := by
  cases grafted_of_mergedLog hL h with
  | all hsame =>
    refine iff_of_true rfl fun entry hmem => ?_
    obtain ⟨hle, hget⟩ := (mem_drop_iff hL).1 hmem
    have heq := hsame entry.index hle (List.getElem?_eq_some_iff.1 hget).1
    rw [hget, Option.map_some, Option.map_eq_some_iff] at heq
    exact heq
  | @cut j haj hj hle hsame hdiffers =>
    have hget : L[j]? = some L[j] := List.getElem?_eq_getElem hj
    refine iff_of_false (fun heq => ?_) fun hall => ?_
    · have hlog : log[j]? = some L[j] := by
        rw [← hget]
        nth_rewrite 1 [← heq]
        rw [getElem?_take_append_drop hle, if_neg (Nat.lt_irrefl j)]
      exact hdiffers _ _ hlog hget rfl
    · have hidx : L[j].index = j := by
        have := hL j _ hget
        omega
      obtain ⟨x, hx, hterm⟩ := hall L[j] ((mem_drop_iff hL).2 ⟨by omega, by rw [hidx]; exact hget⟩)
      rw [hidx] at hx
      exact hdiffers _ _ hx hget hterm

/-! ### Well-formed logs -/

/-- Each entry carries its position, the terms do not decrease, and none exceeds `T`. -/
structure LogOk (log : List LogEntry) (T : ℕ) : Prop where
  index : ∀ (k : ℕ) (entry : LogEntry), log[k]? = some entry → entry.index = k
  ascending : Ascending LogEntry.term log
  bound : ∀ (k : ℕ) (entry : LogEntry), log[k]? = some entry → entry.term ≤ T

namespace LogOk

variable {log : List LogEntry} {T T' : ℕ}

theorem nil : LogOk [] T := ⟨by simp, fun _ _ _ _ _ h => by simp at h, by simp⟩

theorem numbered (h : LogOk log T) : NumberedFrom 0 log := fun k entry hk => by
  rw [h.index k entry hk, Nat.zero_add]

theorem mono (h : LogOk log T) (hT : T ≤ T') : LogOk log T' :=
  ⟨h.index, h.ascending, fun k entry hk => Nat.le_trans (h.bound k entry hk) hT⟩

theorem push (h : LogOk log T) {entry : LogEntry} (hi : entry.index = log.length)
    (ht : entry.term = T) : LogOk (log ++ [entry]) T := by
  have last : ∀ (k : ℕ) (e : LogEntry), (log ++ [entry])[k]? = some e →
      log[k]? = some e ∨ k = log.length ∧ e = entry := by
    intro k e hk
    rw [List.getElem?_append] at hk
    split_ifs at hk with hlt
    · exact .inl hk
    · have hk' := (List.getElem?_eq_some_iff.1 hk).1
      have hkl : k = log.length := by
        rw [List.length_singleton] at hk'
        omega
      rw [hkl, Nat.sub_self] at hk
      exact .inr ⟨hkl, (Option.some.inj hk).symm⟩
  have bound : ∀ (k : ℕ) (e : LogEntry), (log ++ [entry])[k]? = some e → e.term ≤ T := by
    intro k e hk
    rcases last k e hk with hk | ⟨-, rfl⟩
    · exact h.bound k e hk
    · exact Nat.le_of_eq ht
  refine ⟨fun k e hk => ?_, fun i k x y hik hx hy => ?_, bound⟩
  · rcases last k e hk with hk | ⟨rfl, rfl⟩
    · exact h.index k e hk
    · exact hi
  · rcases last k y hy with hky | ⟨rfl, rfl⟩
    · have hk := (List.getElem?_eq_some_iff.1 hky).1
      rcases last i x hx with hix | ⟨rfl, -⟩
      · exact h.ascending hik hix hky
      · omega
    · rw [ht]
      exact bound i x hx

end LogOk

theorem prevLogIndexMatching_iff {s : Server σ} {msg : AppendEntries} {p : ℕ}
    (hp : msg.prevLogIndex = p) (hlt : p < 2 ^ 64) :
    s.prevLogIndexMatching msg = true ↔
      s.log = [] ∨ ∃ entry, s.log[p]? = some entry ∧ entry.term = msg.prevLogTerm := by
  unfold prevLogIndexMatching
  rw [hp, asUsize_natCast hlt]
  cases hget : s.log[p]? with
  | none => simp
  | some entry =>
    have hne : s.log ≠ [] := fun hnil => by simp [hnil] at hget
    simp [hne]

/-- **An accepted message keeps the log well formed.** -/
theorem LogOk.merge {s snap : Server σ} {msg : AppendEntries} {log : List LogEntry}
    (hs : LogOk s.log s.currentTerm) (hsnap : LogOk snap.log msg.term) (hacc : s.Accepts msg)
    (hr : snap.Replicates msg) (hc : snap.Carries msg)
    (h : mergedLog s.log msg.entries = some log) : LogOk log msg.term := by
  obtain ⟨a, ha, hentries, hpiece⟩ := hc.piece
  rw [hentries] at h
  have hgraft : Grafted LogEntry.term s.log snap.log a log := grafted_of_mergedLog hsnap.numbered h
  have hs : LogOk s.log msg.term := hs.mono hacc.1
  refine ⟨fun k entry hk => ?_, hgraft.ascending hs.ascending hsnap.ascending ?_, fun k entry hk => ?_⟩
  · rcases hgraft.getElem? hk with hk | hk
    · exact hs.index k entry hk
    · exact hsnap.index k entry hk
  · intro y hy hdiffers i hi x hx
    rcases hpiece y hy with ⟨-, hterm⟩ | ⟨hprev, hterm⟩
    · -- the piece is the newest entry of the leader
      rw [hterm, ← hr.term]
      exact hs.bound i x hx
    · -- the previous entry is the first of the piece, and it has been checked
      have hlen := hc.length
      rcases (prevLogIndexMatching_iff hprev (by omega)).1 hacc.2.1 with hnil | ⟨entry, he, heq⟩
      · simp [hnil] at hx
      · exact absurd (heq.trans hterm) (hdiffers entry he)
  · rcases hgraft.getElem? hk with hk | hk
    · exact hs.bound k entry hk
    · exact hsnap.bound k entry hk

end Server

end MiniRaft
