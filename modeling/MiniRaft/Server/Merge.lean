import MiniRaft.Server.Log
import MiniRaft.Server.SimpleStateMachine
import MiniRaft.Machine.Basic

/-!
# The merge of a message into the log

What `handle_append_entries` makes of a log, and what any sequence of its merges makes of it.

* `Server.append_entries_merges` : the loops of `delete_conflicting_and_append_new_entries`, which
  truncate, collect and insert by absolute index, compute the merge by the first new entry.
* `Server.deliveries_never_undo_replication` : deliveries of pieces of a reference log, in any order
  and any number of times, never shorten the prefix that agrees with it.
-/

namespace MiniRaft

variable {σ : Type}

namespace Server

open Consensus

/-! ### The merge by the first new entry -/

/-- The position in `entries`, whose indices start at `n`, of the first one that the log does not
hold with the same term. -/
def firstNew (log : List LogEntry) (n : ℕ) (entries : List LogEntry) : Option ℕ :=
  (List.range entries.length).find? fun k =>
    decide ((log[n + k]?).map LogEntry.term ≠ (entries[k]?).map LogEntry.term)

/-- The log is cut at the first new entry and goes on with the entries from there. -/
def merge (log : List LogEntry) (n : ℕ) (entries : List LogEntry) : List LogEntry :=
  match firstNew log n entries with
  | none => log
  | some k => log.take (n + k) ++ entries.drop k

theorem take_append_graft_eq_merge {log : List LogEntry} {n : ℕ} (entries : List LogEntry) :
    log.take n ++ graft LogEntry.term (log.drop n) entries = merge log n entries := by
  rcases graft_cases LogEntry.term (log.drop n) entries with ⟨heq, -, hsame⟩ | ⟨j, hj, heq⟩
  · have hnone : firstNew log n entries = none := by
      simp only [firstNew, List.find?_eq_none, List.mem_range, decide_eq_true_eq, not_not]
      intro k hk
      rw [← List.getElem?_drop]
      exact hsame k hk
    rw [heq, List.take_append_drop, merge, hnone]
  · have hsome : firstNew log n entries = some j := by
      simp only [firstNew, List.find?_range_eq_some, decide_eq_true_eq, List.mem_range,
        Bool.not_eq_eq_eq_not, Bool.not_true, decide_eq_false_iff_not, not_not,
        ← List.getElem?_drop]
      refine ⟨fun hterm => ?_, hj.lt, hj.before⟩
      have hlt := hj.lt
      have hget : entries[j]? = some entries[j] := List.getElem?_eq_getElem hlt
      rw [hget, Option.map_some, Option.map_eq_some_iff] at hterm
      obtain ⟨x, hx, hxy⟩ := hterm
      exact hj.differs x _ hx hget hxy
    rw [heq, merge, hsome]
    show _ = log.take (n + j) ++ entries.drop j
    rw [← List.append_assoc, List.take_add]

/-- **The two loops compute the merge.** -/
theorem mergedLog_eq_merge {log entries : List LogEntry} {n : ℕ} (h : NumberedFrom n entries)
    (hn : n ≤ log.length) : mergedLog log entries = some (merge log n entries) := by
  rw [mergedLog_eq_graft h hn, take_append_graft_eq_merge]

/-- **A repeated merge changes nothing.** -/
theorem mergedLog_idem {log log' entries : List LogEntry} {n : ℕ} (h : NumberedFrom n entries)
    (hm : mergedLog log entries = some log') : mergedLog log' entries = some log' := by
  by_cases hnil : entries = []
  · subst hnil
    cases hm
    rfl
  · have hn : n ≤ log.length := by
      by_contra hlt
      rw [mergedLog_eq_none h hnil (Nat.not_le.1 hlt)] at hm
      cases hm
    rw [mergedLog_eq_graft h hn] at hm
    obtain rfl := Option.some.inj hm
    have hlen : (log.take n).length = n := by rw [List.length_take, Nat.min_eq_left hn]
    rw [mergedLog_eq_graft h (by rw [List.length_append, hlen]; omega), List.take_left' hlen,
      List.drop_left' hlen, graft_graft]

theorem mem_collectNewEntries_getLast? {log acc entries : List LogEntry} {last : LogEntry}
    (h : entries.getLast? = some last) :
    last ∈ (collectNewEntries log acc entries).2 ∨
      last.index < (collectNewEntries log acc entries).1.length := by
  induction entries generalizing log acc with
  | nil => cases h
  | cons entry entries ih =>
    cases entries with
    | nil =>
      obtain rfl : entry = last := Option.some.inj h
      simp only [collectNewEntries]
      split
      · rename_i x hx
        split
        · exact .inl (by simp)
        · exact .inr (List.getElem?_eq_some_iff.1 hx).1
      · exact .inl (by simp)
    | cons entry' entries =>
      rw [List.getLast?_cons_cons] at h
      rw [collectNewEntries]
      split
      · split
        · exact ih h
        · exact ih h
      · exact ih h

theorem index_lt_of_insertNewEntries {log entries log' : List LogEntry}
    (h : insertNewEntries log entries = some log') :
    log.length ≤ log'.length ∧ ∀ entry ∈ entries, entry.index < log'.length := by
  induction entries generalizing log with
  | nil =>
    cases h
    exact ⟨Nat.le_refl _, List.forall_mem_nil _⟩
  | cons entry entries ih =>
    rw [insertNewEntries] at h
    split_ifs at h with hle
    obtain ⟨hlen, hmem⟩ := ih h
    rw [List.length_insertIdx_of_le_length hle] at hlen
    exact ⟨by omega, List.forall_mem_cons.2 ⟨by omega, hmem⟩⟩

theorem index_lt_of_mergedLog {log entries log' : List LogEntry} {last : LogEntry}
    (h : mergedLog log entries = some log') (hlast : entries.getLast? = some last) :
    last.index < log'.length := by
  obtain ⟨hlen, hmem⟩ := index_lt_of_insertNewEntries h
  rcases @mem_collectNewEntries_getLast? log [] entries last hlast with hin | hlt
  · exact hmem last hin
  · omega

section

variable [StateMachine σ]

/-- The reply to an accepted message is a success, and the last thing the handler does. -/
theorem send_mem_acceptAppendEntries {s snap : Server σ} {msg : AppendEntries} {nodeId : NodeId}
    {out : Outgoing} (h : .send out snap ∈ (s.acceptAppendEntries msg nodeId).effects) :
    (s.acceptAppendEntries msg nodeId).server = snap ∧
      out = ⟨.node nodeId, .appendEntriesResponse ⟨snap.currentTerm, true⟩⟩ := by
  unfold acceptAppendEntries at h ⊢
  cases hp : (s.applyLatestCommitedLogs msg.leaderCommit).panicked with
  | true =>
    rw [Outcome.andThen_of_panicked hp] at h
    exact absurd h (send_notMem_applyLatestCommitedLogs _ _)
  | false =>
    rw [Outcome.andThen_of_not_panicked hp] at h ⊢
    have h := (List.mem_append.1 h).resolve_left (send_notMem_applyLatestCommitedLogs _ _)
    revert h
    simp only [deleteConflictingAndAppendNewEntries]
    split
    · simp
    · split
      · simp [Outcome.andThen]
      · rw [Outcome.done_andThen, commitAndReply]
        split
        · simp
        · intro h
          cases List.mem_singleton.1 h
          exact ⟨rfl, rfl⟩

/-- **Log merge.**  Whenever `handle_append_entries` replies `success = true` to a message whose
entries are numbered from some `n` up to the length of the log on, it has taken over the message's
term and the log is the merge of the two. -/
theorem append_entries_merges {s snap : Server σ} {nodeId : NodeId} {msg : AppendEntries} {n : ℕ}
    {out : Outgoing} {reply : AppendEntriesResponse} (hentries : NumberedFrom n msg.entries)
    (hn : n ≤ s.log.length)
    (hsend : .send out snap ∈ (s.handleAppendEntries (.peer nodeId) msg).effects)
    (hreply : out.msg = .appendEntriesResponse reply) (hok : reply.success = true) :
    (s.handleAppendEntries (.peer nodeId) msg).server = snap ∧
      snap.currentTerm = msg.term ∧ snap.log = merge s.log n msg.entries := by
  obtain ⟨log, hens⟩ := s.handleAppendEntries_ensures (.peer nodeId) msg
  obtain ⟨dest, m⟩ := out
  obtain rfl : m = .appendEntriesResponse reply := hreply
  obtain ⟨nodeId', msg', -, heq, hacc, -, hmerge, hterm⟩ := (hens.sends hsend).2.success hok
  obtain ⟨rfl, rfl⟩ : nodeId = nodeId' ∧ msg = msg' := by simpa using heq
  rw [mergedLog_eq_merge hentries hn] at hmerge
  refine ⟨?_, hterm, (Option.some.inj hmerge).symm⟩
  rw [handleAppendEntries_of_accepts nodeId hacc] at hsend ⊢
  exact (send_mem_acceptAppendEntries hsend).1

end

/-- A follower whose second entry is of an older term than the leader's. -/
theorem append_entries_merges_conflict :
    let old : LogEntry := ⟨1, .set "x" "1", 0, 7, 1⟩
    let stale : LogEntry := ⟨1, .set "x" "2", 1, 7, 2⟩
    let new : LogEntry := ⟨2, .set "x" "3", 1, 8, 1⟩
    let next : LogEntry := ⟨2, .delete "x", 2, 8, 2⟩
    let s := { Server.new 2 ⟨3, [1, 2, 3]⟩ SimpleStateMachine.new with
      log := [old, stale], currentTerm := 1 }
    let o := s.handleAppendEntries (.peer 1) ⟨2, 1, 0, 1, [new, next], -1⟩
    o.sent = [⟨.node 1, .appendEntriesResponse ⟨2, true⟩⟩] ∧ o.server.currentTerm = 2 ∧
      o.server.log = [old, new, next] := by
  intro old stale new next s o
  have hentries : NumberedFrom 1 [new, next] := by decide
  have hsend : ∃ snap, .send ⟨.node 1, .appendEntriesResponse ⟨2, true⟩⟩ snap ∈ o.effects :=
    ⟨_, List.mem_cons_self⟩
  obtain ⟨snap, hsend⟩ := hsend
  obtain ⟨hserver, hterm, hlog⟩ := append_entries_merges hentries (by decide) hsend rfl rfl
  refine ⟨rfl, ?_, ?_⟩
  · rw [hserver, hterm]
  · rw [hserver, hlog]
    decide

/-! ### Any sequence of merges -/

/-- Messages handed to `delete_conflicting_and_append_new_entries` one after the other. -/
def merging : Machine (Server σ) AppendEntries where
  next s msg :=
    let o := s.deleteConflictingAndAppendNewEntries msg
    if o.panicked then none else some o.server

/-- The message carries the piece `L[a..b]`. -/
structure IsSlice (L : List LogEntry) (a b : ℕ) (msg : AppendEntries) : Prop where
  le : a ≤ b
  bound : b ≤ L.length
  entries : msg.entries = (L.take b).drop a

/-- A piece of `L` that starts no later than the log ends. -/
def Delivers (L : List LogEntry) (s : Server σ) (msg : AppendEntries) : Prop :=
  ∃ a b, IsSlice L a b msg ∧ a ≤ s.log.length

theorem merging_next {L : List LogEntry} {s : Server σ} {msg : AppendEntries} {a b : ℕ}
    (hL : NumberedFrom 0 L) (hslice : IsSlice L a b msg) (ha : a ≤ s.log.length) :
    ∃ log, merging.next s msg = some { s with log := log } ∧
      Grafted LogEntry.term s.log (L.take b) a log := by
  have hnum : NumberedFrom a msg.entries := by
    rw [hslice.entries]
    exact (hL.take b).drop a
  refine ⟨_, ?_, grafted_graft LogEntry.term (L.take b) ha⟩
  have hmerged := mergedLog_eq_graft hnum ha
  rw [mergedLog] at hmerged
  simp only [merging, deleteConflictingAndAppendNewEntries, hmerged]
  rw [hslice.entries]
  rfl

/-- The log agrees with `L` at least as far as `log₀` does, and holds what `log₀` holds there. -/
structure KeepsAgreed (L log₀ log : List LogEntry) : Prop where
  le : agreed LogEntry.term log₀ L ≤ agreed LogEntry.term log L
  take : log.take (agreed LogEntry.term log₀ L) = log₀.take (agreed LogEntry.term log₀ L)

/-- **Deliveries in any order keep the agreed prefix.** -/
theorem keepsAgreed_of_run {L : List LogEntry} {s s' : Server σ} {msgs : List AppendEntries}
    (hL : NumberedFrom 0 L) (h : merging.Run (Delivers L) s msgs s') :
    KeepsAgreed L s.log s'.log := by
  refine h.invariant (I := fun s' => KeepsAgreed L s.log s'.log) ⟨Nat.le_refl _, rfl⟩ ?_
  rintro s₁ msg s₂ ⟨hle, htake⟩ ⟨a, b, hslice, ha⟩ hnext
  obtain ⟨log, hnext', hgraft⟩ := merging_next hL hslice ha
  obtain rfl : { s₁ with log := log } = s₂ := Option.some.inj (hnext'.symm.trans hnext)
  exact ⟨Nat.le_trans hle hgraft.agreed_le, (hgraft.take_eq hle).trans htake⟩

theorem numbered_of_run {L : List LogEntry} {s s' : Server σ} {msgs : List AppendEntries}
    (hL : NumberedFrom 0 L) (hs : NumberedFrom 0 s.log)
    (h : merging.Run (Delivers L) s msgs s') : NumberedFrom 0 s'.log := by
  refine h.invariant (I := fun s' => NumberedFrom 0 s'.log) hs ?_
  rintro s₁ msg s₂ hs₁ ⟨a, b, hslice, ha⟩ hnext
  obtain ⟨log, hnext', hgraft⟩ := merging_next hL hslice ha
  obtain rfl : { s₁ with log := log } = s₂ := Option.some.inj (hnext'.symm.trans hnext)
  intro k entry hk
  rcases hgraft.getElem? hk with hk | hk
  · exact hs₁ k entry hk
  · exact hL.take b k entry hk

/-- **Stale messages never undo replication.**  Let pieces of the reference log `L` be delivered in
any order, with repetitions, each starting no later than the log of that moment ends.  The prefix
in which the log agrees with `L` never shrinks and is not touched, the entries stay at their
indices, no delivery panics, and as soon as a piece that starts within the prefix is delivered,
the prefix covers it for good. -/
theorem deliveries_never_undo_replication {L : List LogEntry} {s s' : Server σ}
    {msgs : List AppendEntries} (hL : NumberedFrom 0 L) (hs : NumberedFrom 0 s.log)
    (hrun : merging.Run (Delivers L) s msgs s') :
    KeepsAgreed L s.log s'.log ∧ NumberedFrom 0 s'.log ∧
      ∀ a b msg, IsSlice L a b msg → a ≤ s'.log.length →
        ∃ s₁, merging.next s' msg = some s₁ ∧ (a ≤ agreed LogEntry.term s'.log L →
          ∀ msgs' s₂, merging.Run (Delivers L) s₁ msgs' s₂ →
            b ≤ agreed LogEntry.term s₂.log L) := by
  refine ⟨keepsAgreed_of_run hL hrun, numbered_of_run hL hs hrun, ?_⟩
  intro a b msg hslice ha
  obtain ⟨log, hnext, hgraft⟩ := merging_next hL hslice ha
  refine ⟨_, hnext, fun hagreed msgs' s₂ hrun' => ?_⟩
  have hcovered : b ≤ agreed LogEntry.term log L := hgraft.covers hslice.bound hagreed
  exact Nat.le_trans hcovered (keepsAgreed_of_run hL hrun').le

/-- A late batch that repairs a conflict, and after it an early one: the log stays repaired. -/
theorem deliveries_never_undo_replication_stale :
    let first : LogEntry := ⟨1, .set "x" "1", 0, 7, 1⟩
    let second : LogEntry := ⟨2, .set "x" "2", 1, 7, 2⟩
    let third : LogEntry := ⟨2, .set "x" "3", 2, 7, 3⟩
    let stale : LogEntry := ⟨1, .delete "x", 1, 8, 1⟩
    let s := { Server.new 2 ⟨3, [1, 2, 3]⟩ SimpleStateMachine.new with log := [first, stale] }
    let late : AppendEntries := ⟨2, 1, 0, 1, [second, third], -1⟩
    let early : AppendEntries := ⟨2, 1, -1, 0, [first], -1⟩
    ∃ s₁ s₂, merging.next s late = some s₁ ∧
      merging.Run (Delivers [first, second, third]) s₁ [early] s₂ ∧
        3 ≤ agreed LogEntry.term s₂.log [first, second, third] := by
  intro first second third stale s late early
  have hL : NumberedFrom 0 [first, second, third] := by decide
  have hs : NumberedFrom 0 s.log := by decide
  obtain ⟨-, -, hdeliver⟩ := deliveries_never_undo_replication hL hs (.nil : merging.Run _ s [] s)
  obtain ⟨s₁, hnext, hcovers⟩ := hdeliver 1 3 late ⟨by decide, by decide, rfl⟩ (by decide)
  obtain rfl : { s with log := [first, second, third] } = s₁ := Option.some.inj hnext
  have hrun : merging.Run (Delivers [first, second, third])
      { s with log := [first, second, third] } ([] ++ [early])
      { s with log := [first, second, third] } :=
    .snoc .nil ⟨0, 1, ⟨by decide, by decide, rfl⟩, by decide⟩ rfl
  exact ⟨_, _, rfl, hrun, hcovers (by decide) _ _ hrun⟩

end Server

end MiniRaft
