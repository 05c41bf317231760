import MiniRaft.Cluster.StateMachineSafety

/-!
# Where commit indices come from

A follower takes its commit index from a message, and a message from its sender's.  In every run
with short logs, under any loss, duplication and reordering, no node and no message regards more as
committed than some leader has committed itself: an entry of its own term, in its own log.
-/

namespace MiniRaft

variable {σ : Type}

namespace Cluster

open Server

/-- Some leader has raised its commit index at least to `n`, at an entry of its term. -/
def LeaderCommitted (c : Cluster σ) (n : ℤ) : Prop :=
  ∃ (q : NodeId) (T m : ℕ) (log : List LogEntry) (entry : LogEntry),
    .committed q T m log ∈ c.history ∧ n ≤ m ∧ log[m]? = some entry ∧ entry.term = T

/-- What is committed comes from a leader. -/
def CommitFrom (c : Cluster σ) (n : ℤ) : Prop := n = -1 ∨ LeaderCommitted c n

variable {ids : List NodeId} {c c' : Cluster σ} {i : NodeId} {n m : ℤ}

theorem CommitFrom.later (h : CommitFrom c n) (hl : c.Later c') : CommitFrom c' n := by
  rcases h with hnone | ⟨q, T, m, log, entry, hev, hrest⟩
  · exact .inl hnone
  · exact .inr ⟨q, T, m, log, entry, hl.history.subset hev, hrest⟩

theorem CommitFrom.of_le (h : CommitFrom c n) (hle : m ≤ n) (hm : -1 ≤ m) : CommitFrom c m := by
  rcases h with hnone | ⟨q, T, k, log, entry, hev, hk, hentry⟩
  · exact .inl (by omega)
  · exact .inr ⟨q, T, k, log, entry, hev, by omega, hentry⟩

/-- All that nodes and messages regard as committed comes from leaders. -/
structure Sourced (c : Cluster σ) : Prop where
  nodes : ∀ i, CommitFrom c (c.nodes i).commitIndex
  sent : ∀ e ∈ c.sent, ∀ msg, e.msg = .appendEntries msg → CommitFrom c msg.leaderCommit

/-- An accepted message makes a node regard no more as committed than it did, or the message
does. -/
theorem acceptedCommit_le_max (s : Server σ) (msg : AppendEntries) :
    s.acceptedCommit msg ≤ s.commitIndex ∨ s.acceptedCommit msg ≤ msg.leaderCommit := by
  rcases acceptedCommit_le s msg with hle | ⟨-, hle⟩
  · rcases clampCommit_le s msg.leaderCommit with hclamp | ⟨-, hclamp, -⟩
    · exact .inl (Int.le_trans hle hclamp)
    · exact .inr (Int.le_trans hle hclamp)
  · exact .inr hle

/-- **One phase.** -/
theorem Sourced.phase {cause : Option Message} {P : Server σ → Prop}
    {Q : Outgoing → Server σ → Prop}
    {A : ℕ → LogCommand → Prop} (h : Sourced c) (hlater : c.Later c')
    (hphase : c.PhaseOf ids i cause P Q A c')
    (hnode : c'.crashed i = false → CommitFrom c' (c'.nodes i).commitIndex)
    (hsend : ∀ e, SentBy ids i cause (fun out s => P s ∧ Q out s) e → ∀ msg,
      e.msg = .appendEntries msg → CommitFrom c' msg.leaderCommit) : Sourced c' where
  nodes := by
    intro j
    rcases hphase.moved j with hsame | ⟨rfl, hc, -⟩
    · rw [hsame]
      exact (h.nodes j).later hlater
    · exact hnode hc
  sent := by
    intro e he msg hmsg
    rcases hphase.sentBy he with he | he
    · exact (h.sent e he msg hmsg).later hlater
    · exact hsend e he msg hmsg

variable [StateMachine σ] {stateMachine : NodeId → σ} {a : Action}

/-- **A handler**: only a leader that commits goes beyond what it has been told. -/
theorem Sourced.handler (h : Sourced c) (hv : Visited ids stateMachine (Short ids) c)
    (hshort : Short ids c a) (hs : c.HandlerStep ids a c') : Sourced c' := by
  have hlater := hs.later
  have hv' := hv.handler hshort hs
  obtain ⟨i, incoming, log, harr, -, hphase⟩ := hs
  have hlen := hshort i hphase.mem
  have hbooks' := ((preserved_books fun _ _ hg => hg).visited hv').1 i
  refine h.phase hlater hphase (fun hc => ?_) fun e he msg hmsg => ?_
  · obtain ⟨hs, -⟩ := hphase.ran hc
    have raised : (c.nodes i).state.isLeader = true → (c'.nodes i).state.isLeader = true →
        (c.nodes i).commitIndex < (c'.nodes i).commitIndex →
        .committed i (c'.nodes i).currentTerm (c'.nodes i).commitIndex (c'.nodes i).log ∈
          c'.history := fun hl hl' hlt =>
      hphase.change hc (mem_changeOf_committed.2 ⟨rfl, rfl, rfl, rfl, hl, hl', hlt⟩)
    have hci := hbooks'.commit
    generalize c'.nodes i = s' at hs raised hci ⊢
    cases hs with
    | keep | stepDown | vote | win | push => exact (h.nodes i).later hlater
    | @accept nodeId msg sm ci la log heq _ _ hcommits =>
      subst heq
      obtain ⟨e, he, -, -, hmsg⟩ := harr.appendEntries
      obtain ⟨rfl, -⟩ := hcommits hlen
      rcases acceptedCommit_le_max (c.nodes i) msg with hle | hle
      · exact ((h.nodes i).later hlater).of_le hle hci.1
      · exact ((h.sent e he msg hmsg).later hlater).of_le hle hci.1
    | @response msg mi mi' ni sm ci la _ _ hcredit hraise =>
      cases hraise with
      | keep => exact (h.nodes i).later hlater
      | commit hcommit =>
        obtain ⟨hpos, entry, hentry, hterm⟩ := hcommit.entry hlen
        have hev := raised hcredit.isLeader rfl hcommit.lt
        obtain ⟨k, rfl⟩ := Int.eq_ofNat_of_zero_le hpos
        exact .inr ⟨i, _, k, _, entry, hev, Int.le_refl _, hentry, hterm⟩
  · obtain ⟨dest, ⟨-, hemit⟩, -⟩ := he.out
    rw [hmsg] at hemit
    obtain ⟨-, hr, -, hci⟩ := hemit.appendEntries
    rw [hr.commit, hci]
    exact (h.nodes i).later hlater

omit [StateMachine σ] in
/-- **A role loop.** -/
theorem Sourced.loop (h : Sourced c) (hs : c.LoopStep ids c') : Sourced c' := by
  have hlater := hs.later
  obtain ⟨i, -, hphase⟩ := hs
  refine h.phase hlater hphase (fun hc => ?_) fun e he msg hmsg => ?_
  · rw [(hphase.ran hc).commitIndex_eq]
    exact (h.nodes i).later hlater
  · obtain ⟨dest, ⟨hgoes, hann⟩, -⟩ := he.out
    rw [hmsg] at hann
    cases hann with
    | heartbeat hr =>
      rw [hr.commit, hgoes.commitIndex_eq]
      exact (h.nodes i).later hlater

theorem Visited.sourced (h : Visited ids stateMachine (Short ids) c) : Sourced c := by
  induction h with
  | init => exact ⟨fun _ => .inl rfl, by simp [Cluster.init]⟩
  | handler hv hg hs ih => exact ih.handler hv hg hs
  | loop _ hs ih => exact ih.loop hs

/-- **Commits come from leaders.**  Whatever a node regards as committed in a run with short logs,
or an `AppendEntries` says to be committed, some leader has raised its own commit index at least as
far, up to an entry of its own term in its log. -/
theorem commits_from_leaders (h : (machine σ ids).Reach (Short ids) (init ids stateMachine) c) :
    (∀ i, CommitFrom c (c.nodes i).commitIndex) ∧
    ∀ e ∈ c.sent, ∀ msg, e.msg = .appendEntries msg → CommitFrom c msg.leaderCommit := by
  have hsourced : Sourced c := (visited_of_reach h).sourced
  exact ⟨hsourced.nodes, hsourced.sent⟩

/-- Node 2 hears from a heartbeat what node 1 has committed. -/
theorem commits_from_leaders_heartbeat : ∃ c : Cluster SimpleStateMachine,
    (c.nodes 2).commitIndex = 0 ∧ CommitFrom c (c.nodes 2).commitIndex := by
  have hrun : ((machine SimpleStateMachine [1, 2, 3]).exec (Short [1, 2, 3])
      (init [1, 2, 3] fun _ => .new)
      [.timeout 1, .receive [1, 2, 3] 0, .receive [1, 2, 3] 1, .receive [1, 2, 3] 2,
        .receive [1, 2, 3] 3, .set [1, 2, 3] 1 "x" "1", .receive [1, 2, 3] 8,
        .receive [1, 2, 3] 12, .timeout 1, .receive [1, 2, 3] 13]).any
      (fun c => decide ((c.nodes 2).commitIndex = 0)) = true := by
    decide
  obtain ⟨c, hc, hcommit⟩ := Machine.exists_reach_of_exec hrun
  exact ⟨c, hcommit, (commits_from_leaders hc).1 2⟩

end Cluster

end MiniRaft
