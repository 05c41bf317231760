import MiniRaft.Server.Log
import MiniRaft.Server.Votes

/-!
# The checks of the handlers

What the handlers make of the two things every Raft message is checked for, its term and, in an
`AppendEntries`, the entry before the new ones.

* `Server.term_adopted_iff` : the messages whose term a server takes over as it should.
* `Server.consistency_check` : the messages that pass `reply_false_if_prev_log_does_not_match`.
-/

namespace MiniRaft

variable {σ : Type}

namespace Message

/-- The term that a Raft request or reply carries. -/
def term : Message → Option ℕ
  | appendEntries msg => some msg.term
  | appendEntriesResponse msg => some msg.term
  | requestVote msg => some msg.term
  | requestVoteResponse msg => some msg.term
  | _ => none

end Message

/-- What holds after the first part and is kept by the second holds in the end, panic or not. -/
theorem Outcome.andThen_server {P : Server σ → Prop} {o : Outcome σ} {f : Server σ → Outcome σ}
    (h : P o.server) (hf : ∀ s, P s → P (f s).server) : P (o.andThen f).server := by
  cases hp : o.panicked with
  | true =>
    rw [andThen_of_panicked hp]
    exact h
  | false =>
    rw [andThen_of_not_panicked hp]
    exact hf _ h

namespace Server

/-! ### The term -/

/-- The server `s`, once it has handled `msg` and become `s'`, has adopted the term `T` that the
message carries. -/
structure Adopts (s : Server σ) (msg : Message) (T : ℕ) (s' : Server σ) : Prop where
  reached : T ≤ s'.currentTerm
  follows : s.currentTerm < T → s'.state = .follower ∧ s'.currentTerm = T
  yields : s.state.isCandidate = true → msg.asAppendEntries.isSome = true → T = s.currentTerm →
    s'.state = .follower

/-- The handler comes to look at the term of the message, if it has to do something about it. -/
def Heeds (s : Server σ) : Message → Prop
  | .appendEntries msg => (msg.term = s.currentTerm → s.state.isCandidate = false) ∧
      (s.currentTerm < msg.term → s.prevLogIndexMatching msg = true)
  | .appendEntriesResponse msg => s.currentTerm < msg.term → s.state.isLeader = true
  | .requestVote msg => msg.term ≤ s.currentTerm
  | .requestVoteResponse msg => s.currentTerm < msg.term → s.state.isCandidate = true
  | _ => True

instance (s : Server σ) : (msg : Message) → Decidable (s.Heeds msg)
  | .appendEntries _ => inferInstanceAs (Decidable ((_ → _) ∧ (_ → _)))
  | .appendEntriesResponse _ => inferInstanceAs (Decidable (_ → _))
  | .requestVote _ => inferInstanceAs (Decidable (_ ≤ _))
  | .requestVoteResponse _ => inferInstanceAs (Decidable (_ → _))
  | .clientRequest _ | .clientResponse _ | .hello _ | .helloClient _ => .isTrue trivial

/-- A server in the same term and role has adopted a term just if there was nothing to adopt. -/
theorem adopts_iff_of_same {s s' : Server σ} {msg : Message} {T : ℕ}
    (hterm : s'.currentTerm = s.currentTerm) (hstate : s'.state = .follower ↔ s.state = .follower) :
    s.Adopts msg T s' ↔ T ≤ s.currentTerm ∧
      (msg.asAppendEntries.isSome = true → T = s.currentTerm → s.state.isCandidate = false) := by
  constructor
  · intro h
    refine ⟨hterm ▸ h.reached, fun hmsg hT => Bool.eq_false_iff.2 fun hc => ?_⟩
    have hf : s.state = .follower := hstate.1 (h.yields hc hmsg hT)
    rw [hf] at hc
    cases hc
  · rintro ⟨hle, hno⟩
    refine ⟨hterm ▸ hle, fun hlt => absurd hlt (Nat.not_lt.2 hle), fun hc hmsg hT => ?_⟩
    rw [hno hmsg hT] at hc
    cases hc

theorem adopts_of_follower {s s' : Server σ} {msg : Message} {T : ℕ} (hterm : s'.currentTerm = T)
    (hstate : s'.state = .follower) : s.Adopts msg T s' :=
  ⟨Nat.le_of_eq hterm.symm, fun _ => ⟨hstate, hterm⟩, fun _ _ _ => hstate⟩

theorem adopts_of_le {s s' : Server σ} {msg : Message} {T : ℕ} (hle : T ≤ s.currentTerm)
    (hterm : s'.currentTerm = s.currentTerm) (hmsg : msg.asAppendEntries = none) :
    s.Adopts msg T s' := by
  refine ⟨hterm ▸ hle, fun hlt => absurd hlt (Nat.not_lt.2 hle), fun _ hsome => ?_⟩
  rw [hmsg] at hsome
  cases hsome

variable [StateMachine σ]

theorem applyLatestCommitedLogs_server (s : Server σ) (lc : ℤ) :
    (s.applyLatestCommitedLogs lc).server.currentTerm = s.currentTerm ∧
      (s.applyLatestCommitedLogs lc).server.state = s.state := by
  have loop : ∀ (n : ℕ) (s' : Server σ), (s'.applyLoop n).server.currentTerm = s'.currentTerm ∧
      (s'.applyLoop n).server.state = s'.state := by
    intro n s'
    obtain ⟨⟨sm, k, -, h⟩, -⟩ := applyLoop_spec n s'
    rw [h]
    exact ⟨rfl, rfl⟩
  unfold applyLatestCommitedLogs
  split
  · split
    · exact ⟨rfl, rfl⟩
    · split
      · exact loop _ _
      · exact loop _ _
  · exact loop _ _

theorem acceptAppendEntries_server (s : Server σ) (msg : AppendEntries) (nodeId : NodeId) :
    (s.acceptAppendEntries msg nodeId).server.currentTerm = s.currentTerm ∧
      (s.acceptAppendEntries msg nodeId).server.state = s.state := by
  unfold acceptAppendEntries
  refine Outcome.andThen_server (P := fun s' => s'.currentTerm = s.currentTerm ∧ s'.state = s.state)
    (s.applyLatestCommitedLogs_server msg.leaderCommit) fun s' hs' => ?_
  split
  · exact hs'
  · refine Outcome.andThen_server
      (P := fun s' => s'.currentTerm = s.currentTerm ∧ s'.state = s.state) ?_ fun s'' hs'' => ?_
    · unfold deleteConflictingAndAppendNewEntries
      split
      · exact hs'
      · exact hs'
    · unfold commitAndReply
      split
      · exact hs''
      · simp only [Outcome.send_server]
        split
        · exact hs''
        · exact hs''

/-! A leader that handles a reply keeps its term, part by part of the handler. -/

theorem applyRepeatedly_currentTerm (ci : ℤ) (n : ℕ) (s : Server σ) :
    (applyRepeatedly ci n s).server.currentTerm = s.currentTerm := by
  induction n generalizing s with
  | zero => rfl
  | succ n ih =>
    refine Outcome.andThen_server (P := fun s' => s'.currentTerm = s.currentTerm)
      (s.applyLatestCommitedLogs_server ci).1 fun s' hs' => (ih s').trans hs'

omit [StateMachine σ] in
theorem answerClient_currentTerm (s : Server σ) :
    s.answerClient.server.currentTerm = s.currentTerm := by
  obtain ⟨st, heq | heq | ⟨_, _, -, -, heq⟩⟩ := s.answerClient_cases
  · rw [heq, Outcome.panic_server]
  · rw [heq, Outcome.done_server]
  · rw [heq, Outcome.send_server]

theorem advanceCommit_currentTerm (s : Server σ) (success : Bool) :
    (s.advanceCommit success).server.currentTerm = s.currentTerm := by
  have hcases := s.advanceCommit_cases success
  generalize s.advanceCommit success = o at hcases
  cases hcases with
  | panic => rfl
  | idle => rfl
  | keep => rfl
  | raise => rfl
  | commit =>
    exact Outcome.andThen_server (P := fun s' => s'.currentTerm = s.currentTerm)
      (applyRepeatedly_currentTerm _ _ _) fun s' hs' => (answerClient_currentTerm s').trans hs'

omit [StateMachine σ] in
theorem creditFollower_currentTerm (s : Server σ) (mi : List ℤ) (ni : List ℕ) (i : NodeId) :
    (s.creditFollower mi ni i).server.currentTerm = s.currentTerm := by
  rcases s.creditFollower_cases mi ni i with heq | ⟨_, -, -, -, -, heq⟩
  · rw [heq, Outcome.panic_server]
  · rw [heq, Outcome.done_server]

omit [StateMachine σ] in
theorem retryFollower_currentTerm (s : Server σ) (mi : List ℤ) (ni : List ℕ) (i : NodeId) :
    (s.retryFollower mi ni i).server.currentTerm = s.currentTerm := by
  rcases s.retryFollower_cases mi ni i with ⟨st, heq⟩ | ⟨_, _, -, -, -, heq⟩
  · rw [heq, Outcome.panic_server]
  · rw [heq, Outcome.send_server]

theorem handleAppendEntriesResponse_currentTerm {s : Server σ} (sender : Id)
    {msg : AppendEntriesResponse} (hle : msg.term ≤ s.currentTerm) :
    (s.handleAppendEntriesResponse sender msg).server.currentTerm = s.currentTerm := by
  rcases s.handleAppendEntriesResponse_cases sender msg with
    ⟨-, hgt, -⟩ | heq | ⟨mi, ni, peer, -, -, -, heq⟩
  · exact absurd hgt (Nat.not_lt.2 hle)
  · rw [heq, Outcome.done_server]
  · rw [heq]
    refine Outcome.andThen_server (P := fun s' => s'.currentTerm = s.currentTerm) ?_
      fun s' hs' => (s'.advanceCommit_currentTerm msg.success).trans hs'
    split
    · exact s.creditFollower_currentTerm _ _ _
    · exact s.retryFollower_currentTerm _ _ _

theorem adopts_handleAppendEntries_iff (s : Server σ) (peer : NodeId) (msg : AppendEntries) :
    s.Adopts (.appendEntries msg) msg.term (s.handleAppendEntries (.peer peer) msg).server ↔
      s.Heeds (.appendEntries msg) := by
  rcases s.handleAppendEntries_cases peer msg with
    ⟨hno, heq⟩ | ⟨hgt, hm, -, heq⟩ | ⟨⟨-, hm, hrole⟩, heq⟩
  · -- the reply leaves the server as it was
    rw [heq, Outcome.send_server, adopts_iff_of_same rfl Iff.rfl]
    simp only [Message.asAppendEntries, Option.isSome_some, forall_const, Heeds]
    constructor
    · rintro ⟨hle, hyields⟩
      exact ⟨hyields, fun hlt => absurd hlt (Nat.not_lt.2 hle)⟩
    · rintro ⟨hyields, hmatching⟩
      refine ⟨Nat.not_lt.1 fun hgt => ?_, hyields⟩
      rcases hno with hlt | hm
      · exact Nat.lt_asymm hlt hgt
      · exact Bool.false_ne_true (hm.symm.trans (hmatching hgt))
  · -- a Candidate or a Leader steps down
    rw [heq]
    refine iff_of_true (adopts_of_follower rfl rfl) ⟨fun hsame => ?_, fun _ => hm⟩
    exact absurd hsame (Nat.ne_of_gt hgt)
  · -- the message is accepted, which ends no candidacy
    obtain ⟨hterm, hstate⟩ := acceptAppendEntries_server { s with currentTerm := msg.term } msg peer
    rw [heq]
    rcases hrole with hf | hsame
    · refine iff_of_true (adopts_of_follower hterm (hstate.trans hf)) ⟨fun _ => ?_, fun _ => hm⟩
      rw [hf]
      rfl
    · rw [adopts_iff_of_same (hterm.trans hsame) (by rw [hstate])]
      simp only [Message.asAppendEntries, Option.isSome_some, forall_const, Heeds]
      constructor
      · exact fun h => ⟨h.2, fun _ => hm⟩
      · exact fun h => ⟨Nat.le_of_eq hsame, h.1⟩

theorem adopts_handleAppendEntriesResponse_iff (s : Server σ) (sender : Id)
    (msg : AppendEntriesResponse) :
    s.Adopts (.appendEntriesResponse msg) msg.term (s.handleAppendEntriesResponse sender msg).server ↔
      s.Heeds (.appendEntriesResponse msg) := by
  rcases Nat.lt_or_ge s.currentTerm msg.term with hgt | hle
  · cases hst : s.state with
    | leader mi ni =>
      have hdown : s.handleAppendEntriesResponse sender msg =
          .done (s.becomeFollower msg.term) := by
        simp [handleAppendEntriesResponse, hst, hgt, becomeFollowerIfHigherTerm]
      rw [hdown]
      exact iff_of_true (adopts_of_follower rfl rfl) fun _ => by rw [hst]; rfl
    | _ =>
      have hkeep : s.handleAppendEntriesResponse sender msg = .done s := by
        simp [handleAppendEntriesResponse, hst]
      -- no other role looks at the term of the reply
      rw [hkeep]
      refine iff_of_false (fun h => Nat.not_le.2 hgt h.reached) fun h => ?_
      simpa [hst] using h hgt
  · have hterm : (s.handleAppendEntriesResponse sender msg).server.currentTerm = s.currentTerm :=
      s.handleAppendEntriesResponse_currentTerm sender hle
    exact iff_of_true (adopts_of_le hle hterm rfl) fun hgt => absurd hgt (Nat.not_lt.2 hle)

omit [StateMachine σ] in
theorem adopts_handleRequestVoteRpc_iff (s : Server σ) (msg : RequestVote) :
    s.Adopts (.requestVote msg) msg.term (s.handleRequestVoteRpc msg).server ↔
      s.Heeds (.requestVote msg) := by
  rw [handleRequestVoteRpc_server, adopts_iff_of_same rfl Iff.rfl]
  simp [Message.asAppendEntries, Heeds]

omit [StateMachine σ] in
theorem adopts_handleRequestVoteResponseRpc_iff (s : Server σ) (msg : RequestVoteResponse) :
    s.Adopts (.requestVoteResponse msg) msg.term (s.handleRequestVoteResponseRpc msg) ↔
      s.Heeds (.requestVoteResponse msg) := by
  rcases Nat.lt_or_ge s.currentTerm msg.term with hgt | hle
  · cases hst : s.state with
    | candidate votes =>
      have hdown : s.handleRequestVoteResponseRpc msg = s.becomeFollower msg.term := by
        simp [handleRequestVoteResponseRpc, hst, hgt, becomeFollowerIfHigherTerm]
      rw [hdown]
      exact iff_of_true (adopts_of_follower rfl rfl) fun _ => by rw [hst]; rfl
    | _ =>
      have hkeep : s.handleRequestVoteResponseRpc msg = s := by
        simp [handleRequestVoteResponseRpc, hst]
      -- no other role looks at the term of the reply
      rw [hkeep]
      refine iff_of_false (fun h => Nat.not_le.2 hgt h.reached) fun h => ?_
      simpa [hst] using h hgt
  · have hterm : (s.handleRequestVoteResponseRpc msg).currentTerm = s.currentTerm := by
      unfold handleRequestVoteResponseRpc
      split
      · rw [if_neg (Nat.not_lt.2 hle)]
        split
        · split
          · rfl
          · rfl
        · rfl
      · rfl
    exact iff_of_true (adopts_of_le hle hterm rfl) fun hgt => absurd hgt (Nat.not_lt.2 hle)

/-- **Term adoption.**  Whatever the server and the message, the server that `recieve_rpc` leaves,
or that it panics with, has adopted the term of the message exactly if the handler comes to look at
it. -/
theorem term_adopted_iff (s : Server σ) (order : List NodeId) (peer : NodeId) (msg : Message) :
    (∀ T ∈ msg.term, s.Adopts msg T (s.recieveRpc order ⟨.peer peer, msg⟩).server) ↔
      s.Heeds msg := by
  cases msg with
  | appendEntries msg =>
    simpa [Message.term, recieveRpc] using s.adopts_handleAppendEntries_iff peer msg
  | appendEntriesResponse msg =>
    simpa [Message.term, recieveRpc] using s.adopts_handleAppendEntriesResponse_iff (.peer peer) msg
  | requestVote msg => simpa [Message.term, recieveRpc] using s.adopts_handleRequestVoteRpc_iff msg
  | requestVoteResponse msg =>
    simpa [Message.term, recieveRpc] using s.adopts_handleRequestVoteResponseRpc_iff msg
  | _ => simp [Message.term, Heeds]

/-- A Follower grants a request of term 2 and stays in term 0. -/
theorem term_not_adopted :
    let s := Server.new 1 ⟨3, [1, 2, 3]⟩ SimpleStateMachine.new
    ¬ s.Adopts (.requestVote ⟨2, 2, 0, 0⟩) 2
      (s.recieveRpc [1, 2, 3] ⟨.peer 2, .requestVote ⟨2, 2, 0, 0⟩⟩).server := by
  intro s h
  exact absurd h.reached (by decide)

/-! ### The previous entry -/

/-- **Consistency check.**  An `AppendEntries`, unless it names no previous entry to a log that is
not empty, is let through exactly if it names none, or the log is empty, or the log holds an entry
at `prev_log_index` whose term is `prev_log_term`; any other is answered with `false`, and leaves
the server as it was. -/
theorem consistency_check (s : Server σ) (msg : AppendEntries) (nodeId : NodeId)
    (hprev : -1 ≤ msg.prevLogIndex) (hlt : msg.prevLogIndex < 2 ^ 31)
    (hfirst : msg.prevLogIndex = -1 → s.log = []) :
    let passes := msg.prevLogIndex = -1 ∨ s.log = [] ∨
      ∃ entry, s.log[msg.prevLogIndex.toNat]? = some entry ∧ entry.term = msg.prevLogTerm
    ((s.replyFalseIfPrevLogDoesNotMatch msg nodeId).2 = true ↔ passes) ∧
      (¬ passes → s.handleAppendEntries (.peer nodeId) msg =
        .send s ⟨.node nodeId, .appendEntriesResponse ⟨s.currentTerm, false⟩⟩) := by
  intro passes
  have hmatching : s.prevLogIndexMatching msg = true ↔ passes := by
    rcases Int.lt_or_le msg.prevLogIndex 0 with hneg | h₀
    · -- here the log is empty: the index becomes a `usize` that no log reaches
      have hnone : msg.prevLogIndex = -1 := by omega
      refine iff_of_true ?_ (.inl hnone)
      simp [prevLogIndexMatching, hfirst hnone]
    · have hnat : msg.prevLogIndex = (msg.prevLogIndex.toNat : ℤ) := (Int.toNat_of_nonneg h₀).symm
      have hsome : msg.prevLogIndex ≠ -1 := by omega
      rw [prevLogIndexMatching_iff hnat (by omega)]
      simp only [passes, hsome, false_or]
  refine ⟨?_, fun hno => ?_⟩
  · rw [← hmatching, replyFalseIfPrevLogDoesNotMatch]
    split
    · rename_i hm
      exact iff_of_true rfl hm
    · rename_i hm
      exact iff_of_false Bool.false_ne_true hm
  · have hm : ¬ s.prevLogIndexMatching msg = true := fun hm => hno (hmatching.1 hm)
    rcases s.handleAppendEntries_cases nodeId msg with
      ⟨-, heq⟩ | ⟨-, hm', -⟩ | ⟨hacc, -⟩
    · exact heq
    · exact absurd hm' hm
    · exact absurd hacc.2.1 hm

/-- A log of one entry lets a message through that names it, and no other. -/
theorem consistency_check_one :
    let s := { Server.new 2 ⟨3, [1, 2, 3]⟩ SimpleStateMachine.new with
      log := [⟨1, .set "x" "1", 0, 1, 1⟩], currentTerm := 1 }
    (s.replyFalseIfPrevLogDoesNotMatch ⟨1, 1, 0, 1, [], -1⟩ 1).2 = true ∧
      s.handleAppendEntries (.peer 1) ⟨1, 1, 0, 2, [], -1⟩ =
        .send s ⟨.node 1, .appendEntriesResponse ⟨1, false⟩⟩ := by
  intro s
  obtain ⟨hpass, -⟩ := consistency_check s ⟨1, 1, 0, 1, [], -1⟩ 1 (by decide)
    (by decide) (by decide)
  obtain ⟨-, hreject⟩ := consistency_check s ⟨1, 1, 0, 2, [], -1⟩ 1 (by decide)
    (by decide) (by decide)
  refine ⟨hpass.2 (.inr (.inr ⟨_, rfl, rfl⟩)), hreject ?_⟩
  rintro (h | h | ⟨entry, hentry, hterm⟩)
  · exact absurd h (by decide)
  · cases h
  · cases hentry
    exact absurd hterm (by decide)

/-- An empty log lets a message through that names an entry at index 5. -/
theorem empty_log_passes :
    let s := Server.new 2 ⟨3, [1, 2, 3]⟩ SimpleStateMachine.new
    let msg : AppendEntries := ⟨1, 1, 5, 1, [], -1⟩
    ¬ ((s.replyFalseIfPrevLogDoesNotMatch msg 1).2 = true ↔ msg.prevLogIndex = -1 ∨
      ∃ entry, s.log[msg.prevLogIndex.toNat]? = some entry ∧ entry.term = msg.prevLogTerm) := by
  intro s msg h
  rcases h.1 (by decide) with h | ⟨entry, hentry, -⟩
  · exact absurd h (by decide)
  · cases hentry

end Server

end MiniRaft
