import MiniRaft.Server.Cancellation

/-!
# Acknowledgements from an earlier leadership

A Leader compares the term of an `AppendEntriesResponse` with its own only to see whether it is
higher.  An acknowledgement of a lower term, which answers a message of an earlier leadership, is
credited to what has been sent last.

* `Server.ignoresAck_of_commitIndex` : what a Leader that does not heed an acknowledgement is like.
* `Server.stale_acks_inert_iff` : the runs in which no stale acknowledgement is heeded.
* `Server.stale_ack_commits` : one that commits an entry its sender does not have.
-/

namespace MiniRaft

variable {σ : Type}

namespace Server

/-- What the sender has been sent last is credited to it already. -/
def Credited (s : Server σ) (mi : List ℤ) (ni : List ℕ) (peer : NodeId) : Prop :=
  ∃ lastSent ∈ s.lastSentIndex[peer]?, mi[peer]? = some lastSent ∧
    ni[peer]? = some (asUsize lastSent + 1) ∧ asUsize lastSent + 1 < 2 ^ 64

theorem Credited.creditFollower {s : Server σ} {mi : List ℤ} {ni : List ℕ} {peer : NodeId}
    (h : s.Credited mi ni peer) (hst : s.state = .leader mi ni) :
    s.creditFollower mi ni peer = .done s := by
  obtain ⟨lastSent, hlast, hmi, hni, hcast⟩ := h
  obtain ⟨hlt, hget⟩ := List.getElem?_eq_some_iff.1 hmi
  obtain ⟨hlt', hget'⟩ := List.getElem?_eq_some_iff.1 hni
  have hmi' : mi.set peer lastSent = mi := by
    rw [← hget, List.set_getElem_self]
  have hni' : ni.set peer (asUsize lastSent + 1) = ni := by
    rw [← hget', List.set_getElem_self]
  unfold Server.creditFollower
  rw [Option.mem_def.1 hlast]
  simp only [hlt, hlt', hcast, and_self, ↓reduceIte, hmi', hni', ← hst]

variable [StateMachine σ]

/-! ### One acknowledgement -/

omit [StateMachine σ] in
/-- The Leader does not heed an acknowledgement from `sender`: it is a client, or everything it has
been sent is credited to it and there is nothing to commit. -/
def IgnoresAck (s : Server σ) (sender : Id) : Prop :=
  ∀ mi ni, s.state = .leader mi ni → ∀ peer, sender = .peer peer →
    s.Credited mi ni peer ∧ s.NothingToCommit mi

theorem IgnoresAck.handleAppendEntriesResponse {s : Server σ} {sender : Id}
    {msg : AppendEntriesResponse} (h : s.IgnoresAck sender) (hok : msg.success = true)
    (hterm : msg.term ≤ s.currentTerm) : s.handleAppendEntriesResponse sender msg = .done s := by
  unfold Server.handleAppendEntriesResponse
  split
  · rename_i mi ni hst
    rw [if_neg (Nat.not_lt.2 hterm)]
    cases sender with
    | client _ => rfl
    | peer peer =>
      obtain ⟨hcredited, hnothing⟩ := h mi ni hst peer rfl
      simp only [hok, ↓reduceIte]
      rw [hcredited.creditFollower hst, Outcome.done_andThen,
        advanceCommit_of_nothingToCommit true hst hnothing]
  · rfl

/-- A Leader that an acknowledgement leaves with the same vectors and commit index has not heeded
it. -/
theorem ignoresAck_of_commitIndex {s : Server σ} {sender : Id} {msg : AppendEntriesResponse}
    (hok : msg.success = true) (hterm : msg.term ≤ s.currentTerm)
    (hp : (s.handleAppendEntriesResponse sender msg).panicked = false)
    (hstate : (s.handleAppendEntriesResponse sender msg).server.state = s.state)
    (hci : (s.handleAppendEntriesResponse sender msg).server.commitIndex = s.commitIndex) :
    s.IgnoresAck sender := by
  rintro mi ni hst peer rfl
  have hhandler : s.handleAppendEntriesResponse (.peer peer) msg =
      (s.creditFollower mi ni peer).andThen fun s => s.advanceCommit true := by
    rw [handleAppendEntriesResponse_of_leader peer hst hterm, hok, if_pos rfl]
  rw [hhandler] at hp hstate hci
  rcases s.creditFollower_cases mi ni peer with heq | ⟨lastSent, hlast, hmi, hni, hcast, heq⟩
  · rw [heq, Outcome.andThen_of_panicked rfl] at hp
    cases hp
  · rw [heq, Outcome.done_andThen] at hp hstate hci
    have hnothing := nothingToCommit_of_commitIndex rfl hp hci
    rw [advanceCommit_of_nothingToCommit true rfl hnothing, hst] at hstate
    obtain ⟨hmi', hni'⟩ := RaftState.leader.inj hstate
    rw [hmi'] at hnothing
    refine ⟨⟨lastSent, hlast, ?_, ?_, hcast⟩, hnothing⟩
    · rw [← hmi']
      exact List.getElem?_set_self hmi
    · rw [← hni']
      exact List.getElem?_set_self hni

omit [StateMachine σ] in
/-- The handler returns and has changed nothing of the replication state, and answered no client. -/
structure Inert (s : Server σ) (o : Outcome σ) : Prop where
  returns : o.panicked = false
  state : o.server.state = s.state
  commitIndex : o.server.commitIndex = s.commitIndex
  lastApplied : o.server.lastApplied = s.lastApplied
  silent : ∀ id response, ⟨.client id, .clientResponse response⟩ ∉ o.sent

/-- An acknowledgement is inert just if it is not heeded, also when its handler is dropped at the
send to the client. -/
theorem inert_iff {s : Server σ} {ev : Select} {order : List NodeId} {sender : Id}
    {msg : AppendEntriesResponse} {o : Outcome σ} (hok : msg.success = true)
    (hterm : msg.term ≤ s.currentTerm)
    (ho : ev = .rpc order ⟨sender, .appendEntriesResponse msg⟩ ∧
        o = s.recieveRpc order ⟨sender, .appendEntriesResponse msg⟩ ∨
      ∃ k, ev = .cancelled order ⟨sender, .appendEntriesResponse msg⟩ k ∧
        (s.recieveRpc order ⟨sender, .appendEntriesResponse msg⟩).cut k = some o) :
    s.Inert o ↔ s.IgnoresAck sender := by
  have hdone : s.IgnoresAck sender →
      s.recieveRpc order ⟨sender, .appendEntriesResponse msg⟩ = .done s :=
    fun h => h.handleAppendEntriesResponse hok hterm
  rcases ho with ⟨-, rfl⟩ | ⟨k, -, hk⟩
  · constructor
    · exact fun h => ignoresAck_of_commitIndex hok hterm h.returns h.state h.commitIndex
    · intro h
      rw [hdone h]
      exact ⟨rfl, rfl, rfl, rfl, fun _ _ => List.not_mem_nil⟩
  · obtain ⟨hp, hserver, -⟩ :=
      (s.handleAppendEntriesResponse_writesFirst sender msg hok).losesMessagesOnly hk
    constructor
    · intro h
      refine ignoresAck_of_commitIndex hok hterm hp ?_ ?_
      · exact (congrArg Server.state hserver).symm.trans h.state
      · exact (congrArg Server.commitIndex hserver).symm.trans h.commitIndex
    · intro h
      rw [hdone h] at hk
      cases hk

/-! ### Runs -/

omit [StateMachine σ] in
/-- The wait ends with an acknowledgement of a lower term than the Leader's. -/
structure StaleAck (s : Server σ) (ev : Select) (sender : Id) (msg : AppendEntriesResponse) :
    Prop where
  leader : s.state.isLeader = true
  incoming : ev.incoming = some ⟨sender, .appendEntriesResponse msg⟩
  success : msg.success = true
  stale : msg.term < s.currentTerm

/-- **Stale acknowledgements are inert** in a run just if each of them reaches a Leader that has
credited everything it sent to the sender, in this leadership, and has nothing to commit. -/
theorem stale_acks_inert_iff {s₀ : Server σ} {evs : List Select} :
    (∀ v ∈ s₀.visits evs, ∀ sender msg, v.1.StaleAck v.2 sender msg →
      ∀ handler phases, v.1.turn v.2 = some (handler :: phases) → v.1.Inert handler.outcome) ↔
    ∀ v ∈ s₀.visits evs, ∀ sender msg, v.1.StaleAck v.2 sender msg → v.1.IgnoresAck sender := by
  have hhandler : ∀ {s : Server σ} {ev sender msg phases}, s.StaleAck ev sender msg →
      s.turn ev = some phases → ∃ handler rest, phases = handler :: rest ∧
        (s.Inert handler.outcome ↔ s.IgnoresAck sender) := by
    intro s ev sender msg phases hstale hturn
    obtain ⟨order, o, ho, hphases⟩ := turn_handler hstale.incoming hturn
    have hiff := inert_iff hstale.success (Nat.le_of_lt hstale.stale) ho
    rcases hphases with ⟨-, rfl⟩ | ⟨-, o', -, rfl⟩
    · exact ⟨_, _, rfl, hiff⟩
    · exact ⟨_, _, rfl, hiff⟩
  constructor
  · intro h v hv sender msg hstale
    obtain ⟨phases, hturn⟩ := turn_of_mem_visits hv
    obtain ⟨handler, rest, rfl, hiff⟩ := hhandler hstale hturn
    exact hiff.1 (h v hv sender msg hstale handler rest hturn)
  · intro h v hv sender msg hstale handler rest hturn
    obtain ⟨handler', rest', heq, hiff⟩ := hhandler hstale hturn
    obtain ⟨rfl, -⟩ := List.cons.inj heq
    exact hiff.2 (h v hv sender msg hstale)

/-- Node 1 leads term 1 and replicates a Set; it is deposed, elected again for term 3 and appends
another Set.  The acknowledgement of the first by node 2 arrives late and is taken for one of the
second, which is committed, applied and answered. -/
theorem stale_ack_commits :
    let s₀ := Server.new 1 ⟨3, [1, 2, 3]⟩ SimpleStateMachine.new
    let vote (peer : NodeId) (term : ℕ) : Select :=
      .rpc [1, 2, 3] ⟨.peer peer, .requestVoteResponse ⟨term, true⟩⟩
    let set (value : String) (requestId : ℕ) : Select :=
      .rpc [1, 2, 3] ⟨.client 7, .clientRequest ⟨.set "x" value, 7, requestId⟩⟩
    let reply (peer : NodeId) (term : ℕ) (success : Bool) : Select :=
      .rpc [1, 2, 3] ⟨.peer peer, .appendEntriesResponse ⟨term, success⟩⟩
    ∃ v ∈ s₀.visits [.timer, vote 2 1, vote 3 1, set "1" 1, reply 3 2 false,
        .timer, vote 2 3, vote 3 3, set "2" 2, reply 2 1 true],
      ∃ handler phases, v.1.StaleAck v.2 (.peer 2) ⟨1, true⟩ ∧
        v.1.turn v.2 = some (handler :: phases) ∧ v.1.commitIndex = -1 ∧
        handler.outcome.server.commitIndex = 1 ∧ handler.outcome.server.lastApplied = 1 ∧
        ⟨.client 7, .clientResponse (.setSuccess 2)⟩ ∈ handler.outcome.sent ∧
        ¬ v.1.Inert handler.outcome := by
  dsimp only
  refine ⟨_, List.mem_of_getElem? (i := 9) rfl, _, _, ⟨rfl, rfl, rfl, by decide⟩, rfl, rfl, rfl,
    rfl, .head _, fun h => ?_⟩
  exact absurd h.commitIndex (by decide)

end Server

end MiniRaft
