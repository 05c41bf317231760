import MiniRaft.Server.Inversion

/-!
# Closing messages

A server asks for votes, and answers an `AppendEntries`, as the last thing it does in a phase: what
such a message says holds of the server that the phase leaves.
-/

namespace MiniRaft

variable {σ : Type}

/-- The messages that end a phase. -/
def Message.closes : Message → Bool
  | requestVote _ => true
  | appendEntriesResponse _ => true
  | _ => false

namespace Outcome

/-- Every closing message is the last effect; nothing panics after it, and nothing changes. -/
structure Closes (o : Outcome σ) : Prop where
  last : ∀ {j : ℕ} {out : Outgoing} {snap : Server σ}, o.effects[j]? = some (.send out snap) →
    out.msg.closes = true → j + 1 = o.effects.length ∧ o.panicked = false ∧ snap = o.server

namespace Closes

variable {o : Outcome σ} {f : Server σ → Outcome σ}

theorem of_silent (h : ∀ {out : Outgoing} {snap : Server σ}, .send out snap ∈ o.effects →
    out.msg.closes = false) : o.Closes where
  last hj hmsg := by
    rw [h (List.mem_of_getElem? hj)] at hmsg
    cases hmsg

theorem done (s : Server σ) : (Outcome.done s).Closes := .of_silent fun h => by cases h

theorem panic (s : Server σ) : (Outcome.panic s).Closes := .of_silent fun h => by cases h

theorem send (s : Server σ) (out : Outgoing) : (Outcome.send s out).Closes where
  last {j out snap} hj _ := by
    rw [send_effects] at hj ⊢
    cases j with
    | zero =>
      cases hj
      exact ⟨rfl, rfl, rfl⟩
    | succ j => cases hj

theorem andThen (h : ∀ {out : Outgoing} {snap : Server σ}, .send out snap ∈ o.effects →
    out.msg.closes = false) (hf : ∀ s, (f s).Closes) : (o.andThen f).Closes := by
  cases hp : o.panicked with
  | true =>
    rw [andThen_of_panicked hp]
    exact .of_silent h
  | false =>
    rw [andThen_of_not_panicked hp]
    refine ⟨fun {j out snap} hj hmsg => ?_⟩
    dsimp only at hj ⊢
    rcases Nat.lt_or_ge j o.effects.length with hlt | hge
    · rw [List.getElem?_append_left hlt] at hj
      rw [h (List.mem_of_getElem? hj)] at hmsg
      cases hmsg
    · rw [List.getElem?_append_right hge] at hj
      obtain ⟨hlen, hrest⟩ := (hf o.server).last hj hmsg
      rw [List.length_append]
      exact ⟨by omega, hrest⟩

theorem cut {k : ℕ} {o' : Outcome σ} (h : o.Closes) (hk : o.cut k = some o') : o'.Closes := by
  obtain ⟨out, snap, hget, rfl⟩ := cut_eq_some_iff.1 hk
  refine ⟨fun {j out snap} hj hmsg => ?_⟩
  have hjk := (List.getElem?_eq_some_iff.1 hj).1
  rw [List.length_take] at hjk
  dsimp only at hj
  rw [List.getElem?_take_of_lt (by omega)] at hj
  have hlast := (h.last hj hmsg).1
  have hlt := (List.getElem?_eq_some_iff.1 hget).1
  omega

end Closes

end Outcome

namespace Server

/-! ### Handlers -/

theorem commitAndReply_closes (s : Server σ) (msg : AppendEntries) (nodeId : NodeId) :
    (s.commitAndReply msg nodeId).Closes := by
  unfold commitAndReply
  split
  · exact .done s
  · exact .send _ _

variable [StateMachine σ]

theorem acceptAppendEntries_closes (s : Server σ) (msg : AppendEntries) (nodeId : NodeId) :
    (s.acceptAppendEntries msg nodeId).Closes := by
  refine .andThen (fun h => absurd h (send_notMem_applyLatestCommitedLogs _ _)) fun s => ?_
  split
  · exact .done s
  · refine .andThen (fun h => ?_) fun s => s.commitAndReply_closes msg nodeId
    unfold deleteConflictingAndAppendNewEntries at h
    split at h
    · cases h
    · cases h

theorem handleAppendEntries_closes (s : Server σ) (sender : Id) (msg : AppendEntries) :
    (s.handleAppendEntries sender msg).Closes := by
  cases sender with
  | client _ => exact .done s
  | peer nodeId =>
    rcases s.handleAppendEntries_cases nodeId msg with ⟨-, heq⟩ | ⟨-, -, -, heq⟩ | ⟨-, heq⟩
    · rw [heq]
      exact .send _ _
    · rw [heq]
      exact .done _
    · rw [heq]
      exact acceptAppendEntries_closes _ msg nodeId

theorem recieveRpc_closes (s : Server σ) (order : List NodeId) (incoming : Incoming) :
    (s.recieveRpc order incoming).Closes := by
  obtain ⟨log, hens⟩ := s.recieveRpc_ensures order incoming
  obtain ⟨sender, msg⟩ := incoming
  by_cases happend : ∃ m, msg = .appendEntries m
  · obtain ⟨m, rfl⟩ := happend
    exact s.handleAppendEntries_closes sender m
  · -- no other handler sends a closing message
    refine .of_silent fun {out snap} hmem => ?_
    obtain ⟨-, hemit⟩ := hens.sends hmem
    cases hemit with
    | reject heq | acknowledge heq =>
      rw [Incoming.mk.injEq] at heq
      exact absurd ⟨_, heq.2⟩ happend
    | deny | grant | replicate | answer => rfl

/-! ### Loops -/

omit [StateMachine σ] in
theorem sendRequestVoteRpcToPeers_closes (s : Server σ) : s.sendRequestVoteRpcToPeers.Closes := by
  unfold sendRequestVoteRpcToPeers
  split
  · exact .panic s
  · exact .send _ _

omit [StateMachine σ] in
theorem sendHeartbeat_closes (s : Server σ) : s.sendHeartbeat.Closes := by
  unfold sendHeartbeat
  split
  · exact .panic s
  · exact .send _ _

omit [StateMachine σ] in
theorem candidate_closes (s : Server σ) : s.candidate.Closes := by
  refine .andThen (fun h => ?_) sendRequestVoteRpcToPeers_closes
  unfold becomeCandidate at h
  split_ifs at h
  · cases h
  · cases h

theorem run_closes (s : Server σ) : s.run.Closes := by
  unfold run
  split
  · rw [follower, applyLatestCommitedLogs_self]
    exact .of_silent fun h => absurd h (send_notMem_applyLoop _ _)
  · exact s.candidate_closes
  · refine .of_silent fun {out snap} hmem => ?_
    have hsends : s.leader.Ensures (fun _ => True) fun out _ => out.msg.closes = false := by
      rw [leader, applyLatestCommitedLogs_self]
      refine .andThen (P := fun _ => True) ?_ (fun _ _ => trivial) fun _ _ => .done trivial
      refine ((s.applyCommitted_ensures _).mono (fun _ _ => trivial) fun _ _ _ h => h).silent_andThen ?_
      intro s _
      unfold sendHeartbeat
      split
      · exact .panic
      · exact .send trivial rfl
    exact (hsends.sends hmem).2

theorem afterRpc_closes (s : Server σ) (role : RaftState) : (s.afterRpc role).Closes := by
  unfold afterRpc
  split
  · exact s.run_closes
  · split_ifs
    · exact s.sendRequestVoteRpcToPeers_closes
    · exact s.run_closes
  · split_ifs
    · exact .done s
    · exact s.run_closes

theorem afterTimer_closes (s : Server σ) (role : RaftState) : (s.afterTimer role).Closes := by
  unfold afterTimer
  split
  · exact run_closes _
  · exact s.sendRequestVoteRpcToPeers_closes
  · exact s.sendHeartbeat_closes

end Server

end MiniRaft
