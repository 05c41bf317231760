import MiniRaft.Server.Skipped

/-!
# Who answers a client

Only a leader that commits does, for the entry of its own term that it commits up to, and as the
last thing its handler does.
-/

namespace MiniRaft

variable {σ : Type}

namespace Server

variable [StateMachine σ]

theorem handleAppendEntries_dest (s : Server σ) (sender : Id) (msg : AppendEntries) :
    (s.handleAppendEntries sender msg).Ensures (fun _ => True)
      fun out _ => ∃ nodeId, sender = .peer nodeId ∧ out.dest = .node nodeId := by
  cases sender with
  | client _ => exact .done trivial
  | peer nodeId =>
    rcases s.handleAppendEntries_cases nodeId msg with ⟨-, heq⟩ | ⟨-, -, -, heq⟩ | ⟨hacc, heq⟩
    · rw [heq]
      exact .send trivial ⟨nodeId, rfl, rfl⟩
    · rw [heq]
      exact .done trivial
    · rw [heq, acceptAppendEntries]
      refine (applyLatestCommitedLogs_ensures _ msg.leaderCommit _).silent_andThen fun s _ => ?_
      split_ifs
      · exact .done trivial
      · unfold deleteConflictingAndAppendNewEntries
        split
        · exact .panic
        · rw [Outcome.done_andThen, commitAndReply]
          split
          · exact .done trivial
          · exact .send trivial ⟨nodeId, rfl, rfl⟩

omit [StateMachine σ] in
theorem MovesNothing.silent {s : Server σ} {o : Outcome σ} (h : s.MovesNothing o) {id : ClientId}
    {msg : Message} {snap : Server σ} : .send ⟨.client id, msg⟩ snap ∉ o.effects :=
  fun hmem => (h.sends hmem).2 id rfl

theorem commitsAt_of_answer {s snap : Server σ} {order : List NodeId} {incoming : Incoming}
    {id : ClientId} {msg : Message}
    (h : .send ⟨.client id, msg⟩ snap ∈ (s.recieveRpc order incoming).effects) :
    ∃ n, s.CommitsAt incoming n := by
  obtain ⟨sender, m⟩ := incoming
  cases m with
  | appendEntries m =>
    obtain ⟨nodeId, -, hdest⟩ := ((s.handleAppendEntries_dest sender m).sends h).2
    cases hdest
  | requestVote m => exact absurd h (s.handleRequestVoteRpc_movesNothing m).silent
  | clientRequest req => exact absurd h (s.handleClientRequest_movesNothing order req).silent
  | requestVoteResponse m => cases h
  | clientResponse _ => cases h
  | hello _ => cases h
  | helloClient _ => cases h
  | appendEntriesResponse m =>
    have h : .send ⟨.client id, msg⟩ snap ∈ (s.handleAppendEntriesResponse sender m).effects := h
    rcases s.handleAppendEntriesResponse_cases sender m with
      ⟨-, -, heq⟩ | heq | ⟨mi, ni, peer, hst, rfl, hle, heq⟩
    · rw [heq] at h
      cases h
    · rw [heq] at h
      cases h
    · rw [heq] at h
      cases hok : m.success with
      | false =>
        rw [hok] at h
        exact absurd h (s.retry_movesNothing mi ni peer).silent
      | true =>
        simp only [hok, ↓reduceIte] at h
        rcases s.creditFollower_cases mi ni peer with heq | ⟨lastSent, hsent, hmi, hni, hcast, heq⟩
        · rw [heq, Outcome.andThen_of_panicked rfl] at h
          cases h
        · rw [heq, Outcome.done_andThen] at h
          let s' : Server σ := { s with
            state := .leader (mi.set peer lastSent) (ni.set peer (asUsize lastSent + 1)) }
          rcases advanceCommit_true_cases (s := s') rfl with hmoves | ⟨n, hcommit, happlied⟩
          · exact absurd h hmoves.silent
          · exact ⟨n, .success hst hok hle hsent hmi hni hcast hcommit happlied⟩

theorem clientResponse_of_answer {s snap : Server σ} {order : List NodeId} {incoming : Incoming}
    {id : ClientId} {msg : Message}
    (h : .send ⟨.client id, msg⟩ snap ∈ (s.recieveRpc order incoming).effects) :
    ∃ response, msg = .clientResponse response := by
  obtain ⟨n, hcommits⟩ := commitsAt_of_answer h
  obtain ⟨mi, ni, heq⟩ := hcommits.recieveRpc order
  have hans : ∀ s : Server σ, s.answerClient.Ensures (fun _ => True)
      fun out _ => ∃ response, out.msg = .clientResponse response := by
    intro s
    obtain ⟨st, heq | heq | ⟨entry, response, -, -, heq⟩⟩ := s.answerClient_cases
    · rw [heq]
      exact .panic
    · rw [heq]
      exact .done trivial
    · rw [heq]
      exact .send trivial ⟨response, rfl⟩
  have happly := applyRepeatedly_ensures (n - s.lastApplied).toNat
    { s with state := .leader mi ni, commitIndex := n } fun _ _ => False
  have hens := happly.silent_andThen fun s' _ => hans s'
  rw [heq] at h
  exact (hens.sends h).2

/-- What a leader answers a client for: the entry that it commits up to. -/
structure AnswersFor (s : Server σ) (id : ClientId) (response : ClientResponse) (entry : LogEntry)
    (s' : Server σ) : Prop where
  leader : s.state.isLeader = true
  leads : s'.state.isLeader = true
  log : s'.log = s.log
  sameTerm : s'.currentTerm = s.currentTerm
  lt : s.commitIndex < s'.commitIndex
  bounds : -2 ^ 31 ≤ s'.commitIndex ∧ s'.commitIndex < 2 ^ 31
  holds : s.log[asUsize s'.commitIndex]? = some entry
  term : entry.term = s.currentTerm
  response : clientResponse entry = some response
  client : entry.clientId = id

omit [StateMachine σ] in
theorem CommitsAt.leader {s : Server σ} {incoming : Incoming} {n : ℤ} (h : s.CommitsAt incoming n) :
    s.state.isLeader = true ∧ s.commitIndex < n ∧ -2 ^ 31 ≤ n ∧ s.Current n := by
  cases h with
  | success hst _ _ _ _ _ _ hcommit _ =>
    obtain ⟨hstart, _, -, hn, hcurrent, -⟩ := hcommit
    obtain ⟨start, hstart⟩ := Option.isSome_iff_exists.1 hstart
    obtain ⟨hstart, hge, -⟩ := checkedI32_eq_some.1 hstart
    have := (mem_rangeInclusive.1 hn).1
    exact ⟨by rw [hst]; rfl, by omega, by omega, hcurrent⟩

/-- **An answer to a client** is the last thing its handler does. -/
theorem recieveRpc_answers {s snap : Server σ} {order : List NodeId} {incoming : Incoming}
    {id : ClientId} {response : ClientResponse}
    (h : .send ⟨.client id, .clientResponse response⟩ snap ∈
      (s.recieveRpc order incoming).effects) :
    (s.recieveRpc order incoming).panicked = false ∧
      (∀ {j : ℕ} {out : Outgoing} {snap' : Server σ},
        (s.recieveRpc order incoming).effects[j]? = some (.send out snap') →
          j + 1 = (s.recieveRpc order incoming).effects.length) ∧
      ∃ entry, s.AnswersFor id response entry (s.recieveRpc order incoming).server := by
  obtain ⟨n, hcommits⟩ := commitsAt_of_answer h
  obtain ⟨hl, hlt, hge, hcurrent⟩ := hcommits.leader
  obtain ⟨mi, ni, heq⟩ := hcommits.recieveRpc order
  let s₁ : Server σ := { s with state := .leader mi ni, commitIndex := n }
  have hp := applyRepeatedly_not_panicked (n - s.lastApplied).toNat s₁
  have hens := applyRepeatedly_ensures (n - s.lastApplied).toNat s₁ fun _ _ => False
  obtain ⟨sm, la, hserver, -⟩ := hens.server hp
  have happly : applyRepeatedly n (n - s.lastApplied).toNat s₁ =
      applyRepeatedly s₁.commitIndex (n - s.lastApplied).toNat s₁ := rfl
  rw [heq, happly, Outcome.andThen_of_not_panicked hp] at h ⊢
  rw [hserver] at h ⊢
  rcases List.mem_append.1 h with h | h
  · exact ((hens.sends h).2).elim
  · let s₂ : Server σ := { s₁ with stateMachine := sm, lastApplied := la }
    have h : .send ⟨.client id, .clientResponse response⟩ snap ∈ s₂.answerClient.effects := h
    have hleads : s₂.answerClient.panicked = false → s₂.answerClient.server.state.isLeader = true :=
      fun hp => by rw [(answerClient_ensures incoming (s := s₂) hl rfl).server hp]; rfl
    obtain ⟨st, heq | heq | ⟨entry, response', hentry, hresponse, heq⟩⟩ := s₂.answerClient_cases
    · rw [heq] at h
      cases h
    · rw [heq] at h
      cases h
    · rw [heq, Outcome.send_panicked, Outcome.send_server] at hleads
      rw [heq, Outcome.send_effects, List.mem_singleton, Effect.send.injEq, Outgoing.mk.injEq,
        Destination.client.injEq, Message.clientResponse.injEq] at h
      obtain ⟨⟨rfl, rfl⟩, -⟩ := h
      have hanswer : answerClient { s₁ with stateMachine := sm, lastApplied := la } = _ := heq
      rw [hanswer]
      obtain ⟨entry', hentry', hterm⟩ := hcurrent
      obtain rfl : entry = entry' := Option.some.inj (hentry.symm.trans hentry')
      refine ⟨rfl, fun {j out snap'} hj => ?_,
        entry, hl, hleads rfl, rfl, rfl, hlt, ⟨hge, hcommits.bounds.2⟩, hentry, hterm, hresponse,
        rfl⟩
      dsimp only [Outcome.send_effects] at hj ⊢
      rw [List.length_append, List.length_singleton]
      rcases Nat.lt_or_ge j (applyRepeatedly s₁.commitIndex (n - s.lastApplied).toNat
        s₁).effects.length with hlt | hge
      · -- nothing is sent while the log is applied
        rw [List.getElem?_append_left hlt] at hj
        exact ((hens.sends (List.mem_of_getElem? hj)).2).elim
      · have := (List.getElem?_eq_some_iff.1 hj).1
        rw [List.length_append, List.length_singleton] at this
        omega

end Server

end MiniRaft
