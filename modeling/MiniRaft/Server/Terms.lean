import MiniRaft.Server.Checks

/-!
# Where a term comes from

A server takes over the term of a message or keeps its own, and sends the term it has.  Only the
election timer raises a term, by one.
-/

namespace MiniRaft

variable {σ : Type}

theorem Outcome.Ensures.and {o : Outcome σ} {P P' : Server σ → Prop}
    {Q Q' : Outgoing → Server σ → Prop} (h : o.Ensures P Q) (h' : o.Ensures P' Q') :
    o.Ensures (fun s => P s ∧ P' s) fun out s => Q out s ∧ Q' out s where
  server hp := ⟨h.server hp, h'.server hp⟩
  sends hmem := ⟨⟨(h.sends hmem).1, (h'.sends hmem).1⟩, (h.sends hmem).2, (h'.sends hmem).2⟩

namespace Server

/-- The term of `s'` is that of `s`, or the message carries it. -/
def TermFrom (s : Server σ) (msg : Message) (s' : Server σ) : Prop :=
  s'.currentTerm = s.currentTerm ∨ msg.term = some s'.currentTerm

theorem Emits.term {s snap : Server σ} {incoming : Incoming} {out : Outgoing}
    (h : s.Emits incoming out snap) {t : ℕ} (ht : t ∈ out.msg.term) :
    t = s.currentTerm ∨ t = snap.currentTerm := by
  cases h with
  | reject | deny | grant =>
    cases ht
    exact .inl rfl
  | acknowledge _ _ _ _ hterm _ =>
    cases ht
    exact .inr hterm.symm
  | replicate _ hr _ _ =>
    cases ht
    exact .inr hr.term
  | answer => cases ht

theorem Announces.term {s snap : Server σ} {out : Outgoing} (h : s.Announces out snap) {t : ℕ}
    (ht : t ∈ out.msg.term) : t = snap.currentTerm := by
  cases h with
  | canvass hc =>
    cases ht
    exact hc.term
  | heartbeat hr =>
    cases ht
    exact hr.term

theorem Goes.currentTerm_le {s s' : Server σ} (h : s.Goes s') :
    s'.currentTerm ≤ s.currentTerm + 1 := by
  cases h with
  | keep | apply | lead => exact Nat.le_succ _
  | stand => exact Nat.le_refl _

variable [StateMachine σ]

theorem recieveRpc_termFrom (s : Server σ) (order : List NodeId) (incoming : Incoming) :
    (s.recieveRpc order incoming).Ensures (s.TermFrom incoming.msg) fun _ _ => True := by
  obtain ⟨sender, msg⟩ := incoming
  cases msg with
  | appendEntries msg =>
    cases sender with
    | client _ => exact .done (.inl rfl)
    | peer nodeId =>
      change (s.handleAppendEntries (.peer nodeId) msg).Ensures _ _
      rcases s.handleAppendEntries_cases nodeId msg with ⟨-, heq⟩ | ⟨-, -, -, heq⟩ | ⟨hacc, heq⟩
      · rw [heq]
        exact .send (.inl rfl) trivial
      · rw [heq]
        exact .done (.inr rfl)
      · rw [heq]
        refine (acceptAppendEntries_takes hacc rfl).mono ?_ fun _ _ _ _ => trivial
        rintro _ ⟨sm, ci, la, log, -, -, rfl⟩
        exact .inr rfl
  | appendEntriesResponse msg =>
    change (s.handleAppendEntriesResponse sender msg).Ensures _ _
    rcases s.handleAppendEntriesResponse_cases sender msg with
      ⟨-, -, heq⟩ | heq | ⟨mi, ni, peer, hst, rfl, -, heq⟩
    · rw [heq]
      exact .done (.inr rfl)
    · rw [heq]
      exact .done (.inl rfl)
    · have hl : s.state.isLeader = true := by rw [hst]; rfl
      rw [heq]
      refine Outcome.Ensures.mono (Outcome.Ensures.andThen (noted_of_reply peer msg hst) ?_ ?_)
        (fun _ h => h) fun _ _ _ _ => trivial
      · rintro _ ⟨mi, ni, -, rfl⟩
        exact .inl rfl
      · rintro _ ⟨mi, ni, -, rfl⟩
        refine (advanceCommit_ensures msg.success _ hl rfl).mono ?_ fun _ _ _ h => h
        rintro _ ⟨mi', sm, ci, la, -, rfl⟩
        exact .inl rfl
  | requestVote msg =>
    change (s.handleRequestVoteRpc msg).Ensures _ _
    rcases s.handleRequestVoteRpc_cases msg with ⟨-, heq⟩ | ⟨-, -, heq⟩ | ⟨-, -, heq⟩
    · rw [heq]
      exact .send (.inl rfl) trivial
    · rw [heq]
      exact .send (.inl rfl) trivial
    · rw [heq]
      exact .panic
  | requestVoteResponse msg =>
    refine .done ?_
    unfold handleRequestVoteResponseRpc
    split
    · split_ifs
      · exact .inr rfl
      · exact .inl rfl
      · exact .inl rfl
      · exact .inl rfl
    · exact .inl rfl
  | clientRequest req =>
    change (s.handleClientRequest order req).Ensures _ _
    unfold handleClientRequest
    split
    · rename_i mi ni hst
      split
      · have hl : s.state.isLeader = true := by rw [hst]; rfl
        simp only [handleSetCommand, hst]
        refine Outcome.Ensures.mono
          (broadcastEntry_ensures ⟨sender, .clientRequest req⟩ order hl rfl rfl rfl rfl) ?_
          fun _ _ _ _ => trivial
        rintro _ ⟨ls, rfl, -, -⟩
        exact .inl rfl
      · exact .done (.inl rfl)
    · exact .done (.inl rfl)
  | clientResponse _ => exact .done (.inl rfl)
  | hello _ => exact .done (.inl rfl)
  | helloClient _ => exact .done (.inl rfl)

/-- A handler keeps within the bound that its server and the message keep to, and sends nothing
beyond it. -/
theorem recieveRpc_terms_le {s : Server σ} (order : List NodeId) {incoming : Incoming} {n : ℕ}
    (hs : s.currentTerm ≤ n) (hmsg : ∀ t ∈ incoming.msg.term, t ≤ n) :
    (s.recieveRpc order incoming).Ensures (fun s' => s'.currentTerm ≤ n)
      fun out _ => ∀ t ∈ out.msg.term, t ≤ n := by
  obtain ⟨log, hens⟩ := s.recieveRpc_ensures order incoming
  have reached : ∀ s', s.TermFrom incoming.msg s' → s'.currentTerm ≤ n := by
    rintro s' (hsame | hterm)
    · omega
    · exact hmsg _ hterm
  refine ((s.recieveRpc_termFrom order incoming).and hens).mono (fun s' h => reached s' h.1) ?_
  rintro out snap ⟨hfrom, -⟩ ⟨-, hemit⟩ t ht
  rcases hemit.term ht with rfl | rfl
  · exact hs
  · exact reached snap hfrom

theorem afterRpc_currentTerm {s : Server σ} {role : RaftState}
    (h : role.isCandidate = false → s.state.isCandidate = false) :
    (s.afterRpc role).Ensures (fun s' => s'.currentTerm = s.currentTerm) fun _ _ => True := by
  have applied : ∀ s : Server σ, s.applyCommitted.Ensures
      (fun s' => s'.currentTerm = s.currentTerm) fun _ _ => True := fun s => by
    refine (s.applyCommitted_ensures _).mono ?_ fun _ _ _ h => h
    rintro _ ⟨sm, la, rfl, -, -⟩
    rfl
  have run : s.state.isCandidate = false →
      s.run.Ensures (fun s' => s'.currentTerm = s.currentTerm) fun _ _ => True := by
    intro hc
    unfold Server.run
    split
    · rw [follower, applyLatestCommitedLogs_self]
      exact applied s
    · rename_i hst
      simp [hst] at hc
    · rw [leader, applyLatestCommitedLogs_self]
      refine Outcome.Ensures.andThen (Outcome.Ensures.andThen (applied s) (fun _ h => h) ?_)
        (fun _ h => h) fun s' hs' => .done hs'
      intro s' hs'
      unfold sendHeartbeat
      split
      · exact .panic
      · exact .send hs' trivial
  unfold afterRpc
  split
  · exact run (h rfl)
  · split
    · unfold sendRequestVoteRpcToPeers
      split
      · exact .panic
      · exact .send rfl trivial
    · rename_i hc
      exact run (by simpa using hc)
  · split
    · exact .done rfl
    · exact run (h rfl)

theorem afterRpc_terms_le {s : Server σ} {role : RaftState} {n : ℕ} (hs : s.currentTerm ≤ n)
    (h : role.isCandidate = false → s.state.isCandidate = false) :
    (s.afterRpc role).Ensures (fun s' => s'.currentTerm ≤ n)
      fun out _ => ∀ t ∈ out.msg.term, t ≤ n := by
  refine ((afterRpc_currentTerm h).and (afterRpc_ensures h)).mono ?_ ?_
  · rintro s' ⟨hterm, -⟩
    rwa [hterm]
  · rintro out snap ⟨hterm, -⟩ ⟨-, hann⟩ t ht
    rw [hann.term ht, hterm]
    exact hs

theorem afterTimer_terms_le {s : Server σ} {role : RaftState} {n : ℕ} (hs : s.currentTerm ≤ n)
    (hl : s.state.isLeader = role.isLeader) (hc : s.state.isCandidate = role.isCandidate) :
    (s.afterTimer role).Ensures (fun s' => s'.currentTerm ≤ n + 1)
      fun out _ => ∀ t ∈ out.msg.term, t ≤ n + 1 := by
  refine (afterTimer_ensures hl hc).mono ?_ ?_
  · intro s' hgoes
    have := hgoes.currentTerm_le
    omega
  · intro out snap hgoes hann t ht
    rw [hann.term ht]
    have := hgoes.currentTerm_le
    omega

end Server

end MiniRaft
