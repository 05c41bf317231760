import MiniRaft.Server.Inversion

/-!
# What the handlers apply

Every entry handed to the state machine is an entry of the log past `last_applied`, up to the
commit index that `apply_latest_commited_logs` goes by.
-/

namespace MiniRaft

variable {σ : Type}

namespace Server

/-- The log of `s` holds the command at `index`, past `last_applied` and up to `bound`. -/
def Resumes (s : Server σ) (bound : ℤ) (index : ℕ) (command : LogCommand) : Prop :=
  (∃ x, s.lastApplied < x ∧ x ≤ bound ∧ index = asUsize x) ∧
    ∃ entry, s.log[index]? = some entry ∧ entry.command = command

/-- What `recieve_rpc` applies. -/
inductive Applies (s : Server σ) (incoming : Incoming) (index : ℕ) (command : LogCommand) : Prop
  | accept {nodeId : NodeId} {msg : AppendEntries} :
      incoming = ⟨.peer nodeId, .appendEntries msg⟩ → s.Accepts msg →
      (s.log.length < 2 ^ 31 → s.Resumes (s.clampCommit msg.leaderCommit) index command) →
      Applies s incoming index command
  | response {msg : AppendEntriesResponse} {mi : List ℤ} {ni : List ℕ} {n : ℤ} :
      incoming.msg = .appendEntriesResponse msg → msg.term ≤ s.currentTerm →
      s.Credits incoming.sender msg mi ni → s.Committable mi n → s.Resumes n index command →
      Applies s incoming index command

variable [StateMachine σ]

theorem applyCommitted_calls (s : Server σ) : s.applyCommitted.Calls (s.Resumes s.commitIndex) := by
  refine ⟨fun {index command ok} hmem => ?_⟩
  obtain ⟨j, hj₁, hj₂, entry, hentry, ok', heff⟩ := (applyLoop_spec _ s).2.2 _ hmem
  cases heff
  exact ⟨⟨s.lastApplied + j, by omega, by omega, rfl⟩, entry, hentry, rfl⟩

theorem applyLatestCommitedLogs_calls (s : Server σ) (lc : ℤ) :
    (s.applyLatestCommitedLogs lc).Calls fun index command =>
      s.log.length < 2 ^ 31 → s.Resumes (s.clampCommit lc) index command := by
  refine ⟨fun {index command ok} hmem hlen => ?_⟩
  obtain ⟨j, hj₁, hj₂, entry, hentry, ok', heff⟩ :=
    (applyLatestCommitedLogs_spec hlen lc).2.2 _ hmem
  cases heff
  exact ⟨⟨s.lastApplied + j, by omega, by omega, rfl⟩, entry, hentry, rfl⟩

theorem applyRepeatedly_calls (n : ℕ) (s : Server σ) :
    (applyRepeatedly s.commitIndex n s).Calls (s.Resumes s.commitIndex) := by
  induction n generalizing s with
  | zero => exact .of_effects_eq_nil rfl
  | succ n ih =>
    unfold applyRepeatedly
    rw [applyLatestCommitedLogs_self]
    refine s.applyCommitted_calls.andThen fun hp => ?_
    obtain ⟨sm, la, heq, hla, -⟩ := (s.applyCommitted_ensures fun _ _ => True).server hp
    rw [heq]
    refine (ih { s with stateMachine := sm, lastApplied := la }).mono ?_
    rintro index command ⟨⟨x, hx, hle, hidx⟩, hentry⟩
    exact ⟨⟨x, Int.lt_of_le_of_lt hla hx, hle, hidx⟩, hentry⟩

theorem handleAppendEntries_calls (s : Server σ) (sender : Id) (msg : AppendEntries) :
    (s.handleAppendEntries sender msg).Calls (s.Applies ⟨sender, .appendEntries msg⟩) := by
  have accept : ∀ nodeId, sender = .peer nodeId → s.Accepts msg →
      ({ s with currentTerm := msg.term }.acceptAppendEntries msg nodeId).Calls
        (s.Applies ⟨sender, .appendEntries msg⟩) := by
    rintro nodeId rfl hacc
    refine .andThen ((applyLatestCommitedLogs_calls _ msg.leaderCommit).mono ?_) fun _ => ?_
    · intro index command h
      exact .accept rfl hacc h
    · split
      · exact .of_effects_eq_nil rfl
      · refine .andThen ?_ fun _ => ?_
        · unfold deleteConflictingAndAppendNewEntries
          split
          · exact .of_effects_eq_nil rfl
          · exact .of_effects_eq_nil rfl
        · unfold commitAndReply
          split
          · exact .of_effects_eq_nil rfl
          · exact .send _ _
  cases sender with
  | client _ => exact .of_effects_eq_nil rfl
  | peer nodeId =>
    rcases s.handleAppendEntries_cases nodeId msg with ⟨-, heq⟩ | ⟨-, -, -, heq⟩ | ⟨hacc, heq⟩
    · rw [heq]
      exact .send _ _
    · rw [heq]
      exact .of_effects_eq_nil rfl
    · rw [heq]
      exact accept nodeId rfl hacc

omit [StateMachine σ] in
theorem answerClient_calls (s : Server σ) (A : ℕ → LogCommand → Prop) : s.answerClient.Calls A := by
  obtain ⟨st, heq | heq | ⟨_, _, -, -, heq⟩⟩ := s.answerClient_cases
  · rw [heq]
    exact .of_effects_eq_nil rfl
  · rw [heq]
    exact .of_effects_eq_nil rfl
  · rw [heq]
    exact .send _ _

omit [StateMachine σ] in
theorem broadcastEntry_calls {logEntry : LogEntry} {nextIndex : List ℕ} (peers : List NodeId)
    (s : Server σ) (A : ℕ → LogCommand → Prop) :
    (broadcastEntry logEntry nextIndex peers s).Calls A := by
  induction peers generalizing s with
  | nil => exact .of_effects_eq_nil rfl
  | cons peerId peers ih =>
    unfold broadcastEntry
    split
    · exact ih s
    · refine .andThen ?_ fun _ => ih _
      rcases s.sendEntryFor_cases logEntry nextIndex peerId with heq | ⟨_, _, -, -, -, heq⟩
      · rw [heq]
        exact .of_effects_eq_nil rfl
      · rw [heq]
        exact .send _ _

theorem advanceCommit_calls {s : Server σ} {mi : List ℤ} {ni : List ℕ} (success : Bool)
    (hst : s.state = .leader mi ni) :
    (s.advanceCommit success).Calls fun index command =>
      ∃ n, s.Committable mi n ∧ s.Resumes n index command := by
  have hcases := s.advanceCommit_cases success
  generalize s.advanceCommit success = o at hcases
  cases hcases with
  | panic => exact .of_effects_eq_nil rfl
  | idle => exact .of_effects_eq_nil rfl
  | keep => exact .of_effects_eq_nil rfl
  | raise => exact .of_effects_eq_nil rfl
  | @commit _ _ _ n hfind _ _ =>
    refine .andThen ?_ fun _ => answerClient_calls _ _
    refine (applyRepeatedly_calls _ { s with commitIndex := n }).mono ?_
    exact fun index command hres => ⟨n, hfind.committable hst, hres⟩

omit [StateMachine σ] in
theorem creditFollower_effects (s : Server σ) (mi : List ℤ) (ni : List ℕ) (i : NodeId) :
    (s.creditFollower mi ni i).effects = [] := by
  rcases s.creditFollower_cases mi ni i with heq | ⟨_, -, -, -, -, heq⟩
  · rw [heq, Outcome.panic_effects]
  · rw [heq, Outcome.done_effects]

omit [StateMachine σ] in
theorem retryFollower_calls (s : Server σ) (mi : List ℤ) (ni : List ℕ) (i : NodeId)
    (A : ℕ → LogCommand → Prop) : (s.retryFollower mi ni i).Calls A := by
  rcases s.retryFollower_cases mi ni i with ⟨st, heq⟩ | ⟨_, _, -, -, -, heq⟩
  · rw [heq]
    exact .of_effects_eq_nil rfl
  · rw [heq]
    exact .send _ _

theorem handleAppendEntriesResponse_calls (s : Server σ) (sender : Id)
    (msg : AppendEntriesResponse) :
    (s.handleAppendEntriesResponse sender msg).Calls
      (s.Applies ⟨sender, .appendEntriesResponse msg⟩) := by
  rcases s.handleAppendEntriesResponse_cases sender msg with
    ⟨-, -, heq⟩ | heq | ⟨mi, ni, peer, hst, rfl, hle, heq⟩
  · rw [heq]
    exact .of_effects_eq_nil rfl
  · rw [heq]
    exact .of_effects_eq_nil rfl
  · rw [heq]
    refine .andThen ?_ fun hp => ?_
    · split
      · exact .of_effects_eq_nil (creditFollower_effects ..)
      · exact retryFollower_calls ..
    · obtain ⟨mi, ni, hcredit, heq⟩ := (noted_of_reply peer msg hst).server hp
      rw [heq]
      refine (advanceCommit_calls msg.success rfl).mono ?_
      rintro index command ⟨n, hcommit, hres⟩
      exact .response rfl hle hcredit
        ⟨hcommit.lt, hcommit.entry, hcommit.nodes, hcommit.majority⟩ hres

theorem recieveRpc_calls (s : Server σ) (order : List NodeId) (incoming : Incoming) :
    (s.recieveRpc order incoming).Calls (s.Applies incoming) := by
  obtain ⟨sender, msg⟩ := incoming
  cases msg with
  | appendEntries msg => exact s.handleAppendEntries_calls sender msg
  | appendEntriesResponse msg => exact s.handleAppendEntriesResponse_calls sender msg
  | requestVote msg =>
    simp only [recieveRpc, handleRequestVoteRpc, replyFalseIfLowerTerm]
    split_ifs
    · exact .send _ _
    · split
      · split_ifs
        · exact .send _ _
        · split
          · exact .of_effects_eq_nil rfl
          · split_ifs
            · exact .send _ _
            · exact .send _ _
      · exact .send _ _
  | clientRequest req =>
    simp only [recieveRpc, handleClientRequest, handleSetCommand]
    split
    · split
      · exact broadcastEntry_calls ..
      · exact .of_effects_eq_nil rfl
    · exact .of_effects_eq_nil rfl
  | requestVoteResponse _ => exact .of_effects_eq_nil rfl
  | clientResponse _ => exact .of_effects_eq_nil rfl
  | hello _ => exact .of_effects_eq_nil rfl
  | helloClient _ => exact .of_effects_eq_nil rfl

/-! ### Replies -/

theorem advanceCommit_false_effects (s : Server σ) : (s.advanceCommit false).effects = [] := by
  have hcases := s.advanceCommit_cases false
  generalize s.advanceCommit false = o at hcases
  cases hcases with
  | panic => rfl
  | idle => rfl
  | keep => rfl
  | raise => rfl
  | commit _ hok => cases hok

theorem advanceCommit_covers {s : Server σ} {mi : List ℤ} {ni : List ℕ} (success : Bool)
    (hst : s.state = .leader mi ni) :
    (s.advanceCommit success).Covers fun index command s' =>
      s.Resumes s'.commitIndex index command := by
  have hcases := s.advanceCommit_cases success
  generalize s.advanceCommit success = o at hcases
  cases hcases with
  | panic => exact .of_effects_eq_nil rfl
  | idle => exact .of_effects_eq_nil rfl
  | keep => exact .of_effects_eq_nil rfl
  | raise => exact .of_effects_eq_nil rfl
  | @commit _ _ _ n _ _ _ =>
    have hcalls : ((applyRepeatedly n (n - s.lastApplied).toNat
        { s with commitIndex := n }).andThen answerClient).Calls (s.Resumes n) :=
      (applyRepeatedly_calls _ { s with commitIndex := n }).andThen fun _ =>
        answerClient_calls _ _
    have hens : ((applyRepeatedly n (n - s.lastApplied).toNat
        { s with commitIndex := n }).andThen answerClient).Ensures
          (fun s' => s'.commitIndex = n) (s.Emits ⟨.client 0, .hello 0⟩) := by
      refine (applyRepeatedly_ensures _ { s with commitIndex := n } _).silent_andThen ?_
      rintro _ ⟨sm, la, rfl, -⟩
      let s₁ : Server σ := { s with commitIndex := n, stateMachine := sm, lastApplied := la }
      have hl : s.state.isLeader = true := by rw [hst]; rfl
      have hst₁ : s₁.state = .leader mi ni := hst
      refine (answerClient_ensures _ hl hst₁).mono ?_ fun _ _ _ h => h
      rintro _ rfl
      rfl
    refine .of_ensures hcalls hens ?_
    rintro index command s' hres rfl
    exact hres

/-- A rejection applies nothing, a success does nothing else before it goes on to the commit
loop. -/
theorem handleAppendEntriesResponse_covers (s : Server σ) (sender : Id)
    (msg : AppendEntriesResponse) :
    (s.handleAppendEntriesResponse sender msg).Covers fun index command s' =>
      s.Resumes s'.commitIndex index command := by
  rcases s.handleAppendEntriesResponse_cases sender msg with
    ⟨-, -, heq⟩ | heq | ⟨mi, ni, peer, hst, rfl, -, heq⟩
  · rw [heq]
    exact .of_effects_eq_nil rfl
  · rw [heq]
    exact .of_effects_eq_nil rfl
  · rw [heq]
    cases hok : msg.success with
    | true =>
      simp only [↓reduceIte]
      refine .silent_andThen (creditFollower_effects s mi ni peer) fun hp => ?_
      obtain ⟨mi', ni', -, heq⟩ :=
        (creditFollower_ensures peer (fun _ _ => True) hst hok).server hp
      rw [heq]
      exact advanceCommit_covers _ rfl
    | false =>
      refine .of_calls ((retryFollower_calls s mi ni peer _).andThen fun _ => ?_)
      exact .of_effects_eq_nil (advanceCommit_false_effects _)

theorem recieveRpc_covers (s : Server σ) (order : List NodeId) (incoming : Incoming)
    {msg : AppendEntriesResponse} (h : incoming.msg = .appendEntriesResponse msg) :
    (s.recieveRpc order incoming).Covers fun index command s' =>
      s.Resumes s'.commitIndex index command := by
  unfold recieveRpc
  rw [h]
  exact s.handleAppendEntriesResponse_covers incoming.sender msg

end Server

end MiniRaft
