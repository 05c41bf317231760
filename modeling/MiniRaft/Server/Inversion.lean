import MiniRaft.Server.Frame

/-!
# Inversion of the handlers

`Server.Handles s incoming s'` lists everything `recieve_rpc` can make of the server `s`, at each
of its sends and at its end, and `Server.Emits s incoming out snap` everything it can send.
`Server.Goes` and `Server.Announces` do the same for the role loops between a handler and the
next `select!`.  The invariants of single servers and of clusters are proved by cases on them.

The parts of `handle_append_entries_response` are taken apart once, by `Server.creditFollower_cases`,
`Server.retryFollower_cases`, `Server.advanceCommit_cases` and `Server.answerClient_cases`.
-/

namespace MiniRaft

variable {σ : Type}

namespace RaftState

@[simp] theorem isLeader_follower : isLeader follower = false := rfl
@[simp] theorem isLeader_candidate (v : ℕ) : isLeader (candidate v) = false := rfl
@[simp] theorem isLeader_leader (mi : List ℤ) (ni : List ℕ) : isLeader (leader mi ni) = true := rfl
@[simp] theorem isCandidate_follower : isCandidate follower = false := rfl
@[simp] theorem isCandidate_candidate (v : ℕ) : isCandidate (candidate v) = true := rfl
@[simp] theorem isCandidate_leader (mi : List ℤ) (ni : List ℕ) :
    isCandidate (leader mi ni) = false := rfl

theorem isLeader_iff {r : RaftState} : r.isLeader = true ↔ ∃ mi ni, r = leader mi ni := by
  cases r <;> simp

theorem isCandidate_iff {r : RaftState} : r.isCandidate = true ↔ ∃ v, r = candidate v := by
  cases r <;> simp

end RaftState

namespace Server

/-- The result of the two loops of `delete_conflicting_and_append_new_entries`. -/
def mergedLog (log entries : List LogEntry) : Option (List LogEntry) :=
  insertNewEntries (collectNewEntries log [] entries).1 (collectNewEntries log [] entries).2

/-- The message passes every check of `handle_append_entries` and is not the occasion to step
down: it goes on to the log. -/
def Accepts (s : Server σ) (msg : AppendEntries) : Prop :=
  s.currentTerm ≤ msg.term ∧ s.prevLogIndexMatching msg = true ∧
    (s.state = .follower ∨ msg.term = s.currentTerm)

instance (s : Server σ) (msg : AppendEntries) : Decidable (s.Accepts msg) :=
  inferInstanceAs (Decidable (_ ∧ _ ∧ _))

/-- `prev_log_index` and `prev_log_term` name an entry of the log, or nothing. -/
def PrevIn (log : List LogEntry) (prevLogIndex : ℤ) (prevLogTerm : ℕ) : Prop :=
  (prevLogIndex = -1 ∧ prevLogTerm = 0) ∨
    ∃ (p : ℕ) (entry : LogEntry), prevLogIndex = p ∧ log[p]? = some entry ∧
      entry.term = prevLogTerm

/-- Whose `AppendEntries` a message is. -/
structure Replicates (s : Server σ) (msg : AppendEntries) : Prop where
  leader : s.state.isLeader = true
  term : msg.term = s.currentTerm
  leaderId : msg.leaderId = s.id
  commit : msg.leaderCommit = s.commitIndex

/-- What an `AppendEntries` carries: an end piece of the log, from the position `a` on; unless
the piece is empty it is the last entry, of the current term, or starts at `prev_log_index`. -/
structure Carries (s : Server σ) (msg : AppendEntries) : Prop where
  length : s.log.length < 2 ^ 31
  prev : PrevIn s.log msg.prevLogIndex msg.prevLogTerm
  piece : ∃ a ≤ s.log.length, msg.entries = s.log.drop a ∧
    ∀ entry, s.log[a]? = some entry →
      (a + 1 = s.log.length ∧ entry.term = s.currentTerm) ∨
        (msg.prevLogIndex = (a : ℤ) ∧ msg.prevLogTerm = entry.term)

/-- What a candidate puts into a `RequestVote`. -/
structure Canvasses (s : Server σ) (msg : RequestVote) : Prop where
  candidate : s.state.isCandidate = true
  term : msg.term = s.currentTerm
  candidateId : msg.candidateId = s.id
  lastLogIndex : s.log.length ≤ 2 ^ 31 →
    msg.lastLogIndex = if s.log = [] then 0 else (s.log.length : ℤ) - 1
  lastLogTerm : msg.lastLogTerm = s.lastTermOrZero

/-- The conditions under which `handle_request_vote_rpc` grants a vote. -/
def Grants (s : Server σ) (msg : RequestVote) : Prop :=
  s.currentTerm ≤ msg.term ∧
    (s.votedFor = none ∨ s.votedFor = some msg.candidateId ∧
      ∃ last ∈ s.log.getLast?, asI32 last.index ≤ msg.lastLogIndex ∧ last.term = msg.lastLogTerm)

/-- The commit index after an accepted message. -/
def acceptedCommit (s : Server σ) (msg : AppendEntries) : ℤ :=
  match msg.entries.getLast? with
  | none => s.clampCommit msg.leaderCommit
  | some last =>
    if msg.leaderCommit > s.clampCommit msg.leaderCommit then
      min msg.leaderCommit (asI32 last.index)
    else s.clampCommit msg.leaderCommit

/-- The commit index and `last_applied` after an accepted message. -/
def Commits (s : Server σ) (msg : AppendEntries) (ci la : ℤ) : Prop :=
  s.log.length < 2 ^ 31 → ci = s.acceptedCommit msg ∧ s.lastApplied ≤ la ∧
    la ≤ max s.lastApplied (s.clampCommit msg.leaderCommit)

/-- The `match_index` and `next_index` of a leader once it has noted a reply. -/
inductive Credits (s : Server σ) (sender : Id) (msg : AppendEntriesResponse) :
    List ℤ → List ℕ → Prop
  | success {mi : List ℤ} {ni : List ℕ} {peer : NodeId} {lastSent : ℤ} :
      s.state = .leader mi ni → sender = .peer peer → msg.success = true →
      s.lastSentIndex[peer]? = some lastSent →
      Credits s sender msg (mi.set peer lastSent) (ni.set peer (asUsize lastSent + 1))
  | failure {mi : List ℤ} {ni : List ℕ} {peer : NodeId} {next : ℕ} :
      s.state = .leader mi ni → sender = .peer peer → msg.success = false →
      ni[peer]? = some next → Credits s sender msg mi (ni.set peer (next - 1))

theorem Credits.isLeader {s : Server σ} {sender : Id} {msg : AppendEntriesResponse}
    {mi : List ℤ} {ni : List ℕ} (h : s.Credits sender msg mi ni) : s.state.isLeader = true := by
  cases h with
  | success hst => rw [hst]; rfl
  | failure hst => rw [hst]; rfl

/-- What the commit loop accepts. -/
structure Committable (s : Server σ) (mi : List ℤ) (n : ℤ) : Prop where
  lt : s.commitIndex < n
  entry : s.log.length < 2 ^ 31 →
    0 ≤ n ∧ ∃ entry, s.log[n.toNat]? = some entry ∧ entry.term = s.currentTerm
  nodes : s.config.totalNodes / 2 ≠ 0
  majority : s.config.totalNodes / 2 - 1 < matchCount mi n

/-- `match_index`, the commit index and `last_applied` after the commit loop. -/
inductive Raises (s : Server σ) (mi : List ℤ) : List ℤ → ℤ → ℤ → Prop
  | keep : Raises s mi mi s.commitIndex s.lastApplied
  | commit {mi' : List ℤ} {n la : ℤ} : s.Committable mi n → (mi' = mi ∨ mi' = mi.set s.id n) →
      (la = s.lastApplied ∨ la = n) → Raises s mi mi' n la

/-- The servers `recieve_rpc` passes through. -/
inductive Handles (s : Server σ) (incoming : Incoming) : Server σ → Prop
  | keep : Handles s incoming s
  | stepDown (T : ℕ) : s.state ≠ .follower → s.currentTerm < T →
      Handles s incoming (s.becomeFollower T)
  | accept {nodeId : NodeId} {msg : AppendEntries} (sm : σ) (ci la : ℤ) (log : List LogEntry) :
      incoming = ⟨.peer nodeId, .appendEntries msg⟩ → s.Accepts msg →
      mergedLog s.log msg.entries = some log → s.Commits msg ci la →
      Handles s incoming { s with
        currentTerm := msg.term, stateMachine := sm, commitIndex := ci, lastApplied := la, log := log }
  | vote {votes : ℕ} {msg : RequestVoteResponse} :
      incoming.msg = .requestVoteResponse msg → msg.voteGranted = true →
      msg.term ≤ s.currentTerm → s.state = .candidate votes →
      ¬ s.config.totalNodes / 2 + 1 ≤ votes + 1 →
      Handles s incoming { s with state := .candidate (votes + 1) }
  | win {votes : ℕ} {msg : RequestVoteResponse} :
      incoming.msg = .requestVoteResponse msg → msg.voteGranted = true →
      msg.term ≤ s.currentTerm → s.state = .candidate votes →
      s.config.totalNodes / 2 + 1 ≤ votes + 1 → Handles s incoming s.becomeLeader
  | push (key value : String) {req : ClientRequest} (ls : List ℤ) :
      incoming.msg = .clientRequest req → req.command = .set key value →
      s.state.isLeader = true → ls.length = s.lastSentIndex.length →
      (s.log.length < 2 ^ 31 → ∀ x ∈ ls, x ∈ s.lastSentIndex ∨ x = s.log.length) →
      Handles s incoming { s with
        log := s.log ++ [⟨s.currentTerm, req.command, asU32 s.log.length, req.clientId,
          req.requestId⟩]
        lastSentIndex := ls }
  | response {msg : AppendEntriesResponse} {mi mi' : List ℤ} {ni : List ℕ} (sm : σ) {ci la : ℤ} :
      incoming.msg = .appendEntriesResponse msg → msg.term ≤ s.currentTerm →
      s.Credits incoming.sender msg mi ni → s.Raises mi mi' ci la →
      Handles s incoming { s with
        state := .leader mi' ni, stateMachine := sm, commitIndex := ci, lastApplied := la }

/-- The messages `recieve_rpc` sends. -/
inductive Emits (s : Server σ) (incoming : Incoming) : Outgoing → Server σ → Prop
  | reject {nodeId : NodeId} {msg : AppendEntries} :
      incoming = ⟨.peer nodeId, .appendEntries msg⟩ →
      Emits s incoming ⟨.node nodeId, .appendEntriesResponse ⟨s.currentTerm, false⟩⟩ s
  | acknowledge {nodeId : NodeId} {msg : AppendEntries} {snap : Server σ} :
      incoming = ⟨.peer nodeId, .appendEntries msg⟩ → s.Accepts msg → msg.entries ≠ [] →
      mergedLog s.log msg.entries = some snap.log → snap.currentTerm = msg.term →
      snap.state = s.state →
      Emits s incoming ⟨.node nodeId, .appendEntriesResponse ⟨msg.term, true⟩⟩ snap
  | deny {msg : RequestVote} : incoming.msg = .requestVote msg →
      Emits s incoming ⟨.node msg.candidateId, .requestVoteResponse ⟨s.currentTerm, false⟩⟩ s
  | grant {msg : RequestVote} : incoming.msg = .requestVote msg → s.Grants msg →
      Emits s incoming ⟨.node msg.candidateId, .requestVoteResponse ⟨s.currentTerm, true⟩⟩ s
  | replicate {msg : AppendEntries} {dest : Destination} {snap : Server σ} :
      s.state.isLeader = true → snap.Replicates msg →
      (s.log.length < 2 ^ 31 → snap.Carries msg) → snap.commitIndex = s.commitIndex →
      Emits s incoming ⟨dest, .appendEntries msg⟩ snap
  | answer {id : ClientId} {msg : ClientResponse} {snap : Server σ} :
      s.state.isLeader = true → snap.state.isLeader = true →
      Emits s incoming ⟨.client id, .clientResponse msg⟩ snap

/-! What the kinds of messages say about the handler that sends them. -/

theorem Emits.appendEntries {s snap : Server σ} {incoming : Incoming} {dest : Destination}
    {msg : AppendEntries} (h : s.Emits incoming ⟨dest, .appendEntries msg⟩ snap) :
    s.state.isLeader = true ∧ snap.Replicates msg ∧
      (s.log.length < 2 ^ 31 → snap.Carries msg) ∧ snap.commitIndex = s.commitIndex := by
  cases h with
  | replicate hl hr hc hci => exact ⟨hl, hr, hc, hci⟩

theorem Emits.success {s snap : Server σ} {incoming : Incoming} {dest : Destination}
    {reply : AppendEntriesResponse} (h : s.Emits incoming ⟨dest, .appendEntriesResponse reply⟩ snap)
    (hok : reply.success = true) :
    ∃ nodeId msg, dest = .node nodeId ∧ incoming = ⟨.peer nodeId, .appendEntries msg⟩ ∧
      s.Accepts msg ∧ msg.entries ≠ [] ∧ mergedLog s.log msg.entries = some snap.log ∧
      snap.currentTerm = msg.term := by
  cases h with
  | reject => cases hok
  | acknowledge heq hacc hne hmerge hterm _ => exact ⟨_, _, rfl, heq, hacc, hne, hmerge, hterm⟩

theorem Emits.granted {s snap : Server σ} {incoming : Incoming} {dest : Destination}
    {reply : RequestVoteResponse} (h : s.Emits incoming ⟨dest, .requestVoteResponse reply⟩ snap)
    (hok : reply.voteGranted = true) :
    ∃ msg, dest = .node msg.candidateId ∧ incoming.msg = .requestVote msg ∧ s.Grants msg ∧
      snap = s := by
  cases h with
  | deny => cases hok
  | grant heq hg => exact ⟨_, rfl, heq, hg, rfl⟩

/-- The servers a handler passes through all hold the log `log`: it writes the log before it
sends anything. -/
def HandlesTo (s : Server σ) (incoming : Incoming) (log : List LogEntry) (s' : Server σ) : Prop :=
  s.Handles incoming s' ∧ s'.log = log

/-! ### The two requests -/

variable [StateMachine σ]

omit [StateMachine σ] in
/-- What the server becomes when it accepts a message. -/
def Takes (s : Server σ) (msg : AppendEntries) (s' : Server σ) : Prop :=
  ∃ sm ci la log, mergedLog s.log msg.entries = some log ∧ s.Commits msg ci la ∧ s' = { s with
    currentTerm := msg.term, stateMachine := sm, commitIndex := ci, lastApplied := la, log := log }

theorem acceptAppendEntries_takes {s s₀ : Server σ} {nodeId : NodeId} {msg : AppendEntries}
    (hacc : s₀.Accepts msg) (hs : s = { s₀ with currentTerm := msg.term }) :
    (s.acceptAppendEntries msg nodeId).Ensures (s₀.Takes msg)
      (s₀.Emits ⟨.peer nodeId, .appendEntries msg⟩) := by
  unfold acceptAppendEntries
  refine (s.applyLatestCommitedLogs_ensures msg.leaderCommit _).silent_andThen ?_
  rintro _ ⟨sm, ci, la, rfl, hadv⟩
  subst hs
  have hadv : s₀.Advances msg.leaderCommit ci la := hadv
  split
  · rename_i hnil
    have hnil : msg.entries = [] := by simpa using hnil
    have hlog : mergedLog s₀.log msg.entries = some s₀.log := by rw [hnil]; rfl
    have hcommits : s₀.Commits msg ci la := fun hlen => by
      rw [acceptedCommit, hnil]
      exact hadv hlen
    exact .done ⟨sm, ci, la, s₀.log, hlog, hcommits, rfl⟩
  · rename_i hne
    have hne : msg.entries ≠ [] := by simpa using hne
    simp only [deleteConflictingAndAppendNewEntries]
    split
    · exact .panic
    · rename_i log hlog
      have hlog : mergedLog s₀.log msg.entries = some log := hlog
      rw [Outcome.done_andThen, commitAndReply]
      split
      · rename_i hlast
        exact absurd (List.getLast?_eq_none_iff.1 hlast) hne
      · rename_i last hlast
        -- both branches leave the commit index that `acceptedCommit` computes
        have hcommits : ∀ ci', (ci' = if msg.leaderCommit > ci then
            min msg.leaderCommit (asI32 last.index) else ci) → s₀.Commits msg ci' la := by
          rintro _ rfl hlen
          obtain ⟨hci, hla⟩ := hadv hlen
          rw [acceptedCommit, hlast, hci]
          exact ⟨rfl, hla⟩
        dsimp only
        split
        · rename_i hgt
          exact .send ⟨sm, _, la, log, hlog, hcommits _ (by rw [if_pos hgt]), rfl⟩
            (.acknowledge rfl hacc hne hlog rfl rfl)
        · rename_i hgt
          exact .send ⟨sm, ci, la, log, hlog, hcommits _ (by rw [if_neg hgt]), rfl⟩
            (.acknowledge rfl hacc hne hlog rfl rfl)

theorem acceptAppendEntries_ensures {s s₀ : Server σ} {nodeId : NodeId} {msg : AppendEntries}
    (hacc : s₀.Accepts msg) (hs : s = { s₀ with currentTerm := msg.term }) :
    ∃ log, (s.acceptAppendEntries msg nodeId).Ensures
      (s₀.HandlesTo ⟨.peer nodeId, .appendEntries msg⟩ log)
      (s₀.Emits ⟨.peer nodeId, .appendEntries msg⟩) := by
  refine ⟨(mergedLog s₀.log msg.entries).getD s₀.log,
    (acceptAppendEntries_takes hacc hs).mono ?_ fun _ _ _ h => h⟩
  rintro _ ⟨sm, ci, la, log, hlog, hcommits, rfl⟩
  exact ⟨.accept sm ci la log rfl hacc hlog hcommits, by simp [hlog]⟩

/-- **What the handler does.** -/
theorem handleAppendEntries_cases (s : Server σ) (nodeId : NodeId) (msg : AppendEntries) :
    ((msg.term < s.currentTerm ∨ s.prevLogIndexMatching msg = false) ∧
      s.handleAppendEntries (.peer nodeId) msg =
        .send s ⟨.node nodeId, .appendEntriesResponse ⟨s.currentTerm, false⟩⟩) ∨
    (s.currentTerm < msg.term ∧ s.prevLogIndexMatching msg = true ∧ s.state ≠ .follower ∧
      s.handleAppendEntries (.peer nodeId) msg = .done (s.becomeFollower msg.term)) ∨
    (s.Accepts msg ∧ s.handleAppendEntries (.peer nodeId) msg =
      { s with currentTerm := msg.term }.acceptAppendEntries msg nodeId) := by
  unfold handleAppendEntries
  simp only [replyFalseIfPrevLogDoesNotMatch]
  by_cases hlt : msg.term < s.currentTerm
  · left
    refine ⟨.inl hlt, ?_⟩
    simp only [hlt, ↓reduceIte, replyFalseIfLowerTerm]
  · have hle : s.currentTerm ≤ msg.term := Nat.not_lt.1 hlt
    simp only [hlt, ↓reduceIte]
    by_cases hm : s.prevLogIndexMatching msg = true
    · right
      simp only [hm, ↓reduceIte, Bool.not_true, Bool.false_eq_true]
      rcases Nat.eq_or_lt_of_le hle with heq | hgt
      · right
        have hngt : ¬ msg.term > s.currentTerm := Nat.not_lt.2 (Nat.le_of_eq heq.symm)
        refine ⟨⟨hle, hm, .inr heq.symm⟩, ?_⟩
        rw [if_neg hngt, ← heq]
      · by_cases hf : s.state = .follower
        · right
          refine ⟨⟨hle, hm, .inl hf⟩, ?_⟩
          simp only [gt_iff_lt, hgt, ↓reduceIte, hf]
        · left
          refine ⟨hgt, trivial, hf, ?_⟩
          simp only [gt_iff_lt, hgt, ↓reduceIte, becomeFollowerIfHigherTerm]
    · left
      refine ⟨.inr (Bool.not_eq_true _ ▸ hm), ?_⟩
      simp only [hm, Bool.false_eq_true, ↓reduceIte, Bool.not_false]

theorem handleAppendEntries_of_accepts {s : Server σ} {msg : AppendEntries} (nodeId : NodeId)
    (hacc : s.Accepts msg) : s.handleAppendEntries (.peer nodeId) msg =
      { s with currentTerm := msg.term }.acceptAppendEntries msg nodeId := by
  obtain ⟨hle, hmatch, hrole⟩ := hacc
  rcases s.handleAppendEntries_cases nodeId msg with ⟨hrej, -⟩ | ⟨hgt, -, hf, -⟩ | ⟨-, heq⟩
  · rcases hrej with hlt | hmismatch
    · omega
    · simp [hmatch] at hmismatch
  · rcases hrole with hfollower | hsame
    · exact absurd hfollower hf
    · omega
  · exact heq

theorem handleAppendEntries_ensures (s : Server σ) (sender : Id) (msg : AppendEntries) :
    ∃ log, (s.handleAppendEntries sender msg).Ensures
      (s.HandlesTo ⟨sender, .appendEntries msg⟩ log) (s.Emits ⟨sender, .appendEntries msg⟩) := by
  cases sender with
  | client _ => exact ⟨_, .done ⟨.keep, rfl⟩⟩
  | peer nodeId =>
    rcases s.handleAppendEntries_cases nodeId msg with
      ⟨-, heq⟩ | ⟨hgt, -, hf, heq⟩ | ⟨hacc, heq⟩
    · rw [heq]
      exact ⟨_, .send ⟨.keep, rfl⟩ (.reject rfl)⟩
    · rw [heq]
      exact ⟨_, .done ⟨.stepDown _ hf hgt, rfl⟩⟩
    · rw [heq]
      exact acceptAppendEntries_ensures hacc rfl

omit [StateMachine σ] in
theorem handleRequestVoteRpc_ensures (s : Server σ) (sender : Id) (msg : RequestVote) :
    (s.handleRequestVoteRpc msg).Ensures (s.HandlesTo ⟨sender, .requestVote msg⟩ s.log)
      (s.Emits ⟨sender, .requestVote msg⟩) := by
  unfold handleRequestVoteRpc
  split
  · rename_i hlt
    simp only [replyFalseIfLowerTerm, hlt, ↓reduceIte]
    exact .send ⟨.keep, rfl⟩ (.deny rfl)
  · rename_i hge
    have hge : s.currentTerm ≤ msg.term := by omega
    split
    · rename_i votedFor hv
      split
      · exact .send ⟨.keep, rfl⟩ (.deny rfl)
      · rename_i heq
        have heq : votedFor = msg.candidateId := by simpa using heq
        split
        · exact .panic
        · rename_i last hlast
          split
          · exact .send ⟨.keep, rfl⟩ (.deny rfl)
          · rename_i hup
            have hup : asI32 last.index ≤ msg.lastLogIndex ∧ last.term = msg.lastLogTerm := by
              rw [not_or, Int.not_lt, not_not] at hup
              exact ⟨hup.1, hup.2.symm⟩
            exact .send ⟨.keep, rfl⟩ (.grant rfl ⟨hge, .inr ⟨heq ▸ hv, last, hlast, hup⟩⟩)
    · rename_i hv
      exact .send ⟨.keep, rfl⟩ (.grant rfl ⟨hge, .inl hv⟩)

omit [StateMachine σ] in
theorem handles_handleRequestVoteResponseRpc (s : Server σ) (sender : Id)
    (msg : RequestVoteResponse) :
    s.Handles ⟨sender, .requestVoteResponse msg⟩ (s.handleRequestVoteResponseRpc msg) := by
  unfold handleRequestVoteResponseRpc
  split
  · rename_i votes hst
    split
    · rename_i hgt
      exact .stepDown _ (by simp [hst]) hgt
    · rename_i hle
      split
      · rename_i hg
        split
        · rename_i hmaj
          exact .win rfl hg (by omega) hst hmaj
        · rename_i hmaj
          exact .vote rfl hg (by omega) hst hmaj
      · exact .keep
  · exact .keep

/-! ### Client commands -/

omit [StateMachine σ] in
theorem lenMinusOne_eq_some {s : Server σ} {x : ℤ} (hlen : s.log.length ≤ 2 ^ 31)
    (h : s.lenMinusOne = some x) : s.log.length < 2 ^ 31 ∧ x = (s.log.length : ℤ) - 1 := by
  have hlt : s.log.length < 2 ^ 31 := by
    by_contra hge
    have heq : s.log.length = 2 ^ 31 := by omega
    have e : checkedI32 (asI32 (2 ^ 31) - 1) = none := by decide
    rw [lenMinusOne, heq, e] at h
    cases h
  rw [lenMinusOne_of_lt hlt] at h
  exact ⟨hlt, (Option.some.inj h).symm⟩

theorem prevIn_of_prevLogOf {log : List LogEntry} {next prevLogTerm : ℕ} {prevLogIndex : ℤ}
    (hlen : log.length < 2 ^ 31) (h : prevLogOf log next = some (prevLogIndex, prevLogTerm)) :
    PrevIn log prevLogIndex prevLogTerm := by
  unfold prevLogOf at h
  split at h
  · cases h
  · rename_i p hp
    split at h
    · rename_i hneg
      simp only [Option.some.injEq, Prod.mk.injEq] at h
      exact .inl ⟨h.1 ▸ hneg, h.2.symm⟩
    · rename_i hneg
      obtain ⟨entry, hentry, he⟩ := Option.map_eq_some_iff.1 h
      simp only [Prod.mk.injEq] at he
      obtain ⟨rfl, hterm⟩ := he
      have hlt : asUsize p < 2 ^ 31 := by
        have := (List.getElem?_eq_some_iff.1 hentry).1
        omega
      have hp₀ : 0 ≤ p ∧ asUsize p = p.toNat := by
        split at hp
        · cases hp; exact absurd rfl hneg
        · have hrange := (checkedI32_eq_some.1 hp).2
          have h₀ : 0 ≤ p := by
            by_contra hp'
            have := le_asUsize_of_neg (by omega) hrange.1
            omega
          exact ⟨h₀, asUsize_toNat h₀ (by omega)⟩
      rw [hp₀.2] at hentry
      exact .inr ⟨p.toNat, entry, (Int.toNat_of_nonneg hp₀.1).symm, hentry, hterm⟩

omit [StateMachine σ] in
/-- What the loop of `handle_set_command` changes: `last_sent_index` is set to the index of the
new entry here and there. -/
def MarksSent (s₀ s s' : Server σ) : Prop :=
  ∃ ls, s' = { s with lastSentIndex := ls } ∧ ls.length = s.lastSentIndex.length ∧
    (s₀.log.length < 2 ^ 31 → ∀ x ∈ ls, x ∈ s.lastSentIndex ∨ x = s₀.log.length)

omit [StateMachine σ] in
theorem sendEntryFor_cases (s : Server σ) (logEntry : LogEntry) (nextIndex : List ℕ)
    (peerId : NodeId) : sendEntryFor logEntry nextIndex peerId s = .panic s ∨
      ∃ prev lastIndex, (nextIndex[peerId]?).bind (prevLogOf s.log) = some prev ∧
        s.lenMinusOne = some lastIndex ∧ peerId < s.lastSentIndex.length ∧
        sendEntryFor logEntry nextIndex peerId s =
          .send { s with lastSentIndex := s.lastSentIndex.set peerId lastIndex }
            ⟨.broadcast, .appendEntries
              { term := s.currentTerm
                leaderId := s.id
                prevLogIndex := prev.1
                prevLogTerm := prev.2
                entries := [logEntry]
                leaderCommit := s.commitIndex }⟩ := by
  unfold sendEntryFor
  split
  · rename_i lastIndex hprev hlast
    split_ifs with hslot
    · exact .inr ⟨_, lastIndex, hprev, hlast, hslot, rfl⟩
    · exact .inl rfl
  · exact .inl rfl

omit [StateMachine σ] in
theorem sendEntryFor_ensures {s s₀ : Server σ} {logEntry : LogEntry} {nextIndex : List ℕ}
    {peerId : NodeId} (incoming : Incoming) (hlead₀ : s₀.state.isLeader = true)
    (hlead : s.state.isLeader = true) (hlog : s.log = s₀.log ++ [logEntry])
    (hterm : logEntry.term = s.currentTerm) (hci : s.commitIndex = s₀.commitIndex) :
    (sendEntryFor logEntry nextIndex peerId s).Ensures (MarksSent s₀ s) (s₀.Emits incoming) := by
  have hlen : s.log.length = s₀.log.length + 1 := by rw [hlog, List.length_append]; rfl
  rcases s.sendEntryFor_cases logEntry nextIndex peerId with
    heq | ⟨prev, lastIndex, hprev, hlast, -, heq⟩
  · rw [heq]
    exact .panic
  · obtain ⟨next, -, hprev⟩ := Option.bind_eq_some_iff.1 hprev
    rw [heq]
    refine .send ⟨_, rfl, List.length_set, fun h₀ x hx => ?_⟩
      (.replicate hlead₀ ⟨hlead, rfl, rfl, rfl⟩ (fun h₀ => ?_) hci)
    · have hlast := (lenMinusOne_eq_some (by omega) hlast).2
      rcases List.mem_or_eq_of_mem_set hx with hx | hx
      · exact .inl hx
      · right; omega
    · have hlt := (lenMinusOne_eq_some (by omega) hlast).1
      have hle : s₀.log.length ≤ s.log.length := by omega
      refine ⟨hlt, prevIn_of_prevLogOf hlt hprev, s₀.log.length, hle, by simp [hlog],
        fun entry hentry => .inl ?_⟩
      have he : entry = logEntry := by simpa [hlog, eq_comm] using hentry
      exact ⟨hlen.symm, he ▸ hterm⟩

omit [StateMachine σ] in
/-- Each message of the loop carries the new entry; the loop changes `last_sent_index` only. -/
theorem broadcastEntry_ensures {s s₀ : Server σ} {logEntry : LogEntry} {nextIndex : List ℕ}
    (incoming : Incoming) (peers : List NodeId) (hlead₀ : s₀.state.isLeader = true)
    (hlead : s.state.isLeader = true) (hlog : s.log = s₀.log ++ [logEntry])
    (hterm : logEntry.term = s.currentTerm) (hci : s.commitIndex = s₀.commitIndex) :
    (broadcastEntry logEntry nextIndex peers s).Ensures (MarksSent s₀ s) (s₀.Emits incoming) := by
  induction peers generalizing s with
  | nil => exact .done ⟨_, rfl, rfl, fun _ x hx => .inl hx⟩
  | cons peerId peers ih =>
    unfold broadcastEntry
    split
    · exact ih hlead hlog hterm hci
    · refine (sendEntryFor_ensures incoming hlead₀ hlead hlog hterm hci).andThen (fun _ h => h) ?_
      rintro _ ⟨ls, rfl, hlen, hmem⟩
      refine (ih (s := { s with lastSentIndex := ls }) hlead hlog hterm hci).mono ?_ fun _ _ _ h => h
      rintro _ ⟨ls', rfl, hlen', hmem'⟩
      refine ⟨ls', rfl, hlen'.trans hlen, fun h₀ x hx => ?_⟩
      rcases hmem' h₀ x hx with hx | hx
      · exact hmem h₀ x hx
      · exact .inr hx

omit [StateMachine σ] in
theorem handleClientRequest_ensures (s : Server σ) (order : List NodeId) (sender : Id)
    (req : ClientRequest) :
    ∃ log, (s.handleClientRequest order req).Ensures
      (s.HandlesTo ⟨sender, .clientRequest req⟩ log) (s.Emits ⟨sender, .clientRequest req⟩) := by
  unfold handleClientRequest
  split
  · rename_i mi ni hst
    split
    · rename_i key value hcmd
      simp only [handleSetCommand, hst]
      refine ⟨s.log ++ [⟨s.currentTerm, req.command, asU32 s.log.length, req.clientId,
        req.requestId⟩], ?_⟩
      have hl : s.state.isLeader = true := by rw [hst]; rfl
      refine Outcome.Ensures.mono (broadcastEntry_ensures _ order hl rfl rfl rfl rfl) ?_
        fun _ _ _ h => h
      rintro _ ⟨ls, rfl, hlen, hmem⟩
      rw [← hst, ← hcmd]
      exact ⟨.push key value ls rfl hcmd hl hlen hmem, rfl⟩
    · exact ⟨_, .done ⟨.keep, rfl⟩⟩
  · exact ⟨_, .done ⟨.keep, rfl⟩⟩

/-! ### AppendEntriesResponse -/

omit [StateMachine σ] in
theorem creditFollower_cases (s : Server σ) (mi : List ℤ) (ni : List ℕ) (i : NodeId) :
    s.creditFollower mi ni i = .panic s ∨
      ∃ lastSent, s.lastSentIndex[i]? = some lastSent ∧ i < mi.length ∧ i < ni.length ∧
        asUsize lastSent + 1 < 2 ^ 64 ∧ s.creditFollower mi ni i = .done { s with
          state := .leader (mi.set i lastSent) (ni.set i (asUsize lastSent + 1)) } := by
  unfold creditFollower
  split
  · exact .inl rfl
  · rename_i lastSent hlast
    split_ifs with h
    · exact .inr ⟨lastSent, hlast, h.1, h.2.1, h.2.2, rfl⟩
    · exact .inl rfl

omit [StateMachine σ] in
/-- The retry only steps `next_index` back and sends to the one peer. -/
theorem retryFollower_cases (s : Server σ) (mi : List ℤ) (ni : List ℕ) (i : NodeId) :
    (∃ st, s.retryFollower mi ni i = .panic { s with state := st }) ∨
      ∃ next entry, ni[i]? = some next ∧ s.log[asUsize (asI32 (next - 1))]? = some entry ∧
        next - 1 ≤ s.log.length ∧ s.retryFollower mi ni i =
          .send { s with state := .leader mi (ni.set i (next - 1)) } ⟨.node i, .appendEntries
            { term := s.currentTerm
              leaderId := s.id
              prevLogIndex := asI32 (next - 1)
              prevLogTerm := entry.term
              entries := s.log.drop (next - 1)
              leaderCommit := s.commitIndex }⟩ := by
  unfold retryFollower
  split
  · exact .inl ⟨s.state, rfl⟩
  · rename_i next hnext
    dsimp only
    have hdec : (if next > 0 then next - 1 else 0) = next - 1 := by split <;> omega
    rw [hdec]
    split
    · exact .inl ⟨_, rfl⟩
    · rename_i entry hentry
      split_ifs with hle
      · exact .inr ⟨next, entry, hnext, hentry, hle, rfl⟩
      · exact .inl ⟨_, rfl⟩

omit [StateMachine σ] in
/-- `last_applied` is set first; the only message is the answer for the entry at the commit
index. -/
theorem answerClient_cases (s : Server σ) :
    ∃ st, let s' : Server σ := { s with state := st, lastApplied := s.commitIndex }
      s.answerClient = .panic s' ∨ s.answerClient = .done s' ∨
        ∃ entry response, s.log[asUsize s.commitIndex]? = some entry ∧
          clientResponse entry = some response ∧
          s.answerClient = .send s' ⟨.client entry.clientId, .clientResponse response⟩ := by
  unfold answerClient
  dsimp only
  split
  · split_ifs
    · split
      · exact ⟨_, .inr (.inl rfl)⟩
      · rename_i entry hentry
        split
        · exact ⟨_, .inr (.inl rfl)⟩
        · rename_i response hresponse
          exact ⟨_, .inr (.inr ⟨entry, response, hentry, hresponse, rfl⟩)⟩
    · exact ⟨s.state, .inl rfl⟩
  · exact ⟨s.state, .inr (.inl rfl)⟩

omit [StateMachine σ] in
/-- The commit loop of a leader gets to `lastIdx` or to what it has found. -/
structure Searches (s : Server σ) (mi : List ℤ) (ni : List ℕ) (lastIdx : ℤ)
    (found : Option ℤ) : Prop where
  leader : s.state = .leader mi ni
  last : (if s.log.isEmpty then some 0 else s.lenMinusOne) = some lastIdx
  start : checkedI32 (s.commitIndex + 1) = some (s.commitIndex + 1)
  found : s.findCommit mi (rangeInclusive (s.commitIndex + 1) lastIdx) = some found

/-- What `handle_append_entries_response` does from the commit loop on. -/
inductive CommitLoop (s : Server σ) (success : Bool) : Outcome σ → Prop
  | panic (ci : ℤ) : CommitLoop s success (.panic { s with commitIndex := ci })
  | idle : s.state.isLeader = false → CommitLoop s success (.done s)
  | keep {mi : List ℤ} {ni : List ℕ} {lastIdx : ℤ} : s.Searches mi ni lastIdx none →
      CommitLoop s success (.done s)
  | raise {mi : List ℤ} {ni : List ℕ} {lastIdx n : ℤ} : s.Searches mi ni lastIdx (some n) →
      success = false → CommitLoop s success (.done { s with commitIndex := n })
  | commit {mi : List ℤ} {ni : List ℕ} {lastIdx n : ℤ} : s.Searches mi ni lastIdx (some n) →
      success = true → (checkedI32 (s.lastApplied + 1)).isSome = true →
      CommitLoop s success
        ((applyRepeatedly n (n - s.lastApplied).toNat { s with commitIndex := n }).andThen
          answerClient)

/-- **What the commit loop does.** -/
theorem advanceCommit_cases (s : Server σ) (success : Bool) :
    s.CommitLoop success (s.advanceCommit success) := by
  unfold advanceCommit
  split
  · rename_i mi ni hst
    split
    · rename_i lastIdx startIndex hlast hstart
      obtain ⟨rfl, -⟩ := checkedI32_eq_some.1 hstart
      split
      · exact .panic _
      · rename_i hfind
        exact .keep ⟨hst, hlast, hstart, hfind⟩
      · rename_i n hfind
        dsimp only
        split
        · rename_i hok
          split
          · exact .panic n
          · rename_i happlied
            exact .commit ⟨hst, hlast, hstart, hfind⟩ hok (Option.isSome_of_eq_some happlied)
        · rename_i hok
          exact .raise ⟨hst, hlast, hstart, hfind⟩ (Bool.eq_false_iff.2 hok)
    · exact .panic _
  · rename_i hst
    refine .idle ?_
    cases hs : s.state with
    | follower => rfl
    | candidate _ => rfl
    | leader mi ni => exact absurd hs (hst mi ni)

/-- **What the handler does.** -/
theorem handleAppendEntriesResponse_cases (s : Server σ) (sender : Id)
    (msg : AppendEntriesResponse) :
    (s.state.isLeader = true ∧ s.currentTerm < msg.term ∧
      s.handleAppendEntriesResponse sender msg = .done (s.becomeFollower msg.term)) ∨
    s.handleAppendEntriesResponse sender msg = .done s ∨
    ∃ mi ni peer, s.state = .leader mi ni ∧ sender = .peer peer ∧ msg.term ≤ s.currentTerm ∧
      s.handleAppendEntriesResponse sender msg =
        (if msg.success then s.creditFollower mi ni peer
          else s.retryFollower mi ni peer).andThen fun s => s.advanceCommit msg.success := by
  unfold handleAppendEntriesResponse
  split
  · rename_i mi ni hst
    by_cases hgt : msg.term > s.currentTerm
    · rw [if_pos hgt]
      exact .inl ⟨by rw [hst]; rfl, hgt, rfl⟩
    · rw [if_neg hgt]
      cases sender with
      | client _ => exact .inr (.inl rfl)
      | peer peer => exact .inr (.inr ⟨mi, ni, peer, hst, rfl, Nat.not_lt.1 hgt, rfl⟩)
  · exact .inr (.inl rfl)

theorem handleAppendEntriesResponse_of_leader {s : Server σ} {mi : List ℤ} {ni : List ℕ}
    (peer : NodeId) {msg : AppendEntriesResponse} (hst : s.state = .leader mi ni)
    (hle : msg.term ≤ s.currentTerm) : s.handleAppendEntriesResponse (.peer peer) msg =
      (if msg.success then s.creditFollower mi ni peer
        else s.retryFollower mi ni peer).andThen fun s => s.advanceCommit msg.success := by
  unfold handleAppendEntriesResponse
  simp only [hst, Nat.not_lt.2 hle, ↓reduceIte]

/-- A leader that has noted a reply. -/
def Noted (s : Server σ) (sender : Id) (msg : AppendEntriesResponse) (s' : Server σ) : Prop :=
  ∃ mi ni, s.Credits sender msg mi ni ∧ s' = { s with state := .leader mi ni }

omit [StateMachine σ] in
theorem creditFollower_ensures {s : Server σ} {mi : List ℤ} {ni : List ℕ} (i : NodeId)
    {msg : AppendEntriesResponse} (Q : Outgoing → Server σ → Prop) (hst : s.state = .leader mi ni)
    (hok : msg.success = true) :
    (s.creditFollower mi ni i).Ensures (s.Noted (.peer i) msg) Q := by
  rcases s.creditFollower_cases mi ni i with heq | ⟨lastSent, hlast, -, -, -, heq⟩
  · rw [heq]
    exact .panic
  · rw [heq]
    exact .done ⟨_, _, .success hst rfl hok hlast, rfl⟩

omit [StateMachine σ] in
theorem retryFollower_ensures {s : Server σ} {mi : List ℤ} {ni : List ℕ} (i : NodeId)
    {msg : AppendEntriesResponse} (incoming : Incoming) (hst : s.state = .leader mi ni)
    (hok : msg.success = false) :
    (s.retryFollower mi ni i).Ensures (s.Noted (.peer i) msg) (s.Emits incoming) := by
  rcases s.retryFollower_cases mi ni i with ⟨st, heq⟩ | ⟨next, entry, hnext, hentry, hle, heq⟩
  · rw [heq]
    exact .panic
  · rw [heq]
    refine .send ⟨_, _, .failure hst rfl hok hnext, rfl⟩
      (.replicate (by rw [hst]; rfl) ⟨rfl, rfl, rfl, rfl⟩ (fun hlen => ?_) rfl)
    have hcast : asI32 (next - 1) = ((next - 1 : ℕ) : ℤ) := asI32_of_lt (by omega)
    rw [hcast, asUsize_natCast (by omega)] at hentry
    rw [hcast]
    refine ⟨hlen, .inr ⟨next - 1, entry, rfl, hentry, rfl⟩, next - 1, hle, rfl, ?_⟩
    intro entry' hentry'
    have he : entry = entry' := Option.some.inj (hentry.symm.trans hentry')
    exact .inr ⟨rfl, congrArg LogEntry.term he⟩

theorem applyRepeatedly_succ (n : ℕ) (s : Server σ) : ∃ sm la, s.lastApplied ≤ la ∧
    let s' : Server σ := { s with stateMachine := sm, lastApplied := la }
    let rest := applyRepeatedly s'.commitIndex n s'
    s.applyCommitted.server = s' ∧ applyRepeatedly s.commitIndex (n + 1) s =
      ⟨rest.server, s.applyCommitted.effects ++ rest.effects, rest.panicked⟩ := by
  have hp : s.applyCommitted.panicked = false := (applyLoop_spec _ s).2.1
  obtain ⟨sm, la, heq, hla, -⟩ := (s.applyCommitted_ensures fun _ _ => True).server hp
  refine ⟨sm, la, hla, heq, ?_⟩
  rw [applyRepeatedly, applyLatestCommitedLogs_self, Outcome.andThen_of_not_panicked hp, heq]

theorem applyRepeatedly_ensures (n : ℕ) (s : Server σ) (Q : Outgoing → Server σ → Prop) :
    (applyRepeatedly s.commitIndex n s).Ensures
      (fun s' => ∃ sm la, s' = { s with stateMachine := sm, lastApplied := la } ∧
        s.lastApplied ≤ la) Q := by
  induction n generalizing s with
  | zero => exact .done ⟨_, _, rfl, Int.le_refl _⟩
  | succ n ih =>
    unfold applyRepeatedly
    rw [applyLatestCommitedLogs_self]
    refine (s.applyCommitted_ensures _).silent_andThen ?_
    rintro _ ⟨sm, la, rfl, hla, -⟩
    refine (ih { s with stateMachine := sm, lastApplied := la }).mono ?_ fun _ _ _ h => h
    rintro _ ⟨sm', la', rfl, hla'⟩
    exact ⟨sm', la', rfl, Int.le_trans hla hla'⟩

omit [StateMachine σ] in
/-- `last_applied` catches up with the commit index whatever the state machine returned. -/
theorem answerClient_ensures {s s₀ : Server σ} {mi : List ℤ} {ni : List ℕ} (incoming : Incoming)
    (h₀ : s₀.state.isLeader = true) (hst : s.state = .leader mi ni) :
    s.answerClient.Ensures
      (fun s' => s' = { s with
        state := .leader (mi.set s.id s.commitIndex) ni, lastApplied := s.commitIndex })
      (s₀.Emits incoming) := by
  unfold answerClient
  simp only [hst]
  split
  · split
    · exact .done rfl
    · split
      · exact .done rfl
      · exact .send rfl (.answer h₀ rfl)
  · exact .panic

omit [StateMachine σ] in
theorem findCommit_spec {s : Server σ} {mi : List ℤ} {ns : List ℤ} {n : ℤ}
    (h : s.findCommit mi ns = some (some n)) :
    n ∈ ns ∧ (∃ entry, s.log[asUsize n]? = some entry ∧ entry.term = s.currentTerm) ∧
      s.config.totalNodes / 2 ≠ 0 ∧ s.config.totalNodes / 2 - 1 < matchCount mi n := by
  induction ns with
  | nil => cases h
  | cons m ns ih =>
    have later : s.findCommit mi ns = some (some n) → _ := fun h => by
      obtain ⟨hn, hrest⟩ := ih h
      exact And.intro (List.mem_cons_of_mem m hn) hrest
    unfold findCommit at h
    split at h
    · cases h
    · rename_i entry hentry
      split_ifs at h with hterm htwo hmaj
      · cases h
        exact ⟨List.mem_cons_self, ⟨entry, hentry, hterm⟩, htwo, hmaj⟩
      · exact later h
      · exact later h

theorem mem_rangeInclusive {a b n : ℤ} : n ∈ rangeInclusive a b ↔ a ≤ n ∧ n ≤ b := by
  simp only [rangeInclusive, List.mem_map, List.mem_range]
  constructor
  · rintro ⟨k, hk, rfl⟩
    omega
  · rintro ⟨ha, hb⟩
    exact ⟨(n - a).toNat, by omega, by omega⟩

omit [StateMachine σ] in
/-- What the commit loop finds between the checked bounds of `handle_append_entries_response`. -/
theorem committable_of_findCommit {s : Server σ} {mi : List ℤ} {startIndex lastLogIndex n : ℤ}
    (hlast : (if s.log.isEmpty then some 0 else s.lenMinusOne) = some lastLogIndex)
    (hstart : checkedI32 (s.commitIndex + 1) = some startIndex)
    (h : s.findCommit mi (rangeInclusive startIndex lastLogIndex) = some (some n)) :
    s.Committable mi n := by
  obtain ⟨hmem, ⟨entry, hentry, hterm⟩, htwo, hmaj⟩ := findCommit_spec h
  obtain ⟨rfl, hstart⟩ := checkedI32_eq_some.1 hstart
  obtain ⟨hlt, hle⟩ := mem_rangeInclusive.1 hmem
  refine ⟨by omega, fun hlen => ?_, htwo, hmaj⟩
  have hidx : asUsize n < s.log.length := (List.getElem?_eq_some_iff.1 hentry).1
  have hn : 0 ≤ n := by
    by_contra hneg
    have := le_asUsize_of_neg (x := n) (by omega) (by omega)
    omega
  have hlast : lastLogIndex < 2 ^ 31 := by
    split at hlast
    · cases hlast; omega
    · exact (checkedI32_eq_some.1 hlast).2.2
  rw [asUsize_toNat hn (by omega)] at hentry
  exact ⟨hn, entry, hentry, hterm⟩

omit [StateMachine σ] in
theorem Searches.committable {s : Server σ} {mi mi' : List ℤ} {ni ni' : List ℕ} {lastIdx n : ℤ}
    (h : s.Searches mi' ni' lastIdx (some n)) (hst : s.state = .leader mi ni) :
    s.Committable mi n := by
  obtain ⟨rfl, -⟩ := RaftState.leader.inj (h.leader.symm.trans hst)
  exact committable_of_findCommit h.last h.start h.found

theorem advanceCommit_ensures {s s₀ : Server σ} {mi : List ℤ} {ni : List ℕ} (success : Bool)
    (incoming : Incoming) (h₀ : s₀.state.isLeader = true) (hst : s.state = .leader mi ni) :
    (s.advanceCommit success).Ensures
      (fun s' => ∃ mi' sm ci la, s.Raises mi mi' ci la ∧
        s' = { s with
          state := .leader mi' ni, stateMachine := sm, commitIndex := ci, lastApplied := la })
      (s₀.Emits incoming) := by
  have hcases := s.advanceCommit_cases success
  generalize s.advanceCommit success = o at hcases
  cases hcases with
  | panic => exact .panic
  | idle => exact .done ⟨mi, _, _, _, .keep, by rw [← hst]⟩
  | keep => exact .done ⟨mi, _, _, _, .keep, by rw [← hst]⟩
  | raise hfind _ =>
    exact .done ⟨mi, _, _, _, .commit (hfind.committable hst) (.inl rfl) (.inl rfl), by rw [← hst]⟩
  | @commit _ _ _ n hfind _ _ =>
    refine (applyRepeatedly_ensures _ { s with commitIndex := n } _).silent_andThen ?_
    rintro _ ⟨sm, la, rfl, -⟩
    let s₁ : Server σ := { s with commitIndex := n, stateMachine := sm, lastApplied := la }
    have hst₁ : s₁.state = .leader mi ni := hst
    refine (answerClient_ensures incoming h₀ hst₁).mono ?_ fun _ _ _ h => h
    rintro _ rfl
    exact ⟨_, sm, n, n, .commit (hfind.committable hst) (.inr rfl) (.inr rfl), rfl⟩

omit [StateMachine σ] in
theorem noted_of_reply {s : Server σ} {mi : List ℤ} {ni : List ℕ} (peerId : NodeId)
    (msg : AppendEntriesResponse) (hst : s.state = .leader mi ni) :
    (if msg.success then s.creditFollower mi ni peerId
      else s.retryFollower mi ni peerId).Ensures (s.Noted (.peer peerId) msg)
        (s.Emits ⟨.peer peerId, .appendEntriesResponse msg⟩) := by
  split
  · rename_i hok
    exact creditFollower_ensures peerId _ hst hok
  · rename_i hok
    exact retryFollower_ensures peerId _ hst (by simpa using hok)

theorem handleAppendEntriesResponse_ensures (s : Server σ) (sender : Id)
    (msg : AppendEntriesResponse) :
    (s.handleAppendEntriesResponse sender msg).Ensures
      (s.HandlesTo ⟨sender, .appendEntriesResponse msg⟩ s.log)
      (s.Emits ⟨sender, .appendEntriesResponse msg⟩) := by
  rcases s.handleAppendEntriesResponse_cases sender msg with
    ⟨hl, hgt, heq⟩ | heq | ⟨mi, ni, peer, hst, rfl, hle, heq⟩
  · rw [heq]
    refine .done ⟨.stepDown _ (fun hf => ?_) hgt, rfl⟩
    rw [hf] at hl
    cases hl
  · rw [heq]
    exact .done ⟨.keep, rfl⟩
  · have hl : s.state.isLeader = true := by rw [hst]; rfl
    rw [heq]
    refine (noted_of_reply peer msg hst).andThen ?_ ?_
    · rintro _ ⟨mi, ni, hcredit, rfl⟩
      exact ⟨.response s.stateMachine rfl hle hcredit .keep, rfl⟩
    · rintro _ ⟨mi, ni, hcredit, rfl⟩
      refine (advanceCommit_ensures msg.success _ hl rfl).mono ?_ fun _ _ _ h => h
      rintro _ ⟨mi', sm, ci, la, hraise, rfl⟩
      refine ⟨.response sm rfl hle hcredit ?_, rfl⟩
      cases hraise with
      | keep => exact .keep
      | commit hc hmi hla => exact .commit ⟨hc.lt, hc.entry, hc.nodes, hc.majority⟩ hmi hla

/-- **Inversion of `recieve_rpc`.** -/
theorem recieveRpc_ensures (s : Server σ) (order : List NodeId) (incoming : Incoming) :
    ∃ log, (s.recieveRpc order incoming).Ensures (s.HandlesTo incoming log) (s.Emits incoming) := by
  obtain ⟨sender, msg⟩ := incoming
  cases msg with
  | appendEntries msg => exact s.handleAppendEntries_ensures sender msg
  | appendEntriesResponse msg => exact ⟨_, s.handleAppendEntriesResponse_ensures sender msg⟩
  | requestVote msg => exact ⟨_, s.handleRequestVoteRpc_ensures sender msg⟩
  | requestVoteResponse msg => exact ⟨_, .done ⟨s.handles_handleRequestVoteResponseRpc sender msg, rfl⟩⟩
  | clientRequest req => exact s.handleClientRequest_ensures order sender req
  | clientResponse _ => exact ⟨_, .done ⟨.keep, rfl⟩⟩
  | hello _ => exact ⟨_, .done ⟨.keep, rfl⟩⟩
  | helloClient _ => exact ⟨_, .done ⟨.keep, rfl⟩⟩

end Server

end MiniRaft
