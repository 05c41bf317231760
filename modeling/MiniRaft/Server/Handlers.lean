import MiniRaft.Server.Basic

/-!
# The handlers of `server.rs`

Every method of `Server` that handles a message, translated one by one.  A method that awaits
`to_network.send` returns an `Outcome`, whose effects carry the server as it stands at each such
await; a method that cannot stop half way returns the new server.

`to_network` stays open as long as the process lives, so a send never returns an error.  The
iteration order of the `HashMap` in `handle_set_command` is the argument `order`.
-/

namespace MiniRaft

variable {σ : Type}

namespace Server

/-! ### Roles -/

/-- `become_follower`. -/
def becomeFollower (s : Server σ) (term : ℕ) : Server σ :=
  { s with currentTerm := term, state := .follower, votedFor := none }

/-- `become_follower_if_higher_term`; the callers have compared the terms. -/
def becomeFollowerIfHigherTerm (s : Server σ) (term : ℕ) : Server σ := s.becomeFollower term

/-- `become_candidate`; the term is a `u32`. -/
def becomeCandidate (s : Server σ) : Outcome σ :=
  if s.currentTerm < u32Max then
    .done { s with currentTerm := s.currentTerm + 1, votedFor := some s.id }
  else .panic s

/-- `become_leader`. -/
def becomeLeader (s : Server σ) : Server σ :=
  let nextIndexEach := if s.lastApplied < 0 then 0 else asUsize s.lastApplied + 1
  let size := s.config.totalNodes + 1
  { s with state := .leader (List.replicate size (-1)) (List.replicate size nextIndexEach) }

/-! ### Log ends -/

/-- `self.log.len() as i32 - 1`. -/
def lenMinusOne (s : Server σ) : Option ℤ := checkedI32 (asI32 s.log.length - 1)

/-- `self.log[self.log.len() - 1].term`, or `0` for an empty log. -/
def lastTermOrZero (s : Server σ) : ℕ :=
  match s.log.getLast? with
  | some entry => entry.term
  | none => 0

/-- `send_request_vote_rpc_to_peers`. -/
def sendRequestVoteRpcToPeers (s : Server σ) : Outcome σ :=
  match if s.log.isEmpty then some 0 else s.lenMinusOne with
  | none => .panic s
  | some lastLogIndex =>
    .send s ⟨.broadcast, .requestVote
      { term := s.currentTerm
        candidateId := s.id
        lastLogIndex := lastLogIndex
        lastLogTerm := s.lastTermOrZero }⟩

/-- `send_heartbeat`. -/
def sendHeartbeat (s : Server σ) : Outcome σ :=
  match s.lenMinusOne with
  | none => .panic s
  | some prevLogIndex =>
    .send s ⟨.broadcast, .appendEntries
      { term := s.currentTerm
        leaderId := s.id
        prevLogIndex := prevLogIndex
        prevLogTerm := s.lastTermOrZero
        entries := []
        leaderCommit := s.commitIndex }⟩

/-! ### Applying the log -/

/-- The call of the state machine for one command. -/
def execute [StateMachine σ] (stateMachine : σ) : LogCommand → σ × Bool
  | .set key value => StateMachine.applyLog stateMachine key value
  | .delete key => StateMachine.deleteKey stateMachine key
  | .get _ => (stateMachine, true)

/-- The `while` loop of `apply_latest_commited_logs`, for at most `n` entries. -/
def applyLoop [StateMachine σ] : ℕ → Server σ → Outcome σ
  | 0, s => .done s
  | n + 1, s =>
    match s.log[asUsize (s.lastApplied + 1)]? with
    | none => .done s
    | some log =>
      match execute s.stateMachine log.command with
      | (sm, false) =>
        ⟨{ s with stateMachine := sm },
          [.apply (asUsize (s.lastApplied + 1)) log.command false], false⟩
      | (sm, true) =>
        Outcome.andThen
          ⟨{ s with stateMachine := sm, lastApplied := s.lastApplied + 1 },
            [.apply (asUsize (s.lastApplied + 1)) log.command true], false⟩
          (applyLoop n)

/-- `while last_applied < commit_index`: each round adds one to `last_applied`. -/
def applyCommitted [StateMachine σ] (s : Server σ) : Outcome σ :=
  s.applyLoop (s.commitIndex - s.lastApplied).toNat

/-- `apply_latest_commited_logs`; all callers discard its result. -/
def applyLatestCommitedLogs [StateMachine σ] (s : Server σ) (leaderCommit : ℤ) : Outcome σ :=
  if leaderCommit > s.commitIndex then
    match s.lenMinusOne with
    | none => .panic s
    | some lastIdx =>
      if lastIdx ≥ 0 then
        { s with commitIndex := min leaderCommit lastIdx }.applyCommitted
      else s.applyCommitted
  else s.applyCommitted

/-! ### AppendEntries -/

/-- `reply_false_if_lower_term`, for the term of either request. -/
def replyFalseIfLowerTerm (s : Server σ) (term : ℕ) (reply : Outgoing) : Outcome σ :=
  if term < s.currentTerm then .send s reply else .done s

/-- The `match` of `reply_false_if_prev_log_does_not_match`. -/
def prevLogIndexMatching (s : Server σ) (msg : AppendEntries) : Bool :=
  match s.log[asUsize msg.prevLogIndex]? with
  | some logEntry => logEntry.term == msg.prevLogTerm
  -- an empty log accepts whatever the message says
  | none => s.log.length == 0

/-- `reply_false_if_prev_log_does_not_match`. -/
def replyFalseIfPrevLogDoesNotMatch (s : Server σ) (msg : AppendEntries) (leaderId : NodeId) :
    Outcome σ × Bool :=
  if s.prevLogIndexMatching msg then (.done s, true)
  else (.send s ⟨.node leaderId,
    .appendEntriesResponse { term := s.currentTerm, success := false }⟩, false)

/-- The first loop of `delete_conflicting_and_append_new_entries`: the log, truncated at each
conflict, and the entries to append. -/
def collectNewEntries : List LogEntry → List LogEntry → List LogEntry →
    List LogEntry × List LogEntry
  | log, newEntries, [] => (log, newEntries)
  | log, newEntries, entry :: entries =>
    match log[entry.index]? with
    | some logEntry =>
      if logEntry.term ≠ entry.term then
        -- the entries that follow are looked up in the truncated log
        collectNewEntries (log.take entry.index) (newEntries ++ [entry]) entries
      else collectNewEntries log newEntries entries
    | none => collectNewEntries log (newEntries ++ [entry]) entries

/-- The second loop: `Vec::insert` panics past the end of the log. -/
def insertNewEntries : List LogEntry → List LogEntry → Option (List LogEntry)
  | log, [] => some log
  | log, entry :: entries =>
    if entry.index ≤ log.length then insertNewEntries (log.insertIdx entry.index entry) entries
    else none

/-- `delete_conflicting_and_append_new_entries`. -/
def deleteConflictingAndAppendNewEntries (s : Server σ) (msg : AppendEntries) : Outcome σ :=
  match insertNewEntries (collectNewEntries s.log [] msg.entries).1
      (collectNewEntries s.log [] msg.entries).2 with
  | none => .panic s
  | some log => .done { s with log := log }

/-- The end of `handle_append_entries`: set `commit_index` to
`min(leader_commit, index of last new entry)` and reply. -/
def commitAndReply (s : Server σ) (msg : AppendEntries) (nodeId : NodeId) : Outcome σ :=
  match msg.entries.getLast? with
  | none => .done s
  | some last =>
    let s := if msg.leaderCommit > s.commitIndex then
        { s with commitIndex := min msg.leaderCommit (asI32 last.index) }
      else s
    .send s ⟨.node nodeId,
      .appendEntriesResponse { term := s.currentTerm, success := true }⟩

/-- `handle_append_entries` from the point where the message is accepted. -/
def acceptAppendEntries [StateMachine σ] (s : Server σ) (msg : AppendEntries) (nodeId : NodeId) :
    Outcome σ :=
  (s.applyLatestCommitedLogs msg.leaderCommit).andThen fun s =>
    if msg.entries.isEmpty then .done s
    else (s.deleteConflictingAndAppendNewEntries msg).andThen fun s => s.commitAndReply msg nodeId

/-- `handle_append_entries`. -/
def handleAppendEntries [StateMachine σ] (s : Server σ) (sender : Id) (msg : AppendEntries) :
    Outcome σ :=
  match sender with
  | .client _ => .done s
  | .peer nodeId =>
    if msg.term < s.currentTerm then
      s.replyFalseIfLowerTerm msg.term ⟨.node nodeId,
        .appendEntriesResponse { term := s.currentTerm, success := false }⟩
    else
      let (reply, matched) := s.replyFalseIfPrevLogDoesNotMatch msg nodeId
      if !matched then reply
      else if msg.term > s.currentTerm then
        match s.state with
        -- only the term moves; `voted_for` keeps the vote of the old one
        | .follower => { s with currentTerm := msg.term }.acceptAppendEntries msg nodeId
        | _ => .done (s.becomeFollowerIfHigherTerm msg.term)
      else s.acceptAppendEntries msg nodeId

/-! ### RequestVote -/

/-- `handle_request_vote_rpc`. -/
def handleRequestVoteRpc (s : Server σ) (msg : RequestVote) : Outcome σ :=
  let reply : Outgoing := ⟨.node msg.candidateId,
    .requestVoteResponse { term := s.currentTerm, voteGranted := false }⟩
  let grant : Outgoing := ⟨.node msg.candidateId,
    .requestVoteResponse { term := s.currentTerm, voteGranted := true }⟩
  if msg.term < s.currentTerm then s.replyFalseIfLowerTerm msg.term reply
  else
    match s.votedFor with
    | some votedFor =>
      if votedFor ≠ msg.candidateId then .send s reply
      else
        match s.log.getLast? with
        | none => .panic s
        | some last =>
          if msg.lastLogIndex < asI32 last.index ∨ msg.lastLogTerm ≠ last.term then .send s reply
          else .send s grant
    -- neither `voted_for` nor `current_term` is updated, and the logs are not compared
    | none => .send s grant

/-- `handle_request_vote_response_rpc`. -/
def handleRequestVoteResponseRpc (s : Server σ) (msg : RequestVoteResponse) : Server σ :=
  match s.state with
  | .candidate votesReceived =>
    if msg.term > s.currentTerm then s.becomeFollowerIfHigherTerm msg.term
    else if msg.voteGranted then
      if votesReceived + 1 ≥ s.config.totalNodes / 2 + 1 then
        { s with state := .candidate (votesReceived + 1) }.becomeLeader
      else { s with state := .candidate (votesReceived + 1) }
    else s
  | _ => s

/-! ### Client commands -/

/-- `prev_log_index` and `prev_log_term` computed from `next_index[i]` for a client command. -/
def prevLogOf (log : List LogEntry) (nextIndex : ℕ) : Option (ℤ × ℕ) :=
  match if nextIndex = 0 then some (-1) else checkedI32 (asI32 nextIndex - 1) with
  | none => none
  | some prevLogIndex =>
    if prevLogIndex = -1 then some (prevLogIndex, 0)
    else (log[asUsize prevLogIndex]?).map fun entry => (prevLogIndex, entry.term)

/-- The body of the loop of `handle_set_command`, for a peer other than the leader itself. -/
def sendEntryFor (logEntry : LogEntry) (nextIndex : List ℕ) (peerId : NodeId) (s : Server σ) :
    Outcome σ :=
  match (nextIndex[peerId]?).bind (prevLogOf s.log), s.lenMinusOne with
  | some (prevLogIndex, prevLogTerm), some lastIndex =>
    if peerId < s.lastSentIndex.length then
      -- computed for `peer_id`, broadcast to all
      .send { s with lastSentIndex := s.lastSentIndex.set peerId lastIndex }
        ⟨.broadcast, .appendEntries
          { term := s.currentTerm
            leaderId := s.id
            prevLogIndex := prevLogIndex
            prevLogTerm := prevLogTerm
            entries := [logEntry]
            leaderCommit := s.commitIndex }⟩
    else .panic s
  | _, _ => .panic s

/-- The loop of `handle_set_command` over the configured peers. -/
def broadcastEntry (logEntry : LogEntry) (nextIndex : List ℕ) : List NodeId → Server σ → Outcome σ
  | [], s => .done s
  | peerId :: peers, s =>
    if peerId = s.id then broadcastEntry logEntry nextIndex peers s
    else (sendEntryFor logEntry nextIndex peerId s).andThen
      (broadcastEntry logEntry nextIndex peers)

/-- `handle_set_command`. -/
def handleSetCommand (s : Server σ) (order : List NodeId) (key value : String)
    (clientId requestId : ℕ) : Outcome σ :=
  match s.state with
  | .leader _ nextIndex =>
    let logEntry : LogEntry :=
      { term := s.currentTerm
        command := .set key value
        index := asU32 s.log.length
        clientId := clientId
        requestId := requestId }
    broadcastEntry logEntry nextIndex order { s with log := s.log ++ [logEntry] }
  | _ => .done s

/-- `handle_client_request`. -/
def handleClientRequest (s : Server σ) (order : List NodeId) (msg : ClientRequest) : Outcome σ :=
  match s.state with
  | .leader _ _ =>
    match msg.command with
    | .set key value => s.handleSetCommand order key value msg.clientId msg.requestId
    | _ => .done s
  | _ => .done s

/-! ### AppendEntriesResponse -/

/-- A success: `match_index[i] = last_sent_index[i]` and `next_index[i] = match_index[i] + 1`. -/
def creditFollower (s : Server σ) (matchIndex : List ℤ) (nextIndex : List ℕ) (i : NodeId) :
    Outcome σ :=
  match s.lastSentIndex[i]? with
  | none => .panic s
  | some lastSent =>
    -- `match_index[i] as u64 + 1` overflows for a match at `-1`
    if i < matchIndex.length ∧ i < nextIndex.length ∧ asUsize lastSent + 1 < 2 ^ 64 then
      let nextIndex := nextIndex.set i (asUsize lastSent + 1)
      .done { s with state := .leader (matchIndex.set i lastSent) nextIndex }
    else .panic s

/-- A rejection: step `next_index[i]` back and send the log from there. -/
def retryFollower (s : Server σ) (matchIndex : List ℤ) (nextIndex : List ℕ) (i : NodeId) :
    Outcome σ :=
  match nextIndex[i]? with
  | none => .panic s
  | some next =>
    let next := if next > 0 then next - 1 else 0
    let s := { s with state := .leader matchIndex (nextIndex.set i next) }
    -- `prev_log_index` is `next_index[i]` itself, the index of the first entry sent
    match s.log[asUsize (asI32 next)]? with
    | none => .panic s
    | some prev =>
      if next ≤ s.log.length then
        .send s ⟨.node i, .appendEntries
          { term := s.currentTerm
            leaderId := s.id
            prevLogIndex := asI32 next
            prevLogTerm := prev.term
            entries := s.log.drop next
            leaderCommit := s.commitIndex }⟩
      else .panic s

/-- The number of slots of `match_index` that have reached `n`. -/
def matchCount (matchIndex : List ℤ) (n : ℤ) : ℕ := matchIndex.countP fun m => decide (n ≤ m)

/-- The commit loop over the indices `ns`: the first entry of the current term that a majority
holds; `none` is a panic. -/
def findCommit (s : Server σ) (matchIndex : List ℤ) : List ℤ → Option (Option ℤ)
  | [] => some none
  | n :: ns =>
    match s.log[asUsize n]? with
    | none => none
    | some entry =>
      if entry.term = s.currentTerm then
        -- `total_nodes / 2 - 1` underflows for fewer than two nodes
        if s.config.totalNodes / 2 = 0 then none
        else if matchCount matchIndex n > s.config.totalNodes / 2 - 1 then some (some n)
        else findCommit s matchIndex ns
      else findCommit s matchIndex ns

/-- `start..=last` for `i32`s. -/
def rangeInclusive (start last : ℤ) : List ℤ :=
  (List.range (last + 1 - start).toNat).map fun k : ℕ => start + k

/-- `for n in last_applied + 1..=commit_index`: one call of `apply_latest_commited_logs` each. -/
def applyRepeatedly [StateMachine σ] (commitIndex : ℤ) : ℕ → Server σ → Outcome σ
  | 0, s => .done s
  | n + 1, s => (s.applyLatestCommitedLogs commitIndex).andThen (applyRepeatedly commitIndex n)

/-- The answer to the client whose entry has been committed. -/
def clientResponse : LogEntry → Option ClientResponse
  | { command := .set _ _, requestId := requestId, .. } => some (.setSuccess requestId)
  | { command := .delete _, requestId := requestId, .. } => some (.deleteSuccess requestId true)
  | { command := .get _, .. } => none

/-- After the loop: `last_applied = commit_index`, record the leader's own match, answer the
client of the entry at `commit_index`. -/
def answerClient (s : Server σ) : Outcome σ :=
  let s := { s with lastApplied := s.commitIndex }
  match s.state with
  | .leader matchIndex nextIndex =>
    if s.id < matchIndex.length then
      let s := { s with state := .leader (matchIndex.set s.id s.commitIndex) nextIndex }
      match s.log[asUsize s.commitIndex]? with
      | none => .done s
      | some logEntry =>
        match clientResponse logEntry with
        | none => .done s
        | some response => .send s ⟨.client logEntry.clientId, .clientResponse response⟩
    else .panic s
  | _ => .done s

/-- `handle_append_entries_response` from the commit loop on. -/
def advanceCommit [StateMachine σ] (s : Server σ) (success : Bool) : Outcome σ :=
  match s.state with
  | .leader matchIndex _ =>
    match if s.log.isEmpty then some 0 else s.lenMinusOne, checkedI32 (s.commitIndex + 1) with
    | some lastLogIndex, some startIndex =>
      match s.findCommit matchIndex (rangeInclusive startIndex lastLogIndex) with
      | none => .panic s
      | some none => .done s
      | some (some n) =>
        let s := { s with commitIndex := n }
        if success then
          -- the loop bound `last_applied + 1`, computed once
          match checkedI32 (s.lastApplied + 1) with
          | none => .panic s
          | some _ =>
            (applyRepeatedly s.commitIndex (s.commitIndex - s.lastApplied).toNat s).andThen
              answerClient
        else .done s
    | _, _ => .panic s
  | _ => .done s

/-- `handle_append_entries_response`. -/
def handleAppendEntriesResponse [StateMachine σ] (s : Server σ) (sender : Id)
    (msg : AppendEntriesResponse) : Outcome σ :=
  match s.state with
  | .leader matchIndex nextIndex =>
    if msg.term > s.currentTerm then .done (s.becomeFollowerIfHigherTerm msg.term)
    else
      match sender with
      | .client _ => .done s
      | .peer peerId =>
        (if msg.success then s.creditFollower matchIndex nextIndex peerId
          else s.retryFollower matchIndex nextIndex peerId).andThen fun s =>
            s.advanceCommit msg.success
  | _ => .done s

/-! ### Dispatch -/

/-- `recieve_rpc` once a message has been taken from the queue. -/
def recieveRpc [StateMachine σ] (s : Server σ) (order : List NodeId) (incoming : Incoming) :
    Outcome σ :=
  match incoming.msg with
  | .appendEntries msg => s.handleAppendEntries incoming.sender msg
  | .appendEntriesResponse msg => s.handleAppendEntriesResponse incoming.sender msg
  | .requestVote msg => s.handleRequestVoteRpc msg
  | .requestVoteResponse msg => .done (s.handleRequestVoteResponseRpc msg)
  | .clientRequest msg => s.handleClientRequest order msg
  | _ => .done s

end Server

end MiniRaft
