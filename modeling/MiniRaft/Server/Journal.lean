import MiniRaft.Consensus.Replay
import MiniRaft.Server.InOrder
import MiniRaft.Server.SimpleStateMachine
import MiniRaft.Server.Skipped

/-!
# What a turn writes into the state machine

For a state machine whose calls do not fail, a handler and a role loop apply one piece of the log:
the entries past `last_applied`, up to the `last_applied` they leave, each once and in order,
whether the follower's path or the leader's applies them, and whether the handler completes or is
dropped.

* `Server.Records` : the calls made on the way from one server to another are such a piece.
* `Server.recieveRpc_records`, `Server.afterRpc_records`, `Server.afterTimer_records` : the handlers
  and the loops.
* `SimpleStateMachine.getValue_foldl` : what the store of `state_machine.rs` holds after some
  commands.
-/

namespace MiniRaft

variable {σ : Type}

/-- Every call of the state machine returns `Ok`. -/
def Reliable (σ : Type) [StateMachine σ] : Prop :=
  (∀ (sm : σ) key value, (StateMachine.applyLog sm key value).2 = true) ∧
    ∀ (sm : σ) key, (StateMachine.deleteKey sm key).2 = true

theorem Reliable.execute [StateMachine σ] (h : Reliable σ) (sm : σ) (command : LogCommand) :
    (Server.execute sm command).2 = true := by
  cases command with
  | set key value => exact h.1 sm key value
  | delete key => exact h.2 sm key
  | get => rfl

/-- The calls of the state machine among the effects, by index and command. -/
def journal (effects : List (Effect σ)) : List (ℕ × LogCommand) :=
  effects.filterMap fun
    | .apply index command _ => some (index, command)
    | .send .. => none

theorem journal_append (es es' : List (Effect σ)) :
    journal (es ++ es') = journal es ++ journal es' :=
  List.filterMap_append

/-- The numbered commands of a piece of the log that starts at `a`. -/
def numbered (a : ℕ) (entries : List LogEntry) : List (ℕ × LogCommand) :=
  entries.mapIdx fun k entry => (a + k, entry.command)

theorem numbered_append (a : ℕ) (es es' : List LogEntry) :
    numbered a (es ++ es') = numbered a es ++ numbered (a + es.length) es' := by
  unfold numbered
  rw [List.mapIdx_append]
  congr 1
  simp only [Nat.add_assoc, Nat.add_comm es.length]

theorem journal_apply (a : ℕ) (entries : List LogEntry) :
    journal (entries.mapIdx fun k entry => (.apply (a + k) entry.command true : Effect σ)) =
      numbered a entries := by
  induction entries generalizing a with
  | nil => rfl
  | cons entry entries ih =>
    have hrest := ih (a + 1)
    simp only [numbered, Nat.add_assoc, Nat.add_comm 1] at hrest
    simp only [numbered, List.mapIdx_cons]
    exact congrArg (List.cons (a + 0, entry.command)) hrest

theorem journal_eq_nil {o : Outcome σ} (h : o.Calls fun _ _ => False) (j : ℕ) :
    journal (o.effects.take j) = [] := by
  rw [journal, List.filterMap_eq_nil_iff]
  intro ef hmem
  cases ef with
  | send => rfl
  | apply => exact (h.apply (List.mem_of_mem_take hmem)).elim

namespace Server

/-! ### Parts that apply nothing -/

/-- The part `o` applies nothing: the state machine and `last_applied` stay those of `s`. -/
structure Rests (s : Server σ) (o : Outcome σ) : Prop where
  ensures : o.Ensures (fun s' => s'.lastApplied = s.lastApplied ∧ s'.stateMachine = s.stateMachine)
    fun _ _ => True
  calls : o.Calls fun _ _ => False

namespace Rests

variable {s s' : Server σ} {o : Outcome σ} {f : Server σ → Outcome σ}

theorem done (hla : s'.lastApplied = s.lastApplied) (hsm : s'.stateMachine = s.stateMachine) :
    s.Rests (.done s') := ⟨.done ⟨hla, hsm⟩, .of_effects_eq_nil rfl⟩

theorem panic : s.Rests (.panic s') := ⟨.panic, .of_effects_eq_nil rfl⟩

theorem send {out : Outgoing} (hla : s'.lastApplied = s.lastApplied)
    (hsm : s'.stateMachine = s.stateMachine) : s.Rests (.send s' out) :=
  ⟨.send ⟨hla, hsm⟩ trivial, .send _ _⟩

theorem andThen (h : s.Rests o) (hf : ∀ s', s'.lastApplied = s.lastApplied →
    s'.stateMachine = s.stateMachine → s.Rests (f s')) : s.Rests (o.andThen f) where
  ensures := h.ensures.andThen (fun _ h => h) fun _ h => (hf _ h.1 h.2).ensures
  calls := h.calls.andThen fun hp =>
    have hsame := h.ensures.server hp
    (hf _ hsame.1 hsame.2).calls

end Rests

/-! ### What is recorded -/

/-- On the way from `s` to `s'` the effects apply the log of `s` from one `last_applied` to the
other, in order, and the state machine takes exactly that. -/
structure Records [StateMachine σ] (s : Server σ) (effects : List (Effect σ)) (s' : Server σ) :
    Prop where
  le : s.lastApplied ≤ s'.lastApplied
  calls : journal effects =
    numbered (s.lastApplied + 1).toNat (s.pending (s'.lastApplied - s.lastApplied).toNat)
  store : s'.stateMachine =
    replay s.stateMachine (s.pending (s'.lastApplied - s.lastApplied).toNat)

/-- The same for every server an outcome passes through. -/
structure RecordsIn [StateMachine σ] (s : Server σ) (o : Outcome σ) : Prop where
  server : o.panicked = false → s.Records o.effects o.server
  sends : ∀ {j : ℕ} {out : Outgoing} {snap : Server σ}, o.effects[j]? = some (.send out snap) →
    s.Records (o.effects.take j) snap

variable [StateMachine σ] {s s' : Server σ} {o o' : Outcome σ} {f : Server σ → Outcome σ}

theorem Records.of_same {effects : List (Effect σ)} (hnil : journal effects = [])
    (hla : s'.lastApplied = s.lastApplied) (hsm : s'.stateMachine = s.stateMachine) :
    s.Records effects s' := by
  have hzero : (s'.lastApplied - s.lastApplied).toNat = 0 := by omega
  refine ⟨Int.le_of_eq hla.symm, ?_, ?_⟩
  · rw [hnil, hzero]
    rfl
  · rw [hsm, hzero]
    rfl

theorem Records.of_eq {s₁ : Server σ} {effects : List (Effect σ)} (h : s₁.Records effects s')
    (hlog : s₁.log = s.log) (hla : s₁.lastApplied = s.lastApplied)
    (hsm : s₁.stateMachine = s.stateMachine) : s.Records effects s' := by
  obtain ⟨hle, hcalls, hstore⟩ := h
  rw [pending, hlog, hla] at hcalls hstore
  rw [hsm] at hstore
  exact ⟨hla ▸ hle, hcalls, hstore⟩

theorem RecordsIn.of_eq {s₁ : Server σ} (h : s₁.RecordsIn o) (hlog : s₁.log = s.log)
    (hla : s₁.lastApplied = s.lastApplied) (hsm : s₁.stateMachine = s.stateMachine) :
    s.RecordsIn o where
  server hp := (h.server hp).of_eq hlog hla hsm
  sends hget := (h.sends hget).of_eq hlog hla hsm

theorem Records.append {effects effects' : List (Effect σ)} {s'' : Server σ}
    (h : s.Records effects s') (hnil : journal effects' = [])
    (hla : s''.lastApplied = s'.lastApplied) (hsm : s''.stateMachine = s'.stateMachine) :
    s.Records (effects ++ effects') s'' := by
  refine ⟨?_, ?_, ?_⟩
  · rw [hla]
    exact h.le
  · rw [journal_append, hnil, List.append_nil, hla]
    exact h.calls
  · rw [hsm, hla]
    exact h.store

theorem Rests.recordsIn (h : s.Rests o) : s.RecordsIn o where
  server hp := by
    obtain ⟨hla, hsm⟩ := h.ensures.server hp
    have hnil := journal_eq_nil h.calls o.effects.length
    rw [List.take_length] at hnil
    exact .of_same hnil hla hsm
  sends hget := by
    obtain ⟨⟨hla, hsm⟩, -⟩ := h.ensures.sends (List.mem_of_getElem? hget)
    exact .of_same (journal_eq_nil h.calls _) hla hsm

theorem RecordsIn.andThen (h : s.RecordsIn o)
    (hf : o.panicked = false → o.server.Rests (f o.server)) : s.RecordsIn (o.andThen f) := by
  cases hp : o.panicked with
  | true =>
    rw [Outcome.andThen_of_panicked hp]
    exact h
  | false =>
    rw [Outcome.andThen_of_not_panicked hp]
    have hrests := hf hp
    have hrecords := h.server hp
    refine ⟨fun hp' => ?_, fun {j out snap} hget => ?_⟩
    · obtain ⟨hla, hsm⟩ := hrests.ensures.server hp'
      have hnil := journal_eq_nil hrests.calls (f o.server).effects.length
      rw [List.take_length] at hnil
      exact hrecords.append hnil hla hsm
    · dsimp only at hget ⊢
      rcases Nat.lt_or_ge j o.effects.length with hlt | hge
      · rw [List.getElem?_append_left hlt] at hget
        rw [List.take_append_of_le_length (Nat.le_of_lt hlt)]
        exact h.sends hget
      · rw [List.getElem?_append_right hge] at hget
        obtain ⟨⟨hla, hsm⟩, -⟩ := hrests.ensures.sends (List.mem_of_getElem? hget)
        rw [List.take_append, List.take_of_length_le hge]
        exact hrecords.append (journal_eq_nil hrests.calls _) hla hsm

theorem RecordsIn.cut {k : ℕ} (h : s.RecordsIn o) (hk : o.cut k = some o') : s.RecordsIn o' := by
  obtain ⟨out, snap, hget, rfl⟩ := Outcome.cut_eq_some_iff.1 hk
  refine ⟨fun _ => h.sends hget, fun {j out' snap'} hj => ?_⟩
  dsimp only at hj ⊢
  have hjk : j < k := by
    have := (List.getElem?_eq_some_iff.1 hj).1
    rw [List.length_take] at this
    omega
  rw [List.getElem?_take_of_lt hjk] at hj
  rw [List.take_take, Nat.min_eq_left (Nat.le_of_lt hjk)]
  exact h.sends hj

/-! ### The apply loop -/

section

variable (hok : Reliable σ)

include hok

theorem succeed_of_reliable (sm : σ) (entries : List LogEntry) : succeed sm entries = true := by
  induction entries generalizing sm with
  | nil => rfl
  | cons entry entries ih => exact (succeed_cons _ _ _).2 ⟨hok.execute sm entry.command, ih _⟩

/-- **The apply loop** records what it applies and gets to the commit index. -/
theorem applyCommitted_records (hs : s.Within) (hlen : s.log.length ≤ 2 ^ 31) :
    s.RecordsIn s.applyCommitted ∧ s.applyCommitted.panicked = false ∧
      s.applyCommitted.server.lastApplied = s.commitIndex ∧
      s.applyCommitted.server.commitIndex = s.commitIndex := by
  obtain ⟨h₁, h₂, h₃⟩ := hs
  have hranged : s.Ranged := ⟨by omega, by omega, by omega⟩
  rw [applyCommitted_of_succeed hranged h₁ h₂ h₃ (succeed_of_reliable hok _ _)]
  refine ⟨⟨fun _ => ⟨h₂, journal_apply _ _, rfl⟩, fun hget => ?_⟩, rfl, rfl, rfl⟩
  dsimp only at hget
  obtain ⟨_, hget⟩ := List.getElem?_eq_some_iff.1 hget
  rw [List.getElem_mapIdx] at hget
  cases hget

theorem applyLatestCommitedLogs_records (hs : s.Within) (hlen : s.log.length < 2 ^ 31) (lc : ℤ) :
    s.RecordsIn (s.applyLatestCommitedLogs lc) := by
  have hclamp := hs.clampCommit lc
  have h₂ := hs.le
  have h₃ := hs.lt
  rw [applyLatestCommitedLogs_of_lt hlen]
  have hs' : Within { s with commitIndex := s.clampCommit lc } :=
    ⟨hs.lastApplied, by dsimp only; omega, by dsimp only; omega⟩
  exact (applyCommitted_records hok hs' (Nat.le_of_lt hlen)).1.of_eq rfl rfl rfl

end

/-! ### Handlers -/

omit [StateMachine σ] in
theorem commitAndReply_rests (h : s'.lastApplied = s.lastApplied)
    (h' : s'.stateMachine = s.stateMachine) (msg : AppendEntries) (nodeId : NodeId) :
    s.Rests (s'.commitAndReply msg nodeId) := by
  unfold commitAndReply
  split
  · exact .done h h'
  · split_ifs
    · exact .send h h'
    · exact .send h h'

omit [StateMachine σ] in
theorem deleteConflictingAndAppendNewEntries_rests (s : Server σ) (msg : AppendEntries) :
    s.Rests (s.deleteConflictingAndAppendNewEntries msg) := by
  unfold deleteConflictingAndAppendNewEntries
  split
  · exact .panic
  · exact .done rfl rfl

omit [StateMachine σ] in
theorem handleRequestVoteRpc_rests (s : Server σ) (msg : RequestVote) :
    s.Rests (s.handleRequestVoteRpc msg) := by
  rcases s.handleRequestVoteRpc_cases msg with ⟨-, heq⟩ | ⟨-, -, heq⟩ | ⟨-, -, heq⟩
  · rw [heq]
    exact .send rfl rfl
  · rw [heq]
    exact .send rfl rfl
  · rw [heq]
    exact .panic

omit [StateMachine σ] in
theorem handleRequestVoteResponseRpc_rests (s : Server σ) (msg : RequestVoteResponse) :
    s.Rests (.done (s.handleRequestVoteResponseRpc msg)) := by
  unfold handleRequestVoteResponseRpc
  split
  · split_ifs
    · exact .done rfl rfl
    · exact .done rfl rfl
    · exact .done rfl rfl
    · exact .done rfl rfl
  · exact .done rfl rfl

omit [StateMachine σ] in
theorem broadcastEntry_rests (h : s'.lastApplied = s.lastApplied)
    (h' : s'.stateMachine = s.stateMachine) (logEntry : LogEntry) (ni : List ℕ)
    (peers : List NodeId) : s.Rests (broadcastEntry logEntry ni peers s') := by
  induction peers generalizing s' with
  | nil => exact .done h h'
  | cons peer peers ih =>
    unfold broadcastEntry
    split_ifs
    · exact ih h h'
    · refine Rests.andThen ?_ fun s'' hla hsm => ih hla hsm
      rcases s'.sendEntryFor_cases logEntry ni peer with heq | ⟨_, _, -, -, -, heq⟩
      · rw [heq]
        exact .panic
      · rw [heq]
        exact .send h h'

omit [StateMachine σ] in
theorem handleClientRequest_rests (s : Server σ) (order : List NodeId) (req : ClientRequest) :
    s.Rests (s.handleClientRequest order req) := by
  unfold handleClientRequest
  split
  · split
    · unfold handleSetCommand
      split
      · refine broadcastEntry_rests ?_ ?_ _ _ order
        · rfl
        · rfl
      · exact .done rfl rfl
    · exact .done rfl rfl
  · exact .done rfl rfl

theorem advanceCommit_false_rests (h : s'.lastApplied = s.lastApplied)
    (h' : s'.stateMachine = s.stateMachine) : s.Rests (s'.advanceCommit false) := by
  have hcases := s'.advanceCommit_cases false
  generalize s'.advanceCommit false = o at hcases
  cases hcases with
  | panic => exact .panic
  | idle => exact .done h h'
  | keep => exact .done h h'
  | raise => exact .done h h'
  | commit _ hyes => cases hyes

omit [StateMachine σ] in
/-- The end of the leader's path moves `last_applied` only if it is not at the commit index yet. -/
theorem answerClient_rests (h : s.lastApplied = s.commitIndex) : s.Rests s.answerClient := by
  obtain ⟨st, heq | heq | ⟨_, _, -, -, heq⟩⟩ := s.answerClient_cases
  · rw [heq]
    exact .panic
  · rw [heq]
    exact .done h.symm rfl
  · rw [heq]
    exact .send h.symm rfl

section

variable (hok : Reliable σ)

include hok

theorem handleAppendEntries_records (hs : s.Within) (hlen : s.log.length < 2 ^ 31) (sender : Id)
    (msg : AppendEntries) : s.RecordsIn (s.handleAppendEntries sender msg) := by
  cases sender with
  | client _ => exact (Rests.done rfl rfl).recordsIn
  | peer nodeId =>
    rcases s.handleAppendEntries_cases nodeId msg with ⟨-, heq⟩ | ⟨-, -, -, heq⟩ | ⟨-, heq⟩
    · rw [heq]
      exact (Rests.send rfl rfl).recordsIn
    · rw [heq]
      have h : s.Rests (.done (s.becomeFollower msg.term)) := .done rfl rfl
      exact h.recordsIn
    · rw [heq]
      have happly := applyLatestCommitedLogs_records hok (s := { s with currentTerm := msg.term })
        ⟨hs.lastApplied, hs.le, hs.lt⟩ hlen msg.leaderCommit
      have h : RecordsIn { s with currentTerm := msg.term }
          ({ s with currentTerm := msg.term }.acceptAppendEntries msg nodeId) := by
        refine happly.andThen fun _ => ?_
        generalize Outcome.server _ = s'
        split_ifs
        · exact .done rfl rfl
        · exact (s'.deleteConflictingAndAppendNewEntries_rests msg).andThen fun _ hla hsm =>
            commitAndReply_rests hla hsm msg nodeId
      exact h.of_eq rfl rfl rfl

/-- **The leader's path** applies what it commits before it moves `last_applied`. -/
theorem advanceCommit_records (hs : s.Within) (hlen : s.log.length < 2 ^ 31) :
    s.RecordsIn (s.advanceCommit true) := by
  have hcases := s.advanceCommit_cases true
  generalize s.advanceCommit true = o at hcases
  cases hcases with
  | panic => exact Rests.panic.recordsIn
  | idle => exact (Rests.done rfl rfl).recordsIn
  | keep => exact (Rests.done rfl rfl).recordsIn
  | raise _ hno => cases hno
  | @commit mi ni lastIdx n hsearch _ _ =>
    obtain ⟨h₁, h₂, h₃⟩ := hs
    obtain ⟨hmem, hcurrent, -⟩ := findCommit_spec hsearch.found
    obtain ⟨hgt, hle⟩ := mem_rangeInclusive.1 hmem
    have hlt := lastLogIndex_lt hsearch.last
    have hnlen : n < s.log.length := lt_length_of_current hcurrent (by omega)
    let s₁ : Server σ := { s with commitIndex := n }
    have hs₁ : s₁.Within := ⟨h₁, show s.lastApplied ≤ n by omega, hnlen⟩
    have hranged : s₁.Ranged := ⟨show -2 ^ 31 ≤ n ∧ n < 2 ^ 31 by omega,
      show -2 ^ 31 ≤ s.lastApplied ∧ s.lastApplied < 2 ^ 31 by omega,
      show s.log.length < 2 ^ 63 by omega⟩
    have hrounds : (n - s.lastApplied).toNat = (n - s.lastApplied).toNat - 1 + 1 := by omega
    have hrep : applyRepeatedly n (n - s.lastApplied).toNat s₁ = s₁.applyCommitted := by
      rw [hrounds]
      exact applyRepeatedly_of_succeed hranged hs₁.lastApplied hs₁.le hs₁.lt
        (succeed_of_reliable hok _ _)
    obtain ⟨hrecords, -, hla, hci⟩ := applyCommitted_records hok hs₁ (Nat.le_of_lt hlen)
    rw [hrep]
    have h : s₁.RecordsIn (s₁.applyCommitted.andThen answerClient) :=
      hrecords.andThen fun _ => answerClient_rests (hla.trans hci.symm)
    exact h.of_eq rfl rfl rfl

theorem handleAppendEntriesResponse_records (hs : s.Within) (hlen : s.log.length < 2 ^ 31)
    (sender : Id) (msg : AppendEntriesResponse) :
    s.RecordsIn (s.handleAppendEntriesResponse sender msg) := by
  rcases s.handleAppendEntriesResponse_cases sender msg with
    ⟨-, -, heq⟩ | heq | ⟨mi, ni, peer, -, -, -, heq⟩
  · rw [heq]
    have h : s.Rests (.done (s.becomeFollower msg.term)) := .done rfl rfl
    exact h.recordsIn
  · rw [heq]
    exact (Rests.done rfl rfl).recordsIn
  · rw [heq]
    cases msg.success with
    | true =>
      simp only [↓reduceIte]
      rcases s.creditFollower_cases mi ni peer with hcredit | ⟨lastSent, -, -, -, -, hcredit⟩
      · rw [hcredit, Outcome.andThen_of_panicked rfl]
        exact Rests.panic.recordsIn
      · rw [hcredit, Outcome.done_andThen]
        have h := advanceCommit_records hok (s := { s with
          state := .leader (mi.set peer lastSent) (ni.set peer (asUsize lastSent + 1)) })
          ⟨hs.lastApplied, hs.le, hs.lt⟩ hlen
        exact h.of_eq rfl rfl rfl
    | false =>
      simp only [Bool.false_eq_true, ↓reduceIte]
      refine Rests.recordsIn (Rests.andThen ?_ fun s' hla hsm => advanceCommit_false_rests hla hsm)
      rcases s.retryFollower_cases mi ni peer with ⟨st, hretry⟩ | ⟨_, _, -, -, -, hretry⟩
      · rw [hretry]
        exact .panic
      · rw [hretry]
        exact .send rfl rfl

/-- **Every handler** records what it applies. -/
theorem recieveRpc_records (hs : s.Within) (hlen : s.log.length < 2 ^ 31) (order : List NodeId)
    (incoming : Incoming) : s.RecordsIn (s.recieveRpc order incoming) := by
  obtain ⟨sender, msg⟩ := incoming
  cases msg with
  | appendEntries msg => exact handleAppendEntries_records hok hs hlen sender msg
  | appendEntriesResponse msg => exact handleAppendEntriesResponse_records hok hs hlen sender msg
  | requestVote msg => exact (s.handleRequestVoteRpc_rests msg).recordsIn
  | requestVoteResponse msg => exact (s.handleRequestVoteResponseRpc_rests msg).recordsIn
  | clientRequest req => exact (s.handleClientRequest_rests order req).recordsIn
  | clientResponse | hello | helloClient => exact (Rests.done rfl rfl).recordsIn

end

/-! ### Role loops -/

omit [StateMachine σ] in
theorem sendRequestVoteRpcToPeers_rests (h : s'.lastApplied = s.lastApplied)
    (h' : s'.stateMachine = s.stateMachine) : s.Rests s'.sendRequestVoteRpcToPeers := by
  unfold sendRequestVoteRpcToPeers
  split
  · exact .panic
  · exact .send h h'

omit [StateMachine σ] in
theorem sendHeartbeat_rests (s : Server σ) : s.Rests s.sendHeartbeat := by
  unfold sendHeartbeat
  split
  · exact .panic
  · exact .send rfl rfl

section

variable (hok : Reliable σ)

include hok

theorem run_records (hs : s.Within) (hlen : s.log.length ≤ 2 ^ 31) : s.RecordsIn s.run := by
  obtain ⟨hrecords, -⟩ := applyCommitted_records hok hs hlen
  unfold run
  split
  · rw [follower, applyLatestCommitedLogs_self]
    exact hrecords
  · refine Rests.recordsIn
      (Rests.andThen ?_ fun s' hla hsm => sendRequestVoteRpcToPeers_rests hla hsm)
    unfold becomeCandidate
    split_ifs
    · exact .done rfl rfl
    · exact .panic
  · rw [leader, applyLatestCommitedLogs_self]
    exact (hrecords.andThen fun _ => sendHeartbeat_rests _).andThen fun _ => .done rfl rfl

theorem afterRpc_records (hs : s.Within) (hlen : s.log.length ≤ 2 ^ 31) (role : RaftState) :
    s.RecordsIn (s.afterRpc role) := by
  unfold afterRpc
  split
  · exact run_records hok hs hlen
  · split_ifs
    · exact (sendRequestVoteRpcToPeers_rests rfl rfl).recordsIn
    · exact run_records hok hs hlen
  · split_ifs
    · exact (Rests.done rfl rfl).recordsIn
    · exact run_records hok hs hlen

theorem afterTimer_records (hs : s.Within) (hlen : s.log.length ≤ 2 ^ 31) (role : RaftState) :
    s.RecordsIn (s.afterTimer role) := by
  unfold afterTimer
  split
  · have h := run_records hok (s := { s with state := .candidate 0 })
      ⟨hs.lastApplied, hs.le, hs.lt⟩ hlen
    exact h.of_eq rfl rfl rfl
  · exact (sendRequestVoteRpcToPeers_rests rfl rfl).recordsIn
  · exact (s.sendHeartbeat_rests).recordsIn

end

end Server

/-! ### The key-value store -/

/-- What a command leaves at a key, if it changes it. -/
def LogCommand.writes : LogCommand → String → Option (Option String)
  | .set key value, key' => if key' = key then some (some value) else none
  | .delete key, key' => if key' = key then some none else none
  | .get _, _ => none

namespace SimpleStateMachine

theorem reliable : Reliable SimpleStateMachine := ⟨fun _ _ _ => rfl, fun _ _ => rfl⟩

theorem getValue_carryOut (sm : SimpleStateMachine) (command : LogCommand) (key : String) :
    getValue (Server.carryOut sm command) key = (command.writes key).getD (getValue sm key) := by
  cases command with
  | get => rfl
  | set key' value =>
    simp only [LogCommand.writes]
    split_ifs with hkey
    · subst hkey
      exact AList.lookup_insert sm.dataStore
    · exact AList.lookup_insert_ne hkey
  | delete key' =>
    simp only [LogCommand.writes]
    split_ifs with hkey
    · subst hkey
      exact AList.lookup_erase key sm.dataStore
    · exact AList.lookup_erase_ne hkey

/-- **What the store holds** after the commands of some entries. -/
theorem getValue_foldl (entries : List LogEntry) (key : String) :
    getValue (entries.foldl (fun sm entry => Server.carryOut sm entry.command) new) key =
      (Consensus.lastWrite LogCommand.writes (entries.map LogEntry.command) key).getD none := by
  have hmap : entries.foldl (fun sm entry => Server.carryOut sm entry.command) new =
      (entries.map LogEntry.command).foldl Server.carryOut new := by
    rw [List.foldl_map]
  rw [hmap, Consensus.lookup_foldl getValue_carryOut]
  rfl

end SimpleStateMachine

end MiniRaft
