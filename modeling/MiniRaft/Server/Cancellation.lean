import MiniRaft.Server.LeaderCommit
import MiniRaft.Server.Panics

/-!
# What a dropped handler leaves behind

`recieve_rpc` races against a timer, which drops it while it awaits a send.  Most handlers write
everything before they send, so that only messages are lost; two of them do not.

* `Outcome.WritesFirst.losesMessagesOnly` : a handler that writes first loses messages only.
* `Server.broadcastEntry_losesMessagesOnly_iff` : the loop of `handle_set_command` marks the peers
  one send after the other.
* `Server.cancellation_iff` : the sends at which a handler can be dropped for the price of messages
  only.
-/

namespace MiniRaft

variable {σ : Type}

namespace Outcome

/-- `o'`, which is `o` dropped at a send, leaves the server that `o` leaves; what it has not sent is
missing at the end. -/
structure LosesMessagesOnly (o o' : Outcome σ) : Prop where
  completes : o.panicked = false
  server : o'.server = o.server
  sent : o'.sent <+: o.sent

theorem sent_prefix_of_cut {o o' : Outcome σ} {k : ℕ} (h : o.cut k = some o') :
    o'.sent <+: o.sent := by
  obtain ⟨out, snap, -, rfl⟩ := cut_eq_some_iff.1 h
  exact (List.take_prefix k o.effects).filterMap _

/-- Nothing is written, and nothing panics, once a message has been sent. -/
structure WritesFirst (o : Outcome σ) : Prop where
  send : ∀ {out : Outgoing} {snap : Server σ}, .send out snap ∈ o.effects →
    o.panicked = false ∧ snap = o.server

namespace WritesFirst

variable {o o' : Outcome σ} {f : Server σ → Outcome σ}

theorem done (s : Server σ) : (Outcome.done s).WritesFirst := ⟨fun hmem => by cases hmem⟩

theorem panic (s : Server σ) : (Outcome.panic s).WritesFirst := ⟨fun hmem => by cases hmem⟩

theorem send_self (s : Server σ) (out : Outgoing) : (Outcome.send s out).WritesFirst := by
  refine ⟨fun {out' snap} hmem => ?_⟩
  simp only [send_effects, List.mem_singleton, Effect.send.injEq] at hmem
  exact ⟨rfl, hmem.2⟩

theorem silent_andThen (h : ∀ {out : Outgoing} {snap : Server σ}, .send out snap ∉ o.effects)
    (hf : ∀ s, (f s).WritesFirst) : (o.andThen f).WritesFirst := by
  cases hp : o.panicked with
  | true =>
    rw [andThen_of_panicked hp]
    exact ⟨fun hmem => absurd hmem h⟩
  | false =>
    rw [andThen_of_not_panicked hp]
    refine ⟨fun hmem => ?_⟩
    rcases List.mem_append.1 hmem with hmem | hmem
    · exact absurd hmem h
    · exact (hf o.server).send hmem

theorem losesMessagesOnly {k : ℕ} (h : o.WritesFirst) (hk : o.cut k = some o') :
    o.LosesMessagesOnly o' := by
  have hsent := sent_prefix_of_cut hk
  obtain ⟨out, snap, hget, rfl⟩ := cut_eq_some_iff.1 hk
  obtain ⟨hp, hsnap⟩ := h.send (List.mem_of_getElem? hget)
  exact ⟨hp, hsnap, hsent⟩

end WritesFirst

end Outcome

namespace Server

/-! ### Handlers that write first -/

theorem handleRequestVoteRpc_writesFirst (s : Server σ) (msg : RequestVote) :
    (s.handleRequestVoteRpc msg).WritesFirst := by
  rcases s.handleRequestVoteRpc_cases msg with ⟨-, heq⟩ | ⟨-, -, heq⟩ | ⟨-, -, heq⟩
  · rw [heq]
    exact .send_self s _
  · rw [heq]
    exact .send_self s _
  · rw [heq]
    exact .panic s

theorem answerClient_writesFirst (s : Server σ) : s.answerClient.WritesFirst := by
  obtain ⟨st, heq | heq | ⟨_, _, -, -, heq⟩⟩ := s.answerClient_cases
  · rw [heq]
    exact .panic _
  · rw [heq]
    exact .done _
  · rw [heq]
    exact .send_self _ _

variable [StateMachine σ]

theorem acceptAppendEntries_writesFirst (s : Server σ) (msg : AppendEntries) (nodeId : NodeId) :
    (s.acceptAppendEntries msg nodeId).WritesFirst := by
  refine .silent_andThen (send_notMem_applyLatestCommitedLogs _ _) fun s => ?_
  split_ifs
  · exact .done s
  · refine .silent_andThen ?_ fun s => ?_
    · intro out snap hmem
      unfold deleteConflictingAndAppendNewEntries at hmem
      split at hmem
      · cases hmem
      · cases hmem
    · unfold commitAndReply
      split
      · exact .done s
      · exact .send_self _ _

theorem handleAppendEntries_writesFirst (s : Server σ) (sender : Id) (msg : AppendEntries) :
    (s.handleAppendEntries sender msg).WritesFirst := by
  cases sender with
  | client _ => exact .done s
  | peer nodeId =>
    rcases s.handleAppendEntries_cases nodeId msg with ⟨-, heq⟩ | ⟨-, -, -, heq⟩ | ⟨-, heq⟩
    · rw [heq]
      exact .send_self s _
    · rw [heq]
      exact .done _
    · rw [heq]
      exact acceptAppendEntries_writesFirst _ msg nodeId

theorem advanceCommit_writesFirst (s : Server σ) (success : Bool) :
    (s.advanceCommit success).WritesFirst := by
  have hcases := s.advanceCommit_cases success
  generalize s.advanceCommit success = o at hcases
  cases hcases with
  | panic => exact .panic _
  | idle => exact .done s
  | keep => exact .done s
  | raise => exact .done _
  | @commit _ _ _ n _ _ _ =>
    refine .silent_andThen (fun hmem => ?_) answerClient_writesFirst
    exact ((applyRepeatedly_ensures _ { s with commitIndex := n } fun _ _ => False).sends hmem).2

theorem handleAppendEntriesResponse_writesFirst (s : Server σ) (sender : Id)
    (msg : AppendEntriesResponse) (hok : msg.success = true) :
    (s.handleAppendEntriesResponse sender msg).WritesFirst := by
  rcases s.handleAppendEntriesResponse_cases sender msg with
    ⟨-, -, heq⟩ | heq | ⟨mi, ni, peer, -, -, -, heq⟩
  · rw [heq]
    exact .done _
  · rw [heq]
    exact .done s
  · rw [heq]
    simp only [hok, ↓reduceIte]
    refine .silent_andThen (fun hmem => ?_) fun s => s.advanceCommit_writesFirst true
    rw [creditFollower_effects] at hmem
    cases hmem

/-! ### The loop of `handle_set_command` -/

omit [StateMachine σ] in
/-- `last_sent_index` once the slots of `peers` hold `x`. -/
def markSent (ls : List ℤ) (x : ℤ) (peers : List NodeId) : List ℤ :=
  peers.foldl (fun ls peer => ls.set peer x) ls

omit [StateMachine σ] in
@[simp] theorem markSent_nil (ls : List ℤ) (x : ℤ) : markSent ls x [] = ls := rfl

omit [StateMachine σ] in
@[simp] theorem markSent_cons (ls : List ℤ) (x : ℤ) (peer : NodeId) (peers : List NodeId) :
    markSent ls x (peer :: peers) = markSent (ls.set peer x) x peers := rfl

omit [StateMachine σ] in
theorem getElem?_markSent (ls : List ℤ) (x : ℤ) (peers : List NodeId) (i : ℕ) :
    (markSent ls x peers)[i]? = if i ∈ peers ∧ i < ls.length then some x else ls[i]? := by
  induction peers generalizing ls with
  | nil => simp
  | cons peer peers ih =>
    rw [markSent_cons, ih, List.length_set, List.getElem?_set]
    by_cases hi : i ∈ peers
    · by_cases hlen : i < ls.length
      · simp [hi, hlen]
      · simp [hi, hlen]
        omega
    · by_cases hpeer : peer = i
      · subst hpeer
        by_cases hlen : peer < ls.length
        · simp [hi, hlen]
        · simp [hi, hlen]
      · simp [hi, hpeer, Ne.symm hpeer]

omit [StateMachine σ] in
theorem markSent_append_eq_iff {ls : List ℤ} {x : ℤ} {ps qs : List NodeId}
    (hqs : ∀ peer ∈ qs, peer < ls.length) :
    markSent ls x (ps ++ qs) = markSent ls x ps ↔
      ∀ peer ∈ qs, peer ∈ ps ∨ ls[peer]? = some x := by
  constructor
  · intro heq peer hpeer
    have hget := congrArg (fun l : List ℤ => l[peer]?) heq
    simp only [getElem?_markSent, List.mem_append, hpeer, or_true, hqs peer hpeer, and_self,
      ↓reduceIte, and_true] at hget
    split_ifs at hget with hps
    · exact .inl hps
    · exact .inr hget.symm
  · intro h
    refine List.ext_getElem? fun i => ?_
    simp only [getElem?_markSent, List.mem_append]
    by_cases hps : i ∈ ps
    · simp [hps]
    · by_cases hqs' : i ∈ qs
      · rcases h i hqs' with h | h
        · exact absurd h hps
        · simp [hps, h]
      · simp [hps, hqs']

omit [StateMachine σ] in
/-- The peers the loop sends to, in its order. -/
def recipients (s : Server σ) (order : List NodeId) : List NodeId := order.filter (· ≠ s.id)

omit [StateMachine σ] in
theorem broadcastEntry_server {s : Server σ} {logEntry : LogEntry} {ni : List ℕ} {x : ℤ}
    (peers : List NodeId) (hx : s.lenMinusOne = some x)
    (hp : (broadcastEntry logEntry ni peers s).panicked = false) :
    (broadcastEntry logEntry ni peers s).server =
      { s with lastSentIndex := markSent s.lastSentIndex x (s.recipients peers) } := by
  induction peers generalizing s with
  | nil => rfl
  | cons peer peers ih =>
    unfold broadcastEntry at hp ⊢
    unfold recipients
    by_cases hid : peer = s.id
    · rw [if_pos hid] at hp ⊢
      rw [List.filter_cons_of_neg (by simpa using hid)]
      exact ih hx hp
    · rw [if_neg hid] at hp ⊢
      rw [List.filter_cons_of_pos (by simpa using hid), markSent_cons]
      by_cases h : s.CanSendTo ni peer
      · obtain ⟨lastIndex, prev, hlast, -, heq⟩ := sendEntryFor_of_canSendTo logEntry h
        obtain rfl : x = lastIndex := Option.some.inj (hx.symm.trans hlast)
        rw [heq] at hp ⊢
        rw [Outcome.andThen_of_not_panicked rfl] at hp ⊢
        exact ih (s := { s with lastSentIndex := s.lastSentIndex.set peer x }) hx hp
      · rw [sendEntryFor_of_not_canSendTo logEntry h, Outcome.andThen_of_panicked rfl] at hp
        cases hp

omit [StateMachine σ] in
theorem broadcastEntry_send {s snap : Server σ} {logEntry : LogEntry} {ni : List ℕ} {k : ℕ}
    {out : Outgoing} (peers : List NodeId)
    (h : (broadcastEntry logEntry ni peers s).effects[k]? = some (.send out snap)) :
    ∃ x, s.lenMinusOne = some x ∧
      (∀ peer ∈ (s.recipients peers).take (k + 1), s.CanSendTo ni peer) ∧
      snap = { s with
        lastSentIndex := markSent s.lastSentIndex x ((s.recipients peers).take (k + 1)) } := by
  induction peers generalizing s k with
  | nil => cases h
  | cons peer peers ih =>
    unfold broadcastEntry at h
    unfold recipients
    by_cases hid : peer = s.id
    · rw [if_pos hid] at h
      rw [List.filter_cons_of_neg (by simpa using hid)]
      exact ih h
    · rw [if_neg hid] at h
      rw [List.filter_cons_of_pos (by simpa using hid), List.take_succ_cons, List.forall_mem_cons]
      by_cases hsend : s.CanSendTo ni peer
      · obtain ⟨lastIndex, prev, hlast, -, heq⟩ := sendEntryFor_of_canSendTo logEntry hsend
        rw [heq, Outcome.andThen_of_not_panicked rfl] at h
        cases k with
        | zero =>
          cases h
          exact ⟨lastIndex, hlast, ⟨hsend, by simp⟩, by simp⟩
        | succ k =>
          obtain ⟨x, hx, hall, rfl⟩ :=
            ih (s := { s with lastSentIndex := s.lastSentIndex.set peer lastIndex }) h
          obtain rfl : lastIndex = x := Option.some.inj (hlast.symm.trans hx)
          refine ⟨lastIndex, hlast, ⟨hsend, fun peer' hpeer' => ?_⟩, rfl⟩
          exact (canSendTo_of_length List.length_set).1 (hall peer' hpeer')
      · rw [sendEntryFor_of_not_canSendTo logEntry hsend, Outcome.andThen_of_panicked rfl] at h
        cases h

omit [StateMachine σ] in
/-- **The loop dropped at a send**: the peers that come later are still to be marked. -/
theorem broadcastEntry_losesMessagesOnly_iff {s : Server σ} {logEntry : LogEntry} {ni : List ℕ}
    {k : ℕ} {o' : Outcome σ} (peers : List NodeId)
    (hk : (broadcastEntry logEntry ni peers s).cut k = some o') :
    (broadcastEntry logEntry ni peers s).LosesMessagesOnly o' ↔
      ∀ peer ∈ (s.recipients peers).drop (k + 1), s.CanSendTo ni peer ∧
        (peer ∈ (s.recipients peers).take (k + 1) ∨
          s.lastSentIndex[peer]? = s.lenMinusOne) := by
  have hsent := Outcome.sent_prefix_of_cut hk
  obtain ⟨out, snap, hget, rfl⟩ := Outcome.cut_eq_some_iff.1 hk
  obtain ⟨x, hx, hfirst, rfl⟩ := broadcastEntry_send peers hget
  have hsplit := List.take_append_drop (k + 1) (s.recipients peers)
  have hmarks : ∀ later, (∀ peer ∈ later, s.CanSendTo ni peer) →
      (markSent s.lastSentIndex x ((s.recipients peers).take (k + 1) ++ later) =
        markSent s.lastSentIndex x ((s.recipients peers).take (k + 1)) ↔
          ∀ peer ∈ later, peer ∈ (s.recipients peers).take (k + 1) ∨
            s.lastSentIndex[peer]? = some x) :=
    fun later hlater => markSent_append_eq_iff fun peer hpeer => (hlater peer hpeer).2.2
  rw [hx]
  constructor
  · rintro ⟨hp, hserver, -⟩
    have hall : ∀ peer ∈ (s.recipients peers).drop (k + 1), s.CanSendTo ni peer := by
      intro peer hpeer
      obtain ⟨hmem, hid⟩ := List.mem_filter.1 (List.mem_of_mem_drop hpeer)
      by_contra hnot
      rw [(broadcastEntry_panicked_iff s logEntry ni peers).2
        ⟨peer, hmem, by simpa using hid, hnot⟩] at hp
      cases hp
    rw [broadcastEntry_server peers hx hp] at hserver
    have hls := congrArg Server.lastSentIndex hserver
    dsimp only at hls
    nth_rewrite 2 [← hsplit] at hls
    exact fun peer hpeer => ⟨hall peer hpeer, (hmarks _ hall).1 hls.symm peer hpeer⟩
  · intro h
    have hall := fun peer hpeer => (h peer hpeer).1
    have hp : (broadcastEntry logEntry ni peers s).panicked = false := by
      rw [← Bool.not_eq_true, broadcastEntry_panicked_iff]
      rintro ⟨peer, hmem, hid, hnot⟩
      have hpeer : peer ∈ s.recipients peers := List.mem_filter.2 ⟨hmem, by simpa using hid⟩
      rw [← hsplit] at hpeer
      rcases List.mem_append.1 hpeer with hpeer | hpeer
      · exact hnot (hfirst peer hpeer)
      · exact hnot (hall peer hpeer)
    refine ⟨hp, ?_, hsent⟩
    rw [broadcastEntry_server peers hx hp]
    have hls := (hmarks _ hall).2 fun peer hpeer => (h peer hpeer).2
    rw [hsplit] at hls
    rw [hls]

/-! ### The retry after a rejection -/

/-- **The retry dropped at its send**: the commit loop is still to come. -/
theorem retry_losesMessagesOnly_iff {s : Server σ} {mi : List ℤ} {ni : List ℕ} {i : NodeId} {k : ℕ}
    {o' : Outcome σ}
    (hk : ((s.retryFollower mi ni i).andThen fun s => s.advanceCommit false).cut k = some o') :
    ((s.retryFollower mi ni i).andThen fun s => s.advanceCommit false).LosesMessagesOnly o' ↔
      s.NothingToCommit mi := by
  have hsent := Outcome.sent_prefix_of_cut hk
  obtain ⟨out, snap, hget, rfl⟩ := Outcome.cut_eq_some_iff.1 hk
  rcases s.retryFollower_cases mi ni i with ⟨st, heq⟩ | ⟨next, entry, -, -, -, heq⟩
  · rw [heq] at hget
    cases hget
  · let s' : Server σ := { s with state := .leader mi (ni.set i (next - 1)) }
    obtain ⟨msg, heq⟩ : ∃ msg, s.retryFollower mi ni i = .send s' ⟨.node i, msg⟩ := ⟨_, heq⟩
    rw [heq] at hget hsent ⊢
    rw [Outcome.andThen_of_not_panicked rfl] at hget hsent ⊢
    have heffects : (s'.advanceCommit false).effects = [] := advanceCommit_false_effects s'
    have hsnap : snap = s' := by
      have hmem : .send out snap ∈
          [Effect.send ⟨.node i, msg⟩ s'] ++ (s'.advanceCommit false).effects :=
        List.mem_of_getElem? hget
      rw [heffects, List.append_nil, List.mem_singleton, Effect.send.injEq] at hmem
      exact hmem.2
    subst hsnap
    constructor
    · rintro ⟨hp, hserver, -⟩
      have hserver : s' = (s'.advanceCommit false).server := hserver
      exact nothingToCommit_of_commitIndex (s := s') rfl hp (by rw [← hserver])
    · intro h
      have hdone : s'.advanceCommit false = .done s' :=
        advanceCommit_of_nothingToCommit false rfl h
      refine ⟨?_, ?_, hsent⟩
      · show (s'.advanceCommit false).panicked = false
        rw [hdone, Outcome.done_panicked]
      · show s' = (s'.advanceCommit false).server
        rw [hdone, Outcome.done_server]

/-! ### All handlers -/

omit [StateMachine σ] in
/-- The handler has nothing left to write once it has awaited its send at position `k`.  A Set has
marked every later peer, which it can serve without a panic, if their slots of `last_sent_index`
hold the index of the new entry; a retry if there is nothing to commit.  Every other send is the
last thing its handler does. -/
def WrittenAt (s : Server σ) (order : List NodeId) (incoming : Incoming) (k : ℕ) : Prop :=
  match s.state, incoming.msg with
  | .leader _ ni, .clientRequest ⟨.set key value, clientId, requestId⟩ =>
    let s' : Server σ := { s with
      log := s.log ++ [⟨s.currentTerm, .set key value, asU32 s.log.length, clientId, requestId⟩] }
    ∀ peer ∈ (s.recipients order).drop (k + 1), s'.CanSendTo ni peer ∧
      (peer ∈ (s.recipients order).take (k + 1) ∨ s.lastSentIndex[peer]? = s'.lenMinusOne)
  | .leader mi _, .appendEntriesResponse ⟨_, false⟩ => s.NothingToCommit mi
  | _, _ => True

/-- **Cancellation loses messages only** at every send but those of a Set that are followed by
another one and that of a retry. -/
theorem cancellation_iff {s : Server σ} {order : List NodeId} {incoming : Incoming} {k : ℕ}
    {o' : Outcome σ} (hk : (s.recieveRpc order incoming).cut k = some o') :
    (s.recieveRpc order incoming).LosesMessagesOnly o' ↔ s.WrittenAt order incoming k := by
  obtain ⟨sender, m⟩ := incoming
  cases m with
  | appendEntries msg =>
    have hwritten : s.WrittenAt order ⟨sender, .appendEntries msg⟩ k := by
      unfold WrittenAt
      cases s.state <;> trivial
    have hfirst := s.handleAppendEntries_writesFirst sender msg
    exact iff_of_true (hfirst.losesMessagesOnly hk) hwritten
  | appendEntriesResponse msg =>
    obtain ⟨term, success⟩ := msg
    cases success with
    | true =>
      have hwritten : s.WrittenAt order ⟨sender, .appendEntriesResponse ⟨term, true⟩⟩ k := by
        unfold WrittenAt
        cases s.state <;> trivial
      have hfirst := s.handleAppendEntriesResponse_writesFirst sender ⟨term, true⟩ rfl
      exact iff_of_true (hfirst.losesMessagesOnly hk) hwritten
    | false =>
      simp only [recieveRpc, handleAppendEntriesResponse] at hk ⊢
      split at hk
      · rename_i mi ni hst
        simp only [WrittenAt, hst] at hk ⊢
        split at hk
        · cases hk
        · split at hk
          · cases hk
          · rename_i hle _ peer
            simp only [hle, ↓reduceIte] at hk ⊢
            exact retry_losesMessagesOnly_iff hk
      · cases hk
  | requestVote msg =>
    have hwritten : s.WrittenAt order ⟨sender, .requestVote msg⟩ k := by
      unfold WrittenAt
      cases s.state <;> trivial
    exact iff_of_true ((s.handleRequestVoteRpc_writesFirst msg).losesMessagesOnly hk) hwritten
  | clientRequest req =>
    obtain ⟨command, clientId, requestId⟩ := req
    simp only [recieveRpc, handleClientRequest] at hk ⊢
    split at hk
    · rename_i mi ni hst
      cases command with
      | set key value =>
        simp only [handleSetCommand, WrittenAt, hst] at hk ⊢
        exact broadcastEntry_losesMessagesOnly_iff order hk
      | get _ => cases hk
      | delete _ => cases hk
    · cases hk
  | requestVoteResponse _ => cases hk
  | clientResponse _ => cases hk
  | hello _ => cases hk
  | helloClient _ => cases hk

/-- The second Set of a leader of three, dropped at the last of its sends. -/
theorem cancellation_iff_last_send :
    let s := { Server.new 1 ⟨3, [1, 2, 3]⟩ SimpleStateMachine.new with
      log := [⟨1, .set "x" "1", 0, 7, 1⟩], currentTerm := 1, votedFor := some 1
      state := .leader [-1, -1, -1, -1] [0, 0, 0, 0], lastSentIndex := [0, 0, 0, 0] }
    let o := s.recieveRpc [1, 2, 3] ⟨.client 7, .clientRequest ⟨.set "x" "2", 7, 2⟩⟩
    ∃ o', o.cut 1 = some o' ∧ o.LosesMessagesOnly o' := by
  intro s o
  refine ⟨_, rfl, (cancellation_iff (k := 1) rfl).2 ?_⟩
  exact fun peer hpeer => by cases hpeer

/-- The same Set, dropped at the first of its sends: the slot of node 3 still holds the index of the
first entry. -/
theorem dropped_set_unmarked :
    let s := { Server.new 1 ⟨3, [1, 2, 3]⟩ SimpleStateMachine.new with
      log := [⟨1, .set "x" "1", 0, 7, 1⟩], currentTerm := 1, votedFor := some 1
      state := .leader [-1, -1, -1, -1] [0, 0, 0, 0], lastSentIndex := [0, 0, 0, 0] }
    let o := s.recieveRpc [1, 2, 3] ⟨.client 7, .clientRequest ⟨.set "x" "2", 7, 2⟩⟩
    ∃ o', o.cut 0 = some o' ∧ o.panicked = false ∧ o'.server.lastSentIndex = [0, 0, 1, 0] ∧
      o.server.lastSentIndex = [0, 0, 1, 1] ∧ ¬ o.LosesMessagesOnly o' := by
  intro s o
  have hne : ([0, 0, 1, 0] : List ℤ) ≠ [0, 0, 1, 1] := by decide
  refine ⟨_, rfl, by decide, by decide, by decide, fun h => ?_⟩
  exact hne (congrArg Server.lastSentIndex h.server)

end Server

end MiniRaft
