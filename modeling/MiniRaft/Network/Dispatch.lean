import Mathlib.Data.List.AList
import MiniRaft.Cluster.Basic
import MiniRaft.Server.Panics
import MiniRaft.Server.SimpleStateMachine

/-!
# From the leader's loop to the peers' connections

`handle_set_command` computes the fields of a message for each peer, and `dispatch_server_msg`
decides who receives it.

* `ConnectionRegistry.received_dispatch` : every connected peer receives every broadcast once.
* `received_route` : `route` is what `dispatch_server_msg` does when all other nodes are connected.
* `Server.set_served_iff` : when each peer receives the message computed for it, and no other.
-/

namespace MiniRaft

/-- The writer task at the far end of a connection's channel. -/
inductive Writer
  | running
  /-- A frame could not be sent: the channel is closed, and still registered. -/
  | exited
  deriving DecidableEq, Repr

/-- `ConnectionRegistry`, each channel by its writer task. -/
structure ConnectionRegistry where
  peerRegistry : AList fun _ : NodeId => Writer
  clientRegistry : AList fun _ : ClientId => Writer

/-- A message handed to the writer task of a connection. -/
structure Delivery where
  dest : Id
  msg : Message
  deriving DecidableEq, Repr

/-- The messages a peer receives. -/
def received (peer : NodeId) (deliveries : List Delivery) : List Message :=
  (deliveries.filter (·.dest = .peer peer)).map (·.msg)

theorem received_append (peer : NodeId) (ds ds' : List Delivery) :
    received peer (ds ++ ds') = received peer ds ++ received peer ds' := by
  rw [received, List.filter_append, List.map_append]
  rfl

theorem received_singleton (peer : NodeId) (d : Delivery) :
    received peer [d] = if d.dest = .peer peer then [d.msg] else [] := by
  unfold received
  split_ifs with h
  · rw [List.filter_cons_of_pos (by simpa using h)]
    rfl
  · rw [List.filter_cons_of_neg (by simpa using h)]
    rfl

namespace ConnectionRegistry

def new : ConnectionRegistry := ⟨∅, ∅⟩

/-- `register`: a new connection takes the place of an older one of the same peer or client. -/
def register (r : ConnectionRegistry) : Id → ConnectionRegistry
  | .client clientId => { r with clientRegistry := r.clientRegistry.insert clientId .running }
  | .peer peerId => { r with peerRegistry := r.peerRegistry.insert peerId .running }

/-- `send`; `none` is an error, which the dispatcher logs. -/
def send (r : ConnectionRegistry) (id : Id) (msg : Message) : Option Delivery :=
  let tx := match id with
    | .client clientId => r.clientRegistry.lookup clientId
    | .peer peerId => r.peerRegistry.lookup peerId
  match tx with
  | some .running => some ⟨id, msg⟩
  | some .exited => none
  | none => none

/-- `get_all_peers`. -/
def getAllPeers (r : ConnectionRegistry) : List NodeId := r.peerRegistry.keys

/-- One round of the loop of `dispatch_server_msg`. -/
def dispatchServerMsg (r : ConnectionRegistry) (out : Outgoing) : List Delivery :=
  match out.dest with
  | .node nodeId => (r.send (.peer nodeId) out.msg).toList
  | .client clientId => (r.send (.client clientId) out.msg).toList
  | .broadcast => r.getAllPeers.filterMap fun nodeId => r.send (.peer nodeId) out.msg

/-- The loop of `dispatch_server_msg`, over the messages a handler has sent. -/
def dispatch (r : ConnectionRegistry) (outs : List Outgoing) : List Delivery :=
  outs.flatMap r.dispatchServerMsg

/-- The peer is registered and its writer task runs. -/
def Connected (r : ConnectionRegistry) (peer : NodeId) : Prop :=
  r.peerRegistry.lookup peer = some .running

instance (r : ConnectionRegistry) (peer : NodeId) : Decidable (r.Connected peer) :=
  inferInstanceAs (Decidable (_ = _))

variable {r : ConnectionRegistry}

theorem connected_register (r : ConnectionRegistry) (peer : NodeId) :
    (r.register (.peer peer)).Connected peer := AList.lookup_insert _

theorem send_of_connected {peer : NodeId} (h : r.Connected peer) (msg : Message) :
    r.send (.peer peer) msg = some ⟨.peer peer, msg⟩ := by
  have h : r.peerRegistry.lookup peer = some .running := h
  simp only [send, h]

theorem send_of_not_connected {peer : NodeId} (h : ¬ r.Connected peer) (msg : Message) :
    r.send (.peer peer) msg = none := by
  unfold send
  dsimp only
  split
  · rename_i hrunning
    exact absurd hrunning h
  · rfl
  · rfl

theorem dest_of_send {id : Id} {msg : Message} {d : Delivery} (h : r.send id msg = some d) :
    d = ⟨id, msg⟩ := by
  unfold send at h
  dsimp only at h
  split at h
  · exact (Option.some.inj h).symm
  · cases h
  · cases h

theorem mem_getAllPeers {peer : NodeId} (h : r.Connected peer) : peer ∈ r.getAllPeers := by
  have h : r.peerRegistry.lookup peer = some .running := h
  rw [getAllPeers, ← AList.mem_keys, ← AList.lookup_isSome, h]
  rfl

theorem received_send (r : ConnectionRegistry) (peer nodeId : NodeId) (msg : Message) :
    received peer (r.send (.peer nodeId) msg).toList =
      if nodeId = peer ∧ r.Connected nodeId then [msg] else [] := by
  by_cases h : r.Connected nodeId
  · rw [send_of_connected h, Option.toList_some, received_singleton]
    simp [h]
  · rw [send_of_not_connected h, if_neg fun hand => h hand.2]
    rfl

theorem received_sends (r : ConnectionRegistry) (peer : NodeId) (msg : Message)
    {peers : List NodeId} (hnodup : peers.Nodup) :
    received peer (peers.filterMap fun nodeId => r.send (.peer nodeId) msg) =
      if peer ∈ peers ∧ r.Connected peer then [msg] else [] := by
  induction peers with
  | nil => simp [received]
  | cons nodeId peers ih =>
    obtain ⟨hnotMem, hnodup⟩ := List.nodup_cons.1 hnodup
    have hsplit : (nodeId :: peers).filterMap (fun nodeId => r.send (.peer nodeId) msg) =
        (r.send (.peer nodeId) msg).toList ++
          peers.filterMap fun nodeId => r.send (.peer nodeId) msg := by
      rw [List.filterMap_cons]
      cases r.send (.peer nodeId) msg <;> rfl
    rw [hsplit, received_append, received_send, ih hnodup]
    by_cases heq : nodeId = peer
    · subst heq
      simp [hnotMem]
    · simp [heq, Ne.symm heq]

theorem received_broadcast {peer : NodeId} (h : r.Connected peer) (msg : Message) :
    received peer (r.dispatchServerMsg ⟨.broadcast, msg⟩) = [msg] :=
  (received_sends r peer msg (AList.keys_nodup _)).trans (if_pos ⟨mem_getAllPeers h, h⟩)

/-- **Every connected peer receives every broadcast once.** -/
theorem received_dispatch {peer : NodeId} (h : r.Connected peer) {outs : List Outgoing}
    (houts : ∀ out ∈ outs, out.dest = .broadcast) :
    received peer (r.dispatch outs) = outs.map (·.msg) := by
  induction outs with
  | nil => rfl
  | cons out outs ih =>
    obtain ⟨hout, hrest⟩ := List.forall_mem_cons.1 houts
    obtain ⟨dest, msg⟩ := out
    obtain rfl : dest = .broadcast := hout
    rw [dispatch, List.flatMap_cons, received_append, received_broadcast h]
    exact congrArg (msg :: ·) (ih hrest)

end ConnectionRegistry

variable {σ : Type}

/-- **The routing of a cluster.**  Where the nodes `ids` other than `src` are the connected ones,
`route` sends each of them what `dispatch_server_msg` does. -/
theorem received_route {r : ConnectionRegistry} {ids : List NodeId} {src : NodeId}
    (hids : ids.Nodup) (hconn : ∀ dst, r.Connected dst ↔ dst ∈ ids ∧ dst ≠ src)
    (cause : Option Message) (out : Outgoing) (snap : Server σ) (dst : NodeId) :
    received dst (r.dispatchServerMsg out) =
      ((route ids src cause (.send out snap)).filter (·.dst = dst)).map (·.msg) := by
  obtain ⟨dest, msg⟩ := out
  cases dest with
  | client clientId =>
    show received dst (r.send (.client clientId) msg).toList = []
    cases h : r.send (.client clientId) msg with
    | none => rfl
    | some d =>
      rw [ConnectionRegistry.dest_of_send h]
      exact (received_singleton dst _).trans (if_neg (by simp))
  | node nodeId =>
    refine (r.received_send dst nodeId msg).trans ?_
    by_cases h : r.Connected nodeId
    · simp only [route, if_pos ((hconn nodeId).1 h), h, and_true]
      by_cases heq : nodeId = dst <;> simp [heq]
    · simp [route, (hconn nodeId).not.1 h, h]
  | broadcast =>
    refine (r.received_sends dst msg (AList.keys_nodup _)).trans ?_
    have hroute : ((route ids src cause (.send ⟨.broadcast, msg⟩ snap)).filter
        (·.dst = dst)).map (·.msg) =
          ((ids.filter (· ≠ src)).filter (· = dst)).map fun _ => msg := by
      simp only [route, List.filter_map, List.map_map]
      rfl
    rw [hroute, List.filter_eq, List.map_replicate, List.Nodup.count (hids.filter _)]
    by_cases h : r.Connected dst
    · rw [if_pos ⟨ConnectionRegistry.mem_getAllPeers h, h⟩,
        if_pos (by simpa using (hconn dst).1 h)]
      rfl
    · rw [if_neg fun hand => h hand.2, if_neg (by simpa using (hconn dst).not.1 h)]
      rfl

namespace Server

/-! ### The loop of `handle_set_command` -/

/-- The messages of the loop: one for each of the peers, up to the first for which it panics. -/
def loopMessages (s : Server σ) (logEntry : LogEntry) (nextIndex : List ℕ) (peers : List NodeId) :
    List Message :=
  (peers.takeWhile fun peer => s.CanSendTo nextIndex peer).filterMap fun peer =>
    (s.prevLogFor nextIndex peer).map (s.entryMessage logEntry)

section

variable {s : Server σ} {logEntry : LogEntry} {nextIndex : List ℕ} {peer : NodeId}

theorem loopMessages_cons (peers : List NodeId) {prev : ℤ × ℕ} (h : s.CanSendTo nextIndex peer)
    (hprev : s.prevLogFor nextIndex peer = some prev) :
    s.loopMessages logEntry nextIndex (peer :: peers) =
      s.entryMessage logEntry prev :: s.loopMessages logEntry nextIndex peers := by
  rw [loopMessages, List.takeWhile_cons_of_pos (by simpa using h), List.filterMap_cons, hprev]
  rfl

theorem loopMessages_eq_nil (peers : List NodeId) (h : ¬ s.CanSendTo nextIndex peer) :
    s.loopMessages logEntry nextIndex (peer :: peers) = [] := by
  rw [loopMessages, List.takeWhile_cons_of_neg (by simpa using h)]
  rfl

end

theorem broadcastEntry_sent (s : Server σ) (logEntry : LogEntry) (nextIndex : List ℕ)
    (peers : List NodeId) : (broadcastEntry logEntry nextIndex peers s).sent =
      (s.loopMessages logEntry nextIndex (peers.filter (· ≠ s.id))).map fun msg =>
        ⟨.broadcast, msg⟩ := by
  induction peers generalizing s with
  | nil => rfl
  | cons peer peers ih =>
    unfold broadcastEntry
    split_ifs with hid
    · rw [List.filter_cons_of_neg (by simpa using hid)]
      exact ih s
    · rw [List.filter_cons_of_pos (by simpa using hid)]
      by_cases h : s.CanSendTo nextIndex peer
      · obtain ⟨lastIndex, prev, -, hprev, heq⟩ := sendEntryFor_of_canSendTo logEntry h
        rw [heq, loopMessages_cons _ h hprev]
        show _ :: (broadcastEntry logEntry nextIndex peers { s with
          lastSentIndex := s.lastSentIndex.set peer lastIndex }).sent = _
        rw [ih]
        simp only [loopMessages, canSendTo_of_length List.length_set]
        rfl
      · rw [sendEntryFor_of_not_canSendTo logEntry h, loopMessages_eq_nil _ h]
        rfl

/-- Every other configured peer receives the new entry once, with the fields computed from its own
`next_index`; `s` holds the entry already. -/
def ServesEach (r : ConnectionRegistry) (s : Server σ) (logEntry : LogEntry) (nextIndex : List ℕ)
    (outs : List Outgoing) : Prop :=
  ∀ peer ∈ s.config.peerAddresses, peer ≠ s.id →
    ∃ prev, s.prevLogFor nextIndex peer = some prev ∧
      received peer (r.dispatch outs) = [s.entryMessage logEntry prev]

/-- There is at most one other peer, for which the loop does not panic.  With more of them the loop
must panic after the first broadcast, although `prev_log_index` and `prev_log_term` exist for all
and are the same: there is no slot of `last_sent_index` for the second. -/
def SinglePeer (s : Server σ) (nextIndex : List ℕ) : List NodeId → Prop
  | [] => True
  | [peer] => s.CanSendTo nextIndex peer
  | peer :: peer' :: peers => s.CanSendTo nextIndex peer ∧ s.lastSentIndex.length ≤ peer' ∧
      ∀ other ∈ peer' :: peers, s.prevLogFor nextIndex other = s.prevLogFor nextIndex peer

theorem entryMessage_injective (s : Server σ) (logEntry : LogEntry) :
    Function.Injective (s.entryMessage logEntry) := by
  rintro ⟨prevLogIndex, prevLogTerm⟩ ⟨prevLogIndex', prevLogTerm'⟩ h
  simp only [entryMessage, Message.appendEntries.injEq, AppendEntries.mk.injEq] at h
  exact Prod.ext h.2.2.1 h.2.2.2.1

theorem servesEach_iff {r : ConnectionRegistry} {s : Server σ} {logEntry : LogEntry}
    {nextIndex : List ℕ} {order : List NodeId} (horder : order.Perm s.config.peerAddresses)
    (hconn : ∀ peer ∈ s.config.peerAddresses, peer ≠ s.id → r.Connected peer) :
    ServesEach r s logEntry nextIndex (broadcastEntry logEntry nextIndex order s).sent ↔
      ∀ peer ∈ order.filter (· ≠ s.id), ∃ prev, s.prevLogFor nextIndex peer = some prev ∧
        s.loopMessages logEntry nextIndex (order.filter (· ≠ s.id)) =
          [s.entryMessage logEntry prev] := by
  have hreceived : ∀ peer, r.Connected peer →
      received peer (r.dispatch (broadcastEntry logEntry nextIndex order s).sent) =
        s.loopMessages logEntry nextIndex (order.filter (· ≠ s.id)) := by
    intro peer hpeer
    rw [ConnectionRegistry.received_dispatch hpeer, broadcastEntry_sent, List.map_map]
    · exact List.map_id _
    · intro out hout
      rw [broadcastEntry_sent] at hout
      obtain ⟨msg, -, rfl⟩ := List.mem_map.1 hout
      rfl
  constructor
  · intro h peer hpeer
    obtain ⟨hmem, hid⟩ : peer ∈ order ∧ peer ≠ s.id := by simpa using hpeer
    have hmem := horder.mem_iff.1 hmem
    rw [← hreceived peer (hconn peer hmem hid)]
    exact h peer hmem hid
  · intro h peer hmem hid
    rw [hreceived peer (hconn peer hmem hid)]
    exact h peer (by simpa using ⟨horder.mem_iff.2 hmem, hid⟩)

theorem singlePeer_iff (s : Server σ) (logEntry : LogEntry) (ni : List ℕ) (others : List NodeId) :
    (∀ peer ∈ others, ∃ prev, s.prevLogFor ni peer = some prev ∧
      s.loopMessages logEntry ni others = [s.entryMessage logEntry prev]) ↔
        s.SinglePeer ni others := by
  cases others with
  | nil => simp [SinglePeer]
  | cons peer others =>
    by_cases hsend : s.CanSendTo ni peer
    · obtain ⟨prev, hprev⟩ := Option.isSome_iff_exists.1 hsend.1
      rw [loopMessages_cons others hsend hprev]
      cases others with
      | nil => exact iff_of_true (List.forall_mem_singleton.2 ⟨prev, hprev, rfl⟩) hsend
      | cons peer' peers =>
        constructor
        · intro h
          -- every peer gets the message for the first, so nothing has been sent for the second
          have hsame : ∀ other ∈ peer' :: peers, s.prevLogFor ni other = some prev := by
            intro other hother
            obtain ⟨prev', hprev', hmsgs⟩ := h other (List.mem_cons_of_mem _ hother)
            rw [hprev', s.entryMessage_injective logEntry (List.cons.inj hmsgs).1]
          refine ⟨hsend, ?_, fun other hother => (hsame other hother).trans hprev.symm⟩
          by_contra hslot
          have hprev' := hsame peer' List.mem_cons_self
          have hsend' : s.CanSendTo ni peer' :=
            ⟨Option.isSome_of_eq_some hprev', hsend.2.1, Nat.not_le.1 hslot⟩
          obtain ⟨_, -, hmsgs⟩ := h peer List.mem_cons_self
          rw [loopMessages_cons peers hsend' hprev'] at hmsgs
          cases (List.cons.inj hmsgs).2
        · rintro ⟨-, hslot, hsame⟩ other hother
          have hsend' : ¬ s.CanSendTo ni peer' := fun hsend' => Nat.not_lt.2 hslot hsend'.2.2
          rw [loopMessages_eq_nil peers hsend']
          refine ⟨prev, ?_, rfl⟩
          rcases List.mem_cons.1 hother with rfl | hother
          · exact hprev
          · exact (hsame other hother).trans hprev
    · rw [loopMessages_eq_nil others hsend]
      refine iff_of_false (fun h => ?_) fun h => ?_
      · obtain ⟨_, -, hmsgs⟩ := h peer List.mem_cons_self
        cases hmsgs
      · cases others with
        | nil => exact hsend h
        | cons => exact hsend h.1

/-- **Per-peer replication of a Set.**  The connected peers each receive the message computed for
them, once, just if there is at most one of them and the handler does not panic for it. -/
theorem set_served_iff {s : Server σ} {r : ConnectionRegistry} {order : List NodeId} {mi : List ℤ}
    {ni : List ℕ} (key value : String) (clientId requestId : ℕ) (hlead : s.state = .leader mi ni)
    (horder : order.Perm s.config.peerAddresses)
    (hconn : ∀ peer ∈ s.config.peerAddresses, peer ≠ s.id → r.Connected peer) :
    let logEntry : LogEntry :=
      ⟨s.currentTerm, .set key value, asU32 s.log.length, clientId, requestId⟩
    ServesEach r { s with log := s.log ++ [logEntry] } logEntry ni
        (s.handleSetCommand order key value clientId requestId).sent ↔
      SinglePeer { s with log := s.log ++ [logEntry] } ni (order.filter (· ≠ s.id)) := by
  intro logEntry
  have hset : s.handleSetCommand order key value clientId requestId =
      broadcastEntry logEntry ni order { s with log := s.log ++ [logEntry] } := by
    simp only [handleSetCommand, hlead]
    rfl
  rw [hset]
  generalize hs' : { s with log := s.log ++ [logEntry] } = s'
  have hid : s'.id = s.id := by rw [← hs']
  have hconfig : s'.config = s.config := by rw [← hs']
  rw [servesEach_iff (hconfig ▸ horder) (hconfig ▸ hid ▸ hconn), hid]
  exact s'.singlePeer_iff logEntry ni _

/-- A leader of two nodes. -/
theorem set_served_iff_pair :
    let s := { Server.new 1 ⟨2, [1, 2]⟩ SimpleStateMachine.new with
      state := .leader [-1, -1, -1] [0, 0, 0], currentTerm := 1 }
    let r := ConnectionRegistry.new.register (.peer 2)
    let logEntry : LogEntry := ⟨1, .set "x" "1", 0, 7, 1⟩
    ServesEach r { s with log := [logEntry] } logEntry [0, 0, 0]
      (s.handleSetCommand [2, 1] "x" "1" 7 1).sent := by
  intro s r logEntry
  refine (set_served_iff "x" "1" 7 1 rfl (List.Perm.swap 1 2 []) ?_).2 ?_
  · intro peer hpeer hid
    obtain rfl : peer = 2 := (List.mem_pair.1 hpeer).resolve_left hid
    exact ConnectionRegistry.new.connected_register 2
  · exact ⟨by decide, by decide, by decide⟩

/-- A leader of three nodes whose first entry only node 2 has acknowledged.  Each peer receives the
second entry twice, once with the fields computed for the other peer. -/
theorem set_crosses_peers :
    let old : LogEntry := ⟨1, .set "x" "1", 0, 7, 1⟩
    let s := { Server.new 1 ⟨3, [1, 2, 3]⟩ SimpleStateMachine.new with
      log := [old], state := .leader [-1, -1, 0, -1] [0, 0, 1, 0], currentTerm := 1 }
    let r := (ConnectionRegistry.new.register (.peer 2)).register (.peer 3)
    let logEntry : LogEntry := ⟨1, .set "x" "2", 1, 7, 2⟩
    let outs := (s.handleSetCommand [1, 2, 3] "x" "2" 7 2).sent
    received 2 (r.dispatch outs) = [.appendEntries ⟨1, 1, 0, 1, [logEntry], -1⟩,
        .appendEntries ⟨1, 1, -1, 0, [logEntry], -1⟩] ∧
      received 3 (r.dispatch outs) = received 2 (r.dispatch outs) ∧
        ¬ ServesEach r { s with log := [old, logEntry] } logEntry [0, 0, 1, 0] outs := by
  intro old s r logEntry outs
  have hreceived : received 2 (r.dispatch outs) = [.appendEntries ⟨1, 1, 0, 1, [logEntry], -1⟩,
      .appendEntries ⟨1, 1, -1, 0, [logEntry], -1⟩] := by decide
  refine ⟨hreceived, by decide, fun h => ?_⟩
  obtain ⟨prev, -, hsingle⟩ := h 2 (by decide) (by decide)
  rw [hreceived] at hsingle
  cases (List.cons.inj hsingle).2

end Server

end MiniRaft
