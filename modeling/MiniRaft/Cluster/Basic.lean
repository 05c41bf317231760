import MiniRaft.Server.Run
import MiniRaft.Machine.Basic
import Mathlib.Logic.Function.Basic

/-!
# Clusters of servers

A cluster is a set of servers, all with the same configuration, and a network.
`dispatch_server_msg` and the connection registry send a broadcast to every other node and a
`Destination::Node` message to that node.

The network keeps every envelope ever sent, and a delivery names its position: an envelope may be
delivered once, never (a loss), several times, and in any order.  `Orderly` is the guard of the
runs in which each connection delivers in order and at most once and no handler is dropped half
way; a TCP connection behaves so.

For the statements about whole runs, and read by no server, an envelope also carries the message
it was sent in answer to and the sender as it was then, and the cluster keeps the deliveries made
and a history of events.
-/

namespace MiniRaft

/-- A message from one node to another. -/
structure Envelope (σ : Type) where
  src : NodeId
  dst : NodeId
  msg : Message
  /-- The message whose handler sent this one, if a handler did. -/
  cause : Option Message
  /-- The sender while it awaits the send. -/
  snap : Server σ

/-- What the history records. -/
inductive Event
  /-- `node` turns leader of `term` with this log. -/
  | elected (node : NodeId) (term : ℕ) (log : List LogEntry)
  /-- `node`, leader of `term` with this log, raises its commit index to `index`. -/
  | committed (node : NodeId) (term : ℕ) (index : ℤ) (log : List LogEntry)
  /-- `node` applies the log entry at `index` to its state machine. -/
  | applied (node : NodeId) (index : ℕ) (command : LogCommand)
  deriving DecidableEq, Repr

structure Cluster (σ : Type) where
  nodes : NodeId → Server σ
  crashed : NodeId → Bool
  /-- Every envelope ever sent. -/
  sent : List (Envelope σ)
  /-- The positions in `sent` of the deliveries made, the last one first. -/
  delivered : List ℕ
  history : List Event

/-- A step of a cluster. -/
inductive Action
  /-- The `k`-th envelope is delivered; with `cut`, the timer drops its handler there. -/
  | deliver (k : ℕ) (order : List NodeId) (cut : Option ℕ)
  /-- A client's request arrives at a node. -/
  | request (node : NodeId) (client : ClientId) (req : ClientRequest) (order : List NodeId)
      (cut : Option ℕ)
  /-- The timer of a node fires. -/
  | timeout (node : NodeId)
  deriving DecidableEq, Repr

namespace Action

/-- Where the handler of a step is dropped, if it is. -/
def cut : Action → Option ℕ
  | deliver _ _ cut => cut
  | request _ _ _ _ cut => cut
  | timeout _ => none

/-- The `k`-th envelope is delivered, and its handler completes. -/
def receive (order : List NodeId) (k : ℕ) : Action := deliver k order none

/-- A client's `Set` arrives at a node, and its handler completes. -/
def set (order : List NodeId) (node : NodeId) (key value : String) : Action :=
  request node 1 ⟨.set key value, 1, 1⟩ order none

end Action

variable {σ : Type}

/-- `dispatch_server_msg` between the nodes `ids`. -/
def route (ids : List NodeId) (src : NodeId) (cause : Option Message) :
    Effect σ → List (Envelope σ)
  | .send ⟨.broadcast, msg⟩ snap => (ids.filter (· ≠ src)).map fun dst => ⟨src, dst, msg, cause, snap⟩
  | .send ⟨.node dst, msg⟩ snap => if dst ∈ ids ∧ dst ≠ src then [⟨src, dst, msg, cause, snap⟩] else []
  | .send ⟨.client _, _⟩ _ => []
  | .apply .. => []

/-- The change of the node `i` from `s` to `s'`, if it is one that the history records. -/
def changeOf (i : NodeId) (s s' : Server σ) : List Event :=
  (if !s.state.isLeader && s'.state.isLeader then [.elected i s'.currentTerm s'.log] else []) ++
  (if s.state.isLeader && s'.state.isLeader && decide (s.commitIndex < s'.commitIndex) then
    [.committed i s'.currentTerm s'.commitIndex s'.log] else [])

/-- The calls of the state machine in one phase of the node `i`. -/
def callsOf (i : NodeId) (o : Outcome σ) : List Event :=
  o.effects.filterMap fun
    | .apply index command _ => some (.applied i index command)
    | .send .. => none

/-- The events of one phase of the node `i`, which was `s` before. -/
def eventsOf (i : NodeId) (s : Server σ) (o : Outcome σ) : List Event :=
  callsOf i o ++ if o.panicked then [] else changeOf i s o.server

namespace Cluster

/-- The cluster before its first step: `Server::new` on every node. -/
def init (ids : List NodeId) (stateMachine : NodeId → σ) : Cluster σ where
  nodes i := Server.new i ⟨ids.length, ids⟩ (stateMachine i)
  crashed _ := false
  sent := []
  delivered := []
  history := []

/-- The node `i` goes through one phase.  A panic ends its task: the server is dropped, and the
cluster keeps the one from before the phase. -/
def perform (ids : List NodeId) (i : NodeId) (c : Cluster σ) (p : Phase σ) : Cluster σ where
  nodes := if p.outcome.panicked then c.nodes else Function.update c.nodes i p.outcome.server
  crashed := Function.update c.crashed i p.outcome.panicked
  sent := c.sent ++ p.outcome.effects.flatMap (route ids i p.cause)
  delivered := c.delivered
  history := c.history ++ eventsOf i (c.nodes i) p.outcome

variable [StateMachine σ]

/-- One turn of the node `i`, if it still runs. -/
def act (ids : List NodeId) (c : Cluster σ) (i : NodeId) (ev : Select) : Option (Cluster σ) :=
  if i ∈ ids ∧ c.crashed i = false then
    ((c.nodes i).turn ev).map fun phases => phases.foldl (perform ids i) c
  else none

/-- The `select!` of a message, dropped at `cut` if there is one. -/
def selectOf (order : List NodeId) (incoming : Incoming) : Option ℕ → Select
  | none => .rpc order incoming
  | some k => .cancelled order incoming k

/-- The step function. -/
def next (ids : List NodeId) (c : Cluster σ) : Action → Option (Cluster σ)
  | .deliver k order cut =>
    match c.sent[k]? with
    | none => none
    | some e =>
      act ids { c with delivered := k :: c.delivered } e.dst
        (selectOf order ⟨.peer e.src, e.msg⟩ cut)
  | .request node client req order cut =>
    act ids c node (selectOf order ⟨.client client, .clientRequest req⟩ cut)
  | .timeout node => act ids c node .timer

/-- The clusters of the nodes `ids`. -/
def machine (σ : Type) [StateMachine σ] (ids : List NodeId) : Machine (Cluster σ) Action where
  next := next ids

omit [StateMachine σ] in
/-- The envelopes at `k` and `k'` use the same connection in the same direction. -/
def sameLink (c : Cluster σ) (k k' : ℕ) : Bool :=
  match c.sent[k]?, c.sent[k']? with
  | some e, some e' => decide (e.src = e'.src ∧ e.dst = e'.dst)
  | _, _ => false

omit [StateMachine σ] in
/-- Every connection delivers in order and at most once, and no handler is dropped half way. -/
def orderly (c : Cluster σ) : Action → Bool
  | .deliver k _ cut => cut.isNone && c.delivered.all fun k' => !c.sameLink k k' || decide (k' < k)
  | .request _ _ _ _ cut => cut.isNone
  | .timeout _ => true

omit [StateMachine σ] in
/-- The guard of the orderly runs. -/
def Orderly (c : Cluster σ) (a : Action) : Prop := c.orderly a = true

instance (c : Cluster σ) (a : Action) : Decidable (c.Orderly a) :=
  inferInstanceAs (Decidable (_ = _))

/-- The server that handles a message in the step `a` and that message satisfy `P`. -/
def Meets (P : Server σ → List NodeId → Incoming → Prop) (c : Cluster σ) : Action → Prop
  | .deliver k order _ => ∀ e ∈ c.sent[k]?, P (c.nodes e.dst) order ⟨.peer e.src, e.msg⟩
  | .request node client req order _ => P (c.nodes node) order ⟨.client client, .clientRequest req⟩
  | .timeout _ => True

instance (P : Server σ → List NodeId → Incoming → Prop) [∀ s order m, Decidable (P s order m)]
    (c : Cluster σ) : (a : Action) → Decidable (Meets P c a)
  | .deliver k order _ => inferInstanceAs (Decidable (∀ e ∈ c.sent[k]?,
      P (c.nodes e.dst) order ⟨.peer e.src, e.msg⟩))
  | .request _ _ _ _ _ => inferInstanceAs (Decidable (P _ _ _))
  | .timeout _ => inferInstanceAs (Decidable True)

end Cluster

end MiniRaft
