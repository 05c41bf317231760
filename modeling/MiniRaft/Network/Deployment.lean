import MiniRaft.Network.Dispatch

/-!
# Servers and their connections

What `main` starts on every node, over TCP connections that deliver in order until they break: the
server, the dispatcher, the dial loop, and for every connection a reader and a writer task.  The
tasks hand messages on through channels:

    server -- `to_network` --> dispatcher --> writer ==> reader -- `to_server` --> server

A node dials the peers with higher ids, each once.  A connection comes into use at either end when
that end has read the `Hello` of the other: it registers the channel of its writer task, and spawns
reader and writer.  A client may send whatever message it likes; `ClientsAsk` is the guard under
which clients send requests only.

* `Deployment.next` : one step of one task.
* `Deployment.machine` : the deployments of some nodes.
-/

namespace MiniRaft

/-- The writer task that a node has spawned for a peer, with the messages handed to it that the
reader at the far end has not come to yet. -/
structure Link where
  src : NodeId
  dst : NodeId
  queue : List Message
  deriving DecidableEq, Repr

def Link.ends (link : Link) : NodeId × NodeId := (link.src, link.dst)

/-- The message is handed to the newest writer of the node for the peer. -/
def handOver (src dst : NodeId) (msg : Message) : List Link → List Link
  | [] => []
  | link :: links =>
    if link.ends = (src, dst) then { link with queue := link.queue ++ [msg] } :: links
    else link :: handOver src dst msg links

/-- `connect_with_retry`: whether one of the first six attempts succeeds. -/
def connectWithRetry (attempts : List Bool) : Bool := (attempts.take 6).any id

namespace ConnectionRegistry

/-- The writer of the peer or client has ended: its channel stays registered. -/
def writerExited (r : ConnectionRegistry) : Id → ConnectionRegistry
  | .client clientId => { r with clientRegistry := r.clientRegistry.insert clientId .exited }
  | .peer peerId => { r with peerRegistry := r.peerRegistry.insert peerId .exited }

end ConnectionRegistry

/-- A client asks for something by the message. -/
def Message.isRequest : Message → Bool
  | .clientRequest _ => true
  | _ => false

theorem Message.isRequest_iff {msg : Message} :
    msg.isRequest = true ↔ ∃ req, msg = .clientRequest req := by
  cases msg <;> simp [isRequest]

/-- The processes of all nodes. -/
structure Deployment (σ : Type) where
  nodes : NodeId → Server σ
  crashed : NodeId → Bool
  /-- The channel from the server to the dispatcher. -/
  toNetwork : NodeId → List Outgoing
  /-- The channel from the readers to the server. -/
  toServer : NodeId → List Incoming
  /-- What the loop of `dial_peers` has not come to yet. -/
  toDial : NodeId → List NodeId
  /-- The nodes that wait for the greeting of a peer on an open connection. -/
  greeting : List (NodeId × NodeId)
  registry : NodeId → ConnectionRegistry
  /-- The writers, the newest first. -/
  links : List Link
  /-- What has been handed to the writers of client connections. -/
  replies : List (ClientId × Message)

/-- A step of a task. -/
inductive Task
  /-- The server of a node handles the first message of its channel; with `cut`, the timer drops the
  handler there. -/
  | serve (node : NodeId) (order : List NodeId) (cut : Option ℕ)
  /-- The timer of a node fires. -/
  | timeout (node : NodeId)
  /-- The dispatcher of a node takes the first message of its channel. -/
  | dispatch (node : NodeId)
  /-- The dial loop of a node comes to its next peer; `attempts` are the outcomes of the
  attempts. -/
  | dial (node : NodeId) (attempts : List Bool)
  /-- A node reads the greeting of a peer. -/
  | identify (node peer : NodeId)
  /-- The handshake of a node with a peer fails. -/
  | abandon (node peer : NodeId)
  /-- A node reads the greeting of a client. -/
  | welcome (node : NodeId) (client : ClientId)
  /-- The reader at the far end of a link forwards the next message. -/
  | forward (k : ℕ)
  /-- The writer of a link fails: all but the first `n` messages are lost. -/
  | exit (k n : ℕ)
  /-- The reader of a client connection forwards a message. -/
  | submit (node : NodeId) (client : ClientId) (msg : Message)
  /-- The writer of a client connection fails. -/
  | leave (node : NodeId) (client : ClientId)
  deriving DecidableEq, Repr

namespace Task

/-- A request of a client reaches the channel of a server in this step. -/
def asks : Task → Bool
  | .submit _ _ msg => msg.isRequest
  | _ => false

/-- No other message of a client does. -/
def requestsOnly : Task → Bool
  | .submit _ _ msg => msg.isRequest
  | _ => true

/-- The node whose server takes a turn in this step. -/
def actor : Task → Option NodeId
  | .serve node _ _ => some node
  | .timeout node => some node
  | _ => none

/-- The timer of that node fires. -/
def fires : Task → Bool
  | .serve _ _ cut => cut.isSome
  | .timeout _ => true
  | _ => false

/-- A server handles a message in this step. -/
def serves : Task → Bool
  | .serve .. => true
  | _ => false

/-- A message between nodes reaches the channel of a server in this step. -/
def forwards : Task → Bool
  | .forward _ => true
  | _ => false

end Task

variable {σ : Type}

namespace Deployment

/-- Before the first step; `peerAddresses` is what each node iterates over when it dials. -/
def init (ids : List NodeId) (peerAddresses : NodeId → List NodeId) (stateMachine : NodeId → σ) :
    Deployment σ where
  nodes i := Server.new i ⟨ids.length, ids⟩ (stateMachine i)
  crashed _ := false
  toNetwork _ := []
  toServer _ := []
  toDial := peerAddresses
  greeting := []
  registry _ := .new
  links := []
  replies := []

/-- The node `i` goes through one phase. -/
def settle (i : NodeId) (w : Deployment σ) (p : Phase σ) : Deployment σ :=
  { w with
    nodes := if p.outcome.panicked then w.nodes else Function.update w.nodes i p.outcome.server
    crashed := Function.update w.crashed i p.outcome.panicked
    toNetwork := Function.update w.toNetwork i (w.toNetwork i ++ p.outcome.sent) }

/-- One turn of the server of the node `i`, if it still runs. -/
def act [StateMachine σ] (ids : List NodeId) (w : Deployment σ) (i : NodeId) (ev : Select) :
    Option (Deployment σ) :=
  if i ∈ ids ∧ w.crashed i = false then
    ((w.nodes i).turn ev).map fun phases => phases.foldl (settle i) w
  else none

/-- The dispatcher of the node `i` hands a message to the writer of its connection. -/
def handTo (i : NodeId) (w : Deployment σ) (d : Delivery) : Deployment σ :=
  match d.dest with
  | .peer peer => { w with links := handOver i peer d.msg w.links }
  | .client client => { w with replies := w.replies ++ [(client, d.msg)] }

/-- The dial loop of the node waits for the end of a handshake. -/
def dialing (w : Deployment σ) (node : NodeId) : Bool :=
  w.greeting.any fun waiting => waiting.1 = node ∧ node < waiting.2

/-- One round of the loop of `dial_peers`.  Both ends send their greeting as soon as the connection
is open, and wait for the other. -/
def dialNext (w : Deployment σ) (node peer : NodeId) (rest : List NodeId) (attempts : List Bool) :
    Deployment σ :=
  if node < peer ∧ connectWithRetry attempts then
    { w with
      toDial := Function.update w.toDial node rest
      greeting := (node, peer) :: (peer, node) :: w.greeting }
  else { w with toDial := Function.update w.toDial node rest }

/-- The node registers the peer and spawns reader and writer. -/
def spawn (w : Deployment σ) (node peer : NodeId) : Deployment σ :=
  { w with
    greeting := w.greeting.erase (node, peer)
    registry := Function.update w.registry node ((w.registry node).register (.peer peer))
    links := ⟨node, peer, []⟩ :: w.links }

/-- A reader of the node forwards a message to its server. -/
def receive (w : Deployment σ) (node : NodeId) (incoming : Incoming) : Deployment σ :=
  { w with toServer := Function.update w.toServer node (w.toServer node ++ [incoming]) }

/-- The node has spawned reader and writer for the peer. -/
def Spawned (w : Deployment σ) (node peer : NodeId) : Prop :=
  (node, peer) ∈ w.links.map Link.ends

instance (w : Deployment σ) (node peer : NodeId) : Decidable (w.Spawned node peer) :=
  inferInstanceAs (Decidable (_ ∈ _))

/-- The writer of the link at `k` is the one that is registered. -/
def Newest (w : Deployment σ) (k : ℕ) (link : Link) : Prop :=
  link.ends ∉ (w.links.take k).map Link.ends

instance (w : Deployment σ) (k : ℕ) (link : Link) : Decidable (w.Newest k link) :=
  inferInstanceAs (Decidable (_ ∉ _))

/-- The writer of the link at `k` ends. -/
def exitWriter (w : Deployment σ) (k n : ℕ) (link : Link) : Deployment σ :=
  { w with
    links := w.links.set k { link with queue := link.queue.take n }
    registry := if w.Newest k link then
        Function.update w.registry link.src ((w.registry link.src).writerExited (.peer link.dst))
      else w.registry }

/-- The step function. -/
def next [StateMachine σ] (ids : List NodeId) (w : Deployment σ) : Task → Option (Deployment σ)
  | .serve node order cut =>
    match w.toServer node with
    | [] => none
    | incoming :: rest =>
      act ids { w with toServer := Function.update w.toServer node rest } node
        (Cluster.selectOf order incoming cut)
  | .timeout node => act ids w node .timer
  | .dispatch node =>
    match w.toNetwork node with
    | [] => none
    | out :: rest =>
      if node ∈ ids then
        some (((w.registry node).dispatchServerMsg out).foldl (handTo node)
          { w with toNetwork := Function.update w.toNetwork node rest })
      else none
  | .dial node attempts =>
    match w.toDial node with
    | [] => none
    | peer :: rest =>
      if node ∈ ids ∧ w.dialing node = false then some (w.dialNext node peer rest attempts)
      else none
  | .identify node peer => if (node, peer) ∈ w.greeting then some (w.spawn node peer) else none
  | .abandon node peer =>
    if (node, peer) ∈ w.greeting then some { w with greeting := w.greeting.erase (node, peer) }
    else none
  | .welcome node client =>
    if node ∈ ids then
      some { w with
        registry := Function.update w.registry node ((w.registry node).register (.client client)) }
    else none
  | .forward k =>
    match w.links[k]? with
    | none => none
    | some link =>
      match link.queue with
      | [] => none
      | msg :: rest =>
        -- the reader is spawned with the writer of its own end, and stops with its server
        if w.Spawned link.dst link.src ∧ w.crashed link.dst = false then
          some ({ w with links := w.links.set k { link with queue := rest } }.receive link.dst
            ⟨.peer link.src, msg⟩)
        else none
  | .exit k n =>
    match w.links[k]? with
    | none => none
    | some link => some (w.exitWriter k n link)
  | .submit node client msg =>
    if node ∈ ids ∧ w.crashed node = false then some (w.receive node ⟨.client client, msg⟩)
    else none
  | .leave node client =>
    if ((w.registry node).clientRegistry.lookup client).isSome then
      some { w with
        registry := Function.update w.registry node
          ((w.registry node).writerExited (.client client)) }
    else none

/-- Clients send nothing but requests. -/
def ClientsAsk (_ : Deployment σ) (t : Task) : Prop := t.requestsOnly = true

instance (w : Deployment σ) (t : Task) : Decidable (w.ClientsAsk t) :=
  inferInstanceAs (Decidable (_ = _))

/-- The deployments of the nodes `ids`. -/
def machine (σ : Type) [StateMachine σ] (ids : List NodeId) : Machine (Deployment σ) Task where
  next := next ids

/-! ### What a step can do -/

variable [StateMachine σ] {ids : List NodeId} {w w' : Deployment σ}

/-- The steps, with what they require. -/
inductive Moves (ids : List NodeId) (w : Deployment σ) : Task → Deployment σ → Prop
  | serve {node : NodeId} {order : List NodeId} {cut : Option ℕ} {incoming : Incoming}
      {rest : List Incoming} {phases : List (Phase σ)} : w.toServer node = incoming :: rest →
      node ∈ ids → w.crashed node = false →
      (w.nodes node).turn (Cluster.selectOf order incoming cut) = some phases →
      Moves ids w (.serve node order cut)
        (phases.foldl (settle node) { w with toServer := Function.update w.toServer node rest })
  | timeout {node : NodeId} {phases : List (Phase σ)} : node ∈ ids → w.crashed node = false →
      (w.nodes node).turn .timer = some phases →
      Moves ids w (.timeout node) (phases.foldl (settle node) w)
  | dispatch {node : NodeId} {out : Outgoing} {rest : List Outgoing} :
      w.toNetwork node = out :: rest → node ∈ ids →
      Moves ids w (.dispatch node) (((w.registry node).dispatchServerMsg out).foldl (handTo node)
        { w with toNetwork := Function.update w.toNetwork node rest })
  | dial {node peer : NodeId} {rest : List NodeId} {attempts : List Bool} :
      w.toDial node = peer :: rest → node ∈ ids → w.dialing node = false →
      Moves ids w (.dial node attempts) (w.dialNext node peer rest attempts)
  | identify {node peer : NodeId} : (node, peer) ∈ w.greeting →
      Moves ids w (.identify node peer) (w.spawn node peer)
  | abandon {node peer : NodeId} : (node, peer) ∈ w.greeting →
      Moves ids w (.abandon node peer) { w with greeting := w.greeting.erase (node, peer) }
  | welcome {node : NodeId} {client : ClientId} : node ∈ ids →
      Moves ids w (.welcome node client) { w with
        registry := Function.update w.registry node ((w.registry node).register (.client client)) }
  | forward {k : ℕ} {link : Link} {msg : Message} {rest : List Message} :
      w.links[k]? = some link → link.queue = msg :: rest → w.Spawned link.dst link.src →
      w.crashed link.dst = false →
      Moves ids w (.forward k)
        ({ w with links := w.links.set k { link with queue := rest } }.receive link.dst
          ⟨.peer link.src, msg⟩)
  | exit {k n : ℕ} {link : Link} : w.links[k]? = some link →
      Moves ids w (.exit k n) (w.exitWriter k n link)
  | submit {node : NodeId} {client : ClientId} {msg : Message} : node ∈ ids →
      w.crashed node = false →
      Moves ids w (.submit node client msg) (w.receive node ⟨.client client, msg⟩)
  | leave {node : NodeId} {client : ClientId} :
      Moves ids w (.leave node client) { w with
        registry := Function.update w.registry node
          ((w.registry node).writerExited (.client client)) }

/-- **Inversion of the step function.** -/
theorem moves_of_next {t : Task} (h : next ids w t = some w') : Moves ids w t w' := by
  have turn : ∀ {w₁ : Deployment σ} {node : NodeId} {ev : Select}, act ids w₁ node ev = some w' →
      node ∈ ids ∧ w₁.crashed node = false ∧
        ∃ phases, (w₁.nodes node).turn ev = some phases ∧ w' = phases.foldl (settle node) w₁ := by
    intro w₁ node ev h
    simp only [act] at h
    split_ifs at h with hrun
    obtain ⟨phases, hturn, rfl⟩ := Option.map_eq_some_iff.1 h
    exact ⟨hrun.1, hrun.2, phases, hturn, rfl⟩
  cases t with
  | serve node order cut =>
    simp only [next] at h
    split at h
    · cases h
    · rename_i incoming rest hrest
      obtain ⟨hi, hc, phases, hturn, rfl⟩ := turn h
      exact .serve hrest hi hc hturn
  | timeout node =>
    obtain ⟨hi, hc, phases, hturn, rfl⟩ := turn h
    exact .timeout hi hc hturn
  | dispatch node =>
    simp only [next] at h
    split at h
    · cases h
    · rename_i out rest hrest
      split_ifs at h with hi
      cases h
      exact .dispatch hrest hi
  | dial node attempts =>
    simp only [next] at h
    split at h
    · cases h
    · rename_i peer rest hrest
      split_ifs at h with hrun
      cases h
      exact .dial hrest hrun.1 hrun.2
  | identify node peer =>
    simp only [next] at h
    split_ifs at h with hmem
    cases h
    exact .identify hmem
  | abandon node peer =>
    simp only [next] at h
    split_ifs at h with hmem
    cases h
    exact .abandon hmem
  | welcome node client =>
    simp only [next] at h
    split_ifs at h with hmem
    cases h
    exact .welcome hmem
  | forward k =>
    simp only [next] at h
    split at h
    · cases h
    · rename_i link hlink
      split at h
      · cases h
      · rename_i msg rest hqueue
        split_ifs at h with hrun
        cases h
        exact .forward hlink hqueue hrun.1 hrun.2
  | exit k n =>
    simp only [next] at h
    split at h
    · cases h
    · rename_i link hlink
      cases h
      exact .exit hlink
  | submit node client msg =>
    simp only [next] at h
    split_ifs at h with hrun
    cases h
    exact .submit hrun.1 hrun.2
  | leave node client =>
    simp only [next] at h
    split_ifs at h
    cases h
    exact .leave

/-! ### What a turn and the dispatcher leave alone -/

omit [StateMachine σ]

/-- A turn changes the server, and appends what it sends to the channel of the dispatcher. -/
theorem foldl_settle (i : NodeId) (w : Deployment σ) (phases : List (Phase σ)) :
    phases.foldl (settle i) w = { w with
      nodes := (phases.foldl (settle i) w).nodes
      crashed := (phases.foldl (settle i) w).crashed
      toNetwork := Function.update w.toNetwork i
        (w.toNetwork i ++ phases.flatMap fun p => p.outcome.sent) } := by
  induction phases generalizing w with
  | nil => simp
  | cons p phases ih =>
    rw [List.foldl_cons, ih]
    simp only [settle, Function.update_idem, Function.update_self, List.flatMap_cons,
      List.append_assoc]

theorem ends_handOver (src dst : NodeId) (msg : Message) (links : List Link) :
    (handOver src dst msg links).map Link.ends = links.map Link.ends := by
  induction links with
  | nil => rfl
  | cons link links ih =>
    unfold handOver
    split_ifs
    · rfl
    · rw [List.map_cons, ih, List.map_cons]

theorem ends_set {links : List Link} {k : ℕ} {link : Link} (hk : links[k]? = some link)
    (queue : List Message) :
    (links.set k { link with queue := queue }).map Link.ends = links.map Link.ends := by
  obtain ⟨hlt, rfl⟩ := List.getElem?_eq_some_iff.1 hk
  have hlt' : k < (links.map Link.ends).length := by rwa [List.length_map]
  have hends : Link.ends { links[k] with queue := queue } = (links.map Link.ends)[k] := by
    rw [List.getElem_map]
    rfl
  rw [List.map_set, hends, List.set_getElem_self]

theorem foldl_handTo (i : NodeId) (w : Deployment σ) (ds : List Delivery) :
    ds.foldl (handTo i) w = { w with
      links := (ds.foldl (handTo i) w).links
      replies := (ds.foldl (handTo i) w).replies } ∧
    (ds.foldl (handTo i) w).links.map Link.ends = w.links.map Link.ends := by
  induction ds generalizing w with
  | nil => exact ⟨rfl, rfl⟩
  | cons d ds ih =>
    obtain ⟨hsame, hends⟩ := ih (handTo i w d)
    obtain ⟨dest, msg⟩ := d
    rw [List.foldl_cons]
    cases dest with
    | peer peer => exact ⟨hsame, hends.trans (ends_handOver _ _ _ _)⟩
    | client client => exact ⟨hsame, hends⟩

/-- What a step does to the channels of the servers. -/
inductive Feeds (ids : List NodeId) (w : Deployment σ) : Task → Deployment σ → Prop
  | keep {t : Task} {w' : Deployment σ} : t.serves = false → w'.toServer = w.toServer →
      Feeds ids w t w'
  | take {node : NodeId} {order : List NodeId} {cut : Option ℕ} {incoming : Incoming}
      {rest : List Incoming} {w' : Deployment σ} : node ∈ ids → w.toServer node = incoming :: rest →
      w'.toServer = Function.update w.toServer node rest → Feeds ids w (.serve node order cut) w'
  | forward {k : ℕ} {node src : NodeId} {msg : Message} {w' : Deployment σ} :
      w'.toServer = Function.update w.toServer node (w.toServer node ++ [⟨.peer src, msg⟩]) →
      Feeds ids w (.forward k) w'
  | submit {node : NodeId} {client : ClientId} {msg : Message} {w' : Deployment σ} : node ∈ ids →
      w'.toServer = Function.update w.toServer node
        (w.toServer node ++ [⟨.client client, msg⟩]) →
      Feeds ids w (.submit node client msg) w'

theorem feeds_of_moves [StateMachine σ] {t : Task} (h : Moves ids w t w') : Feeds ids w t w' := by
  cases h with
  | serve hrest hi => exact .take hi hrest (by rw [foldl_settle])
  | timeout => exact .keep rfl (by rw [foldl_settle])
  | dispatch => exact .keep rfl (by rw [(foldl_handTo _ _ _).1])
  | dial =>
    refine .keep rfl ?_
    unfold dialNext
    split_ifs <;> rfl
  | identify | abandon | welcome | exit | leave => exact .keep rfl rfl
  | forward => exact .forward rfl
  | submit hi => exact .submit hi rfl

/-- What holds of all that waits for the servers goes on to do so, if it holds of what comes in. -/
theorem Feeds.forall_toServer {t : Task} {P : NodeId → Incoming → Prop} (hf : Feeds ids w t w')
    (h : ∀ i, ∀ incoming ∈ w.toServer i, P i incoming)
    (hforward : t.forwards = true → ∀ node src msg, P node ⟨.peer src, msg⟩)
    (hsubmit : ∀ {node client msg}, t = .submit node client msg → P node ⟨.client client, msg⟩) :
    ∀ i, ∀ incoming ∈ w'.toServer i, P i incoming := by
  have update : ∀ {node : NodeId} {queue : List Incoming}, (∀ incoming ∈ queue, P node incoming) →
      ∀ i, ∀ incoming ∈ Function.update w.toServer node queue i, P i incoming := by
    intro node queue hqueue i incoming hmem
    by_cases hi : i = node
    · subst hi
      rw [Function.update_self] at hmem
      exact hqueue incoming hmem
    · rw [Function.update_of_ne hi] at hmem
      exact h i incoming hmem
  have more : ∀ {node : NodeId} {new : Incoming}, P node new →
      ∀ incoming ∈ w.toServer node ++ [new], P node incoming := by
    intro node new hnew incoming hmem
    rcases List.mem_append.1 hmem with hmem | hmem
    · exact h node incoming hmem
    · rw [List.mem_singleton.1 hmem]
      exact hnew
  cases hf with
  | keep _ heq =>
    rw [heq]
    exact h
  | @take node _ _ head rest _ _ hrest heq =>
    rw [heq]
    exact update fun incoming hmem => h node incoming (by
      rw [hrest]
      exact List.mem_cons_of_mem _ hmem)
  | forward heq =>
    rw [heq]
    exact update (more (hforward rfl _ _ _))
  | submit _ heq =>
    rw [heq]
    exact update (more (hsubmit rfl))

end Deployment

end MiniRaft
