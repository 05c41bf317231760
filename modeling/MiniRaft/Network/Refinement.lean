import MiniRaft.Cluster.Provenance
import MiniRaft.Cluster.SplitVote
import MiniRaft.Machine.Simulation
import MiniRaft.Network.Deployment
import Mathlib.Algebra.BigOperators.Group.Finset.Basic
import Mathlib.Data.List.Forall2

/-!
# Deployments run as clusters

A cluster is a deployment without its channels: what a server sends lies in one network, and is
delivered at some time.  Here every message on its way, in a channel, with a writer or in front of a
reader, is matched with an envelope of the cluster that has not been delivered.  Several copies of a
message are matched with as many envelopes, so no envelope is ever delivered twice: what the
channels and connections do is one of the things that a cluster with `AtMostOnce` may do.

* `Deployment.Simulates` : the relation; `Deployment.Simulates.next` : every step keeps it.
* `Deployment.refines_cluster` : every run of a deployment is a run of a cluster.
-/

namespace MiniRaft

variable {σ : Type}

/-- A message on its way from one node to another. -/
structure Packet where
  src : NodeId
  dst : NodeId
  msg : Message
  deriving DecidableEq, Repr

namespace Envelope

def packet (e : Envelope σ) : Packet := ⟨e.src, e.dst, e.msg⟩

end Envelope

/-- What becomes of a message in the dispatcher of the node `src`, if all nodes are connected. -/
def packets (ids : List NodeId) (src : NodeId) : Outgoing → List Packet
  | ⟨.broadcast, msg⟩ => (ids.filter (· ≠ src)).map fun dst => ⟨src, dst, msg⟩
  | ⟨.node dst, msg⟩ => if dst ∈ ids ∧ dst ≠ src then [⟨src, dst, msg⟩] else []
  | ⟨.client _, _⟩ => []

theorem packet_route (ids : List NodeId) (src : NodeId) (cause : Option Message) (out : Outgoing)
    (snap : Server σ) :
    (route ids src cause (.send out snap)).map Envelope.packet = packets ids src out := by
  obtain ⟨dest, msg⟩ := out
  cases dest with
  | client => rfl
  | node dst =>
    simp only [route, packets]
    split_ifs <;> rfl
  | broadcast =>
    simp only [route, packets, List.map_map]
    rfl

theorem packet_routes (ids : List NodeId) (src : NodeId) (p : Phase σ) :
    (p.outcome.effects.flatMap (route ids src p.cause)).map Envelope.packet =
      p.outcome.sent.flatMap (packets ids src) := by
  unfold Outcome.sent
  induction p.outcome.effects with
  | nil => rfl
  | cons ef effects ih =>
    rw [List.flatMap_cons, List.map_append, ih]
    cases ef with
    | send out snap =>
      rw [packet_route]
      rfl
    | apply => rfl

/-- The message of a reader on its way to the server of the node `dst`. -/
def arrived (dst : NodeId) (incoming : Incoming) : Option Packet :=
  match incoming.sender with
  | .peer src => some ⟨src, dst, incoming.msg⟩
  | .client _ => none

namespace Link

def packets (link : Link) : List Packet := link.queue.map fun msg => ⟨link.src, link.dst, msg⟩

end Link

namespace Cluster

/-- How often the packet is among the envelopes that have not been delivered. -/
def undelivered (c : Cluster σ) (p : Packet) : ℕ :=
  c.sent.zipIdx.countP fun x => decide (x.2 ∉ c.delivered ∧ x.1.packet = p)

variable {c : Cluster σ} {p : Packet}

theorem exists_of_undelivered (h : 0 < c.undelivered p) :
    ∃ k e, c.sent[k]? = some e ∧ k ∉ c.delivered ∧ e.packet = p := by
  obtain ⟨⟨e, k⟩, hmem, hx⟩ := List.countP_pos_iff.1 h
  exact ⟨k, e, List.mem_zipIdx_iff_getElem?.1 hmem, of_decide_eq_true hx⟩

theorem undelivered_deliver {k : ℕ} {e : Envelope σ} (he : c.sent[k]? = some e)
    (hk : k ∉ c.delivered) : c.undelivered p =
      undelivered { c with delivered := k :: c.delivered } p + if e.packet = p then 1 else 0 := by
  obtain ⟨hlt, rfl⟩ := List.getElem?_eq_some_iff.1 he
  have hsplit : c.sent.zipIdx = (c.sent.take k).zipIdx ++
      (c.sent[k], k) :: (c.sent.drop (k + 1)).zipIdx (k + 1) := by
    have hlen : (c.sent.take k).length = k := by
      rw [List.length_take]
      omega
    conv_lhs => rw [← List.take_append_drop k c.sent, List.drop_eq_getElem_cons hlt]
    rw [List.zipIdx_append, hlen, Nat.zero_add, List.zipIdx_cons]
  -- the other envelopes have other positions
  have other : ∀ (l : List (Envelope σ)) (n : ℕ), (∀ x ∈ l.zipIdx n, x.2 ≠ k) →
      (l.zipIdx n).countP (fun x => decide (x.2 ∉ k :: c.delivered ∧ x.1.packet = p)) =
        (l.zipIdx n).countP fun x => decide (x.2 ∉ c.delivered ∧ x.1.packet = p) := by
    intro l n hne
    refine List.countP_congr fun x hx => ?_
    simp [hne x hx]
  have hbefore : ∀ x ∈ (c.sent.take k).zipIdx, x.2 ≠ k := by
    intro x hx
    have hlt := List.snd_lt_of_mem_zipIdx hx
    rw [List.length_take] at hlt
    omega
  have hafter : ∀ x ∈ (c.sent.drop (k + 1)).zipIdx (k + 1), x.2 ≠ k := by
    intro x hx
    have := List.le_snd_of_mem_zipIdx hx
    omega
  unfold undelivered
  dsimp only
  rw [hsplit, List.countP_append, List.countP_append, List.countP_cons, List.countP_cons,
    other _ _ hbefore, other _ _ hafter]
  simp only [hk, not_false_eq_true, true_and, List.mem_cons, true_or, not_true, false_and,
    decide_false, Bool.false_eq_true, if_false, decide_eq_true_eq]
  omega

theorem undelivered_append (c' : Cluster σ) {new : List (Envelope σ)}
    (hsent : c'.sent = c.sent ++ new) (hdelivered : c'.delivered = c.delivered)
    (h : ∀ k ∈ c.delivered, k < c.sent.length) :
    c'.undelivered p = c.undelivered p + (new.map Envelope.packet).count p := by
  unfold undelivered
  rw [hsent, hdelivered, List.zipIdx_append, List.countP_append, Nat.zero_add]
  congr 1
  have hnew : ∀ x ∈ new.zipIdx c.sent.length, x.2 ∉ c.delivered := fun x hx hmem =>
    absurd (h _ hmem) (Nat.not_lt.2 (List.le_snd_of_mem_zipIdx hx))
  rw [List.count, List.countP_map]
  conv_rhs => rw [← List.zipIdx_map_fst c.sent.length new, List.countP_map]
  refine List.countP_congr fun x hx => ?_
  simp [hnew x hx]

end Cluster

namespace Deployment

/-- How often the packet is in the channels of the node. -/
def copiesAt (ids : List NodeId) (w : Deployment σ) (p : Packet) (i : NodeId) : ℕ :=
  ((w.toNetwork i).flatMap (packets ids i)).count p + ((w.toServer i).filterMap (arrived i)).count p

/-- How often the packet is on its way. -/
def copies (ids : List NodeId) (w : Deployment σ) (p : Packet) : ℕ :=
  ∑ i ∈ ids.toFinset, w.copiesAt ids p i + (w.links.flatMap Link.packets).count p

variable {ids : List NodeId} {w w' : Deployment σ} {p : Packet} {i : NodeId}

theorem sum_update {f g : NodeId → ℕ} (hi : i ∈ ids) (h : ∀ j ≠ i, g j = f j) :
    ∑ j ∈ ids.toFinset, g j + f i = ∑ j ∈ ids.toFinset, f j + g i := by
  have hi : i ∈ ids.toFinset := List.mem_toFinset.2 hi
  have hrest : ∑ j ∈ ids.toFinset.erase i, g j = ∑ j ∈ ids.toFinset.erase i, f j :=
    Finset.sum_congr rfl fun j hj => h j (Finset.ne_of_mem_erase hj)
  rw [← Finset.add_sum_erase _ g hi, ← Finset.add_sum_erase _ f hi, hrest]
  omega

/-- **The account of one node.**  Where only the channels of one node and the links change, what is
on its way changes as these do. -/
theorem copies_update (w w' : Deployment σ) (hi : i ∈ ids)
    (h : ∀ j ≠ i, w'.toNetwork j = w.toNetwork j ∧ w'.toServer j = w.toServer j) :
    w'.copies ids p + (w.copiesAt ids p i + (w.links.flatMap Link.packets).count p) =
      w.copies ids p + (w'.copiesAt ids p i + (w'.links.flatMap Link.packets).count p) := by
  have hsum := sum_update (f := w.copiesAt ids p) (g := w'.copiesAt ids p) hi fun j hj => by
    obtain ⟨hnetwork, hserver⟩ := h j hj
    rw [copiesAt, copiesAt, hnetwork, hserver]
  unfold copies
  omega

/-! ### Links -/

theorem count_handOver_le (src dst : NodeId) (msg : Message) (links : List Link) :
    ((handOver src dst msg links).flatMap Link.packets).count p ≤
      (links.flatMap Link.packets).count p + [(⟨src, dst, msg⟩ : Packet)].count p := by
  induction links with
  | nil => exact Nat.zero_le _
  | cons link links ih =>
    unfold handOver
    split_ifs with h
    · obtain ⟨rfl, rfl⟩ := Prod.mk.inj h
      simp only [List.flatMap_cons, List.count_append, Link.packets, List.map_append, List.map_cons,
        List.map_nil]
      omega
    · simp only [List.flatMap_cons, List.count_append]
      omega

theorem count_set {links : List Link} {k : ℕ} {link : Link} (hk : links[k]? = some link)
    (link' : Link) : ((links.set k link').flatMap Link.packets).count p + link.packets.count p =
      (links.flatMap Link.packets).count p + link'.packets.count p := by
  obtain ⟨hlt, rfl⟩ := List.getElem?_eq_some_iff.1 hk
  rw [List.set_eq_take_append_cons_drop, if_pos hlt]
  conv_rhs => rw [← List.take_append_drop k links, List.drop_eq_getElem_cons hlt]
  simp only [List.flatMap_append, List.flatMap_cons, List.count_append]
  omega

/-! ### The dispatcher -/

/-- The message that the dispatcher of the node `src` hands over to the writer of a peer. -/
def handed (src : NodeId) (d : Delivery) : Option Packet :=
  match d.dest with
  | .peer dst => some ⟨src, dst, d.msg⟩
  | .client _ => none

/-- The peers registered by the node are other nodes. -/
def RegistersPeers (ids : List NodeId) (i : NodeId) (r : ConnectionRegistry) : Prop :=
  ∀ peer ∈ r.peerRegistry.keys, peer ∈ ids ∧ peer ≠ i

theorem mem_keys_of_connected {r : ConnectionRegistry} {peer : NodeId} (h : r.Connected peer) :
    peer ∈ r.peerRegistry.keys := ConnectionRegistry.mem_getAllPeers h

/-- **The dispatcher** hands a message over to no more peers than are connected. -/
theorem count_dispatch_le {r : ConnectionRegistry} (hr : RegistersPeers ids i r) (out : Outgoing) :
    ((r.dispatchServerMsg out).filterMap (handed i)).count p ≤ (packets ids i out).count p := by
  obtain ⟨dest, msg⟩ := out
  cases dest with
  | client client =>
    have hnil : ((r.send (.client client) msg).toList).filterMap (handed i) = [] := by
      cases h : r.send (.client client) msg with
      | none => rfl
      | some d =>
        rw [ConnectionRegistry.dest_of_send h]
        rfl
    show (((r.send (.client client) msg).toList).filterMap (handed i)).count p ≤ _
    rw [hnil]
    exact Nat.zero_le _
  | node dst =>
    show (((r.send (.peer dst) msg).toList).filterMap (handed i)).count p ≤ _
    by_cases h : r.Connected dst
    · rw [ConnectionRegistry.send_of_connected h, packets,
        if_pos (hr dst (mem_keys_of_connected h))]
      exact Nat.le_refl _
    · rw [ConnectionRegistry.send_of_not_connected h]
      exact Nat.zero_le _
  | broadcast =>
    have hpeers : ((r.dispatchServerMsg ⟨.broadcast, msg⟩).filterMap (handed i)) =
        (r.getAllPeers.filter fun peer => r.Connected peer).map fun peer => ⟨i, peer, msg⟩ := by
      simp only [ConnectionRegistry.dispatchServerMsg, List.filterMap_filterMap]
      induction r.getAllPeers with
      | nil => rfl
      | cons peer peers ih =>
        by_cases h : r.Connected peer
        · rw [List.filterMap_cons_some (b := ⟨i, peer, msg⟩), ih,
            List.filter_cons_of_pos (by simpa using h), List.map_cons]
          rw [ConnectionRegistry.send_of_connected h]
          rfl
        · rw [List.filterMap_cons_none, ih, List.filter_cons_of_neg (by simpa using h)]
          rw [ConnectionRegistry.send_of_not_connected h]
          rfl
    rw [hpeers]
    have hsub : (r.getAllPeers.filter fun peer => r.Connected peer).Subperm
        (ids.filter (· ≠ i)) := by
      refine (r.peerRegistry.keys_nodup.filter _).subperm fun peer hpeer => ?_
      have hpeer := hr peer (List.mem_of_mem_filter hpeer)
      simpa using hpeer
    exact (hsub.map (f := fun peer => (⟨i, peer, msg⟩ : Packet)) fun _ _ h => by
      cases h
      rfl).count_le p

theorem count_foldl_handTo_le (i : NodeId) (w : Deployment σ) (ds : List Delivery) :
    ((ds.foldl (handTo i) w).links.flatMap Link.packets).count p ≤
      (w.links.flatMap Link.packets).count p + (ds.filterMap (handed i)).count p := by
  induction ds generalizing w with
  | nil => exact Nat.le_refl _
  | cons d ds ih =>
    refine Nat.le_trans (ih (handTo i w d)) ?_
    obtain ⟨dest, msg⟩ := d
    cases dest with
    | client => exact Nat.le_refl _
    | peer peer =>
      have hle := count_handOver_le (p := p) i peer msg w.links
      have hhanded : handed i ⟨.peer peer, msg⟩ = some ⟨i, peer, msg⟩ := rfl
      rw [List.filterMap_cons_some hhanded, List.count_cons]
      rw [List.count_singleton] at hle
      simp only [handTo]
      omega

/-! ### What the tasks keep -/

/-- Nodes dial, register and write to other nodes of the cluster. -/
structure Wired (ids : List NodeId) (w : Deployment σ) : Prop where
  toDial : ∀ i, ∀ peer ∈ w.toDial i, peer ∈ ids
  greeting : ∀ x ∈ w.greeting, x.1 ∈ ids ∧ x.2 ∈ ids ∧ x.1 ≠ x.2
  registry : ∀ i, RegistersPeers ids i (w.registry i)
  links : ∀ x ∈ w.links.map Link.ends, x.1 ∈ ids ∧ x.2 ∈ ids ∧ x.1 ≠ x.2

theorem wired_init {peerAddresses : NodeId → List NodeId} {stateMachine : NodeId → σ}
    (h : ∀ i, ∀ peer ∈ peerAddresses i, peer ∈ ids) :
    Wired ids (init ids peerAddresses stateMachine) where
  toDial := h
  greeting _ hx := by cases hx
  registry _ _ hpeer := by cases hpeer
  links _ hx := by cases hx

theorem RegistersPeers.insert {r : ConnectionRegistry} (h : RegistersPeers ids i r) {peer : NodeId}
    (hpeer : peer ∈ ids ∧ peer ≠ i) (writer : Writer) :
    RegistersPeers ids i { r with peerRegistry := r.peerRegistry.insert peer writer } := by
  intro peer' hmem
  rcases AList.mem_insert _ |>.1 (AList.mem_keys.2 hmem) with rfl | hmem
  · exact hpeer
  · exact h peer' (AList.mem_keys.1 hmem)

namespace Wired

theorem of_eq (h : Wired ids w) (htoDial : w'.toDial = w.toDial)
    (hgreeting : w'.greeting = w.greeting) (hregistry : w'.registry = w.registry)
    (hends : w'.links.map Link.ends = w.links.map Link.ends) : Wired ids w' where
  toDial := by
    rw [htoDial]
    exact h.toDial
  greeting := by
    rw [hgreeting]
    exact h.greeting
  registry := by
    rw [hregistry]
    exact h.registry
  links := by
    rw [hends]
    exact h.links

theorem update (h : Wired ids w) {node : NodeId} {r : ConnectionRegistry}
    (hr : RegistersPeers ids node r) :
    ∀ i, RegistersPeers ids i (Function.update w.registry node r i) := by
  intro i
  by_cases hi : i = node
  · subst hi
    rw [Function.update_self]
    exact hr
  · rw [Function.update_of_ne hi]
    exact h.registry i

theorem dial (h : Wired ids w) {node peer : NodeId} {rest : List NodeId} {attempts : List Bool}
    (hpeers : w.toDial node = peer :: rest) (hnode : node ∈ ids) :
    Wired ids (w.dialNext node peer rest attempts) := by
  have htoDial : ∀ i, ∀ peer' ∈ Function.update w.toDial node rest i, peer' ∈ ids := by
    intro i peer' hmem
    by_cases hi : i = node
    · subst hi
      rw [Function.update_self] at hmem
      exact h.toDial i _ (by rw [hpeers]; exact List.mem_cons_of_mem _ hmem)
    · rw [Function.update_of_ne hi] at hmem
      exact h.toDial i _ hmem
  have hpeer : peer ∈ ids := h.toDial node peer (by rw [hpeers]; exact List.mem_cons_self)
  unfold dialNext
  split_ifs with hlt
  · refine ⟨htoDial, fun x hx => ?_, h.registry, h.links⟩
    rcases List.mem_cons.1 hx with rfl | hx
    · exact ⟨hnode, hpeer, Nat.ne_of_lt hlt.1⟩
    · rcases List.mem_cons.1 hx with rfl | hx
      · exact ⟨hpeer, hnode, Nat.ne_of_gt hlt.1⟩
      · exact h.greeting x hx
  · exact ⟨htoDial, h.greeting, h.registry, h.links⟩

theorem spawn (h : Wired ids w) {node peer : NodeId} (hmem : (node, peer) ∈ w.greeting) :
    Wired ids (w.spawn node peer) := by
  obtain ⟨hnode, hpeer, hne⟩ := h.greeting _ hmem
  refine ⟨h.toDial, fun x hx => h.greeting x (List.mem_of_mem_erase hx), ?_, fun x hx => ?_⟩
  · exact h.update ((h.registry node).insert ⟨hpeer, Ne.symm hne⟩ .running)
  · rcases List.mem_cons.1 hx with rfl | hx
    · exact ⟨hnode, hpeer, hne⟩
    · exact h.links x hx

theorem exitWriter (h : Wired ids w) {k n : ℕ} {link : Link} (hlink : w.links[k]? = some link) :
    Wired ids (w.exitWriter k n link) := by
  refine ⟨h.toDial, h.greeting, fun i => ?_, fun x hx => h.links x ?_⟩
  · unfold Deployment.exitWriter
    dsimp only
    split_ifs
    · obtain ⟨-, hpeer, hne⟩ :=
        h.links link.ends (List.mem_map_of_mem (List.mem_of_getElem? hlink))
      exact h.update ((h.registry link.src).insert ⟨hpeer, Ne.symm hne⟩ .exited) i
    · exact h.registry i
  · rwa [← ends_set hlink (link.queue.take n)]

/-- **One step.** -/
theorem next [StateMachine σ] {t : Task} (h : Wired ids w) (hm : Moves ids w t w') :
    Wired ids w' := by
  cases hm with
  | serve | timeout =>
    rw [foldl_settle]
    exact h.of_eq rfl rfl rfl rfl
  | @dispatch node out rest =>
    obtain ⟨hsame, hends⟩ := foldl_handTo node
      { w with toNetwork := Function.update w.toNetwork node rest }
      ((w.registry node).dispatchServerMsg out)
    exact h.of_eq (by rw [hsame]) (by rw [hsame]) (by rw [hsame]) hends
  | dial hpeers hnode => exact h.dial hpeers hnode
  | identify hmem => exact h.spawn hmem
  | abandon =>
    exact ⟨h.toDial, fun x hx => h.greeting x (List.mem_of_mem_erase hx), h.registry, h.links⟩
  | @welcome node => exact ⟨h.toDial, h.greeting, h.update (h.registry node), h.links⟩
  | forward hlink => exact h.of_eq rfl rfl rfl (ends_set hlink _)
  | exit hlink => exact h.exitWriter hlink
  | submit => exact h.of_eq rfl rfl rfl rfl
  | @leave node => exact ⟨h.toDial, h.greeting, h.update (h.registry node), h.links⟩

end Wired

/-- What waits for the servers, if clients have sent it, are requests. -/
def Requested (w : Deployment σ) : Prop :=
  ∀ i, ∀ incoming ∈ w.toServer i, ∀ client, incoming.sender = .client client →
    ∃ req, incoming.msg = .clientRequest req

theorem Requested.next {t : Task} (h : w.Requested) (hf : Feeds ids w t w')
    (ht : w.ClientsAsk t) : w'.Requested := by
  refine hf.forall_toServer h (fun _ node src msg client hclient => by cases hclient) ?_
  rintro node client msg rfl _ -
  exact Message.isRequest_iff.1 ht

/-! ### The simulation -/

/-- The same servers, and every message on its way is an envelope to be delivered. -/
structure Simulates (ids : List NodeId) (w : Deployment σ) (c : Cluster σ) : Prop where
  nodes : c.nodes = w.nodes
  crashed : c.crashed = w.crashed
  copies : ∀ p, w.copies ids p ≤ c.undelivered p
  delivered : ∀ k ∈ c.delivered, k < c.sent.length

namespace Simulates

variable {c : Cluster σ}

theorem init {peerAddresses : NodeId → List NodeId} {stateMachine : NodeId → σ} :
    Simulates ids (init ids peerAddresses stateMachine) (Cluster.init ids stateMachine) where
  nodes := rfl
  crashed := rfl
  copies p := by simp [Deployment.copies, copiesAt, Deployment.init]
  delivered k hk := by cases hk

theorem silent (h : Simulates ids w c) (hnodes : w'.nodes = w.nodes)
    (hcrashed : w'.crashed = w.crashed) (hcopies : ∀ p, w'.copies ids p ≤ w.copies ids p) :
    Simulates ids w' c where
  nodes := h.nodes.trans hnodes.symm
  crashed := h.crashed.trans hcrashed.symm
  copies p := Nat.le_trans (hcopies p) (h.copies p)
  delivered := h.delivered

/-- **One phase** of a server. -/
theorem settle (h : Simulates ids w c) (hi : i ∈ ids) (p : Phase σ) :
    Simulates ids (settle i w p) (Cluster.perform ids i c p) where
  nodes := by
    simp only [Deployment.settle, Cluster.perform, h.nodes]
  crashed := by
    simp only [Deployment.settle, Cluster.perform, h.crashed]
  copies packet := by
    have haccount := copies_update (p := packet) w (Deployment.settle i w p) hi
      fun j hj => ⟨Function.update_of_ne hj _ _, rfl⟩
    have hsent :=
      Cluster.undelivered_append (p := packet) (Cluster.perform ids i c p) rfl rfl h.delivered
    rw [packet_routes] at hsent
    have hcopies := h.copies packet
    simp only [copiesAt, Deployment.settle, Function.update_self, List.flatMap_append,
      List.count_append] at haccount ⊢
    omega
  delivered k hk := by
    have := h.delivered k hk
    simp only [Cluster.perform, List.length_append]
    omega

/-- **One turn.** -/
theorem turn (h : Simulates ids w c) (hi : i ∈ ids) (phases : List (Phase σ)) :
    Simulates ids (phases.foldl (Deployment.settle i) w)
      (phases.foldl (Cluster.perform ids i) c) := by
  induction phases generalizing w c with
  | nil => exact h
  | cons p phases ih => exact ih (h.settle hi p)

end Simulates

variable [StateMachine σ] {ids : List NodeId} {w w' : Deployment σ} {c : Cluster σ} {t : Task}

/-! ### Clients -/

omit [StateMachine σ] in
/-- What the dispatcher of the node will come to for clients. -/
def toClients (w : Deployment σ) (i : NodeId) : List (ClientId × Message) :=
  (w.toNetwork i).filterMap Outgoing.toClient

omit [StateMachine σ] in
/-- In a step the node hands over some of its messages to clients, in order, and adds `new`. -/
structure Hands (w w' : Deployment σ) (node : NodeId) (new : List (ClientId × Message)) : Prop where
  others : ∀ j ≠ node, w'.toClients j = w.toClients j
  handed : ∃ told, w'.replies = w.replies ++ told ∧
    (told ++ w'.toClients node).Sublist (w.toClients node ++ new)

omit [StateMachine σ] in
/-- The message is for the client: its writer has been handed it, or the dispatcher will come to
it. -/
def Tells (w : Deployment σ) (client : ClientId) (msg : Message) : Prop :=
  (client, msg) ∈ w.replies ∨ ∃ i, ⟨.client client, msg⟩ ∈ w.toNetwork i

omit [StateMachine σ] in
theorem mem_toClients {i : NodeId} {client : ClientId} {msg : Message} :
    (client, msg) ∈ w.toClients i ↔ ⟨.client client, msg⟩ ∈ w.toNetwork i := by
  rw [toClients, List.mem_filterMap]
  constructor
  · rintro ⟨⟨dest, msg'⟩, hmem, hout⟩
    cases dest with
    | client client' =>
      cases hout
      exact hmem
    | node | broadcast => cases hout
  · intro hmem
    exact ⟨_, hmem, rfl⟩

namespace Hands

variable {node : NodeId} {new : List (ClientId × Message)}

omit [StateMachine σ]

theorem keep (hnetwork : w'.toNetwork = w.toNetwork) (hreplies : w'.replies = w.replies) :
    Hands w w' node [] where
  others _ _ := by rw [toClients, hnetwork, toClients]
  handed := ⟨[], by rw [hreplies, List.append_nil], by
    rw [toClients, hnetwork, toClients, List.append_nil, List.nil_append]⟩

/-- **A turn** hands nothing over. -/
theorem turn {phases : List (Phase σ)} (hnetwork : w'.toNetwork =
      Function.update w.toNetwork node (w.toNetwork node ++ phases.flatMap fun p => p.outcome.sent))
    (hreplies : w'.replies = w.replies) :
    Hands w w' node ((phases.flatMap fun p => p.outcome.sent).filterMap Outgoing.toClient) where
  others j hj := by rw [toClients, hnetwork, Function.update_of_ne hj, toClients]
  handed := ⟨[], by rw [hreplies, List.append_nil], by
    rw [toClients, hnetwork, Function.update_self, List.filterMap_append, List.nil_append,
      toClients]⟩

theorem replies_dispatch (r : ConnectionRegistry) (out : Outgoing) (node : NodeId)
    (w : Deployment σ) : ∃ told, ((r.dispatchServerMsg out).foldl (handTo node) w).replies =
      w.replies ++ told ∧ told.Sublist out.toClient.toList := by
  have peers : ∀ (ds : List Delivery) (w : Deployment σ),
      (∀ d ∈ ds, ∃ peer, d.dest = .peer peer) →
        (ds.foldl (handTo node) w).replies = w.replies := by
    intro ds
    induction ds with
    | nil => exact fun _ _ => rfl
    | cons d ds ih =>
      intro w hpeers
      obtain ⟨peer, hpeer⟩ := hpeers d List.mem_cons_self
      rw [List.foldl_cons, ih _ fun d' hd' => hpeers d' (List.mem_cons_of_mem _ hd')]
      simp only [handTo, hpeer]
  obtain ⟨dest, msg⟩ := out
  cases dest with
  | client client =>
    show ∃ told, (((r.send (.client client) msg).toList).foldl (handTo node) w).replies = _ ∧ _
    cases hsend : r.send (.client client) msg with
    | none => exact ⟨[], (List.append_nil _).symm, List.nil_sublist _⟩
    | some d =>
      rw [ConnectionRegistry.dest_of_send hsend]
      exact ⟨[(client, msg)], rfl, List.Sublist.refl _⟩
  | node dst =>
    refine ⟨[], ?_, List.nil_sublist _⟩
    rw [List.append_nil]
    refine peers _ w fun d hd => ⟨dst, ?_⟩
    rw [ConnectionRegistry.dest_of_send (Option.mem_toList.1 hd)]
  | broadcast =>
    refine ⟨[], ?_, List.nil_sublist _⟩
    rw [List.append_nil]
    refine peers _ w fun d hd => ?_
    obtain ⟨peer, -, hsend⟩ := List.mem_filterMap.1 hd
    exact ⟨peer, by rw [ConnectionRegistry.dest_of_send hsend]⟩

/-- **The dispatcher** may drop a message to a client. -/
theorem dispatch {out : Outgoing} {rest : List Outgoing}
    (hrest : w.toNetwork node = out :: rest) :
    Hands w (((w.registry node).dispatchServerMsg out).foldl (handTo node)
      { w with toNetwork := Function.update w.toNetwork node rest }) node [] := by
  have hnetwork : (((w.registry node).dispatchServerMsg out).foldl (handTo node)
      { w with toNetwork := Function.update w.toNetwork node rest }).toNetwork =
        Function.update w.toNetwork node rest := by
    rw [(foldl_handTo _ _ _).1]
  obtain ⟨told, hreplies, hsub⟩ := replies_dispatch (w.registry node) out node
    { w with toNetwork := Function.update w.toNetwork node rest }
  refine ⟨fun j hj => ?_, told, hreplies, ?_⟩
  · rw [toClients, hnetwork, Function.update_of_ne hj, toClients]
  · rw [toClients, hnetwork, Function.update_self, toClients, hrest, List.append_nil]
    cases hout : out.toClient with
    | none =>
      rw [hout] at hsub
      rw [List.filterMap_cons_none hout, List.sublist_nil.1 hsub, List.nil_append]
    | some told' =>
      rw [hout] at hsub
      rw [List.filterMap_cons_some hout]
      exact hsub.append (List.Sublist.refl _)

theorem tells (h : Hands w w' node new) {client : ClientId} {msg : Message}
    (htells : w'.Tells client msg) : w.Tells client msg ∨ (client, msg) ∈ new := by
  obtain ⟨told, hreplies, hsub⟩ := h.handed
  have before : (client, msg) ∈ told ++ w'.toClients node →
      w.Tells client msg ∨ (client, msg) ∈ new := by
    intro hmem
    rcases List.mem_append.1 (hsub.subset hmem) with hmem | hmem
    · exact .inl (.inr ⟨node, mem_toClients.1 hmem⟩)
    · exact .inr hmem
  rcases htells with hmem | ⟨j, hmem⟩
  · rw [hreplies] at hmem
    rcases List.mem_append.1 hmem with hmem | hmem
    · exact .inl (.inl hmem)
    · exact before (List.mem_append_left _ hmem)
  · have hmem := mem_toClients.2 hmem
    by_cases hj : j = node
    · subst hj
      exact before (List.mem_append_right _ hmem)
    · rw [h.others j hj] at hmem
      exact .inl (.inr ⟨j, mem_toClients.1 hmem⟩)

end Hands

/-- The actions of the cluster that a step of a task is.  A server that handles a message of a peer
is one that is delivered the envelope of this message; the request of a client is the same
request. -/
inductive Performs (w : Deployment σ) (c : Cluster σ) : Task → List Action → Prop
  | deliver {node src : NodeId} {order : List NodeId} {cut : Option ℕ} {msg : Message}
      {rest : List Incoming} {k : ℕ} {e : Envelope σ} :
      w.toServer node = ⟨.peer src, msg⟩ :: rest → c.sent[k]? = some e → k ∉ c.delivered →
      e.packet = ⟨src, node, msg⟩ → Performs w c (.serve node order cut) [.deliver k order cut]
  | request {node : NodeId} {client : ClientId} {order : List NodeId} {cut : Option ℕ}
      {req : ClientRequest} {rest : List Incoming} :
      w.toServer node = ⟨.client client, .clientRequest req⟩ :: rest →
      Performs w c (.serve node order cut) [.request node client req order cut]
  | timeout {node : NodeId} : Performs w c (.timeout node) [.timeout node]
  | idle {t : Task} : t.actor = none → Performs w c t []

namespace Performs

variable {as : List Action}

omit [StateMachine σ]

theorem eq_nil_or_singleton (h : Performs w c t as) : as = [] ∨ ∃ a, as = [a] := by
  cases h <;> simp

theorem fires (h : Performs w c t as) {a : Action} (ha : a ∈ as) : a.fires = t.fires := by
  cases h with
  | deliver | request | timeout =>
    cases List.mem_singleton.1 ha
    rfl
  | idle => cases ha

theorem actor (h : Performs w c t as) {a : Action} (ha : a ∈ as) : c.actor a = t.actor := by
  cases h with
  | deliver _ he _ hpacket =>
    cases List.mem_singleton.1 ha
    obtain ⟨-, hdst, -⟩ := Packet.mk.inj hpacket
    rw [Cluster.actor, he, Option.map_some, hdst]
    rfl
  | request | timeout =>
    cases List.mem_singleton.1 ha
    rfl
  | idle => cases ha

theorem requested (h : Performs w c t as) {node : NodeId} {client : ClientId} {req : ClientRequest}
    {order : List NodeId} {cut : Option ℕ} (ha : .request node client req order cut ∈ as) :
    ∃ rest, w.toServer node = ⟨.client client, .clientRequest req⟩ :: rest := by
  cases h with
  | request hrest =>
    cases List.mem_singleton.1 ha
    exact ⟨_, hrest⟩
  | deliver | timeout => cases List.mem_singleton.1 ha
  | idle => cases ha

theorem delivered (h : Performs w c t as) {k : ℕ} {order : List NodeId} {cut : Option ℕ}
    (ha : .deliver k order cut ∈ as) :
    ∃ node src msg rest, w.toServer node = ⟨.peer src, msg⟩ :: rest := by
  cases h with
  | deliver hrest =>
    cases List.mem_singleton.1 ha
    exact ⟨_, _, _, _, hrest⟩
  | request | timeout => cases List.mem_singleton.1 ha
  | idle => cases ha

end Performs

/-- What the cluster makes of a step of a task: the actions `as`. -/
structure Mirrors (ids : List NodeId) (w : Deployment σ) (t : Task) (w' : Deployment σ)
    (c : Cluster σ) (as : List Action) (c' : Cluster σ) : Prop where
  performs : Performs w c t as
  run : (Cluster.machine σ ids).Run Cluster.AtMostOnce c as c'
  simulates : Simulates ids w' c'
  /-- What is sent to clients is what the cluster answers. -/
  hands : ∃ node, (∀ i ∈ t.actor, i = node) ∧
    Hands w w' node (((Cluster.machine σ ids).emitted Cluster.answers c as).map messageOf)

namespace Mirrors

variable {as : List Action} {c' : Cluster σ}

theorem told (h : Mirrors ids w t w' c as c') {client : ClientId} {msg : Message}
    (htells : w'.Tells client msg) : w.Tells client msg ∨ ∃ a response, as = [a] ∧
      msg = .clientResponse response ∧ (client, response) ∈ c.answers a := by
  obtain ⟨node, -, hands⟩ := h.hands
  refine (hands.tells htells).imp_right fun hnew => ?_
  obtain ⟨⟨client, response⟩, hmem, ⟨⟩⟩ := List.mem_map.1 hnew
  obtain rfl | ⟨a, rfl⟩ := h.performs.eq_nil_or_singleton
  · cases hmem
  · rw [Machine.emitted_singleton h.run.of_singleton.2] at hmem
    exact ⟨a, response, rfl, rfl, hmem⟩

/-- The actions are within a guard that looks at who acts and whether its timer fires. -/
theorem within {G : Cluster σ → Action → Prop} (h : Mirrors ids w t w' c as c')
    (hG : ∀ a, c.actor a = t.actor → a.fires = t.fires → G c a) :
    (Cluster.machine σ ids).Run (Machine.both Cluster.AtMostOnce G) c as c' := by
  obtain rfl | ⟨a, rfl⟩ := h.performs.eq_nil_or_singleton
  · cases h.run.of_nil
    exact .nil
  · obtain ⟨hg, hn⟩ := h.run.of_singleton
    have hacting := hG a (h.performs.actor List.mem_cons_self) (h.performs.fires List.mem_cons_self)
    have hrun : (Cluster.machine σ ids).Run (Machine.both Cluster.AtMostOnce G) c ([] ++ [a]) c' :=
      .snoc .nil ⟨hg, hacting⟩ hn
    exact hrun

end Mirrors

/-! ### Tasks that put nothing on its way -/

omit [StateMachine σ] in
/-- **The dispatcher** puts nothing on its way that was not. -/
theorem copies_dispatch (hw : Wired ids w) {node : NodeId} {out : Outgoing} {rest : List Outgoing}
    (hrest : w.toNetwork node = out :: rest) (hi : node ∈ ids) (p : Packet) :
    (((w.registry node).dispatchServerMsg out).foldl (handTo node)
      { w with toNetwork := Function.update w.toNetwork node rest }).copies ids p ≤
        w.copies ids p := by
  obtain ⟨hsame, -⟩ := foldl_handTo node
    { w with toNetwork := Function.update w.toNetwork node rest }
    ((w.registry node).dispatchServerMsg out)
  have hlinks := count_foldl_handTo_le (p := p) node
    { w with toNetwork := Function.update w.toNetwork node rest }
    ((w.registry node).dispatchServerMsg out)
  have hdispatch := count_dispatch_le (p := p) (hw.registry node) out
  have haccount := copies_update (p := p) w { w with
    toNetwork := Function.update w.toNetwork node rest
    links := (((w.registry node).dispatchServerMsg out).foldl (handTo node)
      { w with toNetwork := Function.update w.toNetwork node rest }).links } hi
    fun j hj => ⟨Function.update_of_ne hj _ _, rfl⟩
  simp only [copiesAt, Function.update_self, hrest, List.flatMap_cons, List.count_append]
    at haccount
  rw [hsame]
  simp only [Deployment.copies, copiesAt] at haccount hlinks ⊢
  omega

omit [StateMachine σ] in
/-- **A reader** moves a message of a peer on. -/
theorem copies_forward (hw : Wired ids w) {k : ℕ} {link : Link} {msg : Message}
    {rest : List Message} (hlink : w.links[k]? = some link) (hqueue : link.queue = msg :: rest)
    (p : Packet) :
    (({ w with links := w.links.set k { link with queue := rest } } : Deployment σ).receive link.dst
      ⟨.peer link.src, msg⟩).copies ids p ≤ w.copies ids p := by
  have hi : link.dst ∈ ids :=
    (hw.links link.ends (List.mem_map_of_mem (List.mem_of_getElem? hlink))).2.1
  have hset := count_set (p := p) hlink { link with queue := rest }
  have haccount := copies_update (p := p) w (({ w with
    links := w.links.set k { link with queue := rest } } : Deployment σ).receive link.dst
      ⟨.peer link.src, msg⟩) hi fun j hj => ⟨rfl, Function.update_of_ne hj _ _⟩
  have harrived : arrived link.dst ⟨.peer link.src, msg⟩ = some ⟨link.src, link.dst, msg⟩ := rfl
  simp only [copiesAt, receive, Function.update_self, List.filterMap_append, List.count_append,
    List.filterMap_cons_some harrived, List.filterMap_nil] at haccount ⊢
  simp only [Link.packets, hqueue, List.map_cons, List.count_cons, List.count_nil]
    at hset haccount
  omega

omit [StateMachine σ] in
/-- **A writer** that ends loses messages. -/
theorem copies_exit {k n : ℕ} {link : Link} (hlink : w.links[k]? = some link) (p : Packet) :
    (w.exitWriter k n link).copies ids p ≤ w.copies ids p := by
  have hset := count_set (p := p) hlink { link with queue := link.queue.take n }
  have hle : (Link.packets { link with queue := link.queue.take n }).count p ≤
      link.packets.count p :=
    ((List.take_sublist n link.queue).map _).count_le p
  simp only [Deployment.copies, copiesAt, exitWriter]
  omega

omit [StateMachine σ] in
/-- **A client** sends nothing that is to be delivered between nodes. -/
theorem copies_submit {node : NodeId} (hi : node ∈ ids) (client : ClientId) (msg : Message)
    (p : Packet) : (w.receive node ⟨.client client, msg⟩).copies ids p ≤ w.copies ids p := by
  have haccount := copies_update (p := p) w (w.receive node ⟨.client client, msg⟩) hi
    fun j hj => ⟨rfl, Function.update_of_ne hj _ _⟩
  have harrived : arrived node ⟨.client client, msg⟩ = none := rfl
  simp only [copiesAt, receive, Function.update_self, List.filterMap_append, List.count_append,
    List.filterMap_cons_none harrived, List.filterMap_nil, List.count_nil] at haccount ⊢
  omega

namespace Simulates

theorem idle (h : Simulates ids w c) (ht : t.actor = none) (hnodes : w'.nodes = w.nodes)
    (hcrashed : w'.crashed = w.crashed) (hcopies : ∀ p, w'.copies ids p ≤ w.copies ids p)
    (node : NodeId) (hhands : Hands w w' node []) : Mirrors ids w t w' c [] c where
  performs := .idle ht
  run := .nil
  simulates := h.silent hnodes hcrashed hcopies
  hands := ⟨node, fun i hi => (by rw [ht] at hi; cases hi), hhands⟩

/-! ### Turns -/

/-- **A turn of a server** is one of the cluster, once both have taken the message `ev` is about:
the cluster has marked it in `ds`. -/
theorem turns (h : Simulates ids w c) {w₁ : Deployment σ} {ds : List ℕ} {node : NodeId}
    {ev : Select} {phases : List (Phase σ)} {a : Action}
    (h₁ : Simulates ids w₁ { c with delivered := ds }) (hnetwork : w₁.toNetwork = w.toNetwork)
    (hreplies : w₁.replies = w.replies) (hi : node ∈ ids) (hc : w.crashed node = false)
    (hturn : (w.nodes node).turn ev = some phases) (hperforms : Performs w c t [a])
    (hactor : t.actor = some node) (hg : c.AtMostOnce a)
    (hact : Cluster.next ids c a = Cluster.act ids { c with delivered := ds } node ev)
    (hturnOf : c.turnOf a = some (node, ev)) :
    Mirrors ids w t (phases.foldl (Deployment.settle node) w₁) c [a]
      (phases.foldl (Cluster.perform ids node) { c with delivered := ds }) := by
  have hn : Cluster.next ids c a =
      some (phases.foldl (Cluster.perform ids node) { c with delivered := ds }) := by
    have hrun : node ∈ ids ∧ c.crashed node = false := ⟨hi, by rw [h.crashed, hc]⟩
    simp only [hact, Cluster.act, if_pos hrun, h.nodes, hturn, Option.map_some]
  have hanswers : c.answers a = phases.flatMap fun p => p.outcome.answers := by
    simp only [Cluster.answers, hturnOf, h.nodes, hturn, Option.getD_some]
  refine ⟨hperforms, .snoc .nil hg hn, h₁.turn hi phases, node, fun j hj => ?_, ?_⟩
  · rw [hactor, Option.mem_some_iff] at hj
    exact hj.symm
  · -- what the turn sends to clients are the answers of the action
    rw [Machine.emitted_singleton hn, hanswers, ← Cluster.toClient_of_turn hturn]
    refine .turn ?_ ?_
    · rw [foldl_settle, hnetwork]
    · rw [foldl_settle, hreplies]

/-- **The request of a client** is handled. -/
theorem serve_client (h : Simulates ids w c) {node : NodeId} {client : ClientId}
    {req : ClientRequest} {order : List NodeId} {cut : Option ℕ} {rest : List Incoming}
    {phases : List (Phase σ)}
    (hrest : w.toServer node = ⟨.client client, .clientRequest req⟩ :: rest) (hi : node ∈ ids)
    (hc : w.crashed node = false) (hturn : (w.nodes node).turn
      (Cluster.selectOf order ⟨.client client, .clientRequest req⟩ cut) = some phases) :
    ∃ as c', Mirrors ids w (.serve node order cut) (phases.foldl (Deployment.settle node)
      { w with toServer := Function.update w.toServer node rest }) c as c' := by
  have hpopped : Simulates ids { w with toServer := Function.update w.toServer node rest } c := by
    refine h.silent rfl rfl fun p => ?_
    have haccount := copies_update (p := p) w
      { w with toServer := Function.update w.toServer node rest } hi
      fun j hj => ⟨rfl, Function.update_of_ne hj _ _⟩
    simp only [copiesAt, Function.update_self, hrest] at haccount
    rw [List.filterMap_cons_none rfl] at haccount
    omega
  exact ⟨_, _, h.turns hpopped rfl rfl hi hc hturn (.request hrest) rfl trivial rfl rfl⟩

/-- **The message of a peer** is handled: an envelope is delivered that has not been. -/
theorem serve_peer (h : Simulates ids w c) {node src : NodeId} {msg : Message}
    {order : List NodeId} {cut : Option ℕ} {rest : List Incoming} {phases : List (Phase σ)}
    (hrest : w.toServer node = ⟨.peer src, msg⟩ :: rest) (hi : node ∈ ids)
    (hc : w.crashed node = false)
    (hturn : (w.nodes node).turn (Cluster.selectOf order ⟨.peer src, msg⟩ cut) = some phases) :
    ∃ as c', Mirrors ids w (.serve node order cut) (phases.foldl (Deployment.settle node)
      { w with toServer := Function.update w.toServer node rest }) c as c' := by
  have harrived : arrived node ⟨.peer src, msg⟩ = some ⟨src, node, msg⟩ := rfl
  have haccount := fun p => copies_update (p := p) w
    { w with toServer := Function.update w.toServer node rest } hi
    fun j hj => ⟨rfl, Function.update_of_ne hj _ _⟩
  simp only [copiesAt, Function.update_self, hrest, List.filterMap_cons_some harrived,
    List.count_cons, beq_iff_eq] at haccount
  have hpos : 0 < c.undelivered ⟨src, node, msg⟩ := by
    have haccount := haccount ⟨src, node, msg⟩
    have hcopies := h.copies ⟨src, node, msg⟩
    simp only [↓reduceIte] at haccount
    omega
  obtain ⟨k, e, he, hk, hpacket⟩ := Cluster.exists_of_undelivered hpos
  have hpopped : Simulates ids { w with toServer := Function.update w.toServer node rest }
      { c with delivered := k :: c.delivered } := by
    refine ⟨h.nodes, h.crashed, fun p => ?_, fun k' hk' => ?_⟩
    · have haccount := haccount p
      have hdeliver := Cluster.undelivered_deliver (p := p) he hk
      have hcopies := h.copies p
      rw [hpacket] at hdeliver
      omega
    · rcases List.mem_cons.1 hk' with rfl | hk'
      · exact (List.getElem?_eq_some_iff.1 he).1
      · exact h.delivered k' hk'
  have hperforms : Performs w c (.serve node order cut) [.deliver k order cut] :=
    .deliver hrest he hk hpacket
  obtain ⟨rfl, rfl, rfl⟩ := Packet.mk.inj hpacket
  refine ⟨_, _, h.turns hpopped rfl rfl hi hc hturn hperforms rfl hk ?_ ?_⟩
  · simp only [Cluster.next, he]
  · simp only [Cluster.turnOf, he, Option.map_some]

/-- **One step** of a task is at most one action of the cluster, which delivers nothing twice. -/
theorem next (h : Simulates ids w c) (hw : Wired ids w) (hasked : w.Requested)
    (hm : Moves ids w t w') : ∃ as c', Mirrors ids w t w' c as c' := by
  cases hm with
  | @serve node order cut incoming rest phases hrest hi hc hturn =>
    obtain ⟨sender, msg⟩ := incoming
    cases sender with
    | client client =>
      obtain ⟨req, rfl⟩ := hasked node _ (by rw [hrest]; exact List.mem_cons_self) client rfl
      exact h.serve_client hrest hi hc hturn
    | peer src => exact h.serve_peer hrest hi hc hturn
  | timeout hi hc hturn =>
    -- nothing is delivered: the cluster marks no envelope
    have hsame : Simulates ids w { c with delivered := c.delivered } := h
    exact ⟨_, _, h.turns hsame rfl rfl hi hc hturn .timeout rfl trivial rfl rfl⟩
  | @dispatch node out rest hrest hi =>
    obtain ⟨hsame, -⟩ := foldl_handTo node
      { w with toNetwork := Function.update w.toNetwork node rest }
      ((w.registry node).dispatchServerMsg out)
    exact ⟨_, _, h.idle rfl (by rw [hsame]) (by rw [hsame]) (copies_dispatch hw hrest hi) node
      (.dispatch hrest)⟩
  | @dial node peer rest attempts =>
    unfold dialNext
    split_ifs
    · exact ⟨_, _, h.idle rfl rfl rfl (fun _ => Nat.le_refl _) node (.keep rfl rfl)⟩
    · exact ⟨_, _, h.idle rfl rfl rfl (fun _ => Nat.le_refl _) node (.keep rfl rfl)⟩
  | @identify node | @abandon node | @welcome node | @leave node =>
    exact ⟨_, _, h.idle rfl rfl rfl (fun _ => Nat.le_refl _) node (.keep rfl rfl)⟩
  | @forward k link msg rest hlink hqueue =>
    exact ⟨_, _, h.idle rfl rfl rfl (copies_forward hw hlink hqueue) link.dst (.keep rfl rfl)⟩
  | @exit k n link hlink =>
    exact ⟨_, _, h.idle rfl rfl rfl (copies_exit hlink) link.src (.keep rfl rfl)⟩
  | @submit node client msg hi =>
    exact ⟨_, _, h.idle rfl rfl rfl (copies_submit hi client msg) node (.keep rfl rfl)⟩

end Simulates

/-- **The network refines the cluster.**  Where clients send nothing but requests, every run of the
servers with their dispatchers, connections, readers and writers, in any interleaving of these
tasks, with connections that are late, fail or break at any time, goes beside a run of the cluster
that delivers each message at most once.  The servers handle the same messages of the same nodes and
the same requests, and the timers fire, in the same order; after every step all servers are in the
same state on either side, and what is on its way between the nodes of the deployment is among the
envelopes to be delivered. -/
theorem refines_cluster {peerAddresses : NodeId → List NodeId} {stateMachine : NodeId → σ}
    {ts : List Task} (hpeers : ∀ i, ∀ peer ∈ peerAddresses i, peer ∈ ids)
    (h : (machine σ ids).Run ClientsAsk (init ids peerAddresses stateMachine) ts w) :
    ∃ ls c, (machine σ ids).Beside (Cluster.machine σ ids) Cluster.AtMostOnce Performs
        (Simulates ids) (init ids peerAddresses stateMachine) (Cluster.init ids stateMachine)
        ts w ls c ∧
      (Cluster.machine σ ids).Run Cluster.AtMostOnce (Cluster.init ids stateMachine) ls c ∧
      c.nodes = w.nodes ∧ c.crashed = w.crashed := by
  let rel : List Task → Deployment σ → List Action → Cluster σ → Prop := fun ts w ls c =>
    (machine σ ids).Beside (Cluster.machine σ ids) Cluster.AtMostOnce Performs (Simulates ids)
      (init ids peerAddresses stateMachine) (Cluster.init ids stateMachine) ts w ls c ∧
    Simulates ids w c ∧ Wired ids w ∧ w.Requested
  have h₀ : rel [] (init ids peerAddresses stateMachine) [] (Cluster.init ids stateMachine) :=
    ⟨.nil, .init, wired_init hpeers, fun _ _ hmem => by cases hmem⟩
  obtain ⟨ls, c, hrun, hbeside, hsim, -⟩ := h.simulate rel h₀ (by
    rintro ts w t w' ls c ⟨hbeside, hsim, hw, hasked⟩ - ht hn
    have hmoves := moves_of_next hn
    obtain ⟨as, c', hm⟩ := hsim.next hw hasked hmoves
    exact ⟨as, c', hm.run, hbeside.snoc hn hm.performs hm.run hm.simulates, hm.simulates,
      hw.next hmoves, hasked.next (feeds_of_moves hmoves) ht⟩)
  exact ⟨ls, c, hbeside, hrun, hsim.nodes, hsim.crashed⟩

/-- The second attempt of node 1 to dial node 2 succeeds, and node 2 votes for node 1. -/
theorem refines_cluster_vote : ∃ w : Deployment SimpleStateMachine, ∃ ls : List Action, ∃ c,
    ⟨.node 1, .requestVoteResponse ⟨0, true⟩⟩ ∈ w.toNetwork 2 ∧
    (Cluster.machine SimpleStateMachine [1, 2, 3]).Run Cluster.AtMostOnce
      (Cluster.init [1, 2, 3] fun _ => .new) ls c ∧ c.nodes = w.nodes := by
  have hrun : ((machine SimpleStateMachine [1, 2, 3]).exec ClientsAsk
      (init [1, 2, 3] (fun _ => [1, 2, 3]) fun _ => .new)
      [.dial 1 [], .dial 1 [false, true], .identify 1 2, .identify 2 1, .timeout 1, .dispatch 1,
        .forward 1, .serve 2 [1, 2, 3] none]).any
      (fun w => decide (⟨.node 1, .requestVoteResponse ⟨0, true⟩⟩ ∈ w.toNetwork 2)) = true := by
    decide
  obtain ⟨w, hw, hvote⟩ := Machine.exists_run_of_exec hrun
  obtain ⟨ls, c, -, hcluster, hnodes, -⟩ := refines_cluster (fun _ _ hpeer => hpeer) hw
  exact ⟨w, ls, c, hvote, hcluster, hnodes⟩

end Deployment

end MiniRaft
