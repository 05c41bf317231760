import MiniRaft.Machine.Accounting
import MiniRaft.Network.Deployment

/-!
# The way from one server to another

A message from the server of node `a` to the server of node `b` passes the channel of `a`'s
dispatcher, the writer of `a`, the reader of `b` and the channel of `b`'s server.  Of two nodes only
one dials the other, and only once, so there is never more than one link from `a` to `b`, and what
comes through is one stretch of what has been sent: what was sent before the connection was up is
missing, and so is what the writer had not got across when it failed.

* `Deployment.Single` : two nodes have at most one connection.
* `Deployment.Channel` : what is known of the messages from `a` to `b`.
* `Deployment.received_in_order` : the messages from `a` that the server of `b` handles are a
  stretch of those that the server of `a` sends to `b`, in order.
-/

namespace MiniRaft

variable {σ : Type}

/-- The message, if it is for the peer. -/
def Outgoing.addressed (peer : NodeId) : Outgoing → Option Message
  | ⟨.broadcast, msg⟩ => some msg
  | ⟨.node dst, msg⟩ => if dst = peer then some msg else none
  | ⟨.client _, _⟩ => none

/-- The message, if it is from the peer. -/
def Incoming.sentBy (peer : NodeId) : Incoming → Option Message
  | ⟨.peer src, msg⟩ => if src = peer then some msg else none
  | ⟨.client _, _⟩ => none

namespace ConnectionRegistry

theorem received_dispatchServerMsg (r : ConnectionRegistry) (peer : NodeId) (out : Outgoing) :
    received peer (r.dispatchServerMsg out) =
      if r.Connected peer then (out.addressed peer).toList else [] := by
  obtain ⟨dest, msg⟩ := out
  cases dest with
  | client client =>
    have hnil : received peer (r.send (.client client) msg).toList = [] := by
      cases h : r.send (.client client) msg with
      | none => rfl
      | some d =>
        rw [dest_of_send h]
        exact (received_singleton peer _).trans (if_neg (by simp))
    simp [dispatchServerMsg, hnil, Outgoing.addressed]
  | node dst =>
    refine (r.received_send peer dst msg).trans ?_
    by_cases hdst : dst = peer
    · subst hdst
      simp [Outgoing.addressed]
    · simp [Outgoing.addressed, hdst]
  | broadcast =>
    refine (r.received_sends peer msg (AList.keys_nodup _)).trans ?_
    by_cases h : r.Connected peer
    · rw [if_pos ⟨mem_getAllPeers h, h⟩, if_pos h]
      rfl
    · rw [if_neg fun hand => h hand.2, if_neg h]

theorem connected_register_of_ne (r : ConnectionRegistry) {peer other : NodeId} (h : other ≠ peer) :
    (r.register (.peer peer)).Connected other ↔ r.Connected other := by
  rw [Connected, register, AList.lookup_insert_ne h, Connected]

theorem connected_writerExited (r : ConnectionRegistry) (peer other : NodeId) :
    (r.writerExited (.peer peer)).Connected other ↔ other ≠ peer ∧ r.Connected other := by
  by_cases h : other = peer
  · subst h
    simp [Connected, writerExited]
  · rw [Connected, writerExited, AList.lookup_insert_ne h, Connected]
    simp [h]

end ConnectionRegistry

/-! ### Queues -/

/-- What is under way from `a` to `b`. -/
def queued (a b : NodeId) (links : List Link) : List Message :=
  (links.filter (·.ends = (a, b))).flatMap Link.queue

section

variable {a b : NodeId} {links : List Link}

theorem queued_cons (link : Link) (links : List Link) :
    queued a b (link :: links) = (if link.ends = (a, b) then link.queue else []) ++
      queued a b links := by
  by_cases h : link.ends = (a, b)
  · simp [queued, h]
  · simp [queued, h]

theorem queued_eq_nil (h : (a, b) ∉ links.map Link.ends) : queued a b links = [] := by
  induction links with
  | nil => rfl
  | cons link links ih =>
    rw [List.map_cons, List.mem_cons, not_or] at h
    rw [queued_cons, if_neg (Ne.symm h.1), ih h.2, List.nil_append]

theorem queued_set {k : ℕ} {link : Link} (hk : links[k]? = some link) (hends : link.ends = (a, b))
    (h : (links.map Link.ends).count (a, b) ≤ 1) (queue : List Message) :
    queued a b (links.set k { link with queue := queue }) = queue := by
  induction links generalizing k with
  | nil => cases hk
  | cons head links ih =>
    rw [List.map_cons, List.count_cons] at h
    cases k with
    | zero =>
      obtain rfl : head = link := by simpa using hk
      have hrest : (a, b) ∉ links.map Link.ends := by
        rw [hends, beq_self_eq_true, if_pos rfl] at h
        exact List.count_eq_zero.1 (by omega)
      have hends' : Link.ends { head with queue := queue } = (a, b) := hends
      rw [List.set_cons_zero, queued_cons, if_pos hends', queued_eq_nil hrest, List.append_nil]
    | succ k =>
      rw [List.getElem?_cons_succ] at hk
      have hmem : (a, b) ∈ links.map Link.ends := by
        rw [← hends]
        exact List.mem_map_of_mem (List.mem_of_getElem? hk)
      have hpos := List.count_pos_iff.2 hmem
      have hne : head.ends ≠ (a, b) := by
        intro heq
        rw [heq, beq_self_eq_true, if_pos rfl] at h
        omega
      rw [List.set_cons_succ, queued_cons, if_neg hne, ih hk (by omega), List.nil_append]

theorem queued_eq {k : ℕ} {link : Link} (hk : links[k]? = some link) (hends : link.ends = (a, b))
    (h : (links.map Link.ends).count (a, b) ≤ 1) : queued a b links = link.queue := by
  have hset := queued_set hk hends h link.queue
  obtain ⟨hlt, rfl⟩ := List.getElem?_eq_some_iff.1 hk
  rwa [List.set_getElem_self] at hset

theorem queued_set_of_ne {k : ℕ} {link : Link} (hk : links[k]? = some link)
    (hends : link.ends ≠ (a, b)) (queue : List Message) :
    queued a b (links.set k { link with queue := queue }) = queued a b links := by
  induction links generalizing k with
  | nil => cases hk
  | cons head links ih =>
    cases k with
    | zero =>
      obtain rfl : head = link := by simpa using hk
      have hends' : Link.ends { head with queue := queue } ≠ (a, b) := hends
      rw [List.set_cons_zero, queued_cons, queued_cons, if_neg hends', if_neg hends]
    | succ k =>
      rw [List.set_cons_succ, queued_cons, queued_cons, ih hk]

theorem queued_handOver_of_ne {src dst : NodeId} (h : (src, dst) ≠ (a, b)) (msg : Message)
    (links : List Link) : queued a b (handOver src dst msg links) = queued a b links := by
  induction links with
  | nil => rfl
  | cons link links ih =>
    unfold handOver
    split_ifs with hends
    · have hne : link.ends ≠ (a, b) := by rwa [hends]
      have hne' : Link.ends { link with queue := link.queue ++ [msg] } ≠ (a, b) := hne
      rw [queued_cons, queued_cons, if_neg hne, if_neg hne']
    · rw [queued_cons, queued_cons, ih]

theorem queued_handOver (msg : Message) (hmem : (a, b) ∈ links.map Link.ends)
    (h : (links.map Link.ends).count (a, b) ≤ 1) :
    queued a b (handOver a b msg links) = queued a b links ++ [msg] := by
  induction links with
  | nil => cases hmem
  | cons link links ih =>
    rw [List.map_cons, List.count_cons] at h
    unfold handOver
    split_ifs with hends
    · have hends' : Link.ends { link with queue := link.queue ++ [msg] } = (a, b) := hends
      have hrest : (a, b) ∉ links.map Link.ends := by
        rw [hends, beq_self_eq_true, if_pos rfl] at h
        exact List.count_eq_zero.1 (by omega)
      rw [queued_cons, queued_cons, if_pos hends, if_pos hends', queued_eq_nil hrest,
        List.append_nil,
        List.append_nil]
    · rw [List.map_cons, List.mem_cons] at hmem
      rw [queued_cons, queued_cons, if_neg hends,
        ih (hmem.resolve_left (Ne.symm hends)) (Nat.le_trans (Nat.le_add_right _ _) h)]
      rfl

end

namespace Deployment

variable {ids : List NodeId} {w w' : Deployment σ} {a b : NodeId} {t : Task}

theorem queued_foldl_handTo_of_ne {node : NodeId} (h : node ≠ a) (w : Deployment σ)
    (ds : List Delivery) : queued a b (ds.foldl (handTo node) w).links = queued a b w.links := by
  induction ds generalizing w with
  | nil => rfl
  | cons d ds ih =>
    obtain ⟨dest, msg⟩ := d
    rw [List.foldl_cons, ih]
    cases dest with
    | client => rfl
    | peer peer =>
      refine queued_handOver_of_ne (fun heq => ?_) msg w.links
      exact h (Prod.mk.inj heq).1

theorem queued_foldl_handTo (w : Deployment σ) (ds : List Delivery) (hmem : w.Spawned a b)
    (h : (w.links.map Link.ends).count (a, b) ≤ 1) :
    queued a b (ds.foldl (handTo a) w).links = queued a b w.links ++ received b ds := by
  induction ds generalizing w with
  | nil => exact (List.append_nil _).symm
  | cons d ds ih =>
    obtain ⟨dest, msg⟩ := d
    have hsplit : received b (⟨dest, msg⟩ :: ds) = received b [⟨dest, msg⟩] ++ received b ds :=
      received_append b [_] ds
    rw [List.foldl_cons, hsplit, received_singleton]
    cases dest with
    | client client =>
      rw [ih (handTo a w ⟨.client client, msg⟩) hmem h]
      simp [handTo]
    | peer peer =>
      have hends := ends_handOver a peer msg w.links
      rw [ih _ (by rwa [Spawned, handTo, hends]) (by rwa [handTo, hends]), ← List.append_assoc]
      by_cases hpeer : peer = b
      · subst hpeer
        rw [if_pos rfl]
        simp only [handTo]
        rw [queued_handOver msg hmem h]
      · rw [if_neg (by simpa using hpeer), List.append_nil]
        simp only [handTo]
        rw [queued_handOver_of_ne (by simpa using hpeer)]

/-! ### Connections -/

/-- How often the nodes are still to be connected, or are, as far as `a` is concerned: the one with
the lower id dials the other. -/
def ties (w : Deployment σ) (a b : NodeId) : ℕ :=
  (w.toDial (min a b)).count (max a b) + w.greeting.count (a, b) +
    (w.links.map Link.ends).count (a, b)

/-- Two nodes have at most one connection. -/
def Single (w : Deployment σ) : Prop := ∀ a b, w.ties a b ≤ 1

theorem Single.count_links (h : w.Single) : (w.links.map Link.ends).count (a, b) ≤ 1 :=
  Nat.le_trans (Nat.le_add_left _ _) (h a b)

theorem Single.of_eq (h : w.Single) (htoDial : w'.toDial = w.toDial)
    (hgreeting : w'.greeting = w.greeting)
    (hends : w'.links.map Link.ends = w.links.map Link.ends) :
    w'.Single := by
  intro a b
  rw [ties, htoDial, hgreeting, hends]
  exact h a b

/-- Of the two ends of a connection one is that of `a` towards `b`, if it is between them. -/
theorem count_both {node peer : ℕ} (h : node < peer) (a b : ℕ) :
    (if node = a ∧ peer = b then 1 else 0) + (if peer = a ∧ node = b then 1 else 0) =
      if min a b = node ∧ peer = max a b then 1 else 0 := by
  split_ifs <;> omega

variable [StateMachine σ]

/-- **One step.** -/
theorem Single.next (h : w.Single) (hm : Moves ids w t w') : w'.Single := by
  cases hm with
  | serve | timeout =>
    exact h.of_eq (by rw [foldl_settle]) (by rw [foldl_settle]) (by rw [foldl_settle])
  | @dispatch node out rest =>
    obtain ⟨hsame, hends⟩ := foldl_handTo node
      { w with toNetwork := Function.update w.toNetwork node rest }
      ((w.registry node).dispatchServerMsg out)
    exact h.of_eq (by rw [hsame]) (by rw [hsame]) hends
  | @dial node peer rest attempts hpeers =>
    intro a b
    have hab := h a b
    have hcount : (Function.update w.toDial node rest (min a b)).count (max a b) +
        (if min a b = node ∧ peer = max a b then 1 else 0) =
          (w.toDial (min a b)).count (max a b) := by
      by_cases hnode : min a b = node
      · rw [hnode, Function.update_self, hpeers, List.count_cons]
        simp only [true_and, beq_iff_eq]
      · rw [Function.update_of_ne hnode]
        simp [hnode]
    unfold dialNext
    split_ifs with hlt
    · have hboth := count_both hlt.1 a b
      simp only [ties, List.count_cons, beq_iff_eq, Prod.mk.injEq] at hab ⊢
      omega
    · simp only [ties] at hab ⊢
      omega
  | @identify node peer hmem =>
    intro a b
    have hab := h a b
    have hpos := List.count_pos_iff.2 hmem
    simp only [ties, spawn, List.map_cons, List.count_cons, List.count_erase, Link.ends, beq_iff_eq,
      Prod.mk.injEq] at hab ⊢
    split_ifs with hends
    · obtain ⟨rfl, rfl⟩ := hends
      omega
    · omega
  | @abandon node peer hmem =>
    intro a b
    refine Nat.le_trans ?_ (h a b)
    have hle := (List.erase_sublist (a := (node, peer)) (l := w.greeting)).count_le (a, b)
    simp only [ties]
    omega
  | welcome | submit | leave => exact h.of_eq rfl rfl rfl
  | @forward k link msg rest hlink => exact h.of_eq rfl rfl (ends_set hlink rest)
  | @exit k n link hlink => exact h.of_eq rfl rfl (ends_set hlink _)

/-! ### From server to server -/

/-- What the server of a node sends in a turn. -/
def turnSends (w : Deployment σ) (node : NodeId) (ev : Select) : List Outgoing :=
  (((w.nodes node).turn ev).getD []).flatMap fun p => p.outcome.sent

/-- What the server of `a` sends in a step. -/
def sends (a : NodeId) (w : Deployment σ) : Task → List Outgoing
  | .serve node order cut =>
    if node = a then
      (w.toServer a).head?.elim [] fun incoming =>
        w.turnSends a (Cluster.selectOf order incoming cut)
    else []
  | .timeout node => if node = a then w.turnSends a .timer else []
  | _ => []

/-- What the server of `b` handles in a step. -/
def handles (b : NodeId) (w : Deployment σ) : Task → List Incoming
  | .serve node _ _ => if node = b then (w.toServer b).take 1 else []
  | _ => []

omit [StateMachine σ] in
/-- The messages from `a` that have got through to `b` or are under way, where `ins` is what the
server of `b` has handled. -/
def come (w : Deployment σ) (a b : NodeId) (ins : List Incoming) : List Message :=
  (ins ++ w.toServer b).filterMap (Incoming.sentBy a) ++ queued a b w.links

/-- The way from `a` to `b`, where the server of `a` has sent `outs`, and that of `b` has handled
`ins`. -/
structure Channel (a b : NodeId) (outs : List Outgoing) (ins : List Incoming) (w : Deployment σ) :
    Prop where
  /-- Nothing comes through before the connection is up. -/
  unspawned : ¬ w.Spawned a b → ¬ (w.registry a).Connected b ∧ w.come a b ins = []
  /-- What comes through is a stretch of what the dispatcher has taken, up to now as long as the
  writer works. -/
  dispatched : ∃ done, outs = done ++ w.toNetwork a ∧
    w.come a b ins <:+: done.filterMap (Outgoing.addressed b) ∧
    ((w.registry a).Connected b → w.come a b ins <:+ done.filterMap (Outgoing.addressed b))

namespace Channel

variable {outs outs' : List Outgoing} {ins ins' : List Incoming}

omit [StateMachine σ] in
theorem init {peerAddresses : NodeId → List NodeId} {stateMachine : NodeId → σ} :
    Channel a b [] [] (Deployment.init ids peerAddresses stateMachine) where
  unspawned _ :=
    ⟨by simp [Deployment.init, ConnectionRegistry.Connected, ConnectionRegistry.new], rfl⟩
  dispatched := ⟨[], rfl, List.infix_rfl, fun _ => List.suffix_rfl⟩

omit [StateMachine σ] in
theorem keep (h : Channel a b outs ins w) (hspawned : w'.Spawned a b ↔ w.Spawned a b)
    (hconn : (w'.registry a).Connected b ↔ (w.registry a).Connected b)
    (hout : w'.toNetwork a = w.toNetwork a ++ outs')
    (hcome : w'.come a b (ins ++ ins') = w.come a b ins) :
    Channel a b (outs ++ outs') (ins ++ ins') w' where
  unspawned := by
    rw [hspawned, hconn, hcome]
    exact h.unspawned
  dispatched := by
    obtain ⟨done, heq, hstretch, hsuffix⟩ := h.dispatched
    refine ⟨done, by rw [heq, hout, List.append_assoc], ?_⟩
    rw [hconn, hcome]
    exact ⟨hstretch, hsuffix⟩

omit [StateMachine σ] in
theorem dispatch (h : Channel a b outs ins w) (hs : w.Single) {out : Outgoing}
    {rest : List Outgoing}
    (hrest : w.toNetwork a = out :: rest) :
    Channel a b (outs ++ []) (ins ++ []) (((w.registry a).dispatchServerMsg out).foldl (handTo a)
      { w with toNetwork := Function.update w.toNetwork a rest }) := by
  obtain ⟨hsame, hends⟩ := foldl_handTo a
    { w with toNetwork := Function.update w.toNetwork a rest }
    ((w.registry a).dispatchServerMsg out)
  have hreceived := (w.registry a).received_dispatchServerMsg b out
  have hqueued : queued a b (((w.registry a).dispatchServerMsg out).foldl (handTo a)
      { w with toNetwork := Function.update w.toNetwork a rest }).links =
        queued a b w.links ++ received b ((w.registry a).dispatchServerMsg out) := by
    by_cases hspawned : w.Spawned a b
    · exact queued_foldl_handTo { w with toNetwork := Function.update w.toNetwork a rest } _
        hspawned
        hs.count_links
    · rw [hreceived, if_neg (h.unspawned hspawned).1, queued_eq_nil hspawned, queued_eq_nil]
      · rfl
      · rwa [hends]
  -- the writer of `b` is handed the message if it works
  have hcome : (((w.registry a).dispatchServerMsg out).foldl (handTo a)
      { w with toNetwork := Function.update w.toNetwork a rest }).come a b (ins ++ []) =
        w.come a b ins ++ if (w.registry a).Connected b then (out.addressed b).toList else [] := by
    rw [come, hqueued, hreceived, hsame, ← List.append_assoc, List.append_nil]
    rfl
  refine ⟨fun hspawned => ?_, ?_⟩
  · have hspawned : ¬ w.Spawned a b := by rwa [Spawned, hends] at hspawned
    obtain ⟨hconn, hnil⟩ := h.unspawned hspawned
    rw [hcome, if_neg hconn, hnil, hsame]
    exact ⟨hconn, rfl⟩
  · obtain ⟨done, hdone, hstretch, hsuffix⟩ := h.dispatched
    refine ⟨done ++ [out], ?_, ?_⟩
    · rw [hdone, hrest, hsame]
      simp
    · have hout : (done ++ [out]).filterMap (Outgoing.addressed b) =
          done.filterMap (Outgoing.addressed b) ++ (out.addressed b).toList := by
        rw [List.filterMap_append]
        cases h : out.addressed b <;> simp [h]
      rw [hcome, hout, hsame]
      by_cases hconn : (w.registry a).Connected b
      · obtain ⟨missed, heq⟩ := hsuffix hconn
        have hmore : w.come a b ins ++ (out.addressed b).toList <:+
            done.filterMap (Outgoing.addressed b) ++ (out.addressed b).toList :=
          ⟨missed, by rw [← List.append_assoc, heq]⟩
        rw [if_pos hconn]
        exact ⟨hmore.isInfix, fun _ => hmore⟩
      · rw [if_neg hconn, List.append_nil]
        exact ⟨hstretch.trans (List.prefix_append _ _).isInfix, fun h => absurd h hconn⟩

omit [StateMachine σ] in
theorem identify (h : Channel a b outs ins w) (hs : w.Single) (hmem : (a, b) ∈ w.greeting) :
    Channel a b (outs ++ []) (ins ++ []) (w.spawn a b) := by
  have hspawned : ¬ w.Spawned a b := by
    intro hspawned
    have hties := hs a b
    have hgreeting := List.count_pos_iff.2 hmem
    have hlinks := List.count_pos_iff.2 hspawned
    unfold ties at hties
    omega
  have hcome : (w.spawn a b).come a b (ins ++ []) = [] := by
    rw [← (h.unspawned hspawned).2]
    simp [come, spawn, queued_cons]
  obtain ⟨done, hdone, -, -⟩ := h.dispatched
  refine ⟨fun hnot => absurd List.mem_cons_self hnot, done, by simpa [spawn] using hdone, ?_⟩
  rw [hcome]
  exact ⟨List.nil_suffix.isInfix, fun _ => List.nil_suffix⟩

omit [StateMachine σ] in
theorem exit (h : Channel a b outs ins w) (hs : w.Single) {k : ℕ} {link : Link}
    (hlink : w.links[k]? = some link) (hends : link.ends = (a, b)) (n : ℕ) :
    Channel a b (outs ++ []) (ins ++ []) (w.exitWriter k n link) := by
  have hnewest : w.Newest k link := by
    intro hmem
    have hcount := hs.count_links (a := a) (b := b)
    obtain ⟨hlt, rfl⟩ := List.getElem?_eq_some_iff.1 hlink
    rw [hends] at hmem
    have hpos := List.count_pos_iff.2 hmem
    rw [← List.take_append_drop k w.links, List.drop_eq_getElem_cons hlt, List.map_append,
      List.count_append, List.map_cons, hends, List.count_cons_self] at hcount
    omega
  have hconn : ¬ ((w.exitWriter k n link).registry a).Connected b := by
    obtain ⟨rfl, rfl⟩ := Prod.mk.inj hends
    simp only [exitWriter, if_pos hnewest, Function.update_self,
      ConnectionRegistry.connected_writerExited]
    exact fun hand => hand.1 rfl
  have hcome : (w.exitWriter k n link).come a b (ins ++ []) <+: w.come a b ins := by
    rw [come, come, exitWriter, queued_set hlink hends hs.count_links,
      queued_eq hlink hends hs.count_links, List.append_nil]
    exact (List.prefix_append_right_inj _).2 (List.take_prefix n _)
  obtain ⟨done, hdone, hstretch, -⟩ := h.dispatched
  refine ⟨fun hnot => ?_, done, by simpa [exitWriter] using hdone, hcome.isInfix.trans hstretch,
    fun h => absurd h hconn⟩
  rw [Spawned, exitWriter, ends_set hlink, ← hends] at hnot
  exact absurd (List.mem_map_of_mem (List.mem_of_getElem? hlink)) hnot

theorem serve (h : Channel a b outs ins w) {node : NodeId} {order : List NodeId} {cut : Option ℕ}
    {incoming : Incoming} {rest : List Incoming} {phases : List (Phase σ)}
    (hrest : w.toServer node = incoming :: rest)
    (hturn : (w.nodes node).turn (Cluster.selectOf order incoming cut) = some phases) :
    Channel a b (outs ++ w.sends a (.serve node order cut))
      (ins ++ w.handles b (.serve node order cut))
      (phases.foldl (settle node) { w with toServer := Function.update w.toServer node rest }) := by
  rw [foldl_settle]
  refine h.keep .rfl .rfl ?_ ?_
  · by_cases hnode : a = node
    · subst hnode
      simp [sends, turnSends, hrest, hturn]
    · simp [sends, hnode, Ne.symm hnode]
  · by_cases hnode : b = node
    · subst hnode
      simp [come, handles, hrest]
    · simp [come, handles, hnode, Ne.symm hnode]

theorem timeout (h : Channel a b outs ins w) {node : NodeId} {phases : List (Phase σ)}
    (hturn : (w.nodes node).turn .timer = some phases) :
    Channel a b (outs ++ w.sends a (.timeout node)) (ins ++ []) (phases.foldl (settle node) w) := by
  rw [foldl_settle]
  refine h.keep .rfl .rfl ?_ ?_
  · by_cases hnode : a = node
    · subst hnode
      simp [sends, turnSends, hturn]
    · simp [sends, hnode, Ne.symm hnode]
  · simp [come]

omit [StateMachine σ] in
theorem dispatch_of_ne (h : Channel a b outs ins w) {node : NodeId} (hnode : node ≠ a)
    (out : Outgoing) (rest : List Outgoing) :
    Channel a b (outs ++ []) (ins ++ []) (((w.registry node).dispatchServerMsg out).foldl
      (handTo node) { w with toNetwork := Function.update w.toNetwork node rest }) := by
  obtain ⟨hsame, hends⟩ := foldl_handTo node
    { w with toNetwork := Function.update w.toNetwork node rest }
    ((w.registry node).dispatchServerMsg out)
  refine h.keep (by rw [Spawned, hends, Spawned]) (by rw [hsame]) ?_ ?_
  · rw [hsame]
    simp [Ne.symm hnode]
  · rw [come, queued_foldl_handTo_of_ne hnode, hsame]
    simp [come]

omit [StateMachine σ] in
theorem identify_of_ne (h : Channel a b outs ins w) {node peer : NodeId}
    (hends : (node, peer) ≠ (a, b)) :
    Channel a b (outs ++ []) (ins ++ []) (w.spawn node peer) := by
  refine h.keep ?_ ?_ (by simp [spawn]) ?_
  · simp [Spawned, spawn, Link.ends, Ne.symm hends]
  · unfold spawn
    dsimp only
    by_cases hnode : a = node
    · subst hnode
      have hpeer : b ≠ peer := fun heq => hends (by rw [heq])
      rw [Function.update_self, ConnectionRegistry.connected_register_of_ne _ hpeer]
    · rw [Function.update_of_ne hnode]
  · have hends' : Link.ends ⟨node, peer, []⟩ ≠ (a, b) := hends
    simp [come, spawn, queued_cons, hends']

omit [StateMachine σ] in
theorem client (h : Channel a b outs ins w) {node : NodeId} {r : ConnectionRegistry}
    (hr : r.Connected b ↔ (w.registry node).Connected b) :
    Channel a b (outs ++ []) (ins ++ [])
      { w with registry := Function.update w.registry node r } := by
  refine h.keep .rfl ?_ (by simp) (by simp [come])
  dsimp only
  by_cases hnode : a = node
  · subst hnode
    rw [Function.update_self, hr]
  · rw [Function.update_of_ne hnode]

omit [StateMachine σ] in
theorem forward (h : Channel a b outs ins w) (hs : w.Single) {k : ℕ} {link : Link} {msg : Message}
    {rest : List Message} (hlink : w.links[k]? = some link) (hqueue : link.queue = msg :: rest) :
    Channel a b (outs ++ []) (ins ++ [])
      (({ w with links := w.links.set k { link with queue := rest } } : Deployment σ).receive
        link.dst ⟨.peer link.src, msg⟩) := by
  refine h.keep ?_ .rfl (by simp [receive]) ?_
  · rw [Spawned, receive, ends_set hlink, Spawned]
  · by_cases hends : link.ends = (a, b)
    · have hset := queued_set hlink hends hs.count_links rest
      have hget := queued_eq hlink hends hs.count_links
      obtain ⟨src, dst, queue⟩ := link
      cases hends
      simp only at hqueue hset hget
      simp [come, receive, hset, hget, hqueue, Incoming.sentBy]
    · have hset := queued_set_of_ne hlink hends rest
      simp only [come, receive, hset, List.append_nil]
      by_cases hdst : b = link.dst
      · subst hdst
        have hsrc : link.src ≠ a := fun heq => hends (by rw [← heq]; rfl)
        simp [Incoming.sentBy, hsrc]
      · rw [Function.update_of_ne hdst]

omit [StateMachine σ] in
theorem exit_of_ne (h : Channel a b outs ins w) {k : ℕ} {link : Link}
    (hlink : w.links[k]? = some link) (hends : link.ends ≠ (a, b)) (n : ℕ) :
    Channel a b (outs ++ []) (ins ++ []) (w.exitWriter k n link) := by
  refine h.keep ?_ ?_ (by simp [exitWriter]) ?_
  · rw [Spawned, exitWriter, ends_set hlink, Spawned]
  · unfold exitWriter
    dsimp only
    split_ifs
    · by_cases hsrc : a = link.src
      · subst hsrc
        have hdst : b ≠ link.dst := fun heq => hends (by rw [heq]; rfl)
        rw [Function.update_self, ConnectionRegistry.connected_writerExited]
        exact and_iff_right hdst
      · rw [Function.update_of_ne hsrc]
    · rfl
  · simp [come, exitWriter, queued_set_of_ne hlink hends]

omit [StateMachine σ] in
theorem submit (h : Channel a b outs ins w) (node : NodeId) (client : ClientId) (msg : Message) :
    Channel a b (outs ++ []) (ins ++ []) (w.receive node ⟨.client client, msg⟩) := by
  refine h.keep .rfl .rfl (by simp [receive]) ?_
  by_cases hnode : b = node
  · subst hnode
    simp [come, receive, Incoming.sentBy]
  · simp [come, receive, hnode]

/-- **One step.** -/
theorem next (h : Channel a b outs ins w) (hs : w.Single) (hm : Moves ids w t w') :
    Channel a b (outs ++ w.sends a t) (ins ++ w.handles b t) w' := by
  cases hm with
  | serve hrest _ _ hturn => exact h.serve hrest hturn
  | timeout _ _ hturn => exact h.timeout hturn
  | @dispatch node out rest hrest =>
    by_cases hnode : node = a
    · subst hnode
      exact h.dispatch hs hrest
    · exact h.dispatch_of_ne hnode out rest
  | dial =>
    unfold dialNext
    split_ifs
    · exact h.keep .rfl .rfl (by simp [sends]) (by simp [come, handles])
    · exact h.keep .rfl .rfl (by simp [sends]) (by simp [come, handles])
  | @identify node peer hmem =>
    by_cases hends : (node, peer) = (a, b)
    · cases hends
      exact h.identify hs hmem
    · exact h.identify_of_ne hends
  | abandon => exact h.keep .rfl .rfl (by simp [sends]) (by simp [come, handles])
  | welcome | leave => exact h.client .rfl
  | forward hlink hqueue => exact h.forward hs hlink hqueue
  | @exit k n link hlink =>
    by_cases hends : link.ends = (a, b)
    · exact h.exit hs hlink hends n
    · exact h.exit_of_ne hlink hends n
  | submit => exact h.submit _ _ _

end Channel

end Deployment

end MiniRaft
