import MiniRaft.Cluster.Budget
import MiniRaft.Network.Refinement

/-!
# What clients see of a deployment

What is proved of clusters, carried over to the servers with their channels and connections, where
no condition on the delivery of messages is left: the connections deliver each message at most once.
Clients are taken to send nothing but requests, as a vote or an entry counts whoever sends it.

* `Deployment.Traced` : the simulation, with an account of what clients ask and are told.
* `Deployment.replies_asked` : a client is only told of what it has asked for.
* `Deployment.deployed_deadlock` : if all timers fire before a message gets through, no client is
  ever told anything.
-/

namespace MiniRaft

variable {σ : Type}

/-- A client has sent it. -/
def Incoming.fromClient (incoming : Incoming) : Bool :=
  match incoming.sender with
  | .client _ => true
  | .peer _ => false

namespace Deployment

variable {ids : List NodeId} {w w' : Deployment σ}

/-- How many requests wait in the channels of the servers. -/
def waiting (ids : List NodeId) (w : Deployment σ) : ℕ :=
  ∑ i ∈ ids.toFinset, (w.toServer i).countP Incoming.fromClient

/-- Where the channel of one server changes, their number changes as this channel does. -/
theorem waiting_update {node : NodeId} {queue : List Incoming} (hi : node ∈ ids)
    (h : w'.toServer = Function.update w.toServer node queue) :
    w'.waiting ids + (w.toServer node).countP Incoming.fromClient =
      w.waiting ids + queue.countP Incoming.fromClient := by
  have hsum := sum_update (f := fun i => (w.toServer i).countP Incoming.fromClient)
    (g := fun i => (w'.toServer i).countP Incoming.fromClient) hi
    fun j hj => by rw [h, Function.update_of_ne hj]
  rw [h, Function.update_self] at hsum
  simp only [waiting, h]
  exact hsum

variable [StateMachine σ] {stateMachine : NodeId → σ} {t : Task} {ts : List Task} {ls : List Action}
  {c c' : Cluster σ}

/-- In the course of the actions `ls` a cluster answers the client. -/
def Answered (ids : List NodeId) (stateMachine : NodeId → σ) (ls : List Action) (client : ClientId)
    (response : ClientResponse) : Prop :=
  ∃ c a c',
    (Cluster.machine σ ids).Occurs Cluster.AtMostOnce (Cluster.init ids stateMachine) ls c a ∧
    Cluster.next ids c a = some c' ∧ (client, response) ∈ c.answers a

/-- The deployment after the tasks `ts` and the cluster after the actions `ls`. -/
structure Traced (ids : List NodeId) (stateMachine : NodeId → σ) (ts : List Task)
    (w : Deployment σ) (ls : List Action) (c : Cluster σ) : Prop where
  simulates : Simulates ids w c
  wired : Wired ids w
  /-- Requests come from clients. -/
  queued : ∀ i, ∀ incoming ∈ w.toServer i, ∀ client, incoming.sender = .client client →
    ∃ req, incoming.msg = .clientRequest req ∧ .submit i client (.clientRequest req) ∈ ts
  asked : ∀ node client req order cut, .request node client req order cut ∈ ls →
    .submit node client (.clientRequest req) ∈ ts
  requests : ls.countP Action.requests + w.waiting ids ≤ ts.countP Task.asks
  /-- Responses come from servers. -/
  told : ∀ {client msg}, w.Tells client msg →
    ∃ response, msg = .clientResponse response ∧ Answered ids stateMachine ls client response

namespace Traced

theorem init {peerAddresses : NodeId → List NodeId}
    (h : ∀ i, ∀ peer ∈ peerAddresses i, peer ∈ ids) :
    Traced ids stateMachine [] (init ids peerAddresses stateMachine) []
      (Cluster.init ids stateMachine) where
  simulates := .init
  wired := wired_init h
  queued _ _ hmem := by cases hmem
  asked _ _ _ _ _ hmem := by cases hmem
  requests := by simp [waiting, Deployment.init]
  told h := by
    rcases h with hmem | ⟨i, hmem⟩
    · cases hmem
    · cases hmem

theorem requested (h : Traced ids stateMachine ts w ls c) : w.Requested := by
  intro i incoming hmem client hclient
  obtain ⟨req, hmsg, -⟩ := h.queued i incoming hmem client hclient
  exact ⟨req, hmsg⟩

theorem queued_next (h : Traced ids stateMachine ts w ls c) (hf : Feeds ids w t w')
    (ht : w.ClientsAsk t) : ∀ i, ∀ incoming ∈ w'.toServer i, ∀ client,
      incoming.sender = .client client → ∃ req, incoming.msg = .clientRequest req ∧
        .submit i client (.clientRequest req) ∈ ts ++ [t] := by
  refine hf.forall_toServer ?_ (fun _ _ _ _ _ hclient => by cases hclient) ?_
  · intro i incoming hmem client hclient
    obtain ⟨req, hmsg, hsubmit⟩ := h.queued i incoming hmem client hclient
    exact ⟨req, hmsg, List.mem_append_left _ hsubmit⟩
  · rintro node client msg rfl _ ⟨⟩
    obtain ⟨req, rfl⟩ := Message.isRequest_iff.1 ht
    exact ⟨req, rfl, List.mem_append_right _ List.mem_cons_self⟩

theorem requests_next (h : Traced ids stateMachine ts w ls c) (hf : Feeds ids w t w')
    (ht : w.ClientsAsk t) {as : List Action} (hm : Mirrors ids w t w' c as c') :
    (ls ++ as).countP Action.requests + w'.waiting ids ≤ (ts ++ [t]).countP Task.asks := by
  have hbefore := h.requests
  have hperforms := hm.performs
  have htasks : (ts ++ [t]).countP Task.asks = ts.countP Task.asks + t.asks.toNat := by
    rw [List.countP_append, List.countP_singleton]
    cases t.asks <;> rfl
  rw [List.countP_append, htasks]
  cases hf with
  | keep hserves heq =>
    have hwaiting : w'.waiting ids = w.waiting ids := by simp only [waiting, heq]
    have hsilent : as.countP Action.requests = 0 := by
      cases hperforms with
      | deliver | request => cases hserves
      | timeout | idle => rfl
    rw [hwaiting, hsilent]
    omega
  | @take node order cut incoming rest _ hi hrest heq =>
    have hwaiting := waiting_update hi heq
    rw [hrest, List.countP_cons] at hwaiting
    cases hperforms with
    | deliver =>
      simp only [List.countP_singleton, Action.requests, Bool.false_eq_true, if_false]
      omega
    | request hhead =>
      rw [hrest] at hhead
      obtain ⟨rfl, -⟩ := List.cons.inj hhead
      simp only [Incoming.fromClient, if_true] at hwaiting
      simp only [List.countP_singleton, Action.requests, if_true]
      omega
    | idle hactor => cases hactor
  | @forward k node src msg' _ heq =>
    have hwaiting : w'.waiting ids = w.waiting ids := by
      refine Finset.sum_congr rfl fun i _ => ?_
      rw [heq]
      by_cases hi : i = node
      · subst hi
        simp [Incoming.fromClient]
      · rw [Function.update_of_ne hi]
    cases hperforms
    rw [hwaiting]
    exact Nat.le_trans hbefore (Nat.le_add_right _ _)
  | @submit node client msg _ hi heq =>
    have hwaiting := waiting_update hi heq
    have hrequest : msg.isRequest = true := ht
    rw [List.countP_append, List.countP_singleton] at hwaiting
    simp only [Incoming.fromClient, if_true] at hwaiting
    cases hperforms
    simp only [List.countP_nil, Task.asks, hrequest, Bool.toNat_true]
    omega

/-- **One step.** -/
theorem next (h : Traced ids stateMachine ts w ls c)
    (hr : (Cluster.machine σ ids).Run Cluster.AtMostOnce (Cluster.init ids stateMachine) ls c)
    (hmoves : Moves ids w t w') (ht : w.ClientsAsk t) {as : List Action}
    (hm : Mirrors ids w t w' c as c') : Traced ids stateMachine (ts ++ [t]) w' (ls ++ as) c' where
  simulates := hm.simulates
  wired := h.wired.next hmoves
  queued := h.queued_next (feeds_of_moves hmoves) ht
  asked := by
    intro node client req order cut hmem
    rcases List.mem_append.1 hmem with hmem | hmem
    · exact List.mem_append_left _ (h.asked _ _ _ _ _ hmem)
    · obtain ⟨rest, hrest⟩ := hm.performs.requested hmem
      have hhead : ⟨.client client, .clientRequest req⟩ ∈ w.toServer node := by
        rw [hrest]
        exact List.mem_cons_self
      obtain ⟨_, ⟨⟩, hsubmit⟩ := h.queued node _ hhead client rfl
      exact List.mem_append_left _ hsubmit
  requests := h.requests_next (feeds_of_moves hmoves) ht hm
  told := by
    intro client msg htells
    rcases hm.told htells with htells | ⟨a, response, rfl, rfl, hmem⟩
    · obtain ⟨response, rfl, c₁, a, c₂, hoccurs, hanswers⟩ := h.told htells
      exact ⟨response, rfl, c₁, a, c₂, hoccurs.append as, hanswers⟩
    · exact ⟨response, rfl, c, a, c', ⟨ls, [], rfl, hr⟩, hm.run.of_singleton.2, hmem⟩

end Traced

/-- Every run of a deployment whose clients ask is one of a cluster, whose actions are within a
guard that looks at who acts and whether its timer fires, if the tasks are. -/
theorem traced_within {G : Deployment σ → Task → Prop} (G' : Cluster σ → Action → Prop)
    {peerAddresses : NodeId → List NodeId} (hpeers : ∀ i, ∀ peer ∈ peerAddresses i, peer ∈ ids)
    (hG : ∀ w t c a, G w t → c.actor a = t.actor → a.fires = t.fires → G' c a)
    (h : (machine σ ids).Run (Machine.both ClientsAsk G) (init ids peerAddresses stateMachine) ts
      w) :
    ∃ ls c, (Cluster.machine σ ids).Run (Machine.both Cluster.AtMostOnce G')
        (Cluster.init ids stateMachine) ls c ∧ Traced ids stateMachine ts w ls c := by
  refine h.simulate (Traced ids stateMachine) (.init hpeers) ?_
  rintro ts w t w' ls c htraced hr ⟨ht, hg⟩ hn
  have hmoves := moves_of_next hn
  obtain ⟨as, c', hm⟩ := htraced.simulates.next htraced.wired htraced.requested hmoves
  exact ⟨as, c', hm.within fun a => hG w t c a hg,
    htraced.next (hr.mono fun _ _ hg => hg.1) hmoves ht hm⟩

theorem traced_of_run {peerAddresses : NodeId → List NodeId}
    (hpeers : ∀ i, ∀ peer ∈ peerAddresses i, peer ∈ ids)
    (h : (machine σ ids).Run ClientsAsk (init ids peerAddresses stateMachine) ts w) :
    ∃ ls c, (Cluster.machine σ ids).Run Cluster.AtMostOnce (Cluster.init ids stateMachine) ls c ∧
      Traced ids stateMachine ts w ls c := by
  have h : (machine σ ids).Run (Machine.both ClientsAsk fun _ _ => True)
      (init ids peerAddresses stateMachine) ts w := h.mono fun _ _ ht => ⟨ht, trivial⟩
  obtain ⟨ls, c, hrun, htraced⟩ :=
    traced_within (fun _ _ => True) hpeers (fun _ _ _ _ _ _ _ => trivial) h
  exact ⟨ls, c, hrun.mono fun _ _ hg => hg.1, htraced⟩

/-- **A client is only told of what clients have asked for.**  Where clients send nothing but
requests, whatever is handed to the writer of a client, in any interleaving of all tasks of all
nodes, with connections that are late, fail or break at any time, is the success of a `Set` under
this client's id that some client has sent before. -/
theorem replies_asked {peerAddresses : NodeId → List NodeId}
    (hpeers : ∀ i, ∀ peer ∈ peerAddresses i, peer ∈ ids)
    (h : (machine σ ids).Run ClientsAsk (init ids peerAddresses stateMachine) ts w)
    (hreq : ts.countP Task.asks < 2 ^ 31) {client : ClientId} {msg : Message}
    (hmem : (client, msg) ∈ w.replies) :
    ∃ node sender req key value, .submit node sender (.clientRequest req) ∈ ts ∧
      req.command = .set key value ∧ req.clientId = client ∧
      msg = .clientResponse (.setSuccess req.requestId) := by
  obtain ⟨ls, c, hrun, htraced⟩ := traced_of_run hpeers h
  obtain ⟨response, rfl, c₁, a, c₂, ⟨before, after, rfl, hbefore⟩, hn, hanswers⟩ :=
    htraced.told (.inl hmem)
  -- requests are asked for, so there are not too many of them for short logs
  have hcount := htraced.requests
  rw [List.countP_append] at hcount
  obtain ⟨hshort, hlogs⟩ := Cluster.short_of_run hbefore (by omega)
  have hguard : Cluster.Short ids c₁ a := fun i _ => Nat.lt_of_le_of_lt (hlogs.nodes i) (by omega)
  obtain ⟨i, entry, -, hminted, hfor, rfl, -⟩ :=
    Cluster.mintedIn_of_answer (hshort.mono fun _ _ hg => hg.2) hguard hn hanswers
  obtain ⟨c₀, a₀, ⟨ls₀, ls₁, rfl, -⟩, hmints⟩ := hminted
  cases hmints with
  | @set node sender req order cut key value _ hcmd =>
    have hask := htraced.asked node sender req order cut (by simp)
    exact ⟨node, sender, req, key, value, hask, hcmd, hfor.client, rfl⟩

/-- Node 1 is elected and replicates the `Set` of client 7 to node 2, with no word from node 3 after
its vote. -/
theorem replies_asked_committed : ∃ w : Deployment SimpleStateMachine,
    ∃ (req : ClientRequest) (key value : String),
    (7, .clientResponse (.setSuccess 1)) ∈ w.replies ∧ req.command = .set key value ∧
      req.clientId = 7 := by
  have hrun : ((machine SimpleStateMachine [1, 2, 3]).exec ClientsAsk
      (init [1, 2, 3] (fun _ => [1, 2, 3]) fun _ => .new)
      [.dial 1 [], .dial 1 [true], .identify 1 2, .identify 2 1, .dial 1 [true], .identify 3 1,
        .identify 1 3, .timeout 1, .dispatch 1, .forward 3, .serve 2 [1, 2, 3] none, .dispatch 2,
        .forward 2, .forward 0, .serve 3 [1, 2, 3] none, .dispatch 3, .forward 1,
        .serve 1 [1, 2, 3] none, .serve 1 [1, 2, 3] none, .dispatch 1, .dispatch 1, .welcome 1 7,
        .submit 1 7 (.clientRequest ⟨.set "x" "1", 7, 1⟩), .serve 1 [1, 2, 3] none, .dispatch 1,
        .forward 3, .forward 3, .forward 3, .serve 2 [1, 2, 3] none, .serve 2 [1, 2, 3] none,
        .serve 2 [1, 2, 3] none, .dispatch 2, .dispatch 2, .forward 2, .forward 2,
        .serve 1 [1, 2, 3] none, .serve 1 [1, 2, 3] none, .dispatch 1, .dispatch 1]).any
      (fun w => decide ((7, .clientResponse (.setSuccess 1)) ∈ w.replies)) = true := by
    decide
  obtain ⟨w, hw, hmem⟩ := Machine.exists_run_of_exec hrun
  obtain ⟨_, _, req, key, value, -, hcmd, hclient, -⟩ :=
    replies_asked (fun _ _ hpeer => hpeer) hw (by decide) hmem
  exact ⟨w, req, key, value, hmem, hcmd, hclient⟩

/-! ### The deadlock -/

/-- No client is told anything. -/
structure Quiet (ids : List NodeId) (w : Deployment σ) (c : Cluster σ) : Prop where
  simulates : Simulates ids w c
  wired : Wired ids w
  requested : w.Requested
  silent : ∀ client msg, ¬ w.Tells client msg

omit [StateMachine σ] in
theorem Quiet.init {peerAddresses : NodeId → List NodeId}
    (h : ∀ i, ∀ peer ∈ peerAddresses i, peer ∈ ids) :
    Quiet ids (init ids peerAddresses stateMachine) (Cluster.init ids stateMachine) where
  simulates := .init
  wired := wired_init h
  requested _ _ hmem := by cases hmem
  silent := by
    rintro client msg (hmem | ⟨i, hmem⟩)
    · cases hmem
    · cases hmem

/-- **One step**, while the cluster has no answer for anyone. -/
theorem Quiet.next (h : Quiet ids w c) (hmoves : Moves ids w t w') (ht : w.ClientsAsk t)
    {as : List Action} (hm : Mirrors ids w t w' c as c')
    (hanswers : ∀ a c', Cluster.next ids c a = some c' → c.answers a = []) : Quiet ids w' c' where
  simulates := hm.simulates
  wired := h.wired.next hmoves
  requested := h.requested.next (feeds_of_moves hmoves) ht
  silent := by
    intro client msg htells
    rcases hm.told htells with htells | ⟨a, response, rfl, -, hmem⟩
    · exact h.silent client msg htells
    · rw [hanswers a c' hm.run.of_singleton.2] at hmem
      cases hmem

/-- While no message between nodes has been forwarded, only what clients have sent waits for the
servers. -/
def OnlyRequests (w : Deployment σ) : Prop :=
  ∀ i, ∀ incoming ∈ w.toServer i, incoming.fromClient = true

omit [StateMachine σ] in
theorem OnlyRequests.next (h : w.OnlyRequests) (hf : Feeds ids w t w') (ht : t.forwards = false) :
    w'.OnlyRequests :=
  hf.forall_toServer h (fun hforwards => by rw [ht] at hforwards; cases hforwards) fun _ => rfl

/-- Before any message between nodes is forwarded, nothing is delivered and nobody is answered. -/
theorem quiet_of_run {peerAddresses : NodeId → List NodeId}
    (hpeers : ∀ i, ∀ peer ∈ peerAddresses i, peer ∈ ids)
    (h : (machine σ ids).Run (Machine.both ClientsAsk fun _ t => t.forwards = false)
      (init ids peerAddresses stateMachine) ts w) :
    ∃ c, (Cluster.machine σ ids).Reach (fun _ a => a.delivers = false)
      (Cluster.init ids stateMachine) c ∧ Quiet ids w c := by
  let rel : List Task → Deployment σ → List Action → Cluster σ → Prop := fun _ w _ c =>
    Quiet ids w c ∧ w.OnlyRequests
  have hsim : ∃ ls c, (Cluster.machine σ ids).Run (fun _ a => a.delivers = false)
      (Cluster.init ids stateMachine) ls c ∧ rel ts w ls c := by
    refine h.simulate rel ⟨.init hpeers, fun _ _ hmem => by cases hmem⟩ ?_
    rintro ts w t w' ls c ⟨hquiet, honly⟩ hr ⟨hask, ht⟩ hn
    have hmoves := moves_of_next hn
    obtain ⟨as, c', hm⟩ := hquiet.simulates.next hquiet.wired hquiet.requested hmoves
    have hdelivers : ∀ a ∈ as, a.delivers = false := by
      intro a ha
      cases a with
      | deliver k order cut =>
        obtain ⟨node, src, msg, rest, hrest⟩ := hm.performs.delivered ha
        have hhead := honly node ⟨.peer src, msg⟩ (by rw [hrest]; exact List.mem_cons_self)
        cases hhead
      | request | timeout => rfl
    have hearly := Cluster.early_of_reach ⟨ls, hr⟩
    refine ⟨as, c', ?_, hquiet.next hmoves hask hm ?_, honly.next (feeds_of_moves hmoves) ht⟩
    · refine hm.run.occurs.mono ?_
      rintro s a ⟨-, before, after, heq, -⟩
      exact hdelivers a (by rw [heq]; simp)
    · exact fun a c'' hn' => Cluster.answers_eq_nil (fun i _ _ => (hearly.nodes i).not_isLeader) hn'
  obtain ⟨ls, c, hrun, hquiet, -⟩ := hsim
  exact ⟨c, ⟨ls, hrun⟩, hquiet⟩

/-- **A deployment that never serves.**  If the timers of all running nodes fire before the first
message between nodes gets through, as may happen where connections take longer than election
timeouts, then whatever the connections do later, and whatever clients ask for, all running nodes
stay candidates of term 1, and no client is ever told anything. -/
theorem deployed_deadlock {peerAddresses : NodeId → List NodeId} {ts' : List Task}
    (hpeers : ∀ i, ∀ peer ∈ peerAddresses i, peer ∈ ids)
    (h : (machine σ ids).Run (Machine.both ClientsAsk fun _ t => t.forwards = false)
      (init ids peerAddresses stateMachine) ts w)
    (hstood : ∀ i ∈ ids, w.crashed i = false → (w.nodes i).state.isCandidate = true)
    (h' : (machine σ ids).Run ClientsAsk w ts' w') :
    (∀ i ∈ ids, w'.crashed i = false → (w'.nodes i).Stands 1) ∧
      ∀ client msg, ¬ w'.Tells client msg := by
  obtain ⟨c, hreach, hquiet⟩ := quiet_of_run hpeers h
  have hgrid : Cluster.Gridlocked ids 1 c := by
    refine Cluster.gridlocked_of_early hreach fun i hi hc => ?_
    rw [hquiet.simulates.crashed] at hc
    rw [hquiet.simulates.nodes]
    exact hstood i hi hc
  have hv : Cluster.Visited ids stateMachine (fun _ _ => True) c := by
    obtain ⟨ls, hrun⟩ := hreach
    exact Cluster.visited_of_reach ⟨ls, hrun.mono fun _ _ _ => trivial⟩
  let rel : List Task → Deployment σ → List Action → Cluster σ → Prop := fun _ w _ c =>
    Quiet ids w c
  have hsim : ∃ ls c', (Cluster.machine σ ids).Run Cluster.AtMostOnce c ls c' ∧
      rel ts' w' ls c' := by
    refine h'.simulate rel hquiet ?_
    intro ts w t w' ls c' hquiet hr hask hn
    have hmoves := moves_of_next hn
    obtain ⟨as, c'', hm⟩ := hquiet.simulates.next hquiet.wired hquiet.requested hmoves
    have hgrid' := hgrid.reach hv ⟨ls, hr⟩
    exact ⟨as, c'', hm.run, hquiet.next hmoves hask hm fun a d hn' => hgrid'.answers hn'⟩
  obtain ⟨ls, c', hrun, hquiet'⟩ := hsim
  have hgrid' := hgrid.reach hv ⟨ls, hrun⟩
  refine ⟨fun i hi hc => ?_, hquiet'.silent⟩
  rw [← hquiet'.simulates.nodes]
  exact hgrid'.nodes i hi (by rw [hquiet'.simulates.crashed]; exact hc)

/-- The timers fire while node 1 still dials. -/
theorem deployed_deadlock_dialing : ∃ w : Deployment SimpleStateMachine,
    w.toDial 1 = [3] ∧
      ∀ ts w', (machine SimpleStateMachine [1, 2, 3]).Run ClientsAsk w ts w' →
      (∀ i ∈ [1, 2, 3], w'.crashed i = false → (w'.nodes i).Stands 1) ∧
        ∀ client msg, ¬ w'.Tells client msg := by
  have hrun : ((machine SimpleStateMachine [1, 2, 3]).exec
      (Machine.both ClientsAsk fun _ t => t.forwards = false)
      (init [1, 2, 3] (fun _ => [1, 2, 3]) fun _ => .new)
      [.dial 1 [], .dial 1 [true], .identify 2 1, .timeout 2, .dispatch 2, .timeout 3,
        .identify 1 2, .welcome 1 7, .submit 1 7 (.clientRequest ⟨.set "x" "1", 7, 1⟩),
        .serve 1 [1, 2, 3] none, .timeout 1]).any
      (fun w => decide (w.toDial 1 = [3] ∧ ∀ i ∈ ([1, 2, 3] : List NodeId), w.crashed i = false →
        (w.nodes i).state.isCandidate = true)) = true := by
    decide
  obtain ⟨w, hw, hdial, hstood⟩ := Machine.exists_run_of_exec hrun
  exact ⟨w, hdial, fun ts w' hw' => deployed_deadlock (fun _ _ hpeer => hpeer) hw hstood hw'⟩

end Deployment

end MiniRaft
