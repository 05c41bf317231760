import MiniRaft.Cluster.Receipts
import MiniRaft.Network.Store

/-!
# The replies of a deployment

Where one node's timer is quicker than all others, what clients are handed comes from one channel,
that of the leader's dispatcher, which may drop messages but keeps their order.  So the replies of
all connections together are those to a part of the leader's log, in its order, and no `Set` is
confirmed twice.

* `Deployment.deployed_replies` : this, for any state machine.
-/

namespace MiniRaft

variable {σ : Type}

/-- What the writer of a client is handed for an entry of the log. -/
def LogEntry.reply (entry : LogEntry) : ClientId × Message := messageOf entry.receipt

namespace Cluster

variable [StateMachine σ] {ids : List NodeId} {stateMachine : NodeId → σ} {l : NodeId}
  {c c' : Cluster σ} {a : Action} {ls : List Action}

theorem OthersFollow.answers (h : OthersFollow l c) (hn : Cluster.next ids c a = some c')
    (hactor : c.actor a ≠ some l) : c.answers a = [] := by
  rw [List.eq_nil_iff_forall_not_mem]
  rintro ⟨id, response⟩ hmem
  obtain ⟨-, i, entry, hi, -, -, hfor⟩ := answersFor_of_next hn hmem
  have hleads := hfor.leader
  rw [h.nodes i fun hil => hactor (hil ▸ hi)] at hleads
  cases hleads

theorem othersFollow_of_run (h : (machine σ ids).Run (Steady l) (init ids stateMachine) ls c) :
    OthersFollow l c :=
  h.invariant ⟨fun _ _ => rfl, fun _ _ h => h.elim⟩ fun _ _ _ hfollow hsteady hn =>
    hfollow.next hsteady hn

theorem emitted_answersBy (h : (machine σ ids).Run (Steady l) (init ids stateMachine) ls c) :
    (machine σ ids).emitted (answersBy l) (init ids stateMachine) ls =
      (machine σ ids).emitted answers (init ids stateMachine) ls := by
  induction h with
  | nil => rfl
  | @snoc c c' ls a hrun _ hn ih =>
    rw [hrun.emitted_snoc hn, hrun.emitted_snoc hn, ih, answersBy]
    split_ifs with hactor
    · rfl
    · rw [(othersFollow_of_run hrun).answers hn hactor]

end Cluster

namespace Deployment

open Server

variable [StateMachine σ] {ids : List NodeId} {stateMachine : NodeId → σ} {l : NodeId}
  {w w' : Deployment σ} {t : Task} {ts : List Task} {c c' : Cluster σ}

omit [StateMachine σ] in
/-- Only the node `l` has messages for clients, and these, behind those that clients have been
handed, are a part of the answers in their order. -/
structure InOrder (l : NodeId) (answers : List (ClientId × ClientResponse)) (w : Deployment σ) :
    Prop where
  others : ∀ j ≠ l, w.toClients j = []
  handed : (w.replies ++ w.toClients l).Sublist (answers.map messageOf)

/-- **One step.** -/
theorem InOrder.next {answers : List (ClientId × ClientResponse)} {as : List Action}
    (h : InOrder l answers w) (hm : Mirrors ids w t w' c as c')
    (hfollow : Cluster.OthersFollow l c) :
    InOrder l (answers ++ (Cluster.machine σ ids).emitted Cluster.answers c as) w' := by
  obtain ⟨node, hactor, hothers, told, hreplies, hsub⟩ := hm.hands
  by_cases hl : node = l
  · subst hl
    refine ⟨fun j hj => (hothers j hj).trans (h.others j hj), ?_⟩
    have hhanded := h.handed.append (List.Sublist.refl
      (((Cluster.machine σ ids).emitted Cluster.answers c as).map messageOf))
    rw [hreplies, List.map_append, List.append_assoc]
    rw [List.append_assoc] at hhanded
    exact ((List.Sublist.refl w.replies).append hsub).trans hhanded
  · -- another node answers nobody, and has nothing to hand over
    have hsilent : (Cluster.machine σ ids).emitted Cluster.answers c as = [] := by
      obtain rfl | ⟨a, rfl⟩ := hm.performs.eq_nil_or_singleton
      · rfl
      · have hn := hm.run.of_singleton.2
        rw [Machine.emitted_singleton hn]
        refine hfollow.answers hn fun ha => hl ?_
        rw [hm.performs.actor List.mem_cons_self] at ha
        exact (hactor l ha).symm
    rw [hsilent, List.map_nil, h.others node hl, List.append_nil, List.sublist_nil,
      List.append_eq_nil_iff] at hsub
    obtain ⟨rfl, hnone⟩ := hsub
    refine ⟨fun j hj => ?_, ?_⟩
    · by_cases hj' : j = node
      · rw [hj', hnone]
      · rw [hothers j hj', h.others j hj]
    · rw [hreplies, List.append_nil, hothers l fun h => hl h.symm, hsilent, List.append_nil]
      exact h.handed

/-- **The deployed store confirms in order, and once.**  In every run of a deployment in which no
timer fires but that of one node and clients do nothing but ask, fewer than `2 ^ 31` times, what the
writers of clients have been handed, over all connections and in the order of time, are the
successes of a part of the entries that `l` has committed, in the order of its log.  Each of these
entries is a `Set` that has been asked for. -/
theorem deployed_replies {peerAddresses : NodeId → List NodeId}
    (hpeers : ∀ i, ∀ peer ∈ peerAddresses i, peer ∈ ids)
    (h : (machine σ ids).Run (Machine.both ClientsAsk (Steady l))
      (init ids peerAddresses stateMachine) ts w)
    (hreq : ts.countP Task.asks < 2 ^ 31) :
    ∃ answered : List LogEntry, w.replies = answered.map LogEntry.reply ∧
      answered.Sublist (w.nodes l).committed ∧
      answered.Pairwise (fun entry entry' => entry.index < entry'.index) ∧
      ∀ entry ∈ answered, (∃ key value, entry.command = .set key value) ∧ ∃ node client,
        .submit node client
          (.clientRequest ⟨entry.command, entry.clientId, entry.requestId⟩) ∈ ts := by
  let rel : List Task → Deployment σ → List Action → Cluster σ → Prop := fun ts w ls c =>
    Traced ids stateMachine ts w ls c ∧ InOrder l
      ((Cluster.machine σ ids).emitted Cluster.answers (Cluster.init ids stateMachine) ls) w
  have hsim : ∃ ls c, (Cluster.machine σ ids).Run
      (Machine.both Cluster.AtMostOnce (Cluster.Steady l)) (Cluster.init ids stateMachine) ls c ∧
        rel ts w ls c := by
    refine h.simulate rel ⟨.init hpeers, fun _ _ => rfl, List.nil_sublist _⟩ ?_
    rintro ts w t w' ls c ⟨htraced, hinOrder⟩ hr ⟨ht, hsteady⟩ hn
    have hmoves := moves_of_next hn
    obtain ⟨as, c', hm⟩ := htraced.simulates.next htraced.wired htraced.requested hmoves
    refine ⟨as, c', hm.within fun a => hsteady.action, ?_, ?_⟩
    · exact htraced.next (hr.mono fun _ _ hg => hg.1) hmoves ht hm
    · rw [hr.emitted_append]
      exact hinOrder.next hm (Cluster.othersFollow_of_run (hr.mono fun _ _ hg => hg.2))
  obtain ⟨ls, c, hrun, htraced, hinOrder⟩ := hsim
  have hrun := hrun.mono fun _ _ hg => hg.2
  have hcount : ls.countP Action.requests < 2 ^ 31 :=
    Nat.lt_of_le_of_lt (Nat.le_trans (Nat.le_add_right _ _) htraced.requests) hreq
  obtain ⟨hrun', -, -⟩ := Cluster.Stable.init.run hrun (by omega)
  obtain ⟨all, hemitted, hall⟩ := Cluster.exists_answered hrun' l
  have hhanded := (List.sublist_append_left w.replies (w.toClients l)).trans hinOrder.handed
  rw [← Cluster.emitted_answersBy hrun, hemitted, List.map_map] at hhanded
  obtain ⟨answered, hsub, hreplies⟩ := List.sublist_map_iff.1 hhanded
  obtain ⟨hordered, hminted⟩ := Cluster.minted_of_sublist (hrun'.mono fun _ _ hg => hg.1)
    ((hsub.trans hall).trans (List.take_sublist _ _))
  rw [← htraced.simulates.nodes]
  exact ⟨answered, hreplies, hsub.trans hall, hordered, fun entry hentry =>
    htraced.minted (hminted entry hentry)⟩

/-- Clients 7 and 8 are handed the success of their `Set`. -/
theorem deployed_replies_two : ∃ w : Deployment SimpleStateMachine, ∃ answered : List LogEntry,
    answered.map LogEntry.reply =
      [(7, .clientResponse (.setSuccess 1)), (8, .clientResponse (.setSuccess 1))] ∧
      answered.Sublist (w.nodes 1).committed ∧
      answered.Pairwise fun entry entry' => entry.index < entry'.index := by
  have hrun : ((machine SimpleStateMachine [1, 2, 3]).exec (Machine.both ClientsAsk (Steady 1))
      (init [1, 2, 3] (fun _ => [1, 2, 3]) fun _ => .new)
      [.dial 1 [], .dial 1 [true], .identify 1 2, .identify 2 1, .dial 1 [true], .identify 3 1,
        .identify 1 3, .timeout 1, .dispatch 1, .forward 3, .serve 2 [1, 2, 3] none, .dispatch 2,
        .forward 2, .forward 0, .serve 3 [1, 2, 3] none, .dispatch 3, .forward 1,
        .serve 1 [1, 2, 3] none, .serve 1 [1, 2, 3] none, .dispatch 1, .dispatch 1, .welcome 1 7,
        .submit 1 7 (.clientRequest ⟨.set "x" "1", 7, 1⟩), .serve 1 [1, 2, 3] none, .dispatch 1,
        .forward 3, .forward 3, .forward 3, .serve 2 [1, 2, 3] none, .serve 2 [1, 2, 3] none,
        .serve 2 [1, 2, 3] none, .dispatch 2, .dispatch 2, .forward 2, .forward 2,
        .serve 1 [1, 2, 3] none, .serve 1 [1, 2, 3] none, .dispatch 1, .dispatch 1, .welcome 1 8,
        .submit 1 8 (.clientRequest ⟨.set "y" "2", 8, 1⟩), .serve 1 [1, 2, 3] none, .dispatch 1,
        .dispatch 1, .forward 3, .forward 3, .serve 2 [1, 2, 3] none, .serve 2 [1, 2, 3] none,
        .dispatch 2, .dispatch 2, .forward 2, .forward 2, .serve 1 [1, 2, 3] none,
        .serve 1 [1, 2, 3] none, .dispatch 1, .dispatch 1]).any
      (fun w => decide (w.replies =
        [(7, .clientResponse (.setSuccess 1)), (8, .clientResponse (.setSuccess 1))])) = true := by
    decide
  obtain ⟨w, hw, hhanded⟩ := Machine.exists_run_of_exec hrun
  obtain ⟨answered, hreplies, hsub, hordered, -⟩ :=
    deployed_replies (fun _ _ hpeer => hpeer) hw (by decide)
  exact ⟨w, answered, by rw [← hreplies, hhanded], hsub, hordered⟩

end Deployment

end MiniRaft
