import MiniRaft.Cluster.Steady
import MiniRaft.Network.EndToEnd

/-!
# The deployed store

What the program as a whole is for, where one node's timer is quicker than all others: clients see a
store that is replicated.  However the tasks of the nodes are interleaved, and whichever connections
are late, fail or break, the stores of all nodes are what the requests of clients have made of them,
in one order, and what a client has been told is in the log of the leader.

* `Deployment.deployed_store` : this, for `SimpleStateMachine`.
-/

namespace MiniRaft

open Consensus

variable {σ : Type}

namespace Deployment

open Server

variable [StateMachine σ] {ids : List NodeId} {stateMachine : NodeId → σ} {l : NodeId}
  {w : Deployment σ} {ts : List Task} {ls : List Action} {c : Cluster σ}

omit [StateMachine σ] in
/-- No timer fires but that of the node `l`. -/
def Steady (l : NodeId) (_ : Deployment σ) (t : Task) : Prop := t.fires = true → t.actor = some l

instance (l : NodeId) (w : Deployment σ) (t : Task) : Decidable (Steady l w t) :=
  inferInstanceAs (Decidable (_ → _))

omit [StateMachine σ] in
theorem Steady.action {t : Task} {a : Action} (h : Steady l w t) (hactor : c.actor a = t.actor)
    (hfires : a.fires = t.fires) : Cluster.Steady l c a := by
  intro hf
  rw [hactor]
  exact h (hfires ▸ hf)

theorem Traced.minted (h : Traced ids stateMachine ts w ls c) {entry : LogEntry}
    (hminted : Cluster.MintedIn ids stateMachine ls entry) :
    (∃ key value, entry.command = .set key value) ∧ ∃ node client, .submit node client
      (.clientRequest ⟨entry.command, entry.clientId, entry.requestId⟩) ∈ ts := by
  obtain ⟨c₀, a₀, ⟨ls₀, ls₁, rfl, -⟩, hmints⟩ := hminted
  cases hmints with
  | @set node client req order cut key value _ hcmd =>
    exact ⟨⟨key, value, hcmd⟩, node, client, h.asked node client req order cut (by simp)⟩

theorem Traced.answered (h : Traced ids stateMachine ts w ls c)
    (hrun : (Cluster.machine σ ids).Run (Cluster.Steady l) (Cluster.init ids stateMachine) ls c)
    (hreq : ls.countP Action.requests < 2 ^ 31) {client : ClientId} {msg : Message}
    (htells : w.Tells client msg) : ∃ entry ∈ (c.nodes l).log, entry.clientId = client ∧
      msg = .clientResponse (.setSuccess entry.requestId) := by
  obtain ⟨response, rfl, c₁, a, c₂, ⟨before, after, rfl, hbefore⟩, hn, hanswers⟩ := h.told htells
  rw [List.countP_append] at hreq
  obtain ⟨c₁', hrun₁, hrun₂⟩ := hrun.of_append
  obtain rfl := hbefore.eq_of_run hrun₁
  obtain ⟨hshort, hstable, -⟩ := Cluster.Stable.init.run hrun₁ (by omega)
  have hguard : Cluster.Short ids c₁' a := fun i _ =>
    Nat.lt_of_le_of_lt (hstable.logs.nodes i) (by omega)
  obtain ⟨entry, -, hclient, rfl, hheld⟩ :=
    hstable.answer (hshort.mono fun _ _ hg => hg.1) hguard hn hanswers
  obtain ⟨-, -, hgrown⟩ := hstable.run hrun₂ (by omega)
  exact ⟨entry, List.mem_of_getElem? (getElem?_of_isPrefix hgrown hheld), hclient, rfl⟩

/-- **The deployed store.**  In every run of a deployment with `SimpleStateMachine` in which no
timer fires but that of one node and clients do nothing but ask, fewer than `2 ^ 31` times, there is
one sequence of entries, each of which a client has asked for, that holds whatever clients have been
told.  It is the log of `l`, if `l` still runs; the log of every node is a prefix of it, and the
store of a running node holds at every key what the last command for it has left, among the entries
that the node has applied. -/
theorem deployed_store {w : Deployment SimpleStateMachine} {peerAddresses : NodeId → List NodeId}
    (hpeers : ∀ i, ∀ peer ∈ peerAddresses i, peer ∈ ids)
    (h : (machine SimpleStateMachine ids).Run (Machine.both ClientsAsk (Steady l))
      (init ids peerAddresses fun _ => .new) ts w)
    (hreq : ts.countP Task.asks < 2 ^ 31) :
    ∃ entries : List LogEntry,
      (∀ entry ∈ entries, ∃ node client, .submit node client
        (.clientRequest ⟨entry.command, entry.clientId, entry.requestId⟩) ∈ ts) ∧
      (∀ client msg, (client, msg) ∈ w.replies → ∃ entry ∈ entries, entry.clientId = client ∧
        msg = .clientResponse (.setSuccess entry.requestId)) ∧
      (w.crashed l = false → (w.nodes l).log = entries) ∧
      ∀ i ∈ ids, (w.nodes i).log <+: entries ∧
        (w.crashed i = false → ∃ n ≤ (w.nodes i).log.length, (n : ℤ) = (w.nodes i).lastApplied + 1 ∧
          ∀ key, (w.nodes i).stateMachine.getValue key =
            (lastWrite LogCommand.writes ((entries.take n).map LogEntry.command) key).getD
              none) := by
  obtain ⟨ls, c, hrun, htraced⟩ := traced_within (Cluster.Steady l) hpeers
    (fun _ _ _ _ hsteady => hsteady.action) h
  have hrun := hrun.mono fun _ _ hg => hg.2
  have hcount : ls.countP Action.requests < 2 ^ 31 :=
    Nat.lt_of_le_of_lt (Nat.le_trans (Nat.le_add_right _ _) htraced.requests) hreq
  obtain ⟨entries, hminted, hpre, hown, hall⟩ := Cluster.exists_copied hrun hcount
  obtain ⟨hrun', -, -⟩ := Cluster.Stable.init.run hrun (by omega)
  rw [← htraced.simulates.nodes, ← htraced.simulates.crashed]
  refine ⟨entries, fun entry hentry => ?_, fun client msg hmem => ?_, hown, fun i hi => ?_⟩
  · obtain ⟨k, hk⟩ := List.mem_iff_getElem?.1 hentry
    exact (htraced.minted (hminted k entry hk).2).2
  · obtain ⟨entry, hentry, hanswer⟩ := htraced.answered hrun hcount (.inl hmem)
    exact ⟨entry, hpre.subset hentry, hanswer⟩
  · obtain ⟨hlog, n, hn, hlast, hexecuted⟩ := hall i hi
    refine ⟨hlog, fun hc => ⟨n, hn, hlast, fun key => ?_⟩⟩
    rw [← hexecuted, (Cluster.journaled_executed SimpleStateMachine.reliable hrun' hc).2]
    exact SimpleStateMachine.getValue_foldl _ key

/-- Client 7 is told of its `Set`, and the store of node 2 holds it. -/
theorem deployed_store_applied : ∃ w : Deployment SimpleStateMachine, ∃ entries : List LogEntry,
    (7, .clientResponse (.setSuccess 1)) ∈ w.replies ∧ (w.nodes 1).log = entries ∧
      (∃ entry ∈ entries, entry.clientId = 7) ∧ ∃ n ≤ (w.nodes 2).log.length,
        (w.nodes 2).stateMachine.getValue "x" = some "1" ∧ some "1" =
          (lastWrite LogCommand.writes ((entries.take n).map LogEntry.command) "x").getD none := by
  have hrun : ((machine SimpleStateMachine [1, 2, 3]).exec (Machine.both ClientsAsk (Steady 1))
      (init [1, 2, 3] (fun _ => [1, 2, 3]) fun _ => .new)
      [.dial 1 [], .dial 1 [true], .identify 1 2, .identify 2 1, .dial 1 [true], .identify 3 1,
        .identify 1 3, .timeout 1, .dispatch 1, .forward 3, .serve 2 [1, 2, 3] none, .dispatch 2,
        .forward 2, .forward 0, .serve 3 [1, 2, 3] none, .dispatch 3, .forward 1,
        .serve 1 [1, 2, 3] none, .serve 1 [1, 2, 3] none, .dispatch 1, .dispatch 1, .welcome 1 7,
        .submit 1 7 (.clientRequest ⟨.set "x" "1", 7, 1⟩), .serve 1 [1, 2, 3] none, .dispatch 1,
        .forward 3, .forward 3, .forward 3, .serve 2 [1, 2, 3] none, .serve 2 [1, 2, 3] none,
        .serve 2 [1, 2, 3] none, .dispatch 2, .dispatch 2, .forward 2, .forward 2,
        .serve 1 [1, 2, 3] none, .serve 1 [1, 2, 3] none, .dispatch 1, .dispatch 1,
        .timeout 1, .dispatch 1, .forward 3, .forward 3, .serve 2 [1, 2, 3] none,
        .serve 2 [1, 2, 3] none]).any
      (fun w => decide (w.crashed 1 = false ∧ w.crashed 2 = false ∧
        (7, .clientResponse (.setSuccess 1)) ∈ w.replies ∧
        (w.nodes 2).stateMachine.getValue "x" = some "1")) = true := by
    decide
  obtain ⟨w, hw, hruns, hruns', hmem, hvalue⟩ := Machine.exists_run_of_exec hrun
  obtain ⟨entries, -, htold, hown, hall⟩ := deployed_store (fun _ _ hpeer => hpeer) hw (by decide)
  obtain ⟨entry, hentry, hclient, -⟩ := htold _ _ hmem
  obtain ⟨-, hnode⟩ := hall 2 (by decide)
  obtain ⟨n, hn, -, hstore⟩ := hnode hruns'
  exact ⟨w, entries, hmem, hown hruns, ⟨entry, hentry, hclient⟩, n, hn, hvalue,
    by rw [← hstore, hvalue]⟩

end Deployment

end MiniRaft
