import MiniRaft.Cluster.Replicas

/-!
# What a client may rely on

In the runs of state machine safety, the entry of a `Set` that has been answered with success is at
its index wherever and whenever a node regards this index as committed, whichever leaders come and
nodes crash afterwards.  The order of the entries is that of the answers: what a client asks for
after it has seen an answer is committed behind the entry answered.

* `Cluster.acknowledged_sets_survive` : what is acknowledged is never lost.
* `Cluster.acknowledged_sets_ordered` : the log respects the order of answers and requests.
-/

namespace MiniRaft

open Consensus

variable {σ : Type}

namespace Cluster

open Server

variable {ids : List NodeId} {c c' : Cluster σ} {R : Reigns LogEntry} {a : Action}

/-- The entry is in the log of every node that regards its index as committed. -/
def Lasting (c : Cluster σ) (entry : LogEntry) : Prop :=
  ∀ j, (entry.index : ℤ) ≤ (c.nodes j).commitIndex → (c.nodes j).log[entry.index]? = some entry

/-- A leader has committed up to the entry. -/
def CommittedAt (c : Cluster σ) (entry : LogEntry) : Prop :=
  ∃ q T log, .committed q T entry.index log ∈ c.history ∧ log[entry.index]? = some entry

theorem CommittedAt.later {entry : LogEntry} (h : CommittedAt c entry) (hl : c.Later c') :
    CommittedAt c' entry := by
  obtain ⟨q, T, log, hev, hentry⟩ := h
  exact ⟨q, T, log, hl.history.subset hev, hentry⟩

/-- A leader that appends an entry has put it nowhere before: its reign has not come to this
index. -/
theorem Mints.fresh {entry : LogEntry} (h : c.Mints a entry) (hR : Reigned R c)
    (hrun : ∀ node client req order cut, a = .request node client req order cut →
      c.crashed node = false)
    {l : List LogEntry} (hl : Rooted LogEntry.term R l) : l[entry.index]? ≠ some entry := by
  intro hentry
  cases h with
  | set hleads hcmd =>
    obtain ⟨r, hr, hlog⟩ := hR.leader _ hleads (hrun _ _ _ _ _ rfl)
    obtain ⟨r', hr', -, hpre⟩ := hl _ _ hentry
    rw [hr, Option.some.injEq] at hr'
    subst hr'
    -- the reign is the leader's log, and ends before the index
    have hlt := (List.getElem?_eq_some_iff.1 hentry).1
    have hle := hpre.length_le
    rw [← hlog, List.length_take] at hle
    dsimp only at hlt hle
    omega

variable [StateMachine σ] {stateMachine : NodeId → σ} {ls : List Action}

theorem committed_of_answer (h : (machine σ ids).Run (Short ids) (init ids stateMachine) ls c)
    (hshort : Short ids c a) (hn : next ids c a = some c') {id : ClientId}
    {response : ClientResponse} (hans : (id, response) ∈ c.answers a) :
    ∃ entry, MintedIn ids stateMachine ls entry ∧ entry.clientId = id ∧
      response = .setSuccess entry.requestId ∧ CommittedAt c' entry := by
  obtain ⟨i, entry, -, hminted, hfor, hresponse, hcommit⟩ := mintedIn_of_answer h hshort hn hans
  have hev := committed_of_next hn hfor.leader hfor.leads hfor.lt
  rw [hcommit] at hev
  have hlog := ((visited_occurs h).sound (fun _ _ hg => hg.1) i).log
  refine ⟨entry, hminted, hfor.client, hresponse, i, _, _, hev, ?_⟩
  rw [hfor.log, hlog.index _ _ hfor.holds]
  exact hfor.holds

/-- **What a leader has committed stays** where it is, in every later cluster. -/
theorem CommittedAt.lasting {G : Cluster σ → Action → Prop}
    (hG : ∀ (c : Cluster σ) a, G c a → Sharing ids c a) (hv : Visited ids stateMachine G c)
    {entry : LogEntry} (h : CommittedAt c entry) : Lasting c entry := by
  intro j hj
  obtain ⟨q, T, log, hev, hentry⟩ := h
  obtain ⟨R, hR, hmem, hsafe⟩ := hv.safe hG
  have hsettled := hmem.settled hG hR hv hev
  rw [← hentry]
  exact (hsafe.nodes j).getElem?_eq hR hmem hsettled hj (Int.le_refl _)

/-- **Acknowledged sets survive.**  Whenever a client is answered in a run of state machine safety,
it is the success of a `Set` of this client, and from then on the entry of this `Set` is in the log
of every node that regards its index as committed, under any loss, duplication and reordering of
messages, any crashes and any elections within the guard. -/
theorem acknowledged_sets_survive
    (h : (machine σ ids).Run (Sharing ids) (init ids stateMachine) ls c) (hg : Sharing ids c a)
    (hn : next ids c a = some c') {id : ClientId} {response : ClientResponse}
    (hans : (id, response) ∈ c.answers a) :
    ∃ entry, MintedIn ids stateMachine ls entry ∧ entry.clientId = id ∧
      response = .setSuccess entry.requestId ∧
      ∀ d, (machine σ ids).Reach (Sharing ids) c' d → Lasting d entry := by
  have hshort : (machine σ ids).Run (Short ids) (init ids stateMachine) ls c :=
    h.mono fun _ _ hg => hg.1.1.1
  obtain ⟨entry, hminted, hclient, hresponse, hcommitted⟩ :=
    committed_of_answer hshort hg.1.1.1 hn hans
  refine ⟨entry, hminted, hclient, hresponse, fun d hd => ?_⟩
  have hreach : (machine σ ids).Reach (Sharing ids) (init ids stateMachine) c' :=
    ⟨_, h.snoc hg hn⟩
  exact (hcommitted.later (later_of_reach hd)).lasting (fun _ _ hg => hg)
    (visited_of_reach (hreach.trans hd))

/-- Node 2 hears that the entry is committed after client 1 has been answered. -/
theorem acknowledged_sets_survive_heartbeat : ∃ c d : Cluster SimpleStateMachine, ∃ entry,
    (1, .setSuccess 1) ∈ c.answers (.receive [1, 2, 3] 12) ∧ entry.clientId = 1 ∧
      (d.nodes 2).commitIndex = 0 ∧ Lasting d entry := by
  have hrun : ((machine SimpleStateMachine [1, 2, 3]).exec (Sharing [1, 2, 3])
      (init [1, 2, 3] fun _ => .new)
      [.timeout 1, .receive [1, 2, 3] 0, .receive [1, 2, 3] 1, .receive [1, 2, 3] 2,
        .receive [1, 2, 3] 3, .set [1, 2, 3] 1 "x" "1", .receive [1, 2, 3] 8]).any
      (fun c => decide (Sharing [1, 2, 3] c (.receive [1, 2, 3] 12) ∧
        (1, .setSuccess 1) ∈ c.answers (.receive [1, 2, 3] 12) ∧
        (next [1, 2, 3] c (.receive [1, 2, 3] 12)).any (fun c' =>
          ((machine SimpleStateMachine [1, 2, 3]).exec (Sharing [1, 2, 3]) c'
            [.timeout 1, .receive [1, 2, 3] 13]).any
            (fun d => decide ((d.nodes 2).commitIndex = 0))) = true)) = true := by
    decide
  obtain ⟨c, hc, hg, hans, hlater⟩ := Machine.exists_run_of_exec hrun
  obtain ⟨c', hn, hlater⟩ := (Option.any_eq_true _ _).1 hlater
  obtain ⟨d, hd, hcommit⟩ := Machine.exists_reach_of_exec hlater
  obtain ⟨entry, -, hclient, -, hlasting⟩ := acknowledged_sets_survive hc hg hn hans
  exact ⟨c, d, entry, hans, hclient, hcommit, hlasting d hd⟩

/-- **Real time.**  When a client is answered in a run of state machine safety, every entry that a
leader appends afterwards and that a node comes to regard as committed stands behind the entry of
the answered `Set`. -/
theorem acknowledged_sets_ordered
    (h : (machine σ ids).Run (Sharing ids) (init ids stateMachine) ls c) (hg : Sharing ids c a)
    (hn : next ids c a = some c') {id : ClientId} {response : ClientResponse}
    (hans : (id, response) ∈ c.answers a) :
    ∃ entry, MintedIn ids stateMachine ls entry ∧ entry.clientId = id ∧
      response = .setSuccess entry.requestId ∧
      ∀ d b d' entry' e, (machine σ ids).Reach (Sharing ids) c' d → d.Mints b entry' →
        Sharing ids d b → next ids d b = some d' → (machine σ ids).Reach (Sharing ids) d' e →
        ∀ j, (entry'.index : ℤ) ≤ (e.nodes j).commitIndex →
          (e.nodes j).log[entry'.index]? = some entry' → entry.index < entry'.index := by
  have hshort : (machine σ ids).Run (Short ids) (init ids stateMachine) ls c :=
    h.mono fun _ _ hg => hg.1.1.1
  obtain ⟨entry, hminted, hclient, hresponse, q, T, log, hev, -⟩ :=
    committed_of_answer hshort hg.1.1.1 hn hans
  refine ⟨entry, hminted, hclient, hresponse, ?_⟩
  intro d b d' entry' e hd hmints hgd hnd he j hj hentry'
  by_contra hnot
  have hreach : (machine σ ids).Reach (Sharing ids) (init ids stateMachine) d :=
    Machine.Reach.trans ⟨_, h.snoc hg hn⟩ hd
  have hreach' : (machine σ ids).Reach (Sharing ids) (init ids stateMachine) e :=
    Machine.Reach.trans (hreach.trans ⟨[b], .snoc .nil hgd hnd⟩) he
  have hevd := (later_of_reach hd).history.subset hev
  have heve := (later_of_reach he).history.subset ((later_of_next hnd).history.subset hevd)
  -- if it stood before, what was answered would have been committed on top of it
  have hheld : log[entry'.index]? = some entry' := by
    obtain ⟨R, hR, hmem, hsafe⟩ := (visited_of_reach hreach').safe fun _ _ hg => hg
    have hsettled := hmem.settled (fun _ _ hg => hg) hR (visited_of_reach hreach') heve
    rw [← hentry']
    exact hsettled.getElem?_eq hR hmem (hsafe.nodes j) (by omega) hj
  -- but then it was in a log already when it was appended
  obtain ⟨R, hR, hmem, -⟩ := (visited_of_reach hreach).safe fun _ _ hg => hg
  obtain ⟨r, hr, hpre⟩ := hmem.committed hevd
  refine hmints.fresh hR ?_ ((hR.lawful.rooted_log hr).of_isPrefix hpre) hheld
  rintro node client req order cut rfl
  exact (turn_of_act hnd).2.1

/-- After client 1 has been answered, it asks for another `Set`, which is committed, too. -/
theorem acknowledged_sets_ordered_second : ∃ e : Cluster SimpleStateMachine,
    ∃ entry entry' : LogEntry, (e.nodes 1).log[entry'.index]? = some entry' ∧
      entry'.command = .set "y" "2" ∧ entry.index < entry'.index := by
  let again : Action := .set [1, 2, 3] 1 "y" "2"
  let entry' : LogEntry := ⟨1, .set "y" "2", 1, 1, 1⟩
  have hrun : ((machine SimpleStateMachine [1, 2, 3]).exec (Sharing [1, 2, 3])
      (init [1, 2, 3] fun _ => .new)
      [.timeout 1, .receive [1, 2, 3] 0, .receive [1, 2, 3] 1, .receive [1, 2, 3] 2,
        .receive [1, 2, 3] 3, .set [1, 2, 3] 1 "x" "1", .receive [1, 2, 3] 8]).any
      (fun c => decide (Sharing [1, 2, 3] c (.receive [1, 2, 3] 12) ∧
        (1, .setSuccess 1) ∈ c.answers (.receive [1, 2, 3] 12) ∧
        (next [1, 2, 3] c (.receive [1, 2, 3] 12)).any (fun d => decide (
          (d.nodes 1).state.isLeader = true ∧ (d.nodes 1).currentTerm = 1 ∧
          (d.nodes 1).log.length = 1 ∧ Sharing [1, 2, 3] d again ∧
          (next [1, 2, 3] d again).any (fun d' =>
            ((machine SimpleStateMachine [1, 2, 3]).exec (Sharing [1, 2, 3]) d'
              [.receive [1, 2, 3] 13, .receive [1, 2, 3] 17]).any
              (fun e => decide ((e.nodes 1).commitIndex = 1 ∧
                (e.nodes 1).log[1]? = some entry'))) = true)) = true)) = true := by
    decide
  obtain ⟨c, hc, hg, hans, hlater⟩ := Machine.exists_run_of_exec hrun
  obtain ⟨d, hn, hlater⟩ := (Option.any_eq_true _ _).1 hlater
  obtain ⟨hleads, hterm, hlength, hgd, hlater⟩ := of_decide_eq_true hlater
  obtain ⟨d', hnd, hlater⟩ := (Option.any_eq_true _ _).1 hlater
  obtain ⟨e, he, hcommit, hentry'⟩ := Machine.exists_reach_of_exec hlater
  have hmints : d.Mints again entry' := by
    have h : d.Mints (.request 1 1 ⟨.set "y" "2", 1, 1⟩ [1, 2, 3] none) _ := .set hleads rfl
    rw [hterm, hlength] at h
    exact h
  obtain ⟨entry, -, -, -, hordered⟩ := acknowledged_sets_ordered hc hg hn hans
  have hlt := hordered d again d' entry' e (.refl d) hmints hgd hnd he 1 (Int.le_of_eq hcommit.symm)
    hentry'
  exact ⟨e, entry, entry', hentry', rfl, hlt⟩

end Cluster

end MiniRaft
