import MiniRaft.Cluster.Steady

/-!
# What clients are told, in a whole run

A leader answers for the entry that it commits up to, so what a node answers in a run within the
guard of the committed prefix is a part of its log, in the order of the log, and no entry twice.
In the runs of state machine safety no two nodes answer for the same entry either: both would have
led its term.

* `Cluster.answers_in_order` : the answers of one node.
* `Cluster.answered_once` : the answers of all nodes.
-/

namespace MiniRaft

open Consensus

variable {σ : Type}

/-- The success that a client is told of, for an entry of the log. -/
def LogEntry.receipt (entry : LogEntry) : ClientId × ClientResponse :=
  (entry.clientId, .setSuccess entry.requestId)

namespace Server

/-- The log up to `commit_index`. -/
def committed (s : Server σ) : List LogEntry := s.log.take (s.commitIndex + 1).toNat

theorem Extends.committed_eq {s s' : Server σ} (h : s.Extends s') :
    s.committed = s'.log.take (s.commitIndex + 1).toNat := by
  refine List.ext_getElem? fun k => ?_
  rw [committed, List.getElem?_take, List.getElem?_take]
  split_ifs with hk
  · exact (h.log k (by omega)).symm
  · rfl

end Server

namespace Cluster

open Server

variable {ids : List NodeId} {c c' : Cluster σ} {a : Action} {i : NodeId}

/-- The node has led the term of the entry, and has committed it. -/
structure LedTo (c : Cluster σ) (i : NodeId) (entry : LogEntry) : Prop where
  elected : ∃ log, .elected i entry.term log ∈ c.history
  committed : (entry.index : ℤ) ≤ (c.nodes i).commitIndex
  held : (c.nodes i).log[entry.index]? = some entry

theorem LedTo.later {entry : LogEntry} (h : LedTo c i entry) (hl : c.Later c')
    (hext : (c.nodes i).Extends (c'.nodes i)) : LedTo c' i entry where
  elected := by
    obtain ⟨log, hev⟩ := h.elected
    exact ⟨log, hl.history.subset hev⟩
  committed := h.committed.trans hext.commit
  held := (hext.log _ h.committed).trans h.held

variable [StateMachine σ] {stateMachine : NodeId → σ} {ls : List Action}

/-! ### One node -/

/-- What the node `i` answers in the step `a`. -/
def answersBy (i : NodeId) (c : Cluster σ) (a : Action) : List (ClientId × ClientResponse) :=
  if c.actor a = some i then c.answers a else []

theorem answers_cases (h : (machine σ ids).Run (Short ids) (init ids stateMachine) ls c)
    (hshort : Short ids c a) (hn : next ids c a = some c') : c.answers a = [] ∨
      ∃ i, ∃ entry : LogEntry, c.actor a = some i ∧ c.answers a = [entry.receipt] ∧
        (c.nodes i).commitIndex < (c'.nodes i).commitIndex ∧
        (c'.nodes i).commitIndex = entry.index ∧
        (c'.nodes i).log[entry.index]? = some entry ∧
        (c'.nodes i).state.isLeader = true ∧ (c'.nodes i).currentTerm = entry.term := by
  rcases List.eq_nil_or_concat (c.answers a) with hnil | ⟨rest, ⟨id, response⟩, hsome⟩
  · exact .inl hnil
  · have hans : (id, response) ∈ c.answers a := by
      rw [hsome, List.concat_eq_append]
      exact List.mem_concat_self
    obtain ⟨honly, -⟩ := answersFor_of_next hn hans
    obtain ⟨i, entry, hactor, -, hfor, hresponse, hcommit⟩ := mintedIn_of_answer h hshort hn hans
    refine .inr ⟨i, entry, hactor, ?_, hfor.lt, hcommit, ?_, hfor.leads, ?_⟩
    · rw [honly, LogEntry.receipt, hresponse, hfor.client]
    · have hlog := ((visited_occurs h).sound (fun _ _ hg => hg.1) i).log
      rw [hfor.log, hlog.index _ _ hfor.holds]
      exact hfor.holds
    · rw [hfor.sameTerm, hfor.term]

/-- **One node.**  What it answers in a run within the guard of the committed prefix is a part of
its committed log, in this order. -/
theorem exists_answered
    (h : (machine σ ids).Run (Machine.both (Short ids) (NoConflict σ)) (init ids stateMachine) ls c)
    (i : NodeId) : ∃ answered : List LogEntry,
      (machine σ ids).emitted (answersBy i) (init ids stateMachine) ls =
          answered.map LogEntry.receipt ∧ answered.Sublist (c.nodes i).committed := by
  induction h with
  | nil => exact ⟨[], rfl, List.nil_sublist _⟩
  | @snoc c c' ls a hrun hg hn ih =>
    obtain ⟨answered, hemitted, hsub⟩ := ih
    have hext := ((visited_of_reach ⟨ls, hrun⟩).next_extends (fun _ _ hg => hg.1)
      (fun _ _ hg => hg.2) hg hn i).2
    rw [hrun.emitted_snoc hn, hemitted, answersBy]
    rw [hext.committed_eq] at hsub
    -- most steps answer nobody
    have silent : ∃ answered' : List LogEntry, answered.map LogEntry.receipt ++ [] =
        answered'.map LogEntry.receipt ∧ answered'.Sublist (c'.nodes i).committed := by
      have hcommit := hext.commit
      refine ⟨answered, List.append_nil _, hsub.trans ?_⟩
      exact List.take_sublist_take_left (by omega)
    rcases answers_cases (hrun.mono fun _ _ hg => hg.1) hg.1 hn with
      hnil | ⟨j, entry, hactor, hanswers, hlt, hcommit, hentry, -⟩
    · rw [hnil, ite_self]
      exact silent
    · by_cases hj : j = i
      · subst hj
        rw [if_pos hactor, hanswers]
        refine ⟨answered ++ [entry], by rw [List.map_append, List.map_singleton], ?_⟩
        have hcommitted : (c'.nodes j).committed = (c'.nodes j).log.take (entry.index + 1) := by
          rw [committed, hcommit]
          rfl
        rw [hcommitted, List.take_add_one, hentry, Option.toList_some]
        refine (hsub.trans ?_).append (List.Sublist.refl [entry])
        exact List.take_sublist_take_left (by omega)
      · rw [if_neg (by rw [hactor]; simpa using hj)]
        exact silent

theorem minted_of_sublist (h : (machine σ ids).Run (Short ids) (init ids stateMachine) ls c)
    {entries : List LogEntry} (hsub : entries.Sublist (c.nodes i).log) :
    entries.Pairwise (fun entry entry' => entry.index < entry'.index) ∧
      ∀ entry ∈ entries, MintedIn ids stateMachine ls entry := by
  have hv := visited_occurs h
  have hlog := (hv.sound (fun _ _ hg => hg.1) i).log
  refine ⟨.sublist hsub ?_, fun entry hentry => ?_⟩
  · -- every entry stands at its index
    rw [List.pairwise_iff_getElem]
    intro k k' hk hk' hlt
    have hindex := hlog.index k _ (List.getElem?_eq_getElem hk)
    have hindex' := hlog.index k' _ (List.getElem?_eq_getElem hk')
    rw [hindex, hindex']
    exact hlt
  · exact (preserved_minted.visited hv).1 i entry (hsub.subset hentry)

/-- **Answers in order.**  What a node answers in a run within the guard of the committed prefix is
what it has committed for clients, no entry twice and in the order of its log, as far as it answers
at all. -/
theorem answers_in_order
    (h : (machine σ ids).Run (Machine.both (Short ids) (NoConflict σ)) (init ids stateMachine) ls c)
    (i : NodeId) : ∃ answered : List LogEntry,
      (machine σ ids).emitted (answersBy i) (init ids stateMachine) ls =
          answered.map LogEntry.receipt ∧
        answered.Sublist (c.nodes i).committed ∧
        answered.Pairwise (fun entry entry' => entry.index < entry'.index) ∧
        ∀ entry ∈ answered, MintedIn ids stateMachine ls entry := by
  obtain ⟨answered, hemitted, hsub⟩ := exists_answered h i
  exact ⟨answered, hemitted, hsub,
    minted_of_sublist (h.mono fun _ _ hg => hg.1) (hsub.trans (List.take_sublist _ _))⟩

/-- Node 1, elected by a vote that is delivered twice, answers two clients. -/
theorem answers_in_order_two : ∃ c : Cluster SimpleStateMachine, ∃ answered : List LogEntry,
    answered.map LogEntry.receipt = [(7, .setSuccess 1), (8, .setSuccess 1)] ∧
      answered.Sublist (c.nodes 1).committed ∧
      answered.Pairwise fun entry entry' => entry.index < entry'.index := by
  let ls : List Action := [.timeout 1, .receive [1, 2, 3] 0, .receive [1, 2, 3] 2,
    .receive [1, 2, 3] 2, .request 1 7 ⟨.set "x" "1", 7, 1⟩ [1, 2, 3] none, .receive [1, 2, 3] 7,
    .receive [1, 2, 3] 11, .request 1 8 ⟨.set "y" "2", 8, 1⟩ [1, 2, 3] none, .receive [1, 2, 3] 12,
    .receive [1, 2, 3] 16]
  have hrun : ((machine SimpleStateMachine [1, 2, 3]).exec
      (Machine.both (Short [1, 2, 3]) (NoConflict SimpleStateMachine))
      (init [1, 2, 3] fun _ => .new) ls).any
      (fun c => decide ((c.nodes 1).state.isLeader = true)) = true := by
    decide
  have hanswers : (machine SimpleStateMachine [1, 2, 3]).emitted (answersBy 1)
      (init [1, 2, 3] fun _ => .new) ls = [(7, .setSuccess 1), (8, .setSuccess 1)] := by
    decide
  obtain ⟨c, hc, -⟩ := Machine.exists_run_of_exec hrun
  obtain ⟨answered, hemitted, hsub, hordered, -⟩ := answers_in_order hc 1
  exact ⟨c, answered, by rw [← hemitted, hanswers], hsub, hordered⟩

/-! ### All nodes -/

namespace LedTo

variable {entry entry' : LogEntry} {j : NodeId}

theorem unique (hv : Visited ids stateMachine (Sharing ids) c) (h : LedTo c i entry)
    (h' : LedTo c j entry') (hindex : entry.index = entry'.index) : i = j := by
  obtain ⟨R, hR, hmem, hsafe⟩ := hv.safe fun _ _ hg => hg
  have hsame := (hsafe.nodes i).getElem?_eq hR hmem (hsafe.nodes j) h.committed
    (hindex ▸ h'.committed)
  have hheld' := h'.held
  rw [← hindex, ← hsame, h.held, Option.some.injEq] at hheld'
  subst hheld'
  obtain ⟨log, hev⟩ := h.elected
  obtain ⟨log', hev'⟩ := h'.elected
  exact (hv.elections fun _ _ hg => hg.1.1.2.1).unique hev hev'

theorem lasting (hv : Visited ids stateMachine (Sharing ids) c) (h : LedTo c i entry) :
    Lasting c entry := by
  intro j hj
  obtain ⟨R, hR, hmem, hsafe⟩ := hv.safe fun _ _ hg => hg
  rw [← h.held]
  exact (hsafe.nodes j).getElem?_eq hR hmem (hsafe.nodes i) hj h.committed

end LedTo

/-- **All nodes.**  In a run of state machine safety no index is answered for twice. -/
theorem exists_answered_once (h : (machine σ ids).Run (Sharing ids) (init ids stateMachine) ls c) :
    ∃ answered : List LogEntry,
      (machine σ ids).emitted answers (init ids stateMachine) ls =
          answered.map LogEntry.receipt ∧
        (answered.map LogEntry.index).Nodup ∧ ∀ entry ∈ answered, ∃ i, LedTo c i entry := by
  induction h with
  | nil => exact ⟨[], rfl, List.nodup_nil, fun _ hentry => by cases hentry⟩
  | @snoc c c' ls a hrun hg hn ih =>
    obtain ⟨answered, hemitted, hnodup, hled⟩ := ih
    have hv : Visited ids stateMachine (Sharing ids) c := visited_of_reach ⟨ls, hrun⟩
    have hv' := visited_of_next hv hg hn
    have hkept : Visited ids stateMachine (Machine.both (Short ids) (NoConflict σ)) c :=
      visited_of_reach ⟨ls, run_noConflict hrun⟩
    have hextends := hkept.next_extends (fun _ _ hg => hg.1) (fun _ _ hg => hg.2)
      ⟨hg.1.1.1, hv.noConflict (fun _ _ hg => hg) hg⟩ hn
    have hled' : ∀ entry ∈ answered, ∃ i, LedTo c' i entry := by
      intro entry hentry
      obtain ⟨i, hi⟩ := hled entry hentry
      exact ⟨i, hi.later (later_of_next hn) (hextends i).2⟩
    rw [hrun.emitted_snoc hn, hemitted]
    rcases answers_cases (hrun.mono fun _ _ hg => hg.1.1.1) hg.1.1.1 hn with
      hnil | ⟨i, entry, -, hanswers, hlt, hcommit, hentry, hleads, hterm⟩
    · rw [hnil, List.append_nil]
      exact ⟨answered, rfl, hnodup, hled'⟩
    · have hnew : LedTo c' i entry := by
        obtain ⟨log, hev⟩ := (hv'.elections fun _ _ hg => hg.1.1.2.1).leader i hleads
        rw [hterm] at hev
        exact ⟨⟨log, hev⟩, hcommit.ge, hentry⟩
      refine ⟨answered ++ [entry], ?_, ?_, ?_⟩
      · rw [hanswers, List.map_append, List.map_singleton]
      · rw [List.map_append, List.map_singleton, List.nodup_append]
        refine ⟨hnodup, List.nodup_singleton _, fun k hk k' hk' hsame => ?_⟩
        obtain ⟨entry', hentry', rfl⟩ := List.mem_map.1 hk
        rw [List.mem_singleton] at hk'
        subst hk'
        -- the same node has answered for it, but it has gone on since
        obtain ⟨j, hj⟩ := hled entry' hentry'
        obtain rfl := (hj.later (later_of_next hn) (hextends j).2).unique hv' hnew hsame
        have hle := hj.committed
        omega
      · intro entry' hentry'
        rcases List.mem_append.1 hentry' with hentry' | hentry'
        · exact hled' entry' hentry'
        · rw [List.mem_singleton] at hentry'
          exact ⟨i, hentry' ▸ hnew⟩

/-- **Answered once.**  In a run of state machine safety clients are told of minted entries, of no
two with the same index, whichever nodes lead and answer, and every entry that a client has been
told of is in the log of every node that regards its index as committed. -/
theorem answered_once (h : (machine σ ids).Run (Sharing ids) (init ids stateMachine) ls c) :
    ∃ answered : List LogEntry,
      (machine σ ids).emitted answers (init ids stateMachine) ls =
          answered.map LogEntry.receipt ∧
        (answered.map LogEntry.index).Nodup ∧
        ∀ entry ∈ answered, MintedIn ids stateMachine ls entry ∧ Lasting c entry := by
  obtain ⟨answered, hemitted, hnodup, hled⟩ := exists_answered_once h
  have hminted := (preserved_minted.visited (visited_occurs (h.mono fun _ _ hg => hg.1.1.1))).1
  refine ⟨answered, hemitted, hnodup, fun entry hentry => ?_⟩
  obtain ⟨i, hi⟩ := hled entry hentry
  exact ⟨hminted i entry (List.mem_of_getElem? hi.held), hi.lasting (visited_of_reach ⟨ls, h⟩)⟩

/-- Node 1 answers in term 1, and node 2 in term 2. -/
theorem answered_once_leaders : ∃ c : Cluster SimpleStateMachine, ∃ answered : List LogEntry,
    answered.map LogEntry.receipt = [(1, .setSuccess 1), (7, .setSuccess 1)] ∧
      (answered.map LogEntry.index).Nodup ∧ ∀ entry ∈ answered, Lasting c entry := by
  let ids : List NodeId := [1, 2, 3, 4, 5]
  let ls : List Action := [.timeout 1, .receive ids 1, .receive ids 2, .receive ids 3,
    .receive ids 4, .receive ids 5, .receive ids 6, .set ids 1 "x" "1", .receive ids 19,
    .receive ids 20, .receive ids 35, .receive ids 36, .timeout 2, .receive ids 38, .receive ids 39,
    .receive ids 40, .receive ids 41, .receive ids 42, .receive ids 43,
    .request 2 7 ⟨.set "y" "2", 7, 1⟩ ids none, .receive ids 57, .receive ids 56, .receive ids 72,
    .receive ids 73, .receive ids 74, .receive ids 75, .receive ids 75, .receive ids 76,
    .receive ids 77]
  have hrun : ((machine SimpleStateMachine ids).exec (Sharing ids) (init ids fun _ => .new) ls).any
      (fun c => decide ((c.nodes 2).state.isLeader = true)) = true := by
    decide
  have hanswers : (machine SimpleStateMachine ids).emitted answers (init ids fun _ => .new) ls =
      [(1, .setSuccess 1), (7, .setSuccess 1)] := by
    decide
  obtain ⟨c, hc, -⟩ := Machine.exists_run_of_exec hrun
  obtain ⟨answered, hemitted, hnodup, hall⟩ := answered_once hc
  exact ⟨c, answered, by rw [← hemitted, hanswers], hnodup, fun entry hentry =>
    (hall entry hentry).2⟩

end Cluster

end MiniRaft
