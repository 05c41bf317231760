import MiniRaft.Cluster.Election
import MiniRaft.Cluster.FollowerCrash

/-!
# Append-only leaders

`handle_append_entries` runs in every role, and a leader that accepts a message merges its entries
as a follower does.  While the logs are short a leader's log changes other than by its own appends
exactly when this happens with an entry that it does not hold; it takes a second leader of the
term.

* `Cluster.append_only_iff` : the runs in which leaders only append.
* `Cluster.append_only` : those in which each vote is given once and counted once are among them.
-/

namespace MiniRaft

variable {σ : Type}

namespace Server

/-- Every entry of the message is in the log already, as far as its term tells. -/
def Holds (s : Server σ) (msg : AppendEntries) : Prop :=
  ∀ entry ∈ msg.entries, ∃ x ∈ s.log[entry.index]?, x.term = entry.term

instance (s : Server σ) (msg : AppendEntries) : Decidable (s.Holds msg) :=
  inferInstanceAs (Decidable (∀ entry ∈ msg.entries, ∃ x ∈ s.log[entry.index]?, _))

variable [StateMachine σ]

theorem accepted_turn {s s' : Server σ} {ev : Select} {phases : List (Phase σ)} {nodeId : NodeId}
    {msg : AppendEntries} (hacc : s.Accepts msg) (hl : s.state.isLeader = true)
    (hin : ev.incoming = some ⟨.peer nodeId, .appendEntries msg⟩)
    (hpan : (s.handleAppendEntries (.peer nodeId) msg).panicked = false)
    (h : s.turn ev = some phases) (hend : (s :: passed phases).getLast? = some s') :
    s'.state.isLeader = true ∧ mergedLog s.log msg.entries = some s'.log := by
  have hens : (s.handleAppendEntries (.peer nodeId) msg).Ensures (s.Takes msg)
      (s.Emits ⟨.peer nodeId, .appendEntries msg⟩) := by
    rw [handleAppendEntries_of_accepts nodeId hacc]
    exact acceptAppendEntries_takes hacc rfl
  obtain ⟨order, o, ho, hphases⟩ := turn_handler hin h
  have hhandler : o.panicked = false ∧ s.Takes msg o.server := by
    rcases ho with ⟨-, rfl⟩ | ⟨k, -, hk⟩
    · exact ⟨hpan, hens.server hpan⟩
    · -- it is dropped at its reply, when the entries are in the log
      have hp : o.panicked = false := (cut_recieveRpc hk).2.2
      exact ⟨hp, (hens.cut hk).server hp⟩
  obtain ⟨hp, sm, ci, la, log, hmerge, -, hserver⟩ := hhandler
  have hstate : o.server.state.isLeader = true ∧ o.server.log = log := by
    rw [hserver]
    exact ⟨hl, rfl⟩
  rcases hphases with ⟨hp', -⟩ | ⟨-, o', hloop, rfl⟩
  · rw [hp] at hp'
    cases hp'
  · have hgoes : o.server.Goes s' := goes_of_getLast? hp hloop hend
    rw [hgoes.log_eq, hstate.2]
    exact ⟨hgoes.leads hstate.1, hmerge⟩

end Server

namespace Cluster

open Server

/-- What the leader `i` makes of its log by a client's `Set`. -/
def Appended (c : Cluster σ) (i : NodeId) (log : List LogEntry) : Action → Prop
  | .request node _ ⟨.set key value, clientId, requestId⟩ _ _ => node = i ∧
      log = (c.nodes i).log ++ [⟨(c.nodes i).currentTerm, .set key value,
        asU32 (c.nodes i).log.length, clientId, requestId⟩]
  | _ => False

/-- A leader that accepts an `AppendEntries` crashes on it or holds all of its entries. -/
def LeadersHold (σ : Type) : Cluster σ → Action → Prop :=
  Meets fun s _ incoming => s.state.isLeader = true → ∀ msg ∈ incoming.msg.asAppendEntries,
    s.Accepts msg → s.LeavesGap msg ∨ s.Holds msg

instance : ∀ (c : Cluster σ) (a : Action), Decidable (LeadersHold σ c a) :=
  inferInstanceAs (∀ c a, Decidable (Meets _ c a))

variable [StateMachine σ] {ids : List NodeId} {stateMachine : NodeId → σ}
  {G : Cluster σ → Action → Prop} {c c' : Cluster σ} {a : Action}

/-- The log of a node that leads before and after the step is what it was, or has grown by an entry
that the node has appended itself. -/
def AppendOnly (ids : List NodeId) (c : Cluster σ) (a : Action) : Prop :=
  ∀ c', next ids c a = some c' → ∀ i, (c.nodes i).state.isLeader = true →
    (c'.nodes i).state.isLeader = true →
      (c'.nodes i).log = (c.nodes i).log ∨ c.Appended i (c'.nodes i).log a

theorem Visited.log_of_holds (hG : ∀ (c : Cluster σ) a, G c a → Short ids c a)
    (hv : Visited ids stateMachine G c) {i : NodeId}
    {sender : Id} {msg : AppendEntries} {log : List LogEntry}
    (harr : c.Arrives a i ⟨sender, .appendEntries msg⟩)
    (hmerge : mergedLog (c.nodes i).log msg.entries = some log) :
    log = (c.nodes i).log ↔ (c.nodes i).Holds msg := by
  obtain ⟨e, he, -, -, hmsg⟩ := harr.appendEntries
  have hfrom := hv.fromLog hG he hmsg
  obtain ⟨a, -, hentries, -⟩ := hfrom.carries.piece
  rw [hentries] at hmerge
  unfold Holds
  rw [hentries]
  exact mergedLog_eq_self_iff hfrom.log.numbered hmerge

/-- A message that leaves a gap is not merged. -/
theorem Visited.mergedLog_eq_none (hG : ∀ (c : Cluster σ) a, G c a → Short ids c a)
    (hv : Visited ids stateMachine G c) {i : NodeId}
    {sender : Id} {msg : AppendEntries} (harr : c.Arrives a i ⟨sender, .appendEntries msg⟩)
    (hacc : (c.nodes i).Accepts msg) :
    mergedLog (c.nodes i).log msg.entries = none ↔ (c.nodes i).LeavesGap msg := by
  obtain ⟨e, he, -, -, hmsg⟩ := harr.appendEntries
  have hfrom := hv.fromLog hG he hmsg
  obtain ⟨a, -, hentries, -⟩ := hfrom.carries.piece
  unfold LeavesGap
  rw [hentries, mergedLog_eq_none_iff _ a hfrom.log.numbered]
  exact (and_iff_right hacc).symm

theorem Visited.appendOnly (hG : ∀ (c : Cluster σ) a, G c a → Short ids c a)
    (hv : Visited ids stateMachine G c) (hhold : LeadersHold σ c a) : AppendOnly ids c a := by
  intro c' hn i hl hl'
  have handler : ∀ {c₁ : Cluster σ}, c.HandlerStep ids a c₁ → (c₁.nodes i).state.isLeader = true →
      (c₁.nodes i).log = (c.nodes i).log ∨ c.Appended i (c₁.nodes i).log a := by
    rintro c₁ ⟨j, incoming, log, harr, -, hphase⟩ hl₁
    rcases hphase.moved i with hsame | ⟨rfl, -, hs, -⟩
    · exact .inl (congrArg Server.log hsame)
    · generalize c₁.nodes i = s at hs hl₁
      cases hs with
      | keep => exact .inl rfl
      | stepDown => cases hl₁
      | accept sm ci la log' heq hacc hmerge =>
        left
        subst heq
        obtain ⟨order, hP⟩ := harr.meets hhold
        rcases hP hl _ rfl hacc with hgap | hholds
        · rw [(hv.mergedLog_eq_none hG harr hacc).2 hgap] at hmerge
          cases hmerge
        · exact (hv.log_of_holds hG harr hmerge).2 hholds
      | vote => exact .inl rfl
      | win => exact .inl rfl
      | push key value ls hin hcmd =>
        -- only a client sends a `ClientRequest`
        right
        cases harr with
        | deliver he =>
          have hmem := List.mem_of_getElem? he
          exact absurd hin ((preserved_not_clientRequest.visited hv).2 _ hmem _)
        | request =>
          rename_i req _ _
          obtain ⟨command, clientId, requestId⟩ := req
          cases hin
          cases hcmd
          exact ⟨rfl, rfl⟩
      | response => exact .inl rfl
  have loop : ∀ {c₁ : Cluster σ}, c₁.LoopStep ids c' →
      (c'.nodes i).log = (c₁.nodes i).log ∧ (c₁.nodes i).state.isLeader = true := by
    rintro c₁ ⟨j, -, hphase⟩
    rcases hphase.moved i with hsame | ⟨rfl, -, hgoes⟩
    · exact ⟨congrArg Server.log hsame, hsame ▸ hl'⟩
    · exact ⟨hgoes.log_eq, hgoes.isLeader hl'⟩
  cases steps_of_next hn with
  | loop hloop => exact .inl (loop hloop).1
  | handler hh => exact handler hh hl'
  | both hh hloop =>
    obtain ⟨hlog, hl₁⟩ := loop hloop
    rw [hlog]
    exact handler hh hl₁

theorem Visited.leadersHold (hG : ∀ (c : Cluster σ) a, G c a → Short ids c a)
    (hv : Visited ids stateMachine G c) (hshort : Short ids c a) (hn : next ids c a = some c')
    (happend : AppendOnly ids c a) : LeadersHold σ c a := by
  cases a with
  | timeout => trivial
  | request => exact fun _ msg hmsg => by cases hmsg
  | deliver k order cut =>
    intro e he hl msg hmsg hacc
    have hmsg : e.msg = .appendEntries msg := Message.eq_of_asAppendEntries hmsg
    have harr : c.Arrives (.deliver k order cut) e.dst ⟨.peer e.src, .appendEntries msg⟩ := by
      rw [← hmsg]
      exact .deliver he
    -- without a gap the handler does not panic, and the step shows the merged log
    refine or_iff_not_imp_left.2 fun hgap => ?_
    have hpan : ((c.nodes e.dst).handleAppendEntries (.peer e.src) msg).panicked = false := by
      rw [← Bool.not_eq_true, handleAppendEntries_panicked_iff msg e.src
        (hshort _ (of_next_deliver hn he).1), hv.mergedLog_eq_none hG harr hacc]
      exact fun h => hgap h.2
    obtain ⟨ev, phases, hin, hturn, hend⟩ := turn_of_deliver hn he
    rw [hmsg] at hin
    obtain ⟨hl', hmerge⟩ := accepted_turn hacc hl hin hpan hturn hend
    rcases happend c' hn e.dst hl hl' with hsame | hno
    · exact (hv.log_of_holds hG harr hmerge).1 hsame
    · cases hno

/-- **Leader append-only.**  Among the runs with short logs, those in which the log of a node, as
long as it leads, only grows by the entries that the node appends itself, are exactly those in
which a leader crashes on every `AppendEntries` it accepts, or holds all of its entries. -/
theorem append_only_iff {acts : List Action} :
    (machine σ ids).Run (Machine.both (Short ids) (AppendOnly ids)) (init ids stateMachine) acts c ↔
      (machine σ ids).Run (Machine.both (Short ids) (LeadersHold σ)) (init ids stateMachine) acts
        c := by
  have hG : ∀ (c : Cluster σ) a, Short ids c a → Short ids c a := fun _ _ h => h
  refine Machine.Run.congr (I := Visited ids stateMachine (Short ids)) .init ?_ ?_
  · intro c a c' hv hg hn
    exact visited_of_next hv hg.1 hn
  · intro c a c' hv hn
    refine and_congr_right fun hshort => ?_
    exact ⟨hv.leadersHold hG hshort hn, hv.appendOnly hG⟩

/-- The votes of a run within the guard elect one leader a term, which accepts nothing. -/
theorem Visited.leadersHold_of_singleVotes (hG : ∀ (c : Cluster σ) a, G c a → SingleVotes σ c a)
    (hv : Visited ids stateMachine G c) : LeadersHold σ c a := by
  cases a with
  | timeout => trivial
  | request => exact fun _ msg hmsg => by cases hmsg
  | deliver k order cut =>
    intro e he hl msg hmsg hacc
    have hmsg : e.msg = .appendEntries msg := Message.eq_of_asAppendEntries hmsg
    rw [(hv.elections hG).not_isLeader_of_accepts hv (List.mem_of_getElem? he) hmsg hacc] at hl
    cases hl

/-- In the runs in which each vote is given once and counted once, leaders only append. -/
theorem append_only {acts : List Action} (h : (machine σ ids).Run
      (Machine.both (Short ids) (SingleVotes σ)) (init ids stateMachine) acts c) :
    (machine σ ids).Run (Machine.both (Short ids) (AppendOnly ids)) (init ids stateMachine) acts
      c := by
  refine h.imp (I := Visited ids stateMachine (Machine.both (Short ids) (SingleVotes σ))) .init
    ?_ ?_
  · intro c a c' hv hg hn
    exact visited_of_next hv hg hn
  · intro c a c' hv hn hg
    exact ⟨hg.1, hv.appendOnly (fun _ _ h => h.1) (hv.leadersHold_of_singleVotes fun _ _ h => h.2)⟩

/-- Nodes 1 and 2 both lead term 1; node 2 takes over the entry that node 1 appends. -/
theorem leader_overwritten :
    ∃ c : Cluster SimpleStateMachine,
      (machine SimpleStateMachine [1, 2, 3]).Reach Orderly (init [1, 2, 3] fun _ => .new) c ∧
        c.Orderly (.receive [1, 2, 3] 16) ∧ ¬ AppendOnly [1, 2, 3] c (.receive [1, 2, 3] 16) := by
  have hrun : ((machine SimpleStateMachine [1, 2, 3]).exec Orderly (init [1, 2, 3] fun _ => .new)
      [.timeout 1, .timeout 2, .receive [1, 2, 3] 1, .receive [1, 2, 3] 4, .receive [1, 2, 3] 6,
        .receive [1, 2, 3] 7, .receive [1, 2, 3] 3, .receive [1, 2, 3] 10, .receive [1, 2, 3] 12,
        .receive [1, 2, 3] 13, .set [1, 2, 3] 1 "x" "1"]).any
      (fun c => decide (c.Orderly (.receive [1, 2, 3] 16) ∧ (c.nodes 2).state.isLeader = true ∧
        (next [1, 2, 3] c (.receive [1, 2, 3] 16)).any (fun c' =>
          decide ((c'.nodes 2).state.isLeader = true ∧ (c'.nodes 2).log ≠ (c.nodes 2).log)) =
            true)) = true := by
    decide
  obtain ⟨c, hc, horderly, hl, hnext⟩ := Machine.exists_reach_of_exec hrun
  refine ⟨c, hc, horderly, fun happend => ?_⟩
  obtain ⟨c', hn, hdecide⟩ := (Option.any_eq_true _ _).1 hnext
  obtain ⟨hl', hne⟩ := of_decide_eq_true hdecide
  rcases happend c' hn 2 hl hl' with hsame | hno
  · exact hne hsame
  · exact hno

end Cluster

end MiniRaft
