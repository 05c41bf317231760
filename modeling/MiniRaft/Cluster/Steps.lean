import MiniRaft.Cluster.Basic
import MiniRaft.Server.Discipline

/-!
# What a step of a cluster can do

A turn of a node is a handler and a part of its role loop, or that part alone.  `Cluster.PhaseOf`
says everything such a phase can change in a cluster, and `Cluster.Visited` holds of the clusters
that the guarded runs pass through at the ends of phases; every invariant of clusters is proved by
induction on it.

* `Cluster.visited_of_reach` : the reachable clusters are visited.
* `Cluster.rel_of_next` : **the rule for one step**: what it makes of a server.
* `Cluster.Preserved.visited` : **the induction rule** for what holds of every server and of every
  envelope.
-/

namespace MiniRaft

variable {σ : Type}

namespace Cluster

/-- The message `incoming` reaches the node `i` in the step `a`. -/
inductive Arrives (c : Cluster σ) : Action → NodeId → Incoming → Prop
  | deliver {k : ℕ} {order : List NodeId} {cut : Option ℕ} {e : Envelope σ} :
      c.sent[k]? = some e → Arrives c (.deliver k order cut) e.dst ⟨.peer e.src, e.msg⟩
  | request {node : NodeId} {client : ClientId} {req : ClientRequest} {order : List NodeId}
      {cut : Option ℕ} :
      Arrives c (.request node client req order cut) node ⟨.client client, .clientRequest req⟩

theorem Arrives.envelope {c : Cluster σ} {a : Action} {i : NodeId} {incoming : Incoming}
    (h : c.Arrives a i incoming) (hmsg : ∀ req, incoming.msg ≠ .clientRequest req) :
    ∃ k order cut e, a = .deliver k order cut ∧ c.sent[k]? = some e ∧ e.dst = i ∧
      incoming = ⟨.peer e.src, e.msg⟩ := by
  cases h with
  | deliver he => exact ⟨_, _, _, _, rfl, he, rfl, rfl⟩
  | request => exact absurd rfl (hmsg _)

theorem Arrives.appendEntries {c : Cluster σ} {a : Action} {i : NodeId} {sender : Id}
    {msg : AppendEntries} (h : c.Arrives a i ⟨sender, .appendEntries msg⟩) :
    ∃ e ∈ c.sent, e.dst = i ∧ sender = .peer e.src ∧ e.msg = .appendEntries msg := by
  obtain ⟨k, order, cut, e, -, he, hdst, heq⟩ := h.envelope fun _ h => by cases h
  rw [Incoming.mk.injEq] at heq
  exact ⟨e, List.mem_of_getElem? he, hdst, heq.1, heq.2.symm⟩

theorem Arrives.meets {P : Server σ → List NodeId → Incoming → Prop} {c : Cluster σ} {a : Action}
    {i : NodeId} {incoming : Incoming} (h : c.Arrives a i incoming) (hP : Meets P c a) :
    ∃ order, P (c.nodes i) order incoming := by
  cases h with
  | deliver he => exact ⟨_, hP _ he⟩
  | request => exact ⟨_, hP⟩

/-- The deliveries made after the step `a`. -/
def deliveries (c : Cluster σ) : Action → List ℕ
  | .deliver k _ _ => k :: c.delivered
  | _ => c.delivered

/-- An envelope that the node `i` sends in a phase with the given cause; `Q` is what holds of its
message and of the server that sends it. -/
structure SentBy (ids : List NodeId) (i : NodeId) (cause : Option Message)
    (Q : Outgoing → Server σ → Prop) (e : Envelope σ) : Prop where
  src : e.src = i
  dst : e.dst ∈ ids
  ne : e.dst ≠ i
  cause : e.cause = cause
  out : ∃ dest, Q ⟨dest, e.msg⟩ e.snap ∧ (dest = .broadcast ∨ dest = .node e.dst)

/-- The node `i` goes through one phase: every server it passes through satisfies `P`, every
message it sends `Q`, and every command it applies `A`. -/
structure PhaseOf (ids : List NodeId) (c : Cluster σ) (i : NodeId) (cause : Option Message)
    (P : Server σ → Prop) (Q : Outgoing → Server σ → Prop) (A : ℕ → LogCommand → Prop)
    (c' : Cluster σ) : Prop where
  mem : i ∈ ids
  alive : c.crashed i = false
  others : ∀ j ≠ i, c'.nodes j = c.nodes j ∧ c'.crashed j = c.crashed j
  node : c'.crashed i = true ∧ c'.nodes i = c.nodes i ∨ c'.crashed i = false ∧ P (c'.nodes i)
  sent : ∃ new, c'.sent = c.sent ++ new ∧
    ∀ e ∈ new, SentBy ids i cause (fun out s => P s ∧ Q out s) e
  history : ∃ calls, c'.history = c.history ++ calls ++
      (if c'.crashed i then [] else changeOf i (c.nodes i) (c'.nodes i)) ∧
    ∀ ev ∈ calls, ∃ index command, ev = .applied i index command ∧ A index command
  /-- Who sends a closing message is in the state that the phase leaves. -/
  closes : ∀ e ∈ c'.sent, e.msg.closes = true →
    e ∈ c.sent ∨ e.src = i ∧ c'.crashed i = false ∧ e.snap = c'.nodes i

/-- The node `i` handles the message `incoming`, and `log` is the log it leaves.  What it applies in
answer to a reply lies within the commit index it leaves. -/
def HandlerPhase (ids : List NodeId) (c : Cluster σ) (i : NodeId) (incoming : Incoming)
    (log : List LogEntry) (c' : Cluster σ) : Prop :=
  c.PhaseOf ids i (some incoming.msg) ((c.nodes i).HandlesTo incoming log)
    ((c.nodes i).Emits incoming)
    (fun index command => (c.nodes i).Applies incoming index command ∧
      ∀ msg, incoming.msg = .appendEntriesResponse msg → c'.crashed i = false →
        (c.nodes i).Resumes (c'.nodes i).commitIndex index command) c'

/-- The node `i` goes on to its next `select!`. -/
def LoopPhase (ids : List NodeId) (c : Cluster σ) (i : NodeId) (c' : Cluster σ) : Prop :=
  c.PhaseOf ids i none (c.nodes i).Goes (c.nodes i).Announces
    ((c.nodes i).Resumes (c.nodes i).commitIndex) c'

/-- A node handles a message. -/
def HandlerStep [StateMachine σ] (ids : List NodeId) (c : Cluster σ) (a : Action)
    (c' : Cluster σ) : Prop :=
  ∃ i incoming log, c.Arrives a i incoming ∧ c'.delivered = c.deliveries a ∧
    c.HandlerPhase ids i incoming log c'

/-- A node goes on to its next `select!`. -/
def LoopStep (ids : List NodeId) (c c' : Cluster σ) : Prop :=
  ∃ i, c'.delivered = c.delivered ∧ c.LoopPhase ids i c'

theorem mem_route {ids : List NodeId} {i : NodeId} {cause : Option Message} {e : Envelope σ}
    {ef : Effect σ} (h : e ∈ route ids i cause ef) :
    e.src = i ∧ e.dst ∈ ids ∧ e.dst ≠ i ∧ e.cause = cause ∧
      ∃ dest, ef = .send ⟨dest, e.msg⟩ e.snap ∧ (dest = .broadcast ∨ dest = .node e.dst) := by
  cases ef with
  | apply => cases h
  | send out snap =>
    obtain ⟨dest, msg⟩ := out
    cases dest with
    | client => cases h
    | node dst =>
      simp only [route] at h
      split_ifs at h with hdst
      · rw [List.mem_singleton] at h
        subst h
        exact ⟨rfl, hdst.1, hdst.2, rfl, _, rfl, .inr rfl⟩
      · cases h
    | broadcast =>
      simp only [route, List.mem_map, List.mem_filter, decide_eq_true_eq] at h
      obtain ⟨dst, ⟨hmem, hne⟩, rfl⟩ := h
      exact ⟨rfl, hmem, hne, rfl, _, rfl, .inl rfl⟩

/-- **Inversion of a phase.**  The deliveries `ds` are noted before it. -/
theorem phaseOf_perform {ids : List NodeId} {c : Cluster σ} {i : NodeId} {p : Phase σ}
    {P : Server σ → Prop} {Q : Outgoing → Server σ → Prop} {A : ℕ → LogCommand → Prop}
    (ds : List ℕ) (hi : i ∈ ids) (hc : c.crashed i = false) (hens : p.outcome.Ensures P Q)
    (hcalls : p.outcome.Calls A)
    (hcloses : p.outcome.Closes) :
    c.PhaseOf ids i p.cause P Q A (perform ids i { c with delivered := ds } p) where
  mem := hi
  alive := hc
  others := by
    intro j hj
    simp only [perform]
    refine ⟨?_, Function.update_of_ne hj _ _⟩
    split_ifs
    · rfl
    · exact Function.update_of_ne hj _ _
  node := by
    simp only [perform, Function.update_self]
    cases hp : p.outcome.panicked with
    | true => exact .inl ⟨rfl, rfl⟩
    | false =>
      refine .inr ⟨rfl, ?_⟩
      rw [if_neg (by simp), Function.update_self]
      exact hens.server hp
  sent := by
    refine ⟨_, rfl, fun e he => ?_⟩
    obtain ⟨ef, hef, he⟩ := List.mem_flatMap.1 he
    obtain ⟨hsrc, hdst, hne, hcause, dest, rfl, hdest⟩ := mem_route he
    exact ⟨hsrc, hdst, hne, hcause, dest, hens.sends hef, hdest⟩
  history := by
    refine ⟨callsOf i p.outcome, ?_, fun ev hev => ?_⟩
    · cases hp : p.outcome.panicked with
      | true => simp [perform, eventsOf, hp]
      | false => simp [perform, eventsOf, hp]
    · obtain ⟨ef, hef, hev⟩ := List.mem_filterMap.1 hev
      cases ef with
      | send => cases hev
      | apply index command ok =>
        cases hev
        exact ⟨index, command, rfl, hcalls.apply hef⟩
  closes := by
    intro e he hmsg
    simp only [perform, Function.update_self] at he ⊢
    rcases List.mem_append.1 he with he | he
    · exact .inl he
    · obtain ⟨ef, hef, he⟩ := List.mem_flatMap.1 he
      obtain ⟨hsrc, -, -, -, dest, rfl, -⟩ := mem_route he
      obtain ⟨j, hj⟩ := List.mem_iff_getElem?.1 hef
      obtain ⟨-, hp, hsnap⟩ := hcloses.last hj hmsg
      rw [hp, if_neg Bool.false_ne_true, Function.update_self]
      exact .inr ⟨hsrc, rfl, hsnap⟩

variable [StateMachine σ] {ids : List NodeId} {stateMachine : NodeId → σ}
  {G : Cluster σ → Action → Prop} {c c' : Cluster σ} {a : Action}

/-- The clusters that the runs within the guard `G` pass through at the ends of phases. -/
inductive Visited (ids : List NodeId) (stateMachine : NodeId → σ)
    (G : Cluster σ → Action → Prop) : Cluster σ → Prop
  | init : Visited ids stateMachine G (init ids stateMachine)
  | handler {c c' : Cluster σ} {a : Action} : Visited ids stateMachine G c → G c a →
      c.HandlerStep ids a c' → Visited ids stateMachine G c'
  | loop {c c' : Cluster σ} : Visited ids stateMachine G c → c.LoopStep ids c' →
      Visited ids stateMachine G c'

/-- **Inversion of a step**: a handler, or a part of a role loop, or the one after the other. -/
inductive Steps (ids : List NodeId) (c : Cluster σ) (a : Action) (c' : Cluster σ) : Prop
  | loop : c.LoopStep ids c' → Steps ids c a c'
  | handler : c.HandlerStep ids a c' → Steps ids c a c'
  | both {c₁ : Cluster σ} : c.HandlerStep ids a c₁ → c₁.LoopStep ids c' → Steps ids c a c'

omit [StateMachine σ] in
theorem handlerPhase_perform {i : NodeId} {incoming : Incoming} {log : List LogEntry} {o : Outcome σ}
    (ds : List ℕ) (hi : i ∈ ids) (hc : c.crashed i = false)
    (hspec : (c.nodes i).HandlerSpec incoming log o) :
    c.HandlerPhase ids i incoming log
      (perform ids i { c with delivered := ds } ⟨some incoming.msg, o⟩) := by
  refine phaseOf_perform (p := ⟨some incoming.msg, o⟩) ds hi hc hspec.ensures
    ⟨fun hmem => ⟨hspec.calls.apply hmem, fun msg hmsg hp => ?_⟩⟩ hspec.closes
  simp only [perform, Function.update_self] at hp ⊢
  rw [hp, if_neg Bool.false_ne_true, Function.update_self]
  exact ((hspec.covers hmsg).ensures hmem).server hp

theorem steps_of_act (ds : List ℕ) {i : NodeId} {ev : Select}
    (harr : ∀ incoming, ev.incoming = some incoming → c.Arrives a i incoming ∧ c.deliveries a = ds)
    (hnone : ev.incoming = none → c.delivered = ds)
    (h : act ids { c with delivered := ds } i ev = some c') : Steps ids c a c' := by
  simp only [act] at h
  split_ifs at h with hrun
  obtain ⟨phases, hturn, rfl⟩ := Option.map_eq_some_iff.1 h
  have hturns := Server.turns_of_turn hturn
  cases hev : ev.incoming with
  | none =>
    rw [hev] at hturns
    cases hturns with
    | timer hspec =>
      rename_i o
      have hds := hnone hev
      subst hds
      exact .loop ⟨i, rfl, phaseOf_perform (p := ⟨none, o⟩) c.delivered hrun.1 hrun.2
        hspec.ensures hspec.calls hspec.closes⟩
  | some incoming =>
    rw [hev] at hturns
    obtain ⟨harr, hds⟩ := harr incoming hev
    cases hturns with
    | stuck hp hspec =>
      rename_i log o
      exact .handler ⟨i, incoming, _, harr, hds.symm,
        handlerPhase_perform ds hrun.1 hrun.2 hspec⟩
    | handler hp hspec hspec' =>
      rename_i log o o'
      refine .both ⟨i, incoming, _, harr, hds.symm,
        handlerPhase_perform ds hrun.1 hrun.2 hspec⟩ ⟨i, rfl, ?_⟩
      refine phaseOf_perform (p := ⟨none, o'⟩) _ hrun.1 ?_ ?_ ?_ hspec'.closes
      · simp [perform, hp]
      · simpa [perform, hp] using hspec'.ensures
      · simpa [perform, hp] using hspec'.calls

theorem steps_of_next (h : next ids c a = some c') : Steps ids c a c' := by
  have selected : ∀ {order : List NodeId} {incoming incoming' : Incoming} {cut : Option ℕ},
      (selectOf order incoming cut).incoming = some incoming' → incoming' = incoming := by
    intro order incoming incoming' cut h
    cases cut <;> exact (Option.some.inj h).symm
  have arrived : ∀ {order : List NodeId} {incoming : Incoming} {cut : Option ℕ},
      (selectOf order incoming cut).incoming ≠ none := by
    intro order incoming cut h
    cases cut <;> cases h
  cases a with
  | deliver k order cut =>
    simp only [next] at h
    split at h
    · cases h
    · rename_i e he
      refine steps_of_act _ ?_ (fun h => absurd h arrived) h
      intro incoming hin
      rw [selected hin]
      exact ⟨.deliver he, rfl⟩
  | request node client req order cut =>
    refine steps_of_act c.delivered ?_ (fun h => absurd h arrived) h
    intro incoming hin
    rw [selected hin]
    exact ⟨.request, rfl⟩
  | timeout node =>
    exact steps_of_act c.delivered (fun _ h => by cases h) (fun _ => rfl) h

theorem of_next_deliver {k : ℕ} {order : List NodeId} {cut : Option ℕ} {e : Envelope σ}
    (h : next ids c (.deliver k order cut) = some c') (he : c.sent[k]? = some e) :
    e.dst ∈ ids ∧ c.crashed e.dst = false := by
  simp only [next, he, act] at h
  split_ifs at h with hrun
  exact hrun

omit [StateMachine σ] in
theorem getLast?_foldl_perform (c : Cluster σ) (i : NodeId) (phases : List (Phase σ)) :
    (c.nodes i :: Server.passed phases).getLast? =
      some ((phases.foldl (perform ids i) c).nodes i) := by
  induction phases generalizing c with
  | nil => rfl
  | cons p ps ih =>
    rw [List.foldl_cons, ← ih]
    cases hp : p.outcome.panicked with
    | true => simp [perform, hp, Server.passed]
    | false =>
      rw [Server.passed_cons ps hp, List.getLast?_cons_cons]
      simp [perform, hp]

theorem turn_of_deliver {k : ℕ} {order : List NodeId} {cut : Option ℕ} {e : Envelope σ}
    (h : next ids c (.deliver k order cut) = some c') (he : c.sent[k]? = some e) :
    ∃ ev phases, ev.incoming = some ⟨.peer e.src, e.msg⟩ ∧ (c.nodes e.dst).turn ev = some phases ∧
      (c.nodes e.dst :: Server.passed phases).getLast? = some (c'.nodes e.dst) := by
  simp only [next, he, act] at h
  split_ifs at h with hrun
  obtain ⟨phases, hturn, rfl⟩ := Option.map_eq_some_iff.1 h
  refine ⟨selectOf order ⟨.peer e.src, e.msg⟩ cut, phases, ?_, hturn,
    getLast?_foldl_perform { c with delivered := k :: c.delivered } e.dst phases⟩
  cases cut with
  | none => rfl
  | some k => rfl

theorem visited_of_next (hv : Visited ids stateMachine G c) (hG : G c a)
    (h : next ids c a = some c') : Visited ids stateMachine G c' := by
  cases steps_of_next h with
  | loop hl => exact hv.loop hl
  | handler hh => exact hv.handler hG hh
  | both hh hl => exact (hv.handler hG hh).loop hl

/-- **Reachable clusters are visited.** -/
theorem visited_of_reach (h : (machine σ ids).Reach G (init ids stateMachine) c) :
    Visited ids stateMachine G c :=
  h.invariant (I := Visited ids stateMachine G) .init fun _ _ _ hv hG hn => visited_of_next hv hG hn

/-! ### What a phase adds to the network and to the history -/

/-- What a later cluster has not forgotten. -/
structure Later (c c' : Cluster σ) : Prop where
  sent : c.sent <+: c'.sent
  delivered : c.delivered <:+ c'.delivered
  history : c.history <+: c'.history

section

variable {c c' c'' : Cluster σ} {i : NodeId} {cause : Option Message} {P : Server σ → Prop}
  {Q : Outgoing → Server σ → Prop} {A : ℕ → LogCommand → Prop}

omit [StateMachine σ]

theorem Later.refl (c : Cluster σ) : c.Later c :=
  ⟨List.prefix_refl _, List.suffix_refl _, List.prefix_refl _⟩

theorem Later.trans (h : c.Later c') (h' : c'.Later c'') : c.Later c'' :=
  ⟨h.sent.trans h'.sent, h.delivered.trans h'.delivered, h.history.trans h'.history⟩

theorem Later.getElem? (h : c.Later c') {k : ℕ} {e : Envelope σ} (he : c.sent[k]? = some e) :
    c'.sent[k]? = some e := by
  obtain ⟨new, hnew⟩ := h.sent
  rw [← hnew, List.getElem?_append_left (List.getElem?_eq_some_iff.1 he).1]
  exact he

theorem PhaseOf.later (h : c.PhaseOf ids i cause P Q A c') (hd : c.delivered <:+ c'.delivered) :
    c.Later c' := by
  obtain ⟨new, hsent, -⟩ := h.sent
  obtain ⟨calls, hhistory, -⟩ := h.history
  refine ⟨⟨new, hsent.symm⟩, hd, ?_⟩
  rw [hhistory, List.append_assoc]
  exact List.prefix_append _ _

theorem PhaseOf.sentBy (h : c.PhaseOf ids i cause P Q A c') {e : Envelope σ} (he : e ∈ c'.sent) :
    e ∈ c.sent ∨ SentBy ids i cause (fun out s => P s ∧ Q out s) e := by
  obtain ⟨new, hsent, hnew⟩ := h.sent
  rw [hsent] at he
  rcases List.mem_append.1 he with he | he
  · exact .inl he
  · exact .inr (hnew e he)

theorem PhaseOf.moved (h : c.PhaseOf ids i cause P Q A c') (j : NodeId) :
    c'.nodes j = c.nodes j ∨ j = i ∧ c'.crashed i = false ∧ P (c'.nodes i) := by
  by_cases hj : j = i
  · subst hj
    rcases h.node with ⟨-, hnode⟩ | hnode
    · exact .inl hnode
    · exact .inr ⟨rfl, hnode⟩
  · exact .inl (h.others j hj).1

theorem PhaseOf.ran (h : c.PhaseOf ids i cause P Q A c') (hc : c'.crashed i = false) :
    P (c'.nodes i) := by
  rcases h.node with ⟨hc', -⟩ | ⟨-, hP⟩
  · rw [hc] at hc'
    cases hc'
  · exact hP

theorem PhaseOf.currentTerm_le (hphase : c.PhaseOf ids i cause P Q A c')
    (hrole : ∀ s, P s → (c.nodes i).RoleStep s) (j : NodeId) :
    (c.nodes j).currentTerm ≤ (c'.nodes j).currentTerm := by
  rcases hphase.moved j with hj | ⟨rfl, -, hP⟩
  · rw [hj]
  · exact (hrole _ hP).disciplined.mono

theorem mem_changeOf_elected {s s' : Server σ} {q : NodeId} {T : ℕ} {log : List LogEntry} :
    .elected q T log ∈ changeOf i s s' ↔ q = i ∧ T = s'.currentTerm ∧ log = s'.log ∧
      s.state.isLeader = false ∧ s'.state.isLeader = true := by
  unfold changeOf
  cases s.state.isLeader <;> cases s'.state.isLeader <;>
    simp [List.mem_ite_nil_right, Event.elected.injEq]

theorem mem_changeOf_committed {s s' : Server σ} {q : NodeId} {T : ℕ} {n : ℤ}
    {log : List LogEntry} :
    .committed q T n log ∈ changeOf i s s' ↔ q = i ∧ T = s'.currentTerm ∧ n = s'.commitIndex ∧
      log = s'.log ∧ s.state.isLeader = true ∧ s'.state.isLeader = true ∧
      s.commitIndex < s'.commitIndex := by
  unfold changeOf
  cases s.state.isLeader <;> cases s'.state.isLeader <;>
    simp [List.mem_ite_nil_right, and_assoc, and_comm, and_left_comm]

theorem notMem_changeOf_applied {s s' : Server σ} {j : NodeId} {index : ℕ} {command : LogCommand} :
    .applied j index command ∉ changeOf i s s' := by
  unfold changeOf
  cases s.state.isLeader <;> cases s'.state.isLeader <;> simp [List.mem_ite_nil_right]

theorem PhaseOf.event (h : c.PhaseOf ids i cause P Q A c') {ev : Event} (hev : ev ∈ c'.history) :
    ev ∈ c.history ∨ (∃ index command, ev = .applied i index command ∧ A index command) ∨
      c'.crashed i = false ∧ ev ∈ changeOf i (c.nodes i) (c'.nodes i) := by
  obtain ⟨calls, hhistory, hcalls⟩ := h.history
  rw [hhistory, List.mem_append, List.mem_append] at hev
  rcases hev with (hev | hev) | hev
  · exact .inl hev
  · exact .inr (.inl (hcalls ev hev))
  · cases hc : c'.crashed i with
    | true => simp [hc] at hev
    | false => exact .inr (.inr ⟨rfl, by simpa [hc] using hev⟩)

theorem PhaseOf.change (h : c.PhaseOf ids i cause P Q A c') (hc : c'.crashed i = false) {ev : Event}
    (hev : ev ∈ changeOf i (c.nodes i) (c'.nodes i)) : ev ∈ c'.history := by
  obtain ⟨calls, hhistory, -⟩ := h.history
  rw [hhistory, hc]
  exact List.mem_append_right _ hev

end

omit [StateMachine σ] in
theorem deliveries_suffix (c : Cluster σ) (a : Action) : c.delivered <:+ c.deliveries a := by
  cases a with
  | deliver k order cut => exact List.suffix_cons k c.delivered
  | request => exact List.suffix_refl _
  | timeout => exact List.suffix_refl _

theorem HandlerStep.later (h : c.HandlerStep ids a c') : c.Later c' := by
  obtain ⟨i, incoming, log, -, hd, hphase⟩ := h
  refine hphase.later ?_
  rw [hd]
  exact c.deliveries_suffix a

omit [StateMachine σ] in
theorem LoopStep.later (h : c.LoopStep ids c') : c.Later c' := by
  obtain ⟨i, hd, hphase⟩ := h
  refine hphase.later ?_
  simp only [hd, List.suffix_refl]

theorem later_of_next (h : next ids c a = some c') : c.Later c' := by
  cases steps_of_next h with
  | loop hl => exact hl.later
  | handler hh => exact hh.later
  | both hh hl => exact hh.later.trans hl.later

theorem later_of_reach (h : (machine σ ids).Reach G c c') : c.Later c' :=
  h.invariant (I := c.Later) (.refl c) fun _ _ _ hl _ hn => hl.trans (later_of_next hn)

theorem committed_of_next (hn : next ids c a = some c') {i : NodeId}
    (hl : (c.nodes i).state.isLeader = true) (hl' : (c'.nodes i).state.isLeader = true)
    (hlt : (c.nodes i).commitIndex < (c'.nodes i).commitIndex) :
    .committed i (c'.nodes i).currentTerm (c'.nodes i).commitIndex (c'.nodes i).log ∈
      c'.history := by
  have handler : ∀ {c₁ : Cluster σ}, c.HandlerStep ids a c₁ →
      (c₁.nodes i).state.isLeader = true → (c.nodes i).commitIndex < (c₁.nodes i).commitIndex →
      .committed i (c₁.nodes i).currentTerm (c₁.nodes i).commitIndex (c₁.nodes i).log ∈
        c₁.history := by
    rintro c₁ ⟨j, incoming, log, -, -, hphase⟩ hl₁ hlt₁
    rcases hphase.moved i with hsame | ⟨rfl, hc, -⟩
    · rw [hsame] at hlt₁
      exact absurd hlt₁ (Int.lt_irrefl _)
    · exact hphase.change hc (mem_changeOf_committed.2 ⟨rfl, rfl, rfl, rfl, hl, hl₁, hlt₁⟩)
  have loop : ∀ {c₁ : Cluster σ}, c₁.LoopStep ids c' → (c₁.nodes i).state.isLeader = true ∧
      (c'.nodes i).currentTerm = (c₁.nodes i).currentTerm ∧
      (c'.nodes i).commitIndex = (c₁.nodes i).commitIndex ∧
      (c'.nodes i).log = (c₁.nodes i).log := by
    rintro c₁ ⟨j, -, hphase⟩
    rcases hphase.moved i with hsame | ⟨rfl, -, hgoes⟩
    · rw [hsame] at hl' ⊢
      exact ⟨hl', rfl, rfl, rfl⟩
    · exact ⟨hgoes.isLeader hl', (hgoes.roleStep.leader hl').1, hgoes.commitIndex_eq, hgoes.log_eq⟩
  cases steps_of_next hn with
  | loop hs =>
    rw [(loop hs).2.2.1] at hlt
    exact absurd hlt (Int.lt_irrefl _)
  | handler hs => exact handler hs hl' hlt
  | both hh hs =>
    obtain ⟨hl₁, hterm, hci, hlog⟩ := loop hs
    rw [hci] at hlt
    rw [hterm, hci, hlog]
    exact hs.later.history.subset (handler hh hl₁ hlt)

/-- **The rule for one step**: a reflexive and transitive relation between servers, which handlers
and role loops respect, holds between every server and what the step makes of it. -/
theorem rel_of_next {R : Server σ → Server σ → Prop} (refl : ∀ s, R s s)
    (trans : ∀ s s' s'', R s s' → R s' s'' → R s s'') (goes : ∀ s s', s.Goes s' → R s s')
    (h : next ids c a = some c') (j : NodeId)
    (handles : ∀ incoming log s, j ∈ ids → c.Arrives a j incoming →
      (c.nodes j).HandlesTo incoming log s → R (c.nodes j) s) : R (c.nodes j) (c'.nodes j) := by
  have handler : ∀ {c₁ : Cluster σ}, c.HandlerStep ids a c₁ → R (c.nodes j) (c₁.nodes j) := by
    rintro c₁ ⟨i, incoming, log, harr, -, hphase⟩
    rcases hphase.moved j with hsame | ⟨rfl, -, hs⟩
    · rw [hsame]
      exact refl _
    · exact handles incoming log _ hphase.mem harr hs
  have loop : ∀ {c₁ : Cluster σ}, c₁.LoopStep ids c' → R (c₁.nodes j) (c'.nodes j) := by
    rintro c₁ ⟨i, -, hphase⟩
    rcases hphase.moved j with hsame | ⟨rfl, -, hgoes⟩
    · rw [hsame]
      exact refl _
    · exact goes _ _ hgoes
  cases steps_of_next h with
  | loop hl => exact loop hl
  | handler hh => exact handler hh
  | both hh hl => exact trans _ _ _ (handler hh) (loop hl)

/-! ### Invariants of servers and of envelopes -/

section Preserved

variable (ids stateMachine G) (N : NodeId → Server σ → Prop) (E : Envelope σ → Prop)

/-- The node `i` is about to go through a phase: every node satisfies `N`, every envelope `E`. -/
structure Before (c : Cluster σ) (i : NodeId) : Prop where
  visited : Visited ids stateMachine G c
  mem : i ∈ ids
  alive : c.crashed i = false
  nodes : ∀ j, N j (c.nodes j)
  sent : ∀ e ∈ c.sent, E e

/-- `N` holds of every new server, handlers and loops keep it, and what is sent satisfies `E`. -/
structure Preserved : Prop where
  init : ∀ i, N i (Server.new i ⟨ids.length, ids⟩ (stateMachine i))
  handles : ∀ {c : Cluster σ} {a : Action} {i : NodeId} {incoming : Incoming}
    {log : List LogEntry} {s : Server σ}, Before ids stateMachine G N E c i → G c a →
    c.Arrives a i incoming → (c.nodes i).HandlesTo incoming log s → N i s
  emits : ∀ {c : Cluster σ} {a : Action} {i : NodeId} {incoming : Incoming}
    {log : List LogEntry} {e : Envelope σ}, Before ids stateMachine G N E c i → G c a →
    c.Arrives a i incoming →
    SentBy ids i (some incoming.msg) (fun out s => (c.nodes i).HandlesTo incoming log s ∧
      (c.nodes i).Emits incoming out s) e → N i e.snap → E e
  goes : ∀ {c : Cluster σ} {i : NodeId} {s : Server σ}, Before ids stateMachine G N E c i →
    (c.nodes i).Goes s → N i s
  announces : ∀ {c : Cluster σ} {i : NodeId} {e : Envelope σ}, Before ids stateMachine G N E c i →
    SentBy ids i none (fun out s => (c.nodes i).Goes s ∧ (c.nodes i).Announces out s) e →
    N i e.snap → E e

variable {ids stateMachine G N E}

omit [StateMachine σ] in
theorem PhaseOf.local {i : NodeId} {cause : Option Message} {P : Server σ → Prop}
    {Q : Outgoing → Server σ → Prop} {A : ℕ → LogCommand → Prop}
    (h : c.PhaseOf ids i cause P Q A c') (hN : ∀ j, N j (c.nodes j)) (hE : ∀ e ∈ c.sent, E e)
    (hP : ∀ s, P s → N i s)
    (hQ : ∀ e, SentBy ids i cause (fun out s => P s ∧ Q out s) e → N i e.snap → E e) :
    (∀ j, N j (c'.nodes j)) ∧ ∀ e ∈ c'.sent, E e := by
  constructor
  · intro j
    rcases h.moved j with hsame | ⟨rfl, -, hnode⟩
    · rw [hsame]
      exact hN j
    · exact hP _ hnode
  · obtain ⟨new, hsent, hnew⟩ := h.sent
    intro e he
    rw [hsent] at he
    rcases List.mem_append.1 he with he | he
    · exact hE e he
    · obtain ⟨dest, ⟨hp, -⟩, -⟩ := (hnew e he).out
      exact hQ e (hnew e he) (hP _ hp)

/-- **The induction rule.** -/
theorem Preserved.visited (hp : Preserved ids stateMachine G N E)
    (h : Visited ids stateMachine G c) : (∀ i, N i (c.nodes i)) ∧ ∀ e ∈ c.sent, E e := by
  induction h with
  | init => exact ⟨hp.init, by simp [Cluster.init]⟩
  | handler hv hG hs ih =>
    obtain ⟨i, incoming, log, harr, -, hphase⟩ := hs
    have before : Before ids stateMachine G N E _ i := ⟨hv, hphase.mem, hphase.alive, ih.1, ih.2⟩
    exact hphase.local ih.1 ih.2 (fun _ h => hp.handles before hG harr h)
      fun _ h hsnap => hp.emits before hG harr h hsnap
  | loop hv hs ih =>
    obtain ⟨i, -, hphase⟩ := hs
    have before : Before ids stateMachine G N E _ i := ⟨hv, hphase.mem, hphase.alive, ih.1, ih.2⟩
    exact hphase.local ih.1 ih.2 (fun _ h => hp.goes before h)
      fun _ h hsnap => hp.announces before h hsnap

end Preserved

theorem preserved_identity : Preserved ids stateMachine G
    (fun i s => s.id = i ∧ s.config = ⟨ids.length, ids⟩) fun _ => True where
  init _ := ⟨rfl, rfl⟩
  handles := by
    intro c a i incoming log s before _ _ h
    obtain ⟨h, -⟩ := h
    have hi := before.nodes i
    generalize c.nodes i = s₀ at h hi
    cases h <;> exact hi
  emits _ _ _ _ _ := trivial
  goes := by
    intro c i s before h
    have hi := before.nodes i
    generalize c.nodes i = s₀ at h hi
    cases h <;> exact hi
  announces _ _ _ := trivial

theorem Visited.config_eq (h : Visited ids stateMachine G c) (i : NodeId) :
    (c.nodes i).config = ⟨ids.length, ids⟩ :=
  ((preserved_identity.visited h).1 i).2

theorem Visited.id_eq (h : Visited ids stateMachine G c) (i : NodeId) : (c.nodes i).id = i :=
  ((preserved_identity.visited h).1 i).1

theorem preserved_ends : Preserved ids stateMachine G (fun _ _ => True)
    fun e => e.src ∈ ids ∧ e.dst ∈ ids ∧ e.dst ≠ e.src where
  init _ := trivial
  handles _ _ _ _ := trivial
  emits before _ _ hsent _ := ⟨hsent.src ▸ before.mem, hsent.dst, hsent.src ▸ hsent.ne⟩
  goes _ _ := trivial
  announces before hsent _ := ⟨hsent.src ▸ before.mem, hsent.dst, hsent.src ▸ hsent.ne⟩

theorem Visited.ends (h : Visited ids stateMachine G c) {e : Envelope σ} (he : e ∈ c.sent) :
    e.src ∈ ids ∧ e.dst ∈ ids ∧ e.dst ≠ e.src :=
  (preserved_ends.visited h).2 e he

theorem preserved_not_clientRequest : Preserved ids stateMachine G (fun _ _ => True)
    fun e => ∀ req, e.msg ≠ .clientRequest req where
  init _ := trivial
  handles _ _ _ _ := trivial
  emits := by
    intro c a i incoming log e _ _ _ hsent _ req hmsg
    obtain ⟨dest, ⟨-, hemit⟩, -⟩ := hsent.out
    rw [hmsg] at hemit
    cases hemit
  goes _ _ := trivial
  announces := by
    intro c i e _ hsent _ req hmsg
    obtain ⟨dest, ⟨-, hann⟩, -⟩ := hsent.out
    rw [hmsg] at hann
    cases hann

end Cluster

end MiniRaft
