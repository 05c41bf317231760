import MiniRaft.Cluster.Steps

/-!
# What holds throughout a cluster

`Cluster.Throughout E N Q` says of a cluster that every node satisfies `N`, which may look at
whether the node has crashed, and that the envelopes at the positions `E` satisfy `Q` by their
senders and messages.

* `Server.TurnIs` : the phases of a turn, by the handler and the loop they are.
* `Cluster.turn_of_next` : a step is a turn of one node.
* `Cluster.Throughout.next` : **the rule for one step**: what handlers keep and what the role loops
  after them lead to holds throughout the cluster after it.
-/

namespace MiniRaft

variable {σ : Type}

/-- The timer of a node fires in this step. -/
def Action.fires : Action → Bool
  | .deliver _ _ cut => cut.isSome
  | .request _ _ _ _ cut => cut.isSome
  | .timeout _ => true

/-- The node whose turn a step is. -/
def Cluster.actor (c : Cluster σ) : Action → Option NodeId
  | .deliver k _ _ => (c.sent[k]?).map Envelope.dst
  | .request node _ _ _ _ => some node
  | .timeout node => some node

namespace Server

variable [StateMachine σ] {s : Server σ} {ev : Select} {phases : List (Phase σ)}

/-- The phases of a turn: `fires` if its timer does. -/
inductive TurnIs (s : Server σ) (fires : Bool) : Option Incoming → List (Phase σ) → Prop
  | timer : fires = true → TurnIs s fires none [⟨none, s.afterTimer s.state⟩]
  | stuck {incoming : Incoming} {order : List NodeId} :
      (s.recieveRpc order incoming).panicked = true →
      TurnIs s fires (some incoming) [⟨some incoming.msg, s.recieveRpc order incoming⟩]
  | handled {incoming : Incoming} {order : List NodeId} :
      (s.recieveRpc order incoming).panicked = false →
      TurnIs s fires (some incoming) [⟨some incoming.msg, s.recieveRpc order incoming⟩,
        ⟨none, (s.recieveRpc order incoming).server.afterRpc s.state⟩]
  | dropped {incoming : Incoming} {order : List NodeId} {k : ℕ} {o : Outcome σ} : fires = true →
      (s.recieveRpc order incoming).cut k = some o →
      TurnIs s fires (some incoming) [⟨some incoming.msg, o⟩, ⟨none, o.server.afterTimer s.state⟩]

/-- Whether the timer ends the wait. -/
def fired : Select → Bool
  | .rpc _ _ => false
  | .timer => true
  | .cancelled _ _ _ => true

theorem turnIs_of_turn (h : s.turn ev = some phases) :
    s.TurnIs (fired ev) ev.incoming phases := by
  cases ev with
  | timer =>
    cases h
    exact .timer rfl
  | rpc order incoming =>
    simp only [turn] at h
    split_ifs at h with hperm hpan
    · cases h
      exact .stuck hpan
    · cases h
      exact .handled (by simpa using hpan)
  | cancelled order incoming k =>
    simp only [turn] at h
    split_ifs at h with hperm
    obtain ⟨o, ho, rfl⟩ := Option.map_eq_some_iff.1 h
    exact .dropped rfl ho

end Server

namespace Cluster

open Server

theorem turn_of_act [StateMachine σ] {ids : List NodeId} {c c' : Cluster σ} {i : NodeId}
    {ev : Select} (h : act ids c i ev = some c') : i ∈ ids ∧ c.crashed i = false ∧
      ∃ phases, (c.nodes i).TurnIs (fired ev) ev.incoming phases ∧
        c' = phases.foldl (perform ids i) c := by
  simp only [act] at h
  split_ifs at h with hrun
  obtain ⟨phases, hturn, rfl⟩ := Option.map_eq_some_iff.1 h
  exact ⟨hrun.1, hrun.2, phases, turnIs_of_turn hturn, rfl⟩

/-- **A step is a turn** of one node that runs. -/
theorem turn_of_next [StateMachine σ] {ids : List NodeId} {c c' : Cluster σ} {a : Action}
    (h : next ids c a = some c') : ∃ ds i incoming phases, c.actor a = some i ∧ i ∈ ids ∧
      c.crashed i = false ∧ (∀ m ∈ incoming, c.Arrives a i m) ∧
      (c.nodes i).TurnIs a.fires incoming phases ∧
      c' = phases.foldl (perform ids i) { c with delivered := ds } := by
  have select : ∀ {order : List NodeId} {incoming : Incoming} {cut : Option ℕ},
      (selectOf order incoming cut).incoming = some incoming ∧
        fired (selectOf order incoming cut) = cut.isSome := by
    intro order incoming cut
    cases cut <;> exact ⟨rfl, rfl⟩
  cases a with
  | deliver k order cut =>
    simp only [next] at h
    split at h
    · cases h
    · rename_i e he
      obtain ⟨hi, hc, phases, hturn, heq⟩ := turn_of_act h
      rw [select.1, select.2] at hturn
      have hactor : c.actor (.deliver k order cut) = some e.dst := by
        rw [actor, he, Option.map_some]
      refine ⟨k :: c.delivered, e.dst, _, phases, hactor, hi, hc, fun m hm => ?_, hturn, heq⟩
      cases hm
      exact .deliver he
  | request node client req order cut =>
    obtain ⟨hi, hc, phases, hturn, heq⟩ := turn_of_act h
    rw [select.1, select.2] at hturn
    refine ⟨c.delivered, node, _, phases, rfl, hi, hc, fun m hm => ?_, hturn, heq⟩
    cases hm
    exact .request
  | timeout node =>
    obtain ⟨hi, hc, phases, hturn, heq⟩ := turn_of_act h
    refine ⟨c.delivered, node, none, phases, rfl, hi, hc, fun m hm => ?_, hturn, heq⟩
    cases hm

theorem foldl_perform_of_ne {ids : List NodeId} {i j : NodeId} (c : Cluster σ) (hj : j ≠ i)
    (phases : List (Phase σ)) : (phases.foldl (perform ids i) c).nodes j = c.nodes j ∧
      (phases.foldl (perform ids i) c).crashed j = c.crashed j := by
  induction phases generalizing c with
  | nil => exact ⟨rfl, rfl⟩
  | cons p ps ih =>
    obtain ⟨hnode, hcrash⟩ := ih (perform ids i c p)
    rw [List.foldl_cons, hnode, hcrash, perform]
    refine ⟨?_, Function.update_of_ne hj _ _⟩
    split_ifs
    · rfl
    · exact Function.update_of_ne hj _ _

/-- The phase `o` of the node `i` is the last of the step to `c`. -/
structure EndsWith (c : Cluster σ) (i : NodeId) (o : Outcome σ) : Prop where
  crashed : c.crashed i = o.panicked
  node : o.panicked = false → c.nodes i = o.server

theorem endsWith_perform (ids : List NodeId) (i : NodeId) (c : Cluster σ) (p : Phase σ) :
    (perform ids i c p).EndsWith i p.outcome where
  crashed := by simp [perform]
  node hp := by simp [perform, hp]

/-- Every node satisfies `N`, and the envelopes at the positions `E` satisfy `Q`. -/
structure Throughout (E : ℕ → Prop) (N : NodeId → Bool → Server σ → Prop)
    (Q : NodeId → Message → Prop) (c : Cluster σ) : Prop where
  nodes : ∀ j, N j (c.crashed j) (c.nodes j)
  sent : ∀ k e, E k → c.sent[k]? = some e → Q e.src e.msg

namespace Throughout

variable {ids : List NodeId} {E E' : ℕ → Prop} {N N' : NodeId → Bool → Server σ → Prop}
  {Q Q' : NodeId → Message → Prop} {c c' : Cluster σ} {i : NodeId}

theorem mono (h : Throughout E N Q c) (hE : ∀ k, E' k → E k) (hN : ∀ j b s, N j b s → N' j b s)
    (hQ : ∀ j m, Q j m → Q' j m) : Throughout E' N' Q' c where
  nodes j := hN _ _ _ (h.nodes j)
  sent k e hk he := hQ _ _ (h.sent k e (hE k hk) he)

/-- **One phase.** -/
theorem perform {p : Phase σ} (h : Throughout E N Q c) (hc : c.crashed i = false)
    (hN : ∀ j b s, N j b s → N' j b s) (hQ : ∀ j m, Q j m → Q' j m)
    (crash : ∀ s, N' i false s → N' i true s)
    (hp : p.outcome.Ensures (N' i false) fun out _ => Q' i out.msg) :
    Throughout E N' Q' (perform ids i c p) where
  nodes := by
    intro j
    simp only [Cluster.perform]
    by_cases hj : j = i
    · subst hj
      rw [Function.update_self]
      cases hpan : p.outcome.panicked with
      | true =>
        have hnode := h.nodes j
        rw [hc] at hnode
        exact crash _ (hN _ _ _ hnode)
      | false =>
        rw [if_neg Bool.false_ne_true, Function.update_self]
        exact hp.server hpan
    · rw [Function.update_of_ne hj]
      split_ifs
      · exact hN _ _ _ (h.nodes j)
      · rw [Function.update_of_ne hj]
        exact hN _ _ _ (h.nodes j)
  sent := by
    intro k e hk he
    simp only [Cluster.perform] at he
    by_cases hlt : k < c.sent.length
    · rw [List.getElem?_append_left hlt] at he
      exact hQ _ _ (h.sent k e hk he)
    · rw [List.getElem?_append_right (Nat.not_lt.1 hlt)] at he
      obtain ⟨ef, hef, he⟩ := List.mem_flatMap.1 (List.mem_of_getElem? he)
      obtain ⟨hsrc, -, -, -, dest, rfl, -⟩ := mem_route he
      rw [hsrc]
      exact (hp.sends hef).2

variable [StateMachine σ] {a : Action}

/-- **The rule for one step.** -/
theorem next (h : Throughout E N Q c) (hn : next ids c a = some c')
    (hN : ∀ j b s, N j b s → N' j b s) (hQ : ∀ j m, Q j m → Q' j m)
    (crash : ∀ j s, N j false s → N j true s) (crash' : ∀ j s, N' j false s → N' j true s)
    (rpc : ∀ j order incoming, j ∈ ids → c.Arrives a j incoming → N j false (c.nodes j) →
      ((c.nodes j).recieveRpc order incoming).Ensures (N j false) fun out _ => Q j out.msg)
    (afterRpc : ∀ j s role, j ∈ ids → N j false s →
      (role.isCandidate = false → s.state.isCandidate = false) →
      (s.afterRpc role).Ensures (N' j false) fun out _ => Q' j out.msg)
    (afterTimer : ∀ j s role, j ∈ ids → a.fires = true → c.actor a = some j →
      c'.EndsWith j (s.afterTimer role) → N j false s →
      s.state.isLeader = role.isLeader → s.state.isCandidate = role.isCandidate →
      (s.afterTimer role).Ensures (N' j false) fun out _ => Q' j out.msg) :
    Throughout E N' Q' c' := by
  obtain ⟨ds, j, incoming, phases, hactor, hj, hc, harr, hturn, rfl⟩ := turn_of_next hn
  have hnode : N j false (c.nodes j) := by
    have := h.nodes j
    rwa [hc] at this
  have h' : Throughout E N Q { c with delivered := ds } := ⟨h.nodes, h.sent⟩
  have handled : ∀ {o : Outcome σ} (incoming : Incoming),
      o.Ensures (N j false) (fun out _ => Q j out.msg) → Throughout E N Q
        (Cluster.perform ids j { c with delivered := ds } ⟨some incoming.msg, o⟩) :=
    fun _ ho => h'.perform hc (fun _ _ _ h => h) (fun _ _ h => h) (crash j) ho
  have alive : ∀ {o : Outcome σ} (incoming : Incoming), o.panicked = false → (Cluster.perform ids j
      { c with delivered := ds } ⟨some incoming.msg, o⟩).crashed j = false := by
    intro o incoming hpan
    simp only [Cluster.perform, Function.update_self, hpan]
  cases hturn with
  | timer hf => exact h'.perform hc hN hQ (crash' j) (afterTimer j _ _ hj hf hactor
      (endsWith_perform ids j _ ⟨none, _⟩) hnode rfl rfl)
  | @stuck incoming order hpan =>
    have hrpc := rpc j order incoming hj (harr _ rfl) hnode
    exact h'.perform hc hN hQ (crash' j) (hrpc.mono (fun _ => hN _ _ _) fun _ _ _ => hQ _ _)
  | @handled incoming order hpan =>
    have hrpc := rpc j order incoming hj (harr _ rfl) hnode
    have hrole : (c.nodes j).state.isCandidate = false →
        ((c.nodes j).recieveRpc order incoming).server.state.isCandidate = false := by
      obtain ⟨log, hens⟩ := (c.nodes j).recieveRpc_ensures order incoming
      exact (hens.server hpan).1.isCandidate
    exact (handled incoming hrpc).perform (alive incoming hpan) hN hQ (crash' j)
      (afterRpc j _ _ hj (hrpc.server hpan) hrole)
  | @dropped incoming order k o hf ho =>
    have hrpc := (rpc j order incoming hj (harr _ rfl) hnode).cut ho
    obtain ⟨-, hrole, hpan⟩ := cut_recieveRpc ho
    exact (handled incoming hrpc).perform (alive incoming hpan) hN hQ (crash' j)
      (afterTimer j _ _ hj hf hactor (endsWith_perform ids j _ ⟨none, _⟩) (hrpc.server hpan) hrole.1
        hrole.2)

end Throughout

end Cluster

end MiniRaft
