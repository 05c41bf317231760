import MiniRaft.Cluster.CommittedPrefix
import MiniRaft.Cluster.Throughout
import MiniRaft.Server.Journal

/-!
# What the nodes of a cluster have applied

In every run with short logs in which no accepted `AppendEntries` conflicts with an entry its
receiver regards as committed, for a state machine whose calls do not fail: what a node has applied
so far is its own log up to `last_applied`, each entry once and in order, and the state machine has
taken exactly that.
-/

namespace MiniRaft

variable {σ : Type}

/-- What a node has applied, in the order in which it did. -/
def journalOf (i : NodeId) (history : List Event) : List (ℕ × LogCommand) :=
  history.filterMap fun
    | .applied j index command => if j = i then some (index, command) else none
    | .elected .. => none
    | .committed .. => none

theorem journalOf_callsOf (i j : NodeId) (o : Outcome σ) :
    journalOf j (callsOf i o) = if j = i then journal o.effects else [] := by
  unfold callsOf
  induction o.effects with
  | nil => simp [journalOf, journal]
  | cons ef effects ih =>
    cases ef with
    | send => exact ih
    | apply index command ok =>
      by_cases hj : j = i
      · subst hj
        rw [if_pos rfl] at ih ⊢
        simp only [journalOf, journal, List.filterMap_cons, ↓reduceIte] at ih ⊢
        exact congrArg (List.cons (index, command)) ih
      · have hne : i ≠ j := fun heq => hj heq.symm
        rw [if_neg hj] at ih ⊢
        simp only [journalOf, List.filterMap_cons, if_neg hne] at ih ⊢
        exact ih

theorem journalOf_changeOf (i j : NodeId) (s s' : Server σ) :
    journalOf j (changeOf i s s') = [] := by
  unfold changeOf
  split_ifs <;> rfl

namespace Server

variable [StateMachine σ] {s s' : Server σ} {sm : σ} {calls : List (ℕ × LogCommand)}

/-- The log up to `last_applied` has been applied, and the state machine, `sm` before, has taken
it. -/
structure Journaled (s : Server σ) (sm : σ) (calls : List (ℕ × LogCommand)) : Prop where
  calls : calls = numbered 0 (s.log.take (s.lastApplied + 1).toNat)
  store : s.stateMachine = replay sm (s.log.take (s.lastApplied + 1).toNat)

theorem replay_append (sm : σ) (es es' : List LogEntry) :
    replay sm (es ++ es') = replay (replay sm es) es' := by
  rw [replay_eq_foldl, replay_eq_foldl, replay_eq_foldl, List.foldl_append]

/-- **What is recorded continues the journal**, if the log is kept as far as it has been applied. -/
theorem Journaled.records (h : s.Journaled sm calls) (hb : s.Bounded) {effects : List (Effect σ)}
    (hr : s.Records effects s')
    (hlog : ∀ k : ℕ, (k : ℤ) ≤ s'.lastApplied → s'.log[k]? = s.log[k]?) :
    s'.Journaled sm (calls ++ journal effects) := by
  obtain ⟨hap, hle, hci⟩ := hb
  have hge := hr.le
  have htake : s'.log.take (s'.lastApplied + 1).toNat = s.log.take (s.lastApplied + 1).toNat ++
      s.pending (s'.lastApplied - s.lastApplied).toNat := by
    have hsum : (s'.lastApplied + 1).toNat =
        (s.lastApplied + 1).toNat + (s'.lastApplied - s.lastApplied).toNat := by omega
    rw [pending, ← List.take_add, ← hsum]
    refine List.ext_getElem? fun k => ?_
    rw [List.getElem?_take, List.getElem?_take]
    split_ifs with hk
    · exact hlog k (by omega)
    · rfl
  have hlength : (s.log.take (s.lastApplied + 1).toNat).length = (s.lastApplied + 1).toNat := by
    rw [List.length_take]
    omega
  constructor
  · rw [htake, numbered_append, hlength, Nat.zero_add, h.calls, hr.calls]
  · rw [htake, replay_append, ← h.store, hr.store]

theorem Journaled.loop {o : Outcome σ} (h : s.Journaled sm calls) (hb : s.Bounded)
    (hr : s.RecordsIn o) (hens : o.Ensures s.Goes s.Announces) (hp : o.panicked = false) :
    o.server.Journaled sm (calls ++ journal o.effects) := by
  refine h.records hb (hr.server hp) fun k _ => ?_
  rw [(hens.server hp).log_eq]

omit [StateMachine σ] in
theorem Handles.keeps_applied {incoming : Incoming} (hb : s.Bounded) (hlen : s.log.length < 2 ^ 31)
    (hin : ∀ sender msg, incoming = ⟨sender, .appendEntries msg⟩ → s.Accepts msg →
      s.Agrees msg ∧ ∃ L a, PieceOf msg L a)
    (h : s.Handles incoming s') :
    s'.log.length ≤ 2 ^ 31 ∧ ∀ k : ℕ, (k : ℤ) ≤ s'.lastApplied → s'.log[k]? = s.log[k]? := by
  have hap := hb.applied
  have hle := hb.le
  have hci := hb.commit
  cases h with
  | keep | stepDown | vote | win => exact ⟨Nat.le_of_lt hlen, fun _ _ => rfl⟩
  | response => exact ⟨Nat.le_of_lt hlen, fun _ _ => rfl⟩
  | @accept nodeId msg sm ci la log heq hacc hmerge hcommits =>
    obtain ⟨hagree, L, a, hpiece⟩ := hin _ _ heq hacc
    rw [hpiece.entries] at hmerge
    have hgraft := grafted_of_mergedLog hpiece.numbered hmerge
    obtain ⟨hkeep, -⟩ := hagree.grafted hb hpiece.numbered hpiece.entries hgraft
    obtain ⟨-, -, hla⟩ := hcommits hlen
    obtain ⟨hge, -⟩ := hb.le_clampCommit msg.leaderCommit
    refine ⟨?_, fun k hk => hkeep k ?_⟩
    · have hL := hpiece.length
      have := hgraft.length_le
      dsimp only
      omega
    · dsimp only at hk
      omega
  | push =>
    refine ⟨?_, fun k hk => List.getElem?_append_left ?_⟩
    · rw [List.length_append, List.length_singleton]
      omega
    · dsimp only at hk
      omega

end Server

namespace Cluster

open Server

variable [StateMachine σ] {ids : List NodeId} {stateMachine : NodeId → σ}
  {G : Cluster σ → Action → Prop} {c c' : Cluster σ} {a : Action}

/-- Every running node has applied its log up to `last_applied`. -/
def AllJournaled (stateMachine : NodeId → σ) (c : Cluster σ) : Prop :=
  ∀ i, c.crashed i = false → (c.nodes i).Journaled (stateMachine i) (journalOf i c.history)

omit [StateMachine σ] in
theorem journalOf_perform (i j : NodeId) (p : Phase σ) : journalOf j (perform ids i c p).history =
    journalOf j c.history ++ if j = i then journal p.outcome.effects else [] := by
  have hevents : journalOf j (eventsOf i (c.nodes i) p.outcome) =
      if j = i then journal p.outcome.effects else [] := by
    rw [eventsOf, journalOf, List.filterMap_append]
    show journalOf j (callsOf i p.outcome) ++ journalOf j _ = _
    rw [journalOf_callsOf]
    cases p.outcome.panicked with
    | true => exact List.append_nil _
    | false =>
      rw [if_neg Bool.false_ne_true, journalOf_changeOf, List.append_nil]
  rw [← hevents]
  exact List.filterMap_append

/-- **One phase** of a node that records what it applies. -/
theorem AllJournaled.perform {i : NodeId} {p : Phase σ} (h : AllJournaled stateMachine c)
    (hp : p.outcome.panicked = false → p.outcome.server.Journaled (stateMachine i)
      (journalOf i c.history ++ journal p.outcome.effects)) :
    AllJournaled stateMachine (Cluster.perform ids i c p) := by
  intro j hc
  rw [journalOf_perform]
  simp only [Cluster.perform] at hc ⊢
  by_cases hj : j = i
  · subst hj
    rw [Function.update_self] at hc
    rw [hc, if_neg Bool.false_ne_true, Function.update_self, if_pos rfl]
    exact hp hc
  · rw [Function.update_of_ne hj] at hc
    have hnode : (if p.outcome.panicked then c.nodes
        else Function.update c.nodes i p.outcome.server) j = c.nodes j := by
      split_ifs
      · rfl
      · exact Function.update_of_ne hj _ _
    rw [hnode, if_neg hj, List.append_nil]
    exact h j hc

/-- **One step.** -/
theorem AllJournaled.next (h : AllJournaled stateMachine c) (hok : Reliable σ)
    (hG : ∀ (c : Cluster σ) a, G c a → Short ids c a) (hG' : ∀ c a, G c a → NoConflict σ c a)
    (hv : Visited ids stateMachine G c) (hg : G c a) (hn : next ids c a = some c') :
    AllJournaled stateMachine c' := by
  obtain ⟨hbounded, hcommit⟩ := (preserved_bounded hG hG').visited hv
  obtain ⟨ds, i, incoming, phases, -, hi, hc, harr, hturn, rfl⟩ := turn_of_next hn
  have hb := hbounded i
  have hlen := hG _ _ hg i hi
  have within : ∀ {s : Server σ}, s.Bounded → s.Within := fun hb => ⟨hb.applied, hb.le, hb.commit⟩
  have h' : AllJournaled stateMachine { c with delivered := ds } := h
  -- a handler, complete or dropped
  have handled : ∀ {incoming : Incoming} {o : Outcome σ},
      c.Arrives a i incoming → (c.nodes i).RecordsIn o → o.panicked = false →
      (∃ log, (c.nodes i).HandlesTo incoming log o.server) →
      o.server.Bounded ∧ o.server.log.length ≤ 2 ^ 31 ∧ o.server.Journaled (stateMachine i)
        (journalOf i c.history ++ journal o.effects) := by
    rintro incoming o harr hrecords hp ⟨log, hs, -⟩
    have hin : ∀ sender msg, incoming = ⟨sender, .appendEntries msg⟩ → (c.nodes i).Accepts msg →
        (c.nodes i).Agrees msg ∧ ∃ L a, PieceOf msg L a := by
      rintro sender msg rfl hacc
      obtain ⟨order, hmeets⟩ := harr.meets (hG' _ _ hg)
      exact ⟨hmeets msg rfl hacc, hv.pieceOf hG hcommit harr⟩
    obtain ⟨hlen', hlog⟩ := hs.keeps_applied hb hlen hin
    exact ⟨(hs.extends hb hlen hin).1, hlen', (h i hc).records hb (hrecords.server hp) hlog⟩
  -- the loop after it
  have both : ∀ {incoming : Incoming} {o o' : Outcome σ}, o.panicked = false →
      o.server.Bounded → o.server.Journaled (stateMachine i)
        (journalOf i c.history ++ journal o.effects) → o.server.RecordsIn o' →
      o'.Ensures o.server.Goes o.server.Announces → AllJournaled stateMachine
        (([⟨some incoming.msg, o⟩, ⟨none, o'⟩] : List (Phase σ)).foldl (Cluster.perform ids i)
          { c with delivered := ds }) := by
    intro incoming o o' hp hb₁ hj hrecords hens
    have h₁ : AllJournaled stateMachine
        (Cluster.perform ids i { c with delivered := ds } ⟨some incoming.msg, o⟩) :=
      h'.perform fun _ => hj
    refine h₁.perform fun hp' => ?_
    rw [journalOf_perform, if_pos rfl]
    exact hj.loop hb₁ hrecords hens hp'
  cases hturn with
  | timer =>
    exact h'.perform fun hp => (h i hc).loop hb
      (afterTimer_records hok (within hb) (Nat.le_of_lt hlen) _) (afterTimer_ensures rfl rfl) hp
  | stuck hpan =>
    refine h'.perform fun hp => ?_
    rw [hpan] at hp
    cases hp
  | @handled incoming order hpan =>
    obtain ⟨log, hens⟩ := (c.nodes i).recieveRpc_ensures order incoming
    have hs := hens.server hpan
    obtain ⟨hb₁, hlen₁, hj₁⟩ := handled (harr _ rfl)
      (recieveRpc_records hok (within hb) hlen order incoming) hpan ⟨log, hs⟩
    exact both hpan hb₁ hj₁ (afterRpc_records hok (within hb₁) hlen₁ _)
      (afterRpc_ensures hs.1.isCandidate)
  | @dropped incoming order k o _ ho =>
    obtain ⟨⟨log, hspec⟩, hrole, hpan⟩ := cut_recieveRpc ho
    obtain ⟨hb₁, hlen₁, hj₁⟩ := handled (harr _ rfl)
      ((recieveRpc_records hok (within hb) hlen order incoming).cut ho) hpan
      ⟨log, hspec.ensures.server hpan⟩
    exact both hpan hb₁ hj₁ (afterTimer_records hok (within hb₁) hlen₁ _)
      (afterTimer_ensures hrole.1 hrole.2)

/-- **Every run.** -/
theorem allJournaled_of_reach (hok : Reliable σ)
    (hG : ∀ (c : Cluster σ) a, G c a → Short ids c a) (hG' : ∀ c a, G c a → NoConflict σ c a)
    (h : (machine σ ids).Reach G (init ids stateMachine) c) : AllJournaled stateMachine c := by
  have h₀ : AllJournaled stateMachine (init ids stateMachine) := fun i _ => ⟨rfl, rfl⟩
  exact (h.invariant (I := fun c => Visited ids stateMachine G c ∧ AllJournaled stateMachine c)
    ⟨.init, h₀⟩ fun c a c' hc hg hn =>
      ⟨visited_of_next hc.1 hg hn, hc.2.next hok hG hG' hc.1 hg hn⟩).2

/-- **Once and in order.**  In every run with short logs in which no accepted `AppendEntries`
conflicts with an entry its receiver regards as committed, and with a state machine whose calls do
not fail, a running node has applied exactly the entries of its log up to `last_applied`, each once
and in order, and its state machine is what they make of the initial one. -/
theorem applied_once_in_order (hok : Reliable σ)
    (h : (machine σ ids).Reach (Machine.both (Short ids) (NoConflict σ)) (init ids stateMachine) c)
    {i : NodeId} (hc : c.crashed i = false) :
    journalOf i c.history = numbered 0 ((c.nodes i).log.take ((c.nodes i).lastApplied + 1).toNat) ∧
      (c.nodes i).stateMachine = ((c.nodes i).log.take ((c.nodes i).lastApplied + 1).toNat).foldl
        (fun sm entry => carryOut sm entry.command) (stateMachine i) := by
  have hj := allJournaled_of_reach hok (fun _ _ hg => hg.1) (fun _ _ hg => hg.2) h i hc
  exact ⟨hj.calls, by rw [hj.store, replay_eq_foldl]⟩

/-- Node 2 hears from a heartbeat what is committed and applies it. -/
theorem applied_once_in_order_follower : ∃ c : Cluster SimpleStateMachine,
    (c.nodes 2).lastApplied = 0 ∧ journalOf 2 c.history = [(0, .set "x" "1")] ∧
      journalOf 2 c.history =
        numbered 0 ((c.nodes 2).log.take ((c.nodes 2).lastApplied + 1).toNat) := by
  have hrun : ((machine SimpleStateMachine [1, 2, 3]).exec
      (Machine.both (Short [1, 2, 3]) (NoConflict SimpleStateMachine))
      (init [1, 2, 3] fun _ => .new)
      [.timeout 1, .receive [1, 2, 3] 0, .receive [1, 2, 3] 1, .receive [1, 2, 3] 2,
        .receive [1, 2, 3] 3, .set [1, 2, 3] 1 "x" "1", .receive [1, 2, 3] 8,
        .receive [1, 2, 3] 12, .timeout 1, .receive [1, 2, 3] 13]).any
      (fun c => decide (c.crashed 2 = false ∧ (c.nodes 2).lastApplied = 0 ∧
        journalOf 2 c.history = [(0, .set "x" "1")])) = true := by
    decide
  obtain ⟨c, hc, hrunning, happlied, hjournal⟩ := Machine.exists_reach_of_exec hrun
  exact ⟨c, happlied, hjournal, (applied_once_in_order SimpleStateMachine.reliable hc hrunning).1⟩

end Cluster

end MiniRaft
