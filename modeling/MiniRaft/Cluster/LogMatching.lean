import MiniRaft.Cluster.Election
import MiniRaft.Cluster.WellFormed
import MiniRaft.Consensus.Reign

/-!
# Log matching

A leader of the term `t` writes its log, and every other log takes its entries of the term `t` from
that one.  The cluster so has a reign for every term, in which all logs are rooted, as long as no
term has two leaders and every piece that is accepted continues an entry that sender and receiver
share.  The check of `prev_log_index` does not see to the latter: the entry of a client's command is
sent to all nodes with the `prev_log_index` of each.
-/

namespace MiniRaft

open Consensus

variable {σ : Type}

namespace Cluster

open Server

/-- The entry before the first accepted one is, if there is one, the same in the log of the receiver
as in that of the sender. -/
def Joins (c : Cluster σ) : Action → Prop
  | .deliver k _ _ => ∀ e ∈ c.sent[k]?, ∀ msg ∈ e.msg.asAppendEntries, (c.nodes e.dst).Accepts msg →
      ∀ first ∈ msg.entries.head?, 0 < first.index → ∀ x ∈ (c.nodes e.dst).log[first.index - 1]?,
        ∀ y ∈ e.snap.log[first.index - 1]?, x.term = y.term
  | _ => True

instance (c : Cluster σ) : (a : Action) → Decidable (Joins c a)
  | .deliver k _ _ => inferInstanceAs (Decidable (∀ e ∈ c.sent[k]?,
      ∀ msg ∈ e.msg.asAppendEntries, (c.nodes e.dst).Accepts msg → ∀ first ∈ msg.entries.head?,
        0 < first.index → ∀ x ∈ (c.nodes e.dst).log[first.index - 1]?, _))
  | .request .. => inferInstanceAs (Decidable True)
  | .timeout _ => inferInstanceAs (Decidable True)

/-- The logs are short, every vote is given once and counted once, and what is accepted continues an
entry that sender and receiver share. -/
def Linked (ids : List NodeId) : Cluster σ → Action → Prop :=
  Machine.both (Short ids) (Machine.both (SingleVotes σ) Joins)

instance (ids : List NodeId) : ∀ (c : Cluster σ) (a : Action), Decidable (Linked ids c a) :=
  inferInstanceAs (∀ c a, Decidable (Machine.both _ (Machine.both _ _) c a))

/-- The reigns account for the logs of the cluster, and for those that `AppendEntries` come from. -/
structure Reigned (R : Reigns LogEntry) (c : Cluster σ) : Prop where
  lawful : Lawful LogEntry.term R
  nodes : ∀ i, Rooted LogEntry.term R (c.nodes i).log
  elected : ∀ {q T log}, .elected q T log ∈ c.history → ∃ r, R T = some r ∧ r.base = log
  reign : ∀ {T r}, R T = some r → ∃ q, .elected q T r.base ∈ c.history
  leader : ∀ i, (c.nodes i).state.isLeader = true → c.crashed i = false →
    ∃ r, R (c.nodes i).currentTerm = some r ∧ (c.nodes i).log = r.log
  sent : ∀ e ∈ c.sent, ∀ msg, e.msg = .appendEntries msg →
    ∃ r, R msg.term = some r ∧ r.base <+: e.snap.log ∧ e.snap.log <+: r.log

variable [StateMachine σ] {ids : List NodeId} {stateMachine : NodeId → σ}
  {G : Cluster σ → Action → Prop} {c c' : Cluster σ} {R R' : Reigns LogEntry}

namespace Reigned

omit [StateMachine σ] in
/-- One phase, after which the reigns are `R'`: only those of the node `i` have changed. -/
theorem phase {i : NodeId} {cause : Option Message} {P : Server σ → Prop}
    {Q : Outgoing → Server σ → Prop} {A : ℕ → LogCommand → Prop} (h : Reigned R c)
    (hel : Elections ids c') (hlater : c.Later c') (hphase : c.PhaseOf ids i cause P Q A c')
    (hlawful : Lawful LogEntry.term R') (hgrow : Grows R R')
    (hchange : ∀ T, R' T = R T ∨ ∃ log, .elected i T log ∈ c'.history)
    (hreign : ∀ T r, R' T = some r → R T = none → .elected i T r.base ∈ c'.history)
    (hnodes : ∀ s, P s → Rooted LogEntry.term R' s.log)
    (helected : (c.nodes i).state.isLeader = false → (c'.nodes i).state.isLeader = true →
      c'.crashed i = false → ∃ r, R' (c'.nodes i).currentTerm = some r ∧ r.base = (c'.nodes i).log)
    (hleader : (c'.nodes i).state.isLeader = true → c'.crashed i = false →
      ∃ r, R' (c'.nodes i).currentTerm = some r ∧ (c'.nodes i).log = r.log)
    (hsend : ∀ e, SentBy ids i cause (fun out s => P s ∧ Q out s) e → ∀ msg,
      e.msg = .appendEntries msg →
        ∃ r, R' msg.term = some r ∧ r.base <+: e.snap.log ∧ e.snap.log <+: r.log) :
    Reigned R' c' where
  lawful := hlawful
  nodes := by
    intro j
    rcases hphase.moved j with hj | ⟨rfl, -, hP⟩
    · rw [hj]
      exact (h.nodes j).mono hgrow
    · exact hnodes _ hP
  elected := by
    intro q T log hev
    rcases hphase.event hev with hev | ⟨_, _, hev, -⟩ | ⟨hc, hev⟩
    · obtain ⟨r, hr, hbase⟩ := h.elected hev
      obtain ⟨r', hr', hbase', -⟩ := hgrow T r hr
      exact ⟨r', hr', hbase'.trans hbase⟩
    · cases hev
    · obtain ⟨rfl, rfl, rfl, hl, hl'⟩ := mem_changeOf_elected.1 hev
      exact helected hl hl' hc
  reign := by
    intro T r hr
    cases hT : R T with
    | none => exact ⟨i, hreign T r hr hT⟩
    | some r₀ =>
      obtain ⟨q, hev⟩ := h.reign hT
      obtain ⟨r', hr', hbase, -⟩ := hgrow T r₀ hT
      rw [hr, Option.some.injEq] at hr'
      subst hr'
      rw [hbase]
      exact ⟨q, hlater.history.subset hev⟩
  leader := by
    intro j hl hc
    by_cases hj : j = i
    · subst hj
      exact hleader hl hc
    · -- no other node leads a term whose reign has changed
      obtain ⟨hnode, hcrash⟩ := hphase.others j hj
      rcases hchange (c'.nodes j).currentTerm with hsame | ⟨log, hev⟩
      · rw [hsame, hnode]
        rw [hnode] at hl
        rw [hcrash] at hc
        exact h.leader j hl hc
      · obtain ⟨log', hev'⟩ := hel.leader j hl
        exact absurd (hel.unique hev' hev) hj
  sent := by
    intro e he msg hmsg
    rcases hphase.sentBy he with he | he
    · obtain ⟨r, hr, hbase, hlog⟩ := h.sent e he msg hmsg
      obtain ⟨r', hr', hbase', hlog'⟩ := hgrow _ r hr
      exact ⟨r', hr', by rwa [hbase'], hlog.trans hlog'⟩
    · exact hsend e he msg hmsg

end Reigned

/-! ### What a handler makes of a log -/

omit [StateMachine σ] in
theorem Joins.apply {a : Action} {i : NodeId} {sender : Id} {msg : AppendEntries} (h : Joins c a)
    (harr : c.Arrives a i ⟨sender, .appendEntries msg⟩) (hacc : (c.nodes i).Accepts msg) :
    ∃ e ∈ c.sent, e.dst = i ∧ sender = .peer e.src ∧ e.msg = .appendEntries msg ∧
      ∀ first ∈ msg.entries.head?, 0 < first.index → ∀ x ∈ (c.nodes i).log[first.index - 1]?,
        ∀ y ∈ e.snap.log[first.index - 1]?, x.term = y.term := by
  obtain ⟨k, order, cut, e, rfl, he, rfl, heq⟩ := harr.envelope fun _ h => by cases h
  rw [Incoming.mk.injEq] at heq
  refine ⟨e, List.mem_of_getElem? he, rfl, heq.1, heq.2.symm, ?_⟩
  exact h e he msg (by rw [← heq.2]; rfl) hacc

namespace Reigned

/-- The log of an accepted message is the receiver's own, which has all of the sender's if there are
entries, or the sender's. -/
theorem merge (hG : ∀ (c : Cluster σ) a, G c a → Linked ids c a) (h : Reigned R c)
    (hv : Visited ids stateMachine G c) {a : Action} {i : NodeId} {sender : Id}
    {msg : AppendEntries} {log : List LogEntry} (hg : G c a)
    (harr : c.Arrives a i ⟨sender, .appendEntries msg⟩) (hacc : (c.nodes i).Accepts msg)
    (hmerge : mergedLog (c.nodes i).log msg.entries = some log) :
    ∃ e ∈ c.sent, e.dst = i ∧ sender = .peer e.src ∧ e.msg = .appendEntries msg ∧
      (log = (c.nodes i).log ∧ (msg.entries ≠ [] → e.snap.log <+: (c.nodes i).log) ∨
        log = e.snap.log ∧ ¬ e.snap.log <+: (c.nodes i).log) := by
  obtain ⟨e, he, hdst, hsender, hmsg, hjoin⟩ := (hG _ _ hg).2.2.apply harr hacc
  refine ⟨e, he, hdst, hsender, hmsg, ?_⟩
  obtain ⟨a, hmerged⟩ := hv.accepted (fun c a hg => (hG c a hg).1) he hmsg hmerge
  obtain ⟨r, hr, -, hpre⟩ := h.sent e he msg hmsg
  have hsnap : Rooted LogEntry.term R e.snap.log := (h.lawful.rooted_log hr).of_isPrefix hpre
  by_cases hnil : msg.entries = []
  · rw [hnil] at hmerge
    cases hmerge
    exact .inl ⟨rfl, fun hne => absurd hnil hne⟩
  · have ha : a < e.snap.log.length := by
      rw [hmerged.entries, List.drop_eq_nil_iff] at hnil
      omega
    have hhead : msg.entries.head? = some e.snap.log[a] := by
      rw [hmerged.entries, List.head?_drop]
      exact List.getElem?_eq_getElem ha
    have hindex : e.snap.log[a].index = a :=
      hmerged.fromLog.log.index a _ (List.getElem?_eq_getElem ha)
    have hjoin := hjoin _ hhead
    rw [hindex] at hjoin
    rcases (h.nodes i).grafted hsnap hmerged.graft hjoin with ⟨hlog, hall⟩ | hlog
    · exact .inl ⟨hlog, fun _ => hall ha⟩
    · exact .inr hlog

theorem handles (hG : ∀ (c : Cluster σ) a, G c a → Linked ids c a) (h : Reigned R c)
    (hel : Elections ids c) (hv : Visited ids stateMachine G c) {a : Action} {i : NodeId}
    {incoming : Incoming} {log : List LogEntry} {s : Server σ} (hg : G c a)
    (harr : c.Arrives a i incoming) (hs : (c.nodes i).HandlesTo incoming log s) :
    ((c.nodes i).state.isLeader = true ∧
        ∃ x, log = (c.nodes i).log ++ [x] ∧ x.term = (c.nodes i).currentTerm) ∨
      Rooted LogEntry.term R log ∧ ((c.nodes i).state.isLeader = true → log = (c.nodes i).log) := by
  have same : log = (c.nodes i).log → Rooted LogEntry.term R log ∧
      ((c.nodes i).state.isLeader = true → log = (c.nodes i).log) := by
    rintro rfl
    exact ⟨h.nodes i, fun _ => rfl⟩
  obtain ⟨hs, rfl⟩ := hs
  cases hs with
  | accept sm ci la log heq hacc hmerge =>
    subst heq
    obtain ⟨e, he, rfl, -, hmsg, hlog⟩ := h.merge hG hv hg harr hacc hmerge
    refine .inr ⟨?_, fun hl => ?_⟩
    · rcases hlog with ⟨rfl, -⟩ | ⟨rfl, -⟩
      · exact h.nodes e.dst
      · obtain ⟨r, hr, -, hpre⟩ := h.sent e he _ hmsg
        exact (h.lawful.rooted_log hr).of_isPrefix hpre
    · rw [hel.not_isLeader_of_accepts hv he hmsg hacc] at hl
      cases hl
  | push key value ls hin hcmd hl =>
    exact .inl ⟨hl, _, rfl, rfl⟩
  | keep | stepDown | vote | win | response => exact .inr (same rfl)

omit [StateMachine σ] in
theorem none_of_wins (h : Reigned R c) (hel : Elections ids c) (hel' : Elections ids c')
    (hlater : c.Later c') {i : NodeId} {log : List LogEntry}
    (hc : (c.nodes i).state.isCandidate = true)
    (hev : .elected i (c.nodes i).currentTerm log ∈ c'.history) :
    R (c.nodes i).currentTerm = none := by
  cases hr : R (c.nodes i).currentTerm with
  | none => rfl
  | some r =>
    obtain ⟨q, hev'⟩ := h.reign hr
    have hq : q = i := hel'.unique (hlater.history.subset hev') hev
    subst hq
    rw [(hel.past _ _ _ hev').2 rfl] at hc
    cases hc

section

variable {i : NodeId} {incoming : Incoming} {log : List LogEntry}

omit [StateMachine σ]

theorem pushes {x : LogEntry} (h : Reigned R c) (hel : Elections ids c) (hel' : Elections ids c')
    (hlater : c.Later c')
    (hphase : c.HandlerPhase ids i incoming log c')
    (hl : (c.nodes i).state.isLeader = true) (hlog : log = (c.nodes i).log ++ [x])
    (hx : x.term = (c.nodes i).currentTerm) : ∃ R', Grows R R' ∧ Reigned R' c' := by
  obtain ⟨r, hr, hreign⟩ := h.leader i hl hphase.alive
  obtain ⟨log₀, hev₀⟩ := hel.leader i hl
  rw [hreign] at hlog
  have hlawful := h.lawful.push hr hx
  have hgrow := Lawful.grows_push hr x
  have hr' : Function.update R (c.nodes i).currentTerm (some ⟨r.base, r.log ++ [x]⟩)
      (c.nodes i).currentTerm = some ⟨r.base, r.log ++ [x]⟩ := Function.update_self ..
  refine ⟨_, hgrow, h.phase hel' hlater hphase hlawful hgrow (fun T => ?_) (fun T r' hr' hnone => ?_)
    (fun s hs => ?_) (fun hl' => ?_) (fun hl' hc => ?_) (fun e he msg hmsg => ?_)⟩
  · by_cases hT : T = (c.nodes i).currentTerm
    · rw [hT]
      exact .inr ⟨log₀, hlater.history.subset hev₀⟩
    · exact .inl (Function.update_of_ne hT _ _)
  · rcases Lawful.update_cases hr' with ⟨rfl, -⟩ | hr'
    · rw [hr] at hnone
      cases hnone
    · rw [hnone] at hr'
      cases hr'
  · rw [hs.2, hlog]
    exact hlawful.rooted_log hr'
  · rw [hl] at hl'
    cases hl'
  · obtain ⟨hs, hslog⟩ := hphase.ran hc
    rw [(hs.roleStep.leader hl').1, hslog, hlog]
    exact ⟨_, hr', rfl⟩
  · obtain ⟨-, hterm, hsnap⟩ := he.handler_appendEntries hmsg
    rw [hterm, hsnap, hlog]
    exact ⟨_, hr', (h.lawful.prefix_log hr).trans (List.prefix_append _ _), List.prefix_refl _⟩

theorem wins (h : Reigned R c) (hel : Elections ids c) (hel' : Elections ids c')
    (hlater : c.Later c')
    (hphase : c.HandlerPhase ids i incoming log c')
    (hsound : Sound (c'.nodes i)) (hroot : Rooted LogEntry.term R log)
    (hl : (c.nodes i).state.isLeader = false) (hl' : (c'.nodes i).state.isLeader = true)
    (hc : c'.crashed i = false) : ∃ R', Grows R R' ∧ Reigned R' c' := by
  have hev := hphase.change hc (mem_changeOf_elected.2 ⟨rfl, rfl, rfl, hl, hl'⟩)
  obtain ⟨hs, hslog⟩ := hphase.ran hc
  obtain ⟨hterm, hcand⟩ := hs.roleStep.leader hl'
  have hcand := hcand.resolve_left (by rw [hl]; exact Bool.false_ne_true)
  rw [hslog, hterm] at hev
  have hnone := h.none_of_wins hel hel' hlater hcand hev
  have hbelow : ∀ x ∈ log, x.term < (c.nodes i).currentTerm := by
    intro x hx
    obtain ⟨j, hj⟩ := List.mem_iff_getElem?.1 hx
    have hbound := hsound.log.bound j x (by rw [hslog]; exact hj)
    obtain ⟨r, hr, -⟩ := hroot j x hj
    rw [hterm] at hbound
    refine Nat.lt_of_le_of_ne hbound fun heq => ?_
    rw [heq, hnone] at hr
    cases hr
  have hlawful := h.lawful.elect hnone hroot hbelow
  have hgrow := Lawful.grows_elect hnone log
  have hr' : Function.update R (c.nodes i).currentTerm (some ⟨log, log⟩)
      (c.nodes i).currentTerm = some ⟨log, log⟩ := Function.update_self ..
  refine ⟨_, hgrow, h.phase hel' hlater hphase hlawful hgrow (fun T => ?_)
    (fun T r' hr' hnone' => ?_) (fun s hs => ?_) (fun _ _ _ => ?_) (fun _ _ => ?_)
    (fun e he msg hmsg => ?_)⟩
  · by_cases hT : T = (c.nodes i).currentTerm
    · rw [hT]
      exact .inr ⟨log, hev⟩
    · exact .inl (Function.update_of_ne hT _ _)
  · rcases Lawful.update_cases hr' with ⟨rfl, rfl⟩ | hr'
    · exact hev
    · rw [hnone'] at hr'
      cases hr'
  · rw [hs.2]
    exact hroot.mono hgrow
  · rw [hterm, hslog]
    exact ⟨_, hr', rfl⟩
  · rw [hterm, hslog]
    exact ⟨_, hr', rfl⟩
  · rw [(he.handler_appendEntries hmsg).1] at hl
    cases hl

theorem keeps {cause : Option Message} {P : Server σ → Prop} {Q : Outgoing → Server σ → Prop}
    {A : ℕ → LogCommand → Prop} (h : Reigned R c) (hel' : Elections ids c') (hlater : c.Later c')
    (hphase : c.PhaseOf ids i cause P Q A c')
    (hrooted : ∀ s, P s → s.log = log ∧ Rooted LogEntry.term R log ∧
      ((c.nodes i).state.isLeader = true → log = (c.nodes i).log))
    (hrole : ∀ s, P s → (c.nodes i).RoleStep s)
    (hwin : (c'.nodes i).state.isLeader = true → c'.crashed i = false →
      (c.nodes i).state.isLeader = true)
    (hsend : ∀ e, SentBy ids i cause (fun out s => P s ∧ Q out s) e → ∀ msg,
      e.msg = .appendEntries msg →
        (c.nodes i).state.isLeader = true ∧ msg.term = (c.nodes i).currentTerm) :
    Reigned R c' := by
  refine h.phase hel' hlater hphase h.lawful (.refl R) (fun _ => .inl rfl)
    (fun T r hr hnone => ?_) (fun s hs => ?_) (fun hl hl' hc => ?_) (fun hl' hc => ?_)
    (fun e he msg hmsg => ?_)
  · rw [hnone] at hr
    cases hr
  · obtain ⟨hlog, hroot, -⟩ := hrooted s hs
    rw [hlog]
    exact hroot
  · rw [hwin hl' hc] at hl
    cases hl
  · have hs := hphase.ran hc
    have hl := hwin hl' hc
    obtain ⟨hlog, -, hsame⟩ := hrooted _ hs
    rw [((hrole _ hs).leader hl').1, hlog, hsame hl]
    exact h.leader i hl hphase.alive
  · obtain ⟨hl, hterm⟩ := hsend e he msg hmsg
    obtain ⟨dest, ⟨hs, -⟩, -⟩ := he.out
    obtain ⟨hlog, -, hsame⟩ := hrooted _ hs
    obtain ⟨r, hr, hreign⟩ := h.leader i hl hphase.alive
    rw [hterm, hlog, hsame hl, hreign]
    exact ⟨r, hr, h.lawful.prefix_log hr, List.prefix_refl _⟩

end

/-- **A handler**: a leader's reign may grow, or one may begin. -/
theorem handler (hG : ∀ (c : Cluster σ) a, G c a → Linked ids c a) (h : Reigned R c)
    (hv : Visited ids stateMachine G c) {a : Action} (hg : G c a) (hs : c.HandlerStep ids a c') :
    ∃ R', Grows R R' ∧ Reigned R' c' := by
  have hvotes : ∀ (c : Cluster σ) a, G c a → SingleVotes σ c a := fun c a hg => (hG c a hg).2.1
  have hel : Elections ids c := hv.elections hvotes
  have hel' : Elections ids c' := (hv.handler hg hs).elections hvotes
  have hsound := (hv.handler hg hs).sound fun c a hg => (hG c a hg).1
  have hlater := hs.later
  obtain ⟨i, incoming, log, harr, -, hphase⟩ := hs
  by_cases hpush : (c.nodes i).state.isLeader = true ∧
      ∃ x, log = (c.nodes i).log ++ [x] ∧ x.term = (c.nodes i).currentTerm
  · obtain ⟨hl, x, hlog, hx⟩ := hpush
    exact h.pushes hel hel' hlater hphase hl hlog hx
  · have hrooted : ∀ s, (c.nodes i).HandlesTo incoming log s → s.log = log ∧
        Rooted LogEntry.term R log ∧ ((c.nodes i).state.isLeader = true → log = (c.nodes i).log) :=
      fun s hs => ⟨hs.2, (h.handles hG hel hv hg harr hs).resolve_left hpush⟩
    by_cases hwin : (c'.nodes i).state.isLeader = true → c'.crashed i = false →
        (c.nodes i).state.isLeader = true
    · exact ⟨R, .refl R, h.keeps hel' hlater hphase hrooted (fun s hs => hs.1.roleStep) hwin
        fun e he msg hmsg =>
          ⟨(he.handler_appendEntries hmsg).1, (he.handler_appendEntries hmsg).2.1⟩⟩
    · rw [Classical.not_imp, Classical.not_imp, Bool.not_eq_true] at hwin
      obtain ⟨hl', hc, hl⟩ := hwin
      have hs := hphase.ran hc
      exact h.wins hel hel' hlater hphase (hsound i) (hrooted _ hs).2.1 hl hl' hc

/-- **A role loop** leaves the reigns as they are. -/
theorem loop (hG : ∀ (c : Cluster σ) a, G c a → Linked ids c a) (h : Reigned R c)
    (hv : Visited ids stateMachine G c) (hs : c.LoopStep ids c') : Reigned R c' := by
  have hel' : Elections ids c' := (hv.loop hs).elections fun c a hg => (hG c a hg).2.1
  have hlater := hs.later
  obtain ⟨i, -, hphase⟩ := hs
  refine h.keeps hel' hlater hphase (fun s hs => ⟨hs.log_eq, h.nodes i, fun _ => rfl⟩)
    (fun s hs => hs.roleStep) (fun hl' hc => ?_) fun e he msg hmsg =>
      ⟨(he.loop_appendEntries hmsg).1, (he.loop_appendEntries hmsg).2.1⟩
  have hs := hphase.ran hc
  exact hs.isLeader hl'

end Reigned

omit [StateMachine σ] in
theorem reigned_init : Reigned (fun _ => none) (init ids stateMachine) where
  lawful := .empty
  nodes _ := .nil
  elected h := by simp [Cluster.init] at h
  reign h := by cases h
  leader _ h := by cases h
  sent := by simp [Cluster.init]

/-- **Every cluster that a run within the guard passes through has reigns.** -/
theorem Visited.reigned (hG : ∀ (c : Cluster σ) a, G c a → Linked ids c a)
    (h : Visited ids stateMachine G c) : ∃ R, Reigned R c := by
  induction h with
  | init => exact ⟨_, reigned_init⟩
  | handler hv hg hs ih =>
    obtain ⟨R, hR⟩ := ih
    obtain ⟨R', -, hR'⟩ := hR.handler hG hv hg hs
    exact ⟨R', hR'⟩
  | loop hv hs ih =>
    obtain ⟨R, hR⟩ := ih
    exact ⟨R, hR.loop hG hv hs⟩

/-- **Log matching.**  In every state of a run within the guard: two logs with entries of one term
at one index are equal up to that index. -/
theorem log_matching (h : (machine σ ids).Reach (Linked ids) (init ids stateMachine) c)
    {i j : NodeId} {k : ℕ} {x y : LogEntry} (hx : (c.nodes i).log[k]? = some x)
    (hy : (c.nodes j).log[k]? = some y) (hterm : x.term = y.term) :
    ∀ l ≤ k, (c.nodes i).log[l]? = (c.nodes j).log[l]? := by
  obtain ⟨R, hR⟩ := (visited_of_reach h).reigned fun _ _ h => h
  have htake := (hR.nodes i).matching (hR.nodes j) hx hy hterm
  intro l hl
  have hget := congrArg (fun log : List LogEntry => log[l]?) htake
  simpa only [List.getElem?_take_of_lt (Nat.lt_succ_of_le hl)] using hget

/-- Node 1 leads, and node 2 takes over its first entry. -/
theorem log_matching_replicated : ∃ c : Cluster SimpleStateMachine,
    (machine SimpleStateMachine [1, 2, 3]).Reach (Linked [1, 2, 3])
      (init [1, 2, 3] fun _ => .new) c ∧ (c.nodes 2).log ≠ [] ∧
      ∀ l ≤ 0, (c.nodes 1).log[l]? = (c.nodes 2).log[l]? := by
  have hrun : ((machine SimpleStateMachine [1, 2, 3]).exec (Linked [1, 2, 3])
      (init [1, 2, 3] fun _ => .new)
      [.timeout 1, .receive [1, 2, 3] 0, .receive [1, 2, 3] 1, .receive [1, 2, 3] 2,
        .receive [1, 2, 3] 3, .set [1, 2, 3] 1 "x" "1", .receive [1, 2, 3] 8]).any
      (fun c => decide ((c.nodes 2).log ≠ [] ∧ (c.nodes 1).log[0]?.map LogEntry.term = some 1 ∧
        (c.nodes 2).log[0]?.map LogEntry.term = some 1)) = true := by
    decide
  obtain ⟨c, hc, hne, h₁, h₂⟩ := Machine.exists_reach_of_exec hrun
  obtain ⟨x, hx, hx₁⟩ := Option.map_eq_some_iff.1 h₁
  obtain ⟨y, hy, hy₁⟩ := Option.map_eq_some_iff.1 h₂
  exact ⟨c, hc, hne, log_matching hc hx hy (hx₁.trans hy₁.symm)⟩

/-- Nodes 1 and 2 both lead term 1, and each takes a command of its own at index 0. -/
theorem logs_differ : ∃ c : Cluster SimpleStateMachine,
    (machine SimpleStateMachine [1, 2, 3]).Reach Orderly (init [1, 2, 3] fun _ => .new) c ∧
      (c.nodes 1).log[0]?.map LogEntry.term = some 1 ∧
      (c.nodes 2).log[0]?.map LogEntry.term = some 1 ∧
      (c.nodes 1).log[0]?.map LogEntry.command ≠ (c.nodes 2).log[0]?.map LogEntry.command := by
  have hrun : ((machine SimpleStateMachine [1, 2, 3]).exec Orderly (init [1, 2, 3] fun _ => .new)
      [.timeout 1, .timeout 2, .receive [1, 2, 3] 1, .receive [1, 2, 3] 4, .receive [1, 2, 3] 6,
        .receive [1, 2, 3] 7, .receive [1, 2, 3] 3, .receive [1, 2, 3] 10, .receive [1, 2, 3] 12,
        .receive [1, 2, 3] 13, .set [1, 2, 3] 1 "x" "1", .set [1, 2, 3] 2 "y" "2"]).any
      (fun c => decide ((c.nodes 1).log[0]?.map LogEntry.term = some 1 ∧
        (c.nodes 2).log[0]?.map LogEntry.term = some 1 ∧
        (c.nodes 1).log[0]?.map LogEntry.command ≠
          (c.nodes 2).log[0]?.map LogEntry.command)) = true := by
    decide
  exact Machine.exists_reach_of_exec hrun

end Cluster

end MiniRaft
