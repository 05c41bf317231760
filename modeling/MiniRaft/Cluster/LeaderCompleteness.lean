import MiniRaft.Cluster.Acknowledge

/-!
# Leader completeness

Every node keeps what it has acknowledged until a later leader without it makes it give it up, and
votes with the log that it has kept.  So in a faithful run no later leader is without what a quorum
has acknowledged, and what a leader commits stays with that quorum.
-/

namespace MiniRaft

open Consensus

variable {σ : Type}

namespace Cluster

open Server

/-- The reigns `R` account for what the nodes have acknowledged, for the logs they have voted with
and for what has been committed. -/
structure Remembers (R : Reigns LogEntry) (ids : List NodeId) (c : Cluster σ) : Prop where
  kept : ∀ v, Kept R (Acked c v) ((c.nodes v).currentTerm + 1) (c.nodes v).log
  rooted : ∀ e ∈ c.sent, ∀ msg, e.grantOf = some msg → Rooted LogEntry.term R e.snap.log
  votes : ∀ e ∈ c.sent, ∀ msg, e.grantOf = some msg → R msg.term = none →
    Kept R (Acked c e.src) msg.term e.snap.log
  elected : ∀ T r, R T = some r → Quorum ids fun v => ∃ e ∈ c.sent, e.src = v ∧
    ∃ msg, e.grantOf = some msg ∧ msg.term = T ∧ Rooted LogEntry.term R e.snap.log ∧
      UpToDate LogEntry.term r.base e.snap.log ∧ Kept R (Acked c v) T e.snap.log
  committed : ∀ {q t n log}, .committed q t n log ∈ c.history → ∃ r, R t = some r ∧ log <+: r.log

variable [StateMachine σ] {ids : List NodeId} {stateMachine : NodeId → σ}
  {G : Cluster σ → Action → Prop} {c c' : Cluster σ} {R R' : Reigns LogEntry} {i v : NodeId}
  {t k : ℕ}

omit [StateMachine σ] in
theorem none_of_grows {T : ℕ} (hgrow : Grows R R') (h : R' T = none) : R T = none := by
  cases hT : R T with
  | none => rfl
  | some r =>
    obtain ⟨r', hr', -⟩ := hgrow T r hT
    rw [h] at hr'
    cases hr'

/-! ### What a node keeps -/

theorem Reigned.fresh_holds (hG : ∀ (c : Cluster σ) a, G c a → Faithful ids c a)
    (h : Reigned R c) (h' : Reigned R' c') (hgrow : Grows R R') (hv : Visited ids stateMachine G c)
    {a : Action} {incoming : Incoming} {log : List LogEntry} (hg : G c a)
    (harr : c.Arrives a i incoming)
    (hphase : c.HandlerPhase ids i incoming log c')
    (hc : c'.crashed i = false) (hterm : (c'.nodes i).currentTerm = t)
    (hf : Fresh c c' i incoming t k) : Holds R' t k (c'.nodes i).log := by
  cases hf with
  | @accept sender msg last heq hacc hmerge hmt hlast hk =>
    subst heq hmt
    obtain ⟨e, he, -, -, hmsg, hlog⟩ := h.merge (fun c a hg => (hG c a hg).1) hv hg harr hacc hmerge
    obtain ⟨r, hr, -, hpre⟩ := h.sent e he msg hmsg
    obtain ⟨-, hcarries, hlogOk⟩ := hv.fromLog (fun c a hg => (hG c a hg).1.1) he hmsg
    obtain ⟨a, -, hentries, -⟩ := hcarries.piece
    have hne : msg.entries ≠ [] := fun hnil => by
      rw [hnil] at hlast
      cases hlast
    rw [hentries] at hlast
    obtain ⟨hindex, -⟩ := hlogOk.numbered.index_getLast? hlast
    have hheld : Holds R msg.term k e.snap.log := .of_isPrefix hr hpre (by omega)
    have hsnap : e.snap.log <+: (c'.nodes i).log := by
      rcases hlog with ⟨hlog, hall⟩ | ⟨hlog, -⟩
      · rw [hlog]
        exact hall hne
      · rw [hlog]
    exact (hheld.mono_log hsnap).mono hgrow
  | commit hl hl' hlt hk =>
    obtain ⟨hs, -⟩ := hphase.ran hc
    obtain ⟨msg, mi, ni, -, -, -, hcommit, hlog, -⟩ := hv.raised hG harr hs hl hlt
    obtain ⟨hpos, entry, hentry, -⟩ := hcommit.entry ((hG _ _ hg).1.1 i hphase.mem)
    have hlen := (List.getElem?_eq_some_iff.1 hentry).1
    obtain ⟨r, hr, hreign⟩ := h'.leader i hl' hc
    rw [← hterm]
    refine .of_isPrefix hr (by rw [hreign]) ?_
    rw [hlog]
    omega

theorem Reigned.kept_handles (hG : ∀ (c : Cluster σ) a, G c a → Faithful ids c a)
    (h : Reigned R c) (hv : Visited ids stateMachine G c) {a : Action} {incoming : Incoming}
    {s : Server σ} (hg : G c a) (harr : c.Arrives a i incoming)
    (hkept : Kept R (Acked c i) ((c.nodes i).currentTerm + 1) (c.nodes i).log)
    (hs : (c.nodes i).Handles incoming s) : Kept R (Acked c i) (s.currentTerm + 1) s.log := by
  have hacked : ∀ t k, Acked c i t k → t ≤ (c.nodes i).currentTerm := fun t k => hv.acked_le
  cases hs with
  | stepDown T _ hlt =>
    exact hkept.raise (by dsimp only [becomeFollower]; omega) fun t k hack =>
      Nat.lt_succ_of_le (hacked t k hack)
  | accept sm ci la log heq hacc hmerge =>
    subst heq
    obtain ⟨e, he, -, -, hmsg, hlog⟩ := h.merge (fun c a hg => (hG c a hg).1) hv hg harr hacc hmerge
    rcases hlog with ⟨rfl, -⟩ | ⟨rfl, hnot⟩
    · exact hkept.raise (Nat.succ_le_succ hacc.1) fun t k hack =>
        Nat.lt_succ_of_le (hacked t k hack)
    · obtain ⟨r, hr, hbase, hpre⟩ := h.sent e he _ hmsg
      exact hkept.adopt hacc.1 hacked hr hbase hpre hnot
  | push => exact hkept.mono_log (List.prefix_append _ _)
  | keep | vote | win | response => exact hkept

/-! ### One phase -/

/-- An acknowledgement that is new is of something that the node holds, and it comes before all
votes in higher terms. -/
def Adds (R' : Reigns LogEntry) (c c' : Cluster σ) (i : NodeId) : Prop :=
  ∀ v t k, Acked c' v t k → Acked c v t k ∨ v = i ∧ c'.crashed i = false ∧
    Holds R' t k (c'.nodes i).log ∧ VotedUpTo c' i t

omit [StateMachine σ] in
theorem Adds.voted (h : Adds R' c c' i) {e : Envelope σ} (he : e ∈ c'.sent) {msg : RequestVote}
    (hmsg : e.grantOf = some msg) : ∀ t k, t < msg.term → Acked c' e.src t k → Acked c e.src t k := by
  intro t k ht hack
  rcases h e.src t k hack with hack | ⟨hsrc, -, -, hup⟩
  · exact hack
  · exact absurd (hup e he hsrc msg hmsg) (Nat.not_le.2 ht)

omit [StateMachine σ] in
theorem Reigned.pos (h : Reigned R c) (hel : Elections ids c) {log : List LogEntry}
    (hroot : Rooted LogEntry.term R log) : ∀ x ∈ log, 0 < x.term := by
  intro x hx
  obtain ⟨j, hj⟩ := List.mem_iff_getElem?.1 hx
  obtain ⟨r, hr, -⟩ := hroot j x hj
  obtain ⟨q, hev⟩ := h.reign hr
  exact hel.pos q x.term r.base hev

/-- The log of a new leader is at least as up-to-date as those of the quorum that elected it. -/
theorem Remembers.wins (h : Remembers R ids c) (hR : Reigned R c) (hel : Elections ids c)
    (hel' : Elections ids c') (hcan : Canvassed c) (hv' : Visited ids stateMachine G c')
    {cause : Option Message} {P : Server σ → Prop} {Q : Outgoing → Server σ → Prop}
    {A : ℕ → LogCommand → Prop} (hphase : c.PhaseOf ids i cause P Q A c')
    (hadds : Adds R' c c' i) (hgrow : Grows R R') {T : ℕ} {log : List LogEntry} (hT : R T = none)
    (hev : .elected i T log ∈ c'.history) (hcand : (c.nodes i).state.isCandidate = true)
    (hterm : (c.nodes i).currentTerm = T) (hlog : (c.nodes i).log = log) :
    Quorum ids fun v => ∃ e ∈ c'.sent, e.src = v ∧
      ∃ msg, e.grantOf = some msg ∧ msg.term = T ∧ Rooted LogEntry.term R' e.snap.log ∧
        UpToDate LogEntry.term log e.snap.log ∧ Kept R' (Acked c' v) T e.snap.log := by
  have hnone : ∀ q log, .elected q T log ∉ c.history := by
    intro q log hev
    obtain ⟨r, hr, -⟩ := hR.elected hev
    rw [hT] at hr
    cases hr
  refine (hel'.quorum i T log hev).mono fun v _ hgranted => ?_
  obtain ⟨e, he, rfl, msg, hmsg, hcand', rfl⟩ := hgranted
  -- no node votes for itself, so the vote is older than the phase
  have hne : e.src ≠ i := by
    rw [← hcand', hv'.candidateId_eq he hmsg]
    exact (hv'.ends he).2.2.symm
  have hold : e ∈ c.sent := (hphase.sentBy he).resolve_right fun h => hne h.src
  obtain ⟨hyields, e', he', hreq, hsrc⟩ := hcan.asked e hold msg hmsg
  rw [hcand'] at hsrc
  have hdescribes := hcan.describes e' he' msg hreq (by rw [hsrc]; exact hphase.alive)
    (by rw [hsrc]; exact hcand) (by rw [hsrc]; exact hterm) hnone
  rw [hsrc, hlog] at hdescribes
  have hroot := h.rooted e hold msg hmsg
  exact ⟨e, he, rfl, msg, hmsg, rfl, hroot.mono hgrow,
    hyields.upToDate hdescribes (hR.pos hel hroot),
    (h.votes e hold msg hmsg hT).mono hgrow (hadds.voted he hmsg)⟩

/-- **One phase** of the node `i`, which keeps what it has acknowledged. -/
theorem Remembers.phase (h : Remembers R ids c) (hR : Reigned R c) (hR' : Reigned R' c')
    (hel : Elections ids c) (hel' : Elections ids c') (hcan : Canvassed c)
    (hv : Visited ids stateMachine G c) (hv' : Visited ids stateMachine G c')
    (hlater : c.Later c') {cause : Option Message} {P : Server σ → Prop}
    {Q : Outgoing → Server σ → Prop} {A : ℕ → LogCommand → Prop}
    (hphase : c.PhaseOf ids i cause P Q A c') (hadds : Adds R' c c' i) (hgrow : Grows R R')
    (hkept : ∀ s, P s → Kept R (Acked c i) (s.currentTerm + 1) s.log)
    (hgrant : ∀ e, SentBy ids i cause (fun out s => P s ∧ Q out s) e → ∀ msg,
      e.grantOf = some msg → e.snap = c.nodes i ∧ (c.nodes i).currentTerm ≤ msg.term)
    (hwin : ∀ s, P s → (c.nodes i).state.isLeader = false → s.state.isLeader = true →
      (c.nodes i).state.isCandidate = true ∧ s.currentTerm = (c.nodes i).currentTerm ∧
        s.log = (c.nodes i).log) : Remembers R' ids c' where
  kept := by
    intro v
    rcases hphase.moved v with hsame | ⟨rfl, -, hP⟩
    · rw [hsame]
      refine ((h.kept v).mono hgrow fun _ _ _ hack => hack).insert fun t k _ hack => ?_
      rcases hadds v t k hack with hack | ⟨rfl, -, hheld, -⟩
      · exact .inl hack
      · rw [hsame] at hheld
        exact .inr hheld
    · refine ((hkept _ hP).mono hgrow fun _ _ _ hack => hack).insert fun t k _ hack => ?_
      rcases hadds v t k hack with hack | ⟨-, -, hheld, -⟩
      · exact .inl hack
      · exact .inr hheld
  rooted := by
    intro e he msg hmsg
    rcases hphase.sentBy he with he | he
    · exact (h.rooted e he msg hmsg).mono hgrow
    · rw [(hgrant e he msg hmsg).1]
      exact (hR.nodes i).mono hgrow
  votes := by
    intro e he msg hmsg hnone
    have hnone := none_of_grows hgrow hnone
    suffices hkept : Kept R (Acked c e.src) msg.term e.snap.log from
      hkept.mono hgrow (hadds.voted he hmsg)
    rcases hphase.sentBy he with he | he
    · exact h.votes e he msg hmsg hnone
    · obtain ⟨hsnap, hterm⟩ := hgrant e he msg hmsg
      rw [hsnap, he.src]
      refine ((h.kept i).raise (Nat.succ_le_succ hterm) fun t k hack => ?_).lower hnone
      exact Nat.lt_succ_of_le (hv.acked_le hack)
  elected := by
    intro T r hr
    cases hT : R T with
    | some r₀ =>
      obtain ⟨r', hr', hbase, -⟩ := hgrow T r₀ hT
      rw [hr, Option.some.injEq] at hr'
      subst hr'
      refine (h.elected T r₀ hT).mono fun v _ hvoted => ?_
      obtain ⟨e, he, rfl, msg, hmsg, rfl, hroot, hup, hkept⟩ := hvoted
      have he' := hlater.sent.subset he
      exact ⟨e, he', rfl, msg, hmsg, rfl, hroot.mono hgrow, by rwa [hbase],
        hkept.mono hgrow (hadds.voted he' hmsg)⟩
    | none =>
      obtain ⟨q, hev⟩ := hR'.reign hr
      rcases hphase.event hev with hev' | ⟨_, _, hev', -⟩ | ⟨hc, hev'⟩
      · obtain ⟨r', hr', -⟩ := hR.elected hev'
        rw [hT] at hr'
        cases hr'
      · cases hev'
      · obtain ⟨rfl, rfl, hbase, hl, hl'⟩ := mem_changeOf_elected.1 hev'
        have hP := hphase.ran hc
        obtain ⟨hcand, hterm, hlog⟩ := hwin _ hP hl hl'
        exact h.wins hR hel hel' hcan hv' hphase hadds hgrow hT hev hcand hterm.symm
          (hlog.symm.trans hbase.symm)
  committed := by
    intro q t n log hev
    rcases hphase.event hev with hev | ⟨_, _, hev, -⟩ | ⟨hc, hev⟩
    · obtain ⟨r, hr, hpre⟩ := h.committed hev
      obtain ⟨r', hr', -, hlog⟩ := hgrow t r hr
      exact ⟨r', hr', hpre.trans hlog⟩
    · cases hev
    · obtain ⟨rfl, rfl, -, rfl, -, hl', -⟩ := mem_changeOf_committed.1 hev
      obtain ⟨r, hr, hreign⟩ := hR'.leader q hl' hc
      exact ⟨r, hr, by rw [hreign]⟩

/-! ### Runs -/

omit [StateMachine σ] in
theorem remembers_init : Remembers (fun _ => none) ids (init ids stateMachine) where
  kept v t k _ hack := by
    rcases hack with ⟨e, he, -⟩ | ⟨n, log, hev, -⟩
    · simp [Cluster.init] at he
    · simp [Cluster.init] at hev
  rooted := by simp [Cluster.init]
  votes := by simp [Cluster.init]
  elected _ _ h := by cases h
  committed h := by simp [Cluster.init] at h

omit [StateMachine σ] in
theorem candidate_of_wins {s s' : Server σ} {incoming : Incoming} (h : s.Handles incoming s')
    (hl : s.state.isLeader = false) (hl' : s'.state.isLeader = true) :
    s.state.isCandidate = true ∧ s'.currentTerm = s.currentTerm ∧ s'.log = s.log := by
  cases h with
  | win _ _ _ hst => exact ⟨by rw [hst]; rfl, rfl, rfl⟩
  | stepDown | vote => cases hl'
  | response _ _ _ hcredit =>
    rw [hcredit.isLeader] at hl
    cases hl
  | keep | accept | push =>
    rw [hl] at hl'
    cases hl'

section

variable (hG : ∀ (c : Cluster σ) a, G c a → Faithful ids c a)
include hG

theorem Visited.canvassed_faithful (hv : Visited ids stateMachine G c) : Canvassed c :=
  hv.canvassed (fun c a hg => (hG c a hg).1.1) (fun c a hg => (hG c a hg).1.2.1)
    fun c a hg => (hG c a hg).2.1

/-- **A handler** keeps the account. -/
theorem Remembers.handler (h : Remembers R ids c) (hR : Reigned R c) (hR' : Reigned R' c')
    (hgrow : Grows R R') (hv : Visited ids stateMachine G c) {a : Action} (hg : G c a)
    (hs : c.HandlerStep ids a c') : Remembers R' ids c' := by
  have hvotes : ∀ (c : Cluster σ) a, G c a → SingleVotes σ c a := fun c a hg => (hG c a hg).1.2.1
  have hv' := hv.handler hg hs
  have hlater := hs.later
  obtain ⟨i, incoming, log, harr, -, hphase⟩ := hs
  refine h.phase hR hR' (hv.elections hvotes) (hv'.elections hvotes) (hv.canvassed_faithful hG)
    hv hv' hlater hphase ?_ hgrow ?_ ?_ ?_
  · intro v t k hack
    rcases hphase.acked hack with hack | ⟨rfl, hc, hterm, hfresh⟩
    · exact .inl hack
    · exact .inr ⟨rfl, hc, hR.fresh_holds hG hR' hgrow hv hg harr hphase hc hterm hfresh,
        hv.fresh_votedUpTo hG hg harr hphase hc hterm hfresh⟩
  · exact fun s hs => hR.kept_handles hG hv hg harr (h.kept i) hs.1
  · intro e he msg hmsg
    obtain ⟨-, hgrants, -, hsnap⟩ := he.grants hmsg
    exact ⟨hsnap, hgrants.1⟩
  · exact fun s hs hl hl' => candidate_of_wins hs.1 hl hl'

/-- **A role loop** keeps the account. -/
theorem Remembers.loop (h : Remembers R ids c) (hR : Reigned R c) (hR' : Reigned R c')
    (hv : Visited ids stateMachine G c) (hs : c.LoopStep ids c') : Remembers R ids c' := by
  have hvotes : ∀ (c : Cluster σ) a, G c a → SingleVotes σ c a := fun c a hg => (hG c a hg).1.2.1
  have hv' := hv.loop hs
  have hlater := hs.later
  obtain ⟨i, -, hphase⟩ := hs
  refine h.phase hR hR' (hv.elections hvotes) (hv'.elections hvotes) (hv.canvassed_faithful hG)
    hv hv' hlater hphase ?_ (.refl R) ?_ ?_ ?_
  · exact fun v t k hack => .inl (hphase.acked hack)
  · intro s hs
    rw [hs.log_eq]
    refine (h.kept i).raise (Nat.succ_le_succ hs.roleStep.disciplined.mono) fun t k hack => ?_
    exact Nat.lt_succ_of_le (hv.acked_le hack)
  · intro e he msg hmsg
    rw [he.loop_grantOf] at hmsg
    cases hmsg
  · intro s hs hl hl'
    rw [hs.isLeader hl'] at hl
    cases hl

/-- **Every cluster that a faithful run passes through has reigns that account for its commits.** -/
theorem Visited.remembers (h : Visited ids stateMachine G c) :
    ∃ R, Reigned R c ∧ Remembers R ids c := by
  have hlinked : ∀ (c : Cluster σ) a, G c a → Linked ids c a := fun c a hg => (hG c a hg).1
  induction h with
  | init => exact ⟨_, reigned_init, remembers_init⟩
  | handler hv hg hs ih =>
    obtain ⟨R, hR, hmem⟩ := ih
    obtain ⟨R', hgrow, hR'⟩ := hR.handler hlinked hv hg hs
    exact ⟨R', hR', hmem.handler hG hR hR' hgrow hv hg hs⟩
  | loop hv hs ih =>
    obtain ⟨R, hR, hmem⟩ := ih
    have hR' := hR.loop hlinked hv hs
    exact ⟨R, hR', hmem.loop hG hR hR' hv hs⟩

end

/-! ### What is committed -/

/-- The node `v` has crashed, and has voted in no term above `t`. -/
def Silent (c : Cluster σ) (v : NodeId) (t : ℕ) : Prop := c.crashed v = true ∧ VotedUpTo c v t

/-- The leader of the term `t` has appended the entry at `k` itself, and a quorum has acknowledged
it; who has crashed instead takes no part in a later election. -/
structure Decided (R : Reigns LogEntry) (ids : List NodeId) (c : Cluster σ) (t k : ℕ) : Prop where
  quorum : Quorum ids fun v => Acked c v t k ∨ Silent c v t
  own : ∃ r, R t = some r ∧ r.base.length ≤ k ∧ k < r.log.length

omit [StateMachine σ] in
theorem Reigned.base_le (h : Reigned R c) {r : Reign LogEntry} (hr : R t = some r) {x : LogEntry}
    (hx : r.log[k]? = some x) (hterm : x.term = t) : r.base.length ≤ k := by
  by_contra hlt
  have hbase := h.lawful.getElem?_base hr hx (Nat.not_le.1 hlt)
  have hbelow := h.lawful.below hr x (List.mem_of_getElem? hbase)
  rw [hterm] at hbelow
  exact Nat.lt_irrefl _ hbelow

section

variable {q : NodeId} {n : ℤ} {log : List LogEntry}

theorem Remembers.own (hG : ∀ (c : Cluster σ) a, G c a → Faithful ids c a)
    (hv : Visited ids stateMachine G c) (hR : Reigned R c) (h : Remembers R ids c)
    (hev : .committed q t n log ∈ c.history) :
    ∃ r, R t = some r ∧ log <+: r.log ∧ r.base.length ≤ n.toNat ∧ n.toNat < log.length := by
  obtain ⟨-, ⟨x, hx, hterm⟩, -⟩ := hv.committed hG hev
  obtain ⟨r, hr, hpre⟩ := h.committed hev
  exact ⟨r, hr, hpre, hR.base_le hr (getElem?_of_isPrefix hpre hx) hterm,
    (List.getElem?_eq_some_iff.1 hx).1⟩

theorem Remembers.decided (hG : ∀ (c : Cluster σ) a, G c a → Faithful ids c a)
    (hv : Visited ids stateMachine G c) (hR : Reigned R c) (h : Remembers R ids c)
    (hev : .committed q t n log ∈ c.history) : Decided R ids c t n.toNat := by
  obtain ⟨-, -, hquorum⟩ := hv.committed hG hev
  obtain ⟨r, hr, hpre, hbase, hlen⟩ := h.own hG hv hR hev
  exact ⟨hquorum.mono fun v _ hack => .inl hack,
    r, hr, hbase, Nat.lt_of_lt_of_le hlen hpre.length_le⟩

end

omit [StateMachine σ] in
theorem Remembers.complete (h : Remembers R ids c) (hR : Reigned R c) (hd : Decided R ids c t k)
    {T : ℕ} {r' : Reign LogEntry} (hr' : R T = some r') (hT : t < T) : Holds R t k r'.base := by
  obtain ⟨r, hr, hbase, -⟩ := hd.own
  refine holds_of_chosen (A := fun v t k => Acked c v t k ∨ Silent c v t) hR.lawful
    (fun T r hr => ?_) hr hbase hd.quorum hr' hT
  refine (h.elected T r hr).mono fun v _ hvoted => ?_
  obtain ⟨e, he, hsrc, msg, hmsg, rfl, hroot, hup, hkept⟩ := hvoted
  refine ⟨e.snap.log, hroot, hup, hkept.mono (.refl R) fun t k ht hack => ?_⟩
  -- who has voted in a higher term is not silent
  rcases hack with hack | ⟨-, hsilent⟩
  · exact hack
  · exact absurd (hsilent e he hsrc msg hmsg) (Nat.not_le.2 ht)

theorem Remembers.holds (hv : Visited ids stateMachine G c) (hR : Reigned R c)
    (h : Remembers R ids c) (hd : Decided R ids c t k) (hack : Acked c v t k) :
    Holds R t k (c.nodes v).log := by
  rcases h.kept v t k (Nat.lt_succ_of_le (hv.acked_le hack)) hack with
    hheld | ⟨t', r', htt', -, hr', hlack⟩
  · exact hheld
  · exact absurd (h.complete hR hd hr' htt') hlack.not_holds

/-- **Leader completeness.**  In every faithful run, whatever a leader of the term `t` commits is,
at the same indices, in the log of everyone who becomes leader of a later term. -/
theorem leader_completeness (h : (machine σ ids).Reach (Faithful ids) (init ids stateMachine) c)
    {q q' : NodeId} {T : ℕ} {n : ℤ} {log log' : List LogEntry}
    (hcommit : .committed q t n log ∈ c.history) (helected : .elected q' T log' ∈ c.history)
    (hT : t < T) (hk : (k : ℤ) ≤ n) : ∃ entry, log[k]? = some entry ∧ log'[k]? = some entry := by
  have hv := visited_of_reach h
  have hG : ∀ (c : Cluster σ) a, Faithful ids c a → Faithful ids c a := fun _ _ h => h
  obtain ⟨R, hR, hmem⟩ := hv.remembers hG
  obtain ⟨r, hr, hpre, -, hlen⟩ := hmem.own hG hv hR hcommit
  obtain ⟨r', hr', rfl⟩ := hR.elected helected
  have hheld : Holds R t n.toNat log := .of_isPrefix hr hpre hlen
  have hk : k ≤ n.toNat := by omega
  have hget : log[k]? = some log[k] := List.getElem?_eq_getElem (by omega)
  refine ⟨log[k], hget, ?_⟩
  rw [← hget]
  exact (hmem.complete hR (hmem.decided hG hv hR hcommit) hr' hT).getElem?_eq hheld hk

/-- Node 2 is elected in term 2 with the entry that node 1 has committed in term 1. -/
theorem leader_completeness_elected : ∃ c : Cluster SimpleStateMachine,
    (machine SimpleStateMachine [1, 2, 3]).Reach (Faithful [1, 2, 3])
      (init [1, 2, 3] fun _ => .new) c ∧
      ∃ log log', .committed 1 1 0 log ∈ c.history ∧ .elected 2 2 log' ∈ c.history ∧
        ∃ entry, log[0]? = some entry ∧ log'[0]? = some entry := by
  have hrun : ((machine SimpleStateMachine [1, 2, 3]).exec (Faithful [1, 2, 3])
      (init [1, 2, 3] fun _ => .new)
      [.timeout 1, .receive [1, 2, 3] 0, .receive [1, 2, 3] 1, .receive [1, 2, 3] 2,
        .receive [1, 2, 3] 3, .set [1, 2, 3] 1 "x" "1", .receive [1, 2, 3] 8,
        .receive [1, 2, 3] 12, .timeout 2, .receive [1, 2, 3] 10, .receive [1, 2, 3] 15,
        .receive [1, 2, 3] 13, .receive [1, 2, 3] 14, .receive [1, 2, 3] 18,
        .receive [1, 2, 3] 19]).any
      (fun c => decide (.committed 1 1 0 [⟨1, .set "x" "1", 0, 1, 1⟩] ∈ c.history ∧
        .elected 2 2 [⟨1, .set "x" "1", 0, 1, 1⟩] ∈ c.history)) = true := by
    decide
  obtain ⟨c, hc, hcommit, helected⟩ := Machine.exists_reach_of_exec hrun
  exact ⟨c, hc, _, _, hcommit, helected,
    leader_completeness hc hcommit helected (by decide) (by decide)⟩

/-- Node 1 commits its first entry with node 2.  Node 3, whose log is empty, then wins term 2 with
two votes of node 2, which votes for anyone. -/
theorem leader_without_commit : ∃ c : Cluster SimpleStateMachine,
    (machine SimpleStateMachine [1, 2, 3]).Reach Orderly (init [1, 2, 3] fun _ => .new) c ∧
      .committed 1 1 0 [⟨1, .set "x" "1", 0, 1, 1⟩] ∈ c.history ∧ .elected 3 2 [] ∈ c.history := by
  have hrun : ((machine SimpleStateMachine [1, 2, 3]).exec Orderly (init [1, 2, 3] fun _ => .new)
      [.timeout 1, .receive [1, 2, 3] 0, .receive [1, 2, 3] 1, .receive [1, 2, 3] 2,
        .receive [1, 2, 3] 3, .set [1, 2, 3] 1 "x" "1", .receive [1, 2, 3] 7,
        .receive [1, 2, 3] 8, .receive [1, 2, 3] 12, .timeout 3, .receive [1, 2, 3] 14,
        .receive [1, 2, 3] 15, .receive [1, 2, 3] 17, .receive [1, 2, 3] 18]).any
      (fun c => decide (.committed 1 1 0 [⟨1, .set "x" "1", 0, 1, 1⟩] ∈ c.history ∧
        .elected 3 2 [] ∈ c.history)) = true := by
    decide +kernel
  exact Machine.exists_reach_of_exec hrun

/-- **Who has acknowledged a commit holds it**, from then on. -/
theorem Visited.holds_committed (hG : ∀ (c : Cluster σ) a, G c a → Faithful ids c a)
    (hv : Visited ids stateMachine G c) {q : NodeId} {n : ℤ} {log : List LogEntry}
    (hev : .committed q t n log ∈ c.history) (hack : Acked c v t n.toNat) :
    (c.nodes v).log[n.toNat]? = log[n.toNat]? := by
  obtain ⟨R, hR, hmem⟩ := hv.remembers hG
  obtain ⟨r, hr, hpre, -, hlen⟩ := hmem.own hG hv hR hev
  have hheld : Holds R t n.toNat log := .of_isPrefix hr hpre hlen
  exact (hmem.holds hv hR (hmem.decided hG hv hR hev) hack).getElem?_eq hheld (Nat.le_refl _)

end Cluster

end MiniRaft
