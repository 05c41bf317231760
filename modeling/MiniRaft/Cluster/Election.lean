import MiniRaft.Cluster.Steps
import MiniRaft.Consensus.Quorum
import MiniRaft.Server.Discipline
import MiniRaft.Server.SimpleStateMachine

/-!
# Election safety

A vote is a granting reply to a `RequestVote`.  `handle_request_vote_rpc` does not note the vote
it gives, and a reply names neither its voter nor the request it answers, so a node may vote twice
in a term and a candidate may count one vote twice, or one that was meant for an earlier candidacy.
As long as neither happens no term has two leaders.
-/

namespace MiniRaft

open Consensus

variable {σ : Type}

/-- The request that a granting reply answers. -/
def Envelope.grantOf (e : Envelope σ) : Option RequestVote :=
  match e.msg, e.cause with
  | .requestVoteResponse ⟨_, true⟩, some (.requestVote msg) => some msg
  | _, _ => none

theorem Envelope.grantOf_eq_some {e : Envelope σ} {msg : RequestVote} :
    e.grantOf = some msg ↔
      (∃ T, e.msg = .requestVoteResponse ⟨T, true⟩) ∧ e.cause = some (.requestVote msg) := by
  unfold grantOf
  split
  · rename_i T msg' hmsg hcause
    simp [hmsg, hcause]
  · rename_i hno
    constructor
    · intro h
      cases h
    · rintro ⟨⟨T, hmsg⟩, hcause⟩
      exact absurd hcause (hno T msg hmsg)

instance (s : Server σ) (msg : RequestVote) : Decidable (s.Grants msg) :=
  inferInstanceAs (Decidable (_ ∧ (_ ∨ _ ∧ ∃ last ∈ s.log.getLast?, _)))

namespace Cluster

/-- A node that grants a vote has granted none to another candidate of that term. -/
def VotesOnce (c : Cluster σ) : Action → Prop
  | .deliver k _ _ => ∀ e ∈ c.sent[k]?, ∀ msg ∈ e.msg.asRequestVote, (c.nodes e.dst).Grants msg →
      ∀ e' ∈ c.sent, e'.src = e.dst → ∀ msg' ∈ e'.grantOf, msg'.term = msg.term →
        msg'.candidateId = msg.candidateId
  | _ => True

/-- A vote that a candidate counts answers a request of its term, and is the first such vote of
that voter to reach it. -/
def CountsOnce (c : Cluster σ) : Action → Prop
  | .deliver k _ _ => ∀ e ∈ c.sent[k]?, ∀ msg ∈ e.msg.asRequestVoteResponse,
      (c.nodes e.dst).state.isCandidate = true → msg.voteGranted = true →
      msg.term ≤ (c.nodes e.dst).currentTerm →
      e.grantOf.map RequestVote.term = some (c.nodes e.dst).currentTerm ∧
      ∀ k' ∈ c.delivered, ∀ e' ∈ c.sent[k']?, e'.src = e.src → e'.dst = e.dst →
        e'.grantOf.map RequestVote.term ≠ some (c.nodes e.dst).currentTerm
  | _ => True

instance (c : Cluster σ) : (a : Action) → Decidable (VotesOnce c a)
  | .deliver k _ _ => inferInstanceAs (Decidable (∀ e ∈ c.sent[k]?,
      ∀ msg ∈ e.msg.asRequestVote, (c.nodes e.dst).Grants msg → _))
  | .request .. => inferInstanceAs (Decidable True)
  | .timeout _ => inferInstanceAs (Decidable True)

instance (c : Cluster σ) : (a : Action) → Decidable (CountsOnce c a)
  | .deliver k _ _ => inferInstanceAs (Decidable (∀ e ∈ c.sent[k]?,
      ∀ msg ∈ e.msg.asRequestVoteResponse, _ → _ → _ → _ ∧ _))
  | .request .. => inferInstanceAs (Decidable True)
  | .timeout _ => inferInstanceAs (Decidable True)

/-- Every vote is given once and counted once. -/
def SingleVotes (σ : Type) : Cluster σ → Action → Prop := Machine.both VotesOnce CountsOnce

instance : ∀ (c : Cluster σ) (a : Action), Decidable (SingleVotes σ c a) :=
  inferInstanceAs (∀ c a, Decidable (Machine.both VotesOnce CountsOnce c a))

/-! ### Votes -/

/-- The node `v` has voted for the node `q` in the term `T`. -/
def Granted (c : Cluster σ) (v q : NodeId) (T : ℕ) : Prop :=
  ∃ e ∈ c.sent, e.src = v ∧ ∃ msg ∈ e.grantOf, msg.candidateId = q ∧ msg.term = T

/-- A vote of the node `v` in the term `T` has reached the node `q`. -/
def Counted (c : Cluster σ) (q : NodeId) (T : ℕ) (v : NodeId) : Prop :=
  ∃ k ∈ c.delivered, ∃ e ∈ c.sent[k]?, e.src = v ∧ e.dst = q ∧
    e.grantOf.map RequestVote.term = some T

variable [StateMachine σ] {ids : List NodeId} {stateMachine : NodeId → σ}
  {G : Cluster σ → Action → Prop} {c c' : Cluster σ}

omit [StateMachine σ] in
theorem Granted.later {v q : NodeId} {T : ℕ} (h : Granted c v q T) (hl : c.Later c') :
    Granted c' v q T := by
  obtain ⟨e, he, h⟩ := h
  exact ⟨e, hl.sent.subset he, h⟩

omit [StateMachine σ] in
theorem Counted.later {q v : NodeId} {T : ℕ} (h : Counted c q T v) (hl : c.Later c') :
    Counted c' q T v := by
  obtain ⟨k, hk, e, he, h⟩ := h
  exact ⟨k, hl.delivered.subset hk, e, hl.getElem? he, h⟩

omit [StateMachine σ] in
theorem SentBy.grants {i : NodeId} {incoming : Incoming} {log : List LogEntry} {e : Envelope σ}
    {msg : RequestVote}
    (h : SentBy ids i (some incoming.msg) (fun out s => (c.nodes i).HandlesTo incoming log s ∧
      (c.nodes i).Emits incoming out s) e) (hmsg : e.grantOf = some msg) :
    incoming.msg = .requestVote msg ∧ (c.nodes i).Grants msg ∧ e.dst = msg.candidateId ∧
      e.snap = c.nodes i := by
  obtain ⟨⟨T, hgranted⟩, hcause⟩ := Envelope.grantOf_eq_some.1 hmsg
  obtain ⟨dest, ⟨-, hemit⟩, hdest⟩ := h.out
  rw [hgranted] at hemit
  obtain ⟨msg', rfl, hin, hg, hsnap⟩ := hemit.granted rfl
  rw [h.cause, hin, Option.some.injEq, Message.requestVote.injEq] at hcause
  subst hcause
  refine ⟨hin, hg, ?_, hsnap⟩
  rcases hdest with hdest | hdest
  · cases hdest
  · exact (Destination.node.inj hdest).symm

omit [StateMachine σ] in
theorem SentBy.loop_grantOf {i : NodeId} {e : Envelope σ}
    (h : SentBy ids i none (fun out s => (c.nodes i).Goes s ∧ (c.nodes i).Announces out s) e) :
    e.grantOf = none := by
  cases hmsg : e.grantOf with
  | none => rfl
  | some msg =>
    have hcause := (Envelope.grantOf_eq_some.1 hmsg).2
    rw [h.cause] at hcause
    cases hcause

theorem preserved_grants : Preserved ids stateMachine G (fun _ _ => True)
    fun e => ∀ msg, e.grantOf = some msg → msg.candidateId = e.dst where
  init _ := trivial
  handles _ _ _ _ := trivial
  emits _ _ _ hsent _ _ hmsg := (hsent.grants hmsg).2.2.1.symm
  goes _ _ := trivial
  announces _ hsent _ msg hmsg := by
    rw [hsent.loop_grantOf] at hmsg
    cases hmsg

theorem Visited.candidateId_eq (h : Visited ids stateMachine G c) {e : Envelope σ} (he : e ∈ c.sent)
    {msg : RequestVote} (hmsg : e.grantOf = some msg) : msg.candidateId = e.dst :=
  (preserved_grants.visited h).2 e he msg hmsg

theorem Counted.granted (h : Visited ids stateMachine G c) {q v : NodeId} {T : ℕ}
    (hc : Counted c q T v) : v ∈ ids ∧ Granted c v q T := by
  obtain ⟨k, -, e, he, rfl, rfl, hmap⟩ := hc
  obtain ⟨msg, hmsg, hterm⟩ := Option.map_eq_some_iff.1 hmap
  have hmem : e ∈ c.sent := List.mem_of_getElem? he
  exact ⟨(h.ends hmem).1, e, hmem, rfl, msg, hmsg, h.candidateId_eq hmem hmsg, hterm⟩

/-! ### What leaders send -/

omit [StateMachine σ] in
theorem SentBy.handler_appendEntries {i : NodeId} {incoming : Incoming} {log : List LogEntry}
    {e : Envelope σ} {msg : AppendEntries}
    (h : SentBy ids i (some incoming.msg) (fun out s => (c.nodes i).HandlesTo incoming log s ∧
      (c.nodes i).Emits incoming out s) e) (hmsg : e.msg = .appendEntries msg) :
    (c.nodes i).state.isLeader = true ∧ msg.term = (c.nodes i).currentTerm ∧ e.snap.log = log := by
  obtain ⟨dest, ⟨⟨hsnap, hlog⟩, hemit⟩, -⟩ := h.out
  rw [hmsg] at hemit
  obtain ⟨hl, hr, -⟩ := hemit.appendEntries
  exact ⟨hl, by rw [hr.term, (hsnap.roleStep.leader hr.leader).1], hlog⟩

omit [StateMachine σ] in
theorem SentBy.loop_appendEntries {i : NodeId} {e : Envelope σ} {msg : AppendEntries}
    (h : SentBy ids i none (fun out s => (c.nodes i).Goes s ∧ (c.nodes i).Announces out s) e)
    (hmsg : e.msg = .appendEntries msg) :
    (c.nodes i).state.isLeader = true ∧ msg.term = (c.nodes i).currentTerm ∧
      e.snap.log = (c.nodes i).log := by
  obtain ⟨dest, ⟨hgoes, hann⟩, -⟩ := h.out
  rw [hmsg] at hann
  cases hann with
  | heartbeat hr =>
    exact ⟨hgoes.isLeader hr.leader, by rw [hr.term, (hgoes.roleStep.leader hr.leader).1],
      hgoes.log_eq⟩

/-! ### What the guard says about a handled message -/

omit [StateMachine σ] in
theorem VotesOnce.apply {a : Action} {i : NodeId} {incoming : Incoming} {msg : RequestVote}
    (h : VotesOnce c a) (harr : c.Arrives a i incoming) (hin : incoming.msg = .requestVote msg)
    (hg : (c.nodes i).Grants msg) :
    ∀ e ∈ c.sent, e.src = i → ∀ msg', e.grantOf = some msg' → msg'.term = msg.term →
      msg'.candidateId = msg.candidateId := by
  obtain ⟨k, order, cut, e₀, rfl, he₀, rfl, rfl⟩ := harr.envelope fun req hreq => by
    simp [hin] at hreq
  have hin : e₀.msg = .requestVote msg := hin
  exact h e₀ he₀ msg (by rw [hin]; rfl) hg

omit [StateMachine σ] in
theorem CountsOnce.apply {a : Action} {i : NodeId} {incoming : Incoming}
    {msg : RequestVoteResponse} (h : CountsOnce c a) (harr : c.Arrives a i incoming)
    (hin : incoming.msg = .requestVoteResponse msg) (hc : (c.nodes i).state.isCandidate = true)
    (hok : msg.voteGranted = true) (hterm : msg.term ≤ (c.nodes i).currentTerm) :
    ∃ k e, c.deliveries a = k :: c.delivered ∧ c.sent[k]? = some e ∧ e.dst = i ∧
      e.grantOf.map RequestVote.term = some (c.nodes i).currentTerm ∧
      ¬ Counted c i (c.nodes i).currentTerm e.src := by
  obtain ⟨k, order, cut, e, rfl, he, rfl, rfl⟩ := harr.envelope fun req hreq => by
    simp [hin] at hreq
  have hin : e.msg = .requestVoteResponse msg := hin
  obtain ⟨hgrant, hfirst⟩ := h e he msg (by rw [hin]; rfl) hc hok hterm
  refine ⟨k, e, rfl, he, rfl, hgrant, ?_⟩
  rintro ⟨k', hk', e', he', hsrc, hdst, hgrant'⟩
  exact hfirst k' hk' e' he' hsrc hdst hgrant'

/-! ### The invariant -/

/-- What the votes of a run come to. -/
structure Elections (ids : List NodeId) (c : Cluster σ) : Prop where
  once : ∀ e ∈ c.sent, ∀ e' ∈ c.sent, e'.src = e.src → ∀ msg msg', e.grantOf = some msg →
    e'.grantOf = some msg' → msg'.term = msg.term → msg'.candidateId = msg.candidateId
  tally : ∀ q votes, (c.nodes q).state = .candidate votes →
    AtLeast votes (Counted c q (c.nodes q).currentTerm)
  quorum : ∀ q T log, .elected q T log ∈ c.history → Quorum ids fun v => Granted c v q T
  leader : ∀ q, (c.nodes q).state.isLeader = true →
    ∃ log, .elected q (c.nodes q).currentTerm log ∈ c.history
  past : ∀ q T log, .elected q T log ∈ c.history → T ≤ (c.nodes q).currentTerm ∧
    ((c.nodes q).currentTerm = T → (c.nodes q).state.isCandidate = false)
  sender : ∀ e ∈ c.sent, ∀ msg, e.msg = .appendEntries msg →
    ∃ log, .elected e.src msg.term log ∈ c.history
  stands : ∀ q, (c.nodes q).state.isCandidate = true → 0 < (c.nodes q).currentTerm
  pos : ∀ q T log, .elected q T log ∈ c.history → 0 < T

namespace Elections

omit [StateMachine σ] in
theorem unique (h : Elections ids c) {q q' : NodeId} {T : ℕ} {log log' : List LogEntry}
    (hq : .elected q T log ∈ c.history) (hq' : .elected q' T log' ∈ c.history) : q = q' := by
  obtain ⟨v, -, ⟨e, he, hsrc, msg, hmsg, rfl, rfl⟩, e', he', hsrc', msg', hmsg', rfl, hterm⟩ :=
    (h.quorum q T log hq).inter (h.quorum q' T log' hq')
  exact (h.once e he e' he' (hsrc'.trans hsrc.symm) msg msg' hmsg hmsg' hterm).symm

/-! #### One phase -/

section

variable {i : NodeId} {cause : Option Message} {P : Server σ → Prop}
  {Q : Outgoing → Server σ → Prop} {A : ℕ → LogCommand → Prop}

omit [StateMachine σ] in
theorem once_phase (h : Elections ids c) (hphase : c.PhaseOf ids i cause P Q A c')
    (honce : ∀ e, SentBy ids i cause (fun out s => P s ∧ Q out s) e → ∀ msg,
      e.grantOf = some msg → ∀ e' ∈ c.sent, e'.src = i → ∀ msg', e'.grantOf = some msg' →
        msg'.term = msg.term → msg'.candidateId = msg.candidateId) :
    ∀ e ∈ c'.sent, ∀ e' ∈ c'.sent, e'.src = e.src → ∀ msg msg', e.grantOf = some msg →
      e'.grantOf = some msg' → msg'.term = msg.term → msg'.candidateId = msg.candidateId := by
  intro e he e' he' hsrc msg msg' hmsg hmsg' hterm
  rcases hphase.sentBy he with he | he
  · rcases hphase.sentBy he' with he' | he'
    · exact h.once e he e' he' hsrc msg msg' hmsg hmsg' hterm
    · exact (honce e' he' msg' hmsg' e he (hsrc.symm.trans he'.src) msg hmsg hterm.symm).symm
  · rcases hphase.sentBy he' with he' | he'
    · exact honce e he msg hmsg e' he' (hsrc.trans he.src) msg' hmsg' hterm
    · -- one phase answers one request
      have hcause := (Envelope.grantOf_eq_some.1 hmsg).2
      have hcause' := (Envelope.grantOf_eq_some.1 hmsg').2
      rw [he.cause] at hcause
      rw [he'.cause, hcause] at hcause'
      cases hcause'
      rfl

omit [StateMachine σ] in
theorem leader_phase (h : Elections ids c) (hlater : c.Later c')
    (hphase : c.PhaseOf ids i cause P Q A c') (hrole : ∀ s, P s → (c.nodes i).RoleStep s)
    {q : NodeId} (hl : (c'.nodes q).state.isLeader = true) :
    ∃ log, .elected q (c'.nodes q).currentTerm log ∈ c'.history := by
  rcases hphase.moved q with hq | ⟨rfl, hc, hP⟩
  · rw [hq] at hl ⊢
    obtain ⟨log, hev⟩ := h.leader q hl
    exact ⟨log, hlater.history.subset hev⟩
  · cases hl₀ : (c.nodes q).state.isLeader with
    | true =>
      obtain ⟨log, hev⟩ := h.leader q hl₀
      rw [((hrole _ hP).leader hl).1]
      exact ⟨log, hlater.history.subset hev⟩
    | false => exact ⟨_, hphase.change hc (mem_changeOf_elected.2 ⟨rfl, rfl, rfl, hl₀, hl⟩)⟩

omit [StateMachine σ] in
theorem past_phase (h : Elections ids c) (hphase : c.PhaseOf ids i cause P Q A c')
    (hrole : ∀ s, P s → (c.nodes i).RoleStep s) {q : NodeId} {T : ℕ} {log : List LogEntry}
    (hev : .elected q T log ∈ c'.history) : T ≤ (c'.nodes q).currentTerm ∧
      ((c'.nodes q).currentTerm = T → (c'.nodes q).state.isCandidate = false) := by
  rcases hphase.event hev with hev | ⟨_, _, hev, -⟩ | ⟨-, hev⟩
  · have hpast := h.past q T log hev
    rcases hphase.moved q with hq | ⟨rfl, -, hP⟩
    · rwa [hq]
    · cases hrole _ hP with
      | stay hterm hsame => rwa [hterm, hsame.2]
      | win hterm _ hl =>
        rw [hterm]
        exact ⟨hpast.1, fun _ => Server.isCandidate_of_isLeader hl⟩
      | rise hlt =>
        have := hpast.1
        exact ⟨by omega, fun heq => by omega⟩
  · cases hev
  · obtain ⟨rfl, rfl, -, -, hl⟩ := mem_changeOf_elected.1 hev
    exact ⟨Nat.le_refl _, fun _ => Server.isCandidate_of_isLeader hl⟩

omit [StateMachine σ] in
theorem stands_phase (h : Elections ids c) (hphase : c.PhaseOf ids i cause P Q A c')
    (hrole : ∀ s, P s → (c.nodes i).RoleStep s) {q : NodeId}
    (hc : (c'.nodes q).state.isCandidate = true) : 0 < (c'.nodes q).currentTerm := by
  rcases hphase.moved q with hq | ⟨rfl, -, hP⟩
  · rw [hq] at hc ⊢
    exact h.stands q hc
  · cases hrole _ hP with
    | stay hterm hsame =>
      rw [hsame.2] at hc
      rw [hterm]
      exact h.stands q hc
    | win _ _ hl =>
      rw [Server.isCandidate_of_isLeader hl] at hc
      cases hc
    | rise hlt => exact Nat.lt_of_le_of_lt (Nat.zero_le _) hlt

omit [StateMachine σ] in
theorem pos_phase (h : Elections ids c) (hphase : c.PhaseOf ids i cause P Q A c')
    (hrole : ∀ s, P s → (c.nodes i).RoleStep s) {q : NodeId} {T : ℕ} {log : List LogEntry}
    (hev : .elected q T log ∈ c'.history) : 0 < T := by
  rcases hphase.event hev with hev | ⟨_, _, hev, -⟩ | ⟨hc, hev⟩
  · exact h.pos q T log hev
  · cases hev
  · obtain ⟨rfl, rfl, -, hl, hl'⟩ := mem_changeOf_elected.1 hev
    have hP := hphase.ran hc
    obtain ⟨hterm, hrole⟩ := (hrole _ hP).leader hl'
    rw [hterm]
    refine h.stands q (hrole.resolve_left ?_)
    rw [hl]
    exact Bool.false_ne_true

/-- One phase: it votes for no second candidate of a term, and its candidacies and victories rest
on votes that have been counted. -/
theorem phase (h : Elections ids c) (hv : Visited ids stateMachine G c') (hlater : c.Later c')
    (hphase : c.PhaseOf ids i cause P Q A c')
    (honce : ∀ e, SentBy ids i cause (fun out s => P s ∧ Q out s) e → ∀ msg,
      e.grantOf = some msg → ∀ e' ∈ c.sent, e'.src = i → ∀ msg', e'.grantOf = some msg' →
        msg'.term = msg.term → msg'.candidateId = msg.candidateId)
    (hsend : ∀ e, SentBy ids i cause (fun out s => P s ∧ Q out s) e → ∀ msg,
      e.msg = .appendEntries msg →
        (c.nodes i).state.isLeader = true ∧ msg.term = (c.nodes i).currentTerm)
    (hrole : ∀ s, P s → (c.nodes i).RoleStep s)
    (htally : ∀ s votes, P s → s.state = .candidate votes →
      AtLeast votes (Counted c' i s.currentTerm))
    (hwin : ∀ s, P s → (c.nodes i).state.isLeader = false → s.state.isLeader = true →
      AtLeast (ids.length / 2 + 1) (Counted c' i s.currentTerm)) : Elections ids c' where
  once := h.once_phase hphase honce
  tally := by
    intro q votes hst
    rcases hphase.moved q with hq | ⟨rfl, -, hP⟩
    · rw [hq] at hst ⊢
      exact (h.tally q votes hst).mono fun v hc => hc.later hlater
    · exact htally _ votes hP hst
  quorum := by
    intro q T log hev
    rcases hphase.event hev with hev | ⟨_, _, hev, -⟩ | ⟨hc, hev⟩
    · exact (h.quorum q T log hev).mono fun v _ hg => hg.later hlater
    · cases hev
    · obtain ⟨rfl, rfl, rfl, hl, hl'⟩ := mem_changeOf_elected.1 hev
      have hP := hphase.ran hc
      exact (hwin _ hP hl hl').mono fun v hcount => hcount.granted hv
  leader q hl := h.leader_phase hlater hphase hrole hl
  past q T log hev := h.past_phase hphase hrole hev
  sender := by
    intro e he msg hmsg
    rcases hphase.sentBy he with he | he
    · obtain ⟨log, hev⟩ := h.sender e he msg hmsg
      exact ⟨log, hlater.history.subset hev⟩
    · obtain ⟨hl, hterm⟩ := hsend e he msg hmsg
      obtain ⟨log, hev⟩ := h.leader i hl
      rw [he.src, hterm]
      exact ⟨log, hlater.history.subset hev⟩
  stands q hc := h.stands_phase hphase hrole hc
  pos q T log hev := h.pos_phase hphase hrole hev

end

omit [StateMachine σ] in
theorem init : Elections ids (Cluster.init ids stateMachine) where
  once := by simp [Cluster.init]
  tally q votes hst := by cases hst
  quorum := by simp [Cluster.init]
  leader q hl := by cases hl
  past := by simp [Cluster.init]
  sender := by simp [Cluster.init]
  stands q hc := by cases hc
  pos := by simp [Cluster.init]

omit [StateMachine σ] in
theorem held (h : Elections ids c) (hlater : c.Later c') {i : NodeId} {votes : ℕ}
    (hst : (c.nodes i).state = .candidate votes) :
    AtLeast votes (Counted c' i (c.nodes i).currentTerm) :=
  (h.tally i votes hst).mono fun _ hc => hc.later hlater

omit [StateMachine σ] in
theorem count (h : Elections ids c) (hlater : c.Later c') {a : Action} {i : NodeId}
    {incoming : Incoming} {msg : RequestVoteResponse} {votes : ℕ} (hcounts : CountsOnce c a)
    (harr : c.Arrives a i incoming) (hd : c'.delivered = c.deliveries a)
    (hin : incoming.msg = .requestVoteResponse msg) (hok : msg.voteGranted = true)
    (hterm : msg.term ≤ (c.nodes i).currentTerm)
    (hst : (c.nodes i).state = .candidate votes) :
    AtLeast (votes + 1) (Counted c' i (c.nodes i).currentTerm) := by
  obtain ⟨k, e, hdel, he, hdst, hgrant, hnew⟩ := hcounts.apply harr hin (by rw [hst]; rfl) hok hterm
  refine (h.tally i votes hst).succ (fun v h => h.later hlater) hnew ?_
  refine ⟨k, ?_, e, hlater.getElem? he, rfl, hdst, hgrant⟩
  rw [hd, hdel]
  exact List.mem_cons_self

theorem handler {a : Action} (h : Elections ids c) (hv : Visited ids stateMachine G c)
    (hG : G c a) (hsingle : SingleVotes σ c a) (hs : c.HandlerStep ids a c') :
    Elections ids c' := by
  have hlater := hs.later
  have hv' := hv.handler hG hs
  obtain ⟨i, incoming, log, harr, hd, hphase⟩ := hs
  obtain ⟨honce, hcounts⟩ := hsingle
  have hnodes : (c.nodes i).config.totalNodes = ids.length := by rw [hv.config_eq]
  refine h.phase hv' hlater hphase ?_
    (fun e he msg hmsg => ⟨(he.handler_appendEntries hmsg).1, (he.handler_appendEntries hmsg).2.1⟩)
    ?_ ?_ ?_
  · intro e he msg hmsg
    obtain ⟨hin, hg, -, -⟩ := he.grants hmsg
    exact honce.apply harr hin hg
  · exact fun s h => h.1.roleStep
  · rintro s votes ⟨hs, -⟩ hst
    cases hs with
    | keep => exact h.held hlater hst
    | stepDown => cases hst
    | accept sm ci la log heq hacc =>
      -- a candidate accepts entries of its own term only
      obtain ⟨-, -, hf | hterm⟩ := hacc
      · rw [hf] at hst
        cases hst
      · rw [hterm]
        exact h.held hlater hst
    | vote hin hok hterm hst' =>
      cases hst
      exact h.count hlater hcounts harr hd hin hok hterm hst'
    | win => cases hst
    | push => exact h.held hlater hst
    | response => cases hst
  · rintro s ⟨hs, -⟩ hl hl'
    cases hs with
    | keep => simp [hl] at hl'
    | stepDown => cases hl'
    | accept => simp [hl] at hl'
    | vote => cases hl'
    | win hin hok hterm hst' hmaj =>
      rw [hnodes] at hmaj
      exact (h.count hlater hcounts harr hd hin hok hterm hst').of_le hmaj
    | push => simp [hl] at hl'
    | response sm _ _ hcredit => simp [hcredit.isLeader] at hl

theorem loop (h : Elections ids c) (hv : Visited ids stateMachine G c) (hs : c.LoopStep ids c') :
    Elections ids c' := by
  have hlater := hs.later
  have hv' := hv.loop hs
  obtain ⟨i, hd, hphase⟩ := hs
  refine h.phase hv' hlater hphase ?_
    (fun e he msg hmsg => ⟨(he.loop_appendEntries hmsg).1, (he.loop_appendEntries hmsg).2.1⟩)
    ?_ ?_ ?_
  · intro e he msg hmsg
    rw [he.loop_grantOf] at hmsg
    cases hmsg
  · exact fun s h => h.roleStep
  · rintro s votes hs hst
    cases hs with
    | keep => exact h.held hlater hst
    | apply => exact h.held hlater hst
    | stand =>
      cases hst
      exact .zero
    | lead => cases hst
  · rintro s hs hl hl'
    cases hs with
    | keep => simp [hl] at hl'
    | apply => simp [hl] at hl'
    | stand => cases hl'
    | lead _ _ _ _ hlead => simp [hlead] at hl

/-- No leader accepts an `AppendEntries`: it would be of its own term. -/
theorem not_isLeader_of_accepts (hel : Elections ids c) (hv : Visited ids stateMachine G c)
    {e : Envelope σ} {msg : AppendEntries} (he : e ∈ c.sent) (hmsg : e.msg = .appendEntries msg)
    (hacc : (c.nodes e.dst).Accepts msg) : (c.nodes e.dst).state.isLeader = false := by
  rw [← Bool.not_eq_true]
  intro hl
  obtain ⟨-, -, hf | hterm⟩ := hacc
  · simp [hf] at hl
  · obtain ⟨log, hev⟩ := hel.sender e he msg hmsg
    obtain ⟨log', hev'⟩ := hel.leader _ hl
    rw [hterm] at hev
    exact (hv.ends he).2.2 (hel.unique hev' hev)

end Elections

/-- **The invariant of elections**, along every run within the guard. -/
theorem Visited.elections (hG : ∀ (c : Cluster σ) a, G c a → SingleVotes σ c a)
    (h : Visited ids stateMachine G c) : Elections ids c := by
  induction h with
  | init => exact .init
  | handler hv hg hs ih => exact ih.handler hv hg (hG _ _ hg) hs
  | loop hv hs ih => exact ih.loop hv hs

/-- **Election safety.**  In every run in which each vote is given once and counted once, no two
nodes ever lead the same term, whether at the same time or one after the other. -/
theorem election_safety {c₁ c₂ : Cluster σ} {i j : NodeId}
    (h₁ : (machine σ ids).Reach (SingleVotes σ) (init ids stateMachine) c₁)
    (h₂ : (machine σ ids).Reach (SingleVotes σ) c₁ c₂)
    (hi : (c₁.nodes i).state.isLeader = true) (hj : (c₂.nodes j).state.isLeader = true)
    (hterm : (c₁.nodes i).currentTerm = (c₂.nodes j).currentTerm) : i = j := by
  have hel₁ : Elections ids c₁ := (visited_of_reach h₁).elections fun _ _ h => h
  have hel₂ : Elections ids c₂ := (visited_of_reach (h₁.trans h₂)).elections fun _ _ h => h
  obtain ⟨log₁, hev₁⟩ := hel₁.leader i hi
  obtain ⟨log₂, hev₂⟩ := hel₂.leader j hj
  rw [hterm] at hev₁
  exact hel₂.unique ((later_of_reach h₂).history.subset hev₁) hev₂

/-- Node 1 wins term 1 with the votes of the other two. -/
theorem election_safety_won : ∃ c : Cluster SimpleStateMachine,
    (machine SimpleStateMachine [1, 2, 3]).Reach (SingleVotes SimpleStateMachine)
      (init [1, 2, 3] fun _ => .new) c ∧ (c.nodes 1).state.isLeader = true ∧
      ∀ j, (c.nodes j).state.isLeader = true → (c.nodes j).currentTerm = (c.nodes 1).currentTerm →
        1 = j := by
  have hrun : ((machine SimpleStateMachine [1, 2, 3]).exec (SingleVotes SimpleStateMachine)
      (init [1, 2, 3] fun _ => .new)
      [.timeout 1, .receive [1, 2, 3] 0, .receive [1, 2, 3] 1, .receive [1, 2, 3] 2,
        .receive [1, 2, 3] 3]).any (fun c => decide ((c.nodes 1).state.isLeader = true)) = true := by
    decide
  obtain ⟨c, hc, hl⟩ := Machine.exists_reach_of_exec hrun
  exact ⟨c, hc, hl, fun j hj hterm => election_safety hc (.refl c) hl hj hterm.symm⟩

/-- Nodes 1 and 2 both win term 1: node 3 votes for both, and each counts a second vote of node 3
that answers a repeated request. -/
theorem two_leaders : ∃ c : Cluster SimpleStateMachine,
    (machine SimpleStateMachine [1, 2, 3]).Reach Orderly (init [1, 2, 3] fun _ => .new) c ∧
      (c.nodes 1).state.isLeader = true ∧ (c.nodes 2).state.isLeader = true ∧
      (c.nodes 1).currentTerm = (c.nodes 2).currentTerm := by
  have hrun : ((machine SimpleStateMachine [1, 2, 3]).exec Orderly (init [1, 2, 3] fun _ => .new)
      [.timeout 1, .timeout 2, .receive [1, 2, 3] 1, .receive [1, 2, 3] 4, .receive [1, 2, 3] 6,
        .receive [1, 2, 3] 7, .receive [1, 2, 3] 3, .receive [1, 2, 3] 10, .receive [1, 2, 3] 12,
        .receive [1, 2, 3] 13]).any
      (fun c => decide ((c.nodes 1).state.isLeader = true ∧ (c.nodes 2).state.isLeader = true ∧
        (c.nodes 1).currentTerm = (c.nodes 2).currentTerm)) = true := by
    decide
  exact Machine.exists_reach_of_exec hrun

end Cluster

end MiniRaft
