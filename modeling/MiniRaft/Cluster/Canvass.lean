import MiniRaft.Cluster.Election
import MiniRaft.Cluster.WellFormed
import MiniRaft.Server.Votes
import MiniRaft.Consensus.Completeness

/-!
# Canvassing

What a `RequestVote` says about the log of its candidate, and what a vote says about the log of the
voter.  A node that has voted for nobody grants every request of a term that is not below its own,
whatever its log; the guard `VotesUpToDate` is the check that is missing there.
-/

namespace MiniRaft

open Consensus

variable {σ : Type}

namespace Server

/-- The log that the request describes is at least as up-to-date as that of `s`. -/
def YieldsTo (s : Server σ) (msg : RequestVote) : Prop :=
  s.log = [] ∨ s.lastTermOrZero < msg.lastLogTerm ∨
    s.lastTermOrZero = msg.lastLogTerm ∧ (s.log.length : ℤ) - 1 ≤ msg.lastLogIndex

instance (s : Server σ) (msg : RequestVote) : Decidable (s.YieldsTo msg) :=
  inferInstanceAs (Decidable (_ ∨ _ ∨ _ ∧ _))

theorem lastTermOrZero_eq (s : Server σ) : s.lastTermOrZero = lastKey LogEntry.term s.log := by
  unfold lastTermOrZero lastKey
  cases s.log.getLast? with
  | none => rfl
  | some entry => rfl

end Server

/-- The end of the log that a request describes. -/
structure RequestVote.Describes (msg : RequestVote) (log : List LogEntry) : Prop where
  term : msg.lastLogTerm = lastKey LogEntry.term log
  index : msg.lastLogIndex = if log = [] then 0 else (log.length : ℤ) - 1

theorem Server.Canvasses.describes {s : Server σ} {msg : RequestVote} (h : s.Canvasses msg)
    (hlen : s.log.length ≤ 2 ^ 31) : msg.Describes s.log :=
  ⟨by rw [h.lastLogTerm, s.lastTermOrZero_eq], h.lastLogIndex hlen⟩

theorem Server.YieldsTo.upToDate {s : Server σ} {msg : RequestVote} {log : List LogEntry}
    (h : s.YieldsTo msg) (hd : msg.Describes log) (hpos : ∀ x ∈ s.log, 0 < x.term) :
    UpToDate LogEntry.term log s.log := by
  rw [Server.YieldsTo, s.lastTermOrZero_eq, hd.term, hd.index] at h
  rcases h with hnil | hlt | ⟨heq, hlen⟩
  · rw [UpToDate, hnil]
    rcases Nat.eq_zero_or_pos (lastKey LogEntry.term log) with hzero | hlt
    · exact .inr ⟨hzero.symm, Nat.zero_le _⟩
    · exact .inl hlt
  · exact .inl hlt
  · refine .inr ⟨heq, ?_⟩
    split_ifs at hlen with hnil
    · -- an empty log counts as one that ends at index 0, but not with a positive term
      by_cases hs : s.log = []
      · rw [hs]
        exact Nat.zero_le _
      · have hlast : 0 < lastKey LogEntry.term s.log := lastKey_pos hs hpos
        rw [heq, hnil] at hlast
        exact absurd hlast (Nat.lt_irrefl 0)
    · omega

namespace Cluster

open Server

/-- Votes go only to candidates whose logs are at least as up-to-date as the voter's. -/
def VotesUpToDate (σ : Type) : Cluster σ → Action → Prop :=
  Meets fun s _ incoming => ∀ msg ∈ incoming.msg.asRequestVote, s.Grants msg → s.YieldsTo msg

instance : ∀ (c : Cluster σ) (a : Action), Decidable (VotesUpToDate σ c a) :=
  inferInstanceAs (∀ c a, Decidable (Meets _ c a))

variable [StateMachine σ] {ids : List NodeId} {stateMachine : NodeId → σ}
  {G : Cluster σ → Action → Prop} {c c' : Cluster σ}

theorem preserved_pledged : Preserved ids stateMachine G (fun i s => s.Pledged ∧ s.id = i)
    fun e => ∀ msg, e.msg = .requestVote msg → msg.candidateId = e.src where
  init i := ⟨.new i _ _, rfl⟩
  handles := by
    intro c a i incoming log s before _ _ h
    obtain ⟨hp, hid⟩ := before.nodes i
    obtain ⟨hp', hid'⟩ := hp.handles h.1
    exact ⟨hp', hid'.trans hid⟩
  emits := by
    intro c a i incoming log e _ _ _ hsent _ msg hmsg
    obtain ⟨dest, ⟨-, hemit⟩, -⟩ := hsent.out
    rw [hmsg] at hemit
    cases hemit
  goes := by
    intro c i s before h
    obtain ⟨hp, hid⟩ := before.nodes i
    obtain ⟨hp', hid'⟩ := hp.goes h
    exact ⟨hp', hid'.trans hid⟩
  announces := by
    intro c i e _ hsent hsnap msg hmsg
    obtain ⟨dest, ⟨-, hann⟩, -⟩ := hsent.out
    rw [hmsg] at hann
    cases hann with
    | canvass hc => rw [hc.candidateId, hsnap.2, hsent.src]

theorem Visited.votedFor (h : Visited ids stateMachine G c) {i : NodeId}
    (hst : (c.nodes i).state ≠ .follower) : (c.nodes i).votedFor = some i := by
  obtain ⟨hp, hid⟩ := (preserved_pledged.visited h).1 i
  rw [hp.votedFor hst, hid]

theorem Visited.candidateId_eq_src (h : Visited ids stateMachine G c) {e : Envelope σ}
    (he : e ∈ c.sent) {msg : RequestVote} (hmsg : e.msg = .requestVote msg) :
    msg.candidateId = e.src :=
  (preserved_pledged.visited h).2 e he msg hmsg

theorem Visited.follower_of_grants (h : Visited ids stateMachine G c) {e : Envelope σ}
    (he : e ∈ c.sent) {msg : RequestVote} (hmsg : e.msg = .requestVote msg)
    (hg : (c.nodes e.dst).Grants msg) : (c.nodes e.dst).state = .follower := by
  by_contra hst
  rcases hg.2 with hnone | ⟨hsome, -⟩
  · rw [h.votedFor hst] at hnone
    cases hnone
  · rw [h.votedFor hst, Option.some.injEq, h.candidateId_eq_src he hmsg] at hsome
    exact (h.ends he).2.2 hsome

/-! ### Requests and votes in time -/

/-- What is delivered has been sent, and neither a request nor a vote is for a term that the
candidate has not reached. -/
structure Timely (c : Cluster σ) : Prop where
  delivered : ∀ k ∈ c.delivered, k < c.sent.length
  requests : ∀ e ∈ c.sent, ∀ msg, e.msg = .requestVote msg →
    msg.term ≤ (c.nodes e.src).currentTerm
  votes : ∀ e ∈ c.sent, ∀ msg, e.grantOf = some msg → msg.term ≤ (c.nodes e.dst).currentTerm

omit [StateMachine σ] in
/-- One phase: a request is for the term of its sender, and a vote for that of a request. -/
theorem Timely.phase {i : NodeId} {cause : Option Message} {P : Server σ → Prop}
    {Q : Outgoing → Server σ → Prop} {A : ℕ → LogCommand → Prop} (h : Timely c)
    (hphase : c.PhaseOf ids i cause P Q A c') (hd : ∀ k ∈ c'.delivered, k < c.sent.length)
    (hrole : ∀ s, P s → (c.nodes i).RoleStep s)
    (hrequest : ∀ e, SentBy ids i cause (fun out s => P s ∧ Q out s) e → ∀ msg,
      e.msg = .requestVote msg → e.snap.Canvasses msg)
    (hvote : ∀ e, SentBy ids i cause (fun out s => P s ∧ Q out s) e → ∀ msg,
      e.grantOf = some msg → msg.term ≤ (c.nodes e.dst).currentTerm) : Timely c' where
  delivered := by
    obtain ⟨new, hsent, -⟩ := hphase.sent
    intro k hk
    rw [hsent, List.length_append]
    exact Nat.lt_add_right _ (hd k hk)
  requests := by
    intro e he msg hmsg
    by_cases hold : e ∈ c.sent
    · exact (h.requests e hold msg hmsg).trans (hphase.currentTerm_le hrole e.src)
    · obtain ⟨hsrc, -, hsnap⟩ := (hphase.closes e he (by rw [hmsg]; rfl)).resolve_left hold
      rw [(hrequest e ((hphase.sentBy he).resolve_left hold) msg hmsg).term, hsnap, hsrc]
  votes := by
    intro e he msg hmsg
    refine Nat.le_trans ?_ (hphase.currentTerm_le hrole e.dst)
    rcases hphase.sentBy he with he | he
    · exact h.votes e he msg hmsg
    · exact hvote e he msg hmsg

theorem Visited.timely (h : Visited ids stateMachine G c) : Timely c := by
  induction h with
  | init => exact ⟨by simp [Cluster.init], by simp [Cluster.init], by simp [Cluster.init]⟩
  | handler hv _ hs ih =>
    obtain ⟨i, incoming, log, harr, hd, hphase⟩ := hs
    refine ih.phase hphase ?_ (fun _ h => h.1.roleStep) ?_ ?_
    · rw [hd]
      cases harr with
      | deliver he =>
        exact List.forall_mem_cons.2 ⟨(List.getElem?_eq_some_iff.1 he).1, ih.delivered⟩
      | request => exact ih.delivered
    · intro e he msg hmsg
      obtain ⟨dest, ⟨-, hemit⟩, -⟩ := he.out
      rw [hmsg] at hemit
      cases hemit
    · intro e he msg hmsg
      obtain ⟨hin, -, hdst, -⟩ := he.grants hmsg
      obtain ⟨k, order, cut, e', -, he', -, rfl⟩ :=
        harr.envelope fun req hreq => by simp [hin] at hreq
      have hreq : e'.msg = .requestVote msg := hin
      have hmem : e' ∈ _ := List.mem_of_getElem? he'
      rw [hdst, hv.candidateId_eq_src hmem hreq]
      exact ih.requests e' hmem msg hreq
  | loop _ hs ih =>
    obtain ⟨i, hd, hphase⟩ := hs
    refine ih.phase hphase (by rw [hd]; exact ih.delivered) (fun _ h => h.roleStep) ?_ ?_
    · intro e he msg hmsg
      obtain ⟨dest, ⟨-, hann⟩, -⟩ := he.out
      rw [hmsg] at hann
      cases hann with
      | canvass hc => exact hc
    · intro e he msg hmsg
      rw [he.loop_grantOf] at hmsg
      cases hmsg

/-! ### The logs of candidates and voters -/

/-- What the requests in flight and the votes say about logs. -/
structure Canvassed (c : Cluster σ) : Prop where
  term : ∀ e ∈ c.sent, ∀ msg, e.msg = .requestVote msg → c.crashed e.src = false →
    msg.term ≤ (c.nodes e.src).currentTerm
  /-- As long as nobody has won, a candidate has the log that its requests describe. -/
  describes : ∀ e ∈ c.sent, ∀ msg, e.msg = .requestVote msg → c.crashed e.src = false →
    (c.nodes e.src).state.isCandidate = true → (c.nodes e.src).currentTerm = msg.term →
    (∀ q log, .elected q msg.term log ∉ c.history) → msg.Describes (c.nodes e.src).log
  /-- Votes answer requests that have been made. -/
  asked : ∀ e ∈ c.sent, ∀ msg, e.grantOf = some msg → e.snap.YieldsTo msg ∧
    ∃ e' ∈ c.sent, e'.msg = .requestVote msg ∧ e'.src = msg.candidateId

omit [StateMachine σ] in
theorem Canvassed.phase {i : NodeId} {cause : Option Message} {P : Server σ → Prop}
    {Q : Outgoing → Server σ → Prop} {A : ℕ → LogCommand → Prop} (h : Canvassed c)
    (htimely : Timely c') (hlater : c.Later c') (hphase : c.PhaseOf ids i cause P Q A c')
    (hsame : ∀ s, P s → s.state.isCandidate = true →
      (∀ q log, .elected q s.currentTerm log ∉ c.history) →
        (c.nodes i).currentTerm < s.currentTerm ∨ (c.nodes i).state.isCandidate = true ∧
          s.currentTerm = (c.nodes i).currentTerm ∧ s.log = (c.nodes i).log)
    (hcanvass : ∀ e, SentBy ids i cause (fun out s => P s ∧ Q out s) e → ∀ msg,
      e.msg = .requestVote msg → e.snap.Canvasses msg ∧ msg.Describes e.snap.log)
    (hasked : ∀ e, SentBy ids i cause (fun out s => P s ∧ Q out s) e → ∀ msg,
      e.grantOf = some msg → e.snap.YieldsTo msg ∧
        ∃ e' ∈ c.sent, e'.msg = .requestVote msg ∧ e'.src = msg.candidateId) : Canvassed c' where
  term e he msg hmsg _ := htimely.requests e he msg hmsg
  describes := by
    intro e he msg hmsg hc hcand hterm hnone
    have hnone : ∀ q log, .elected q msg.term log ∉ c.history :=
      fun q log hev => hnone q log (hlater.history.subset hev)
    by_cases hsrc : e.src = i
    · rw [hsrc] at hc hcand hterm ⊢
      by_cases hold : e ∈ c.sent
      · have halive : c.crashed e.src = false := by rw [hsrc]; exact hphase.alive
        rcases hsame _ (hphase.ran hc) hcand (by rwa [hterm]) with hlt | ⟨hcand₀, hterm₀, hlog⟩
        · have := h.term e hold msg hmsg halive
          rw [hsrc] at this
          omega
        · rw [hlog, ← hsrc]
          rw [← hsrc] at hcand₀ hterm₀
          exact h.describes e hold msg hmsg halive hcand₀ (by rw [← hterm₀, hsrc, hterm]) hnone
      · have hsnap := ((hphase.closes e he (by rw [hmsg]; rfl)).resolve_left hold).2.2
        rw [← hsnap]
        exact (hcanvass e ((hphase.sentBy he).resolve_left hold) msg hmsg).2
    · obtain ⟨hnode, hcrash⟩ := hphase.others e.src hsrc
      rcases hphase.sentBy he with he | he
      · rw [hnode] at hcand hterm ⊢
        rw [hcrash] at hc
        exact h.describes e he msg hmsg hc hcand hterm hnone
      · exact absurd he.src hsrc
  asked := by
    intro e he msg hmsg
    rcases hphase.sentBy he with he | he
    · obtain ⟨hyields, e', he', hreq⟩ := h.asked e he msg hmsg
      exact ⟨hyields, e', hlater.sent.subset he', hreq⟩
    · obtain ⟨hyields, e', he', hreq⟩ := hasked e he msg hmsg
      exact ⟨hyields, e', hlater.sent.subset he', hreq⟩

theorem Visited.canvassed (hG : ∀ (c : Cluster σ) a, G c a → Short ids c a)
    (hG₁ : ∀ (c : Cluster σ) a, G c a → SingleVotes σ c a)
    (hG₂ : ∀ (c : Cluster σ) a, G c a → VotesUpToDate σ c a)
    (h : Visited ids stateMachine G c) : Canvassed c := by
  induction h with
  | init => exact ⟨by simp [Cluster.init], by simp [Cluster.init], by simp [Cluster.init]⟩
  | @handler c c' a hv hg hs ih =>
    have htimely : Timely c' := (hv.handler hg hs).timely
    have hlater := hs.later
    have hel : Elections ids c := hv.elections hG₁
    obtain ⟨i, incoming, log, harr, -, hphase⟩ := hs
    refine ih.phase htimely hlater hphase ?_ ?_ ?_
    · rintro s ⟨hs, -⟩ hc hnone
      cases hs with
      | keep => exact .inr ⟨hc, rfl, rfl⟩
      | stepDown => cases hc
      | accept sm ci la log heq hacc =>
        -- of a candidate's own term, and so from a leader of that term
        subst heq
        obtain ⟨e, he, -, -, hmsg⟩ := harr.appendEntries
        obtain ⟨log, hev⟩ := hel.sender e he _ hmsg
        exact absurd hev (hnone _ _)
      | vote _ _ _ hst => exact .inr ⟨by rw [hst]; rfl, rfl, rfl⟩
      | win => cases hc
      | push _ _ _ _ _ hl =>
        have hc : (c.nodes i).state.isCandidate = true := hc
        rw [isCandidate_of_isLeader hl] at hc
        cases hc
      | response => cases hc
    · intro e he msg hmsg
      obtain ⟨dest, ⟨-, hemit⟩, -⟩ := he.out
      rw [hmsg] at hemit
      cases hemit
    · intro e he msg hmsg
      obtain ⟨hin, hg', -, hsnap⟩ := he.grants hmsg
      obtain ⟨k, order, cut, e', rfl, he', rfl, rfl⟩ := harr.envelope fun req hreq => by
        simp [hin] at hreq
      have hmem : e' ∈ c.sent := List.mem_of_getElem? he'
      have hin : e'.msg = .requestVote msg := hin
      rw [hsnap]
      exact ⟨hG₂ _ _ hg e' he' msg (by rw [hin]; rfl) hg',
        e', hmem, hin, (hv.candidateId_eq_src hmem hin).symm⟩
  | @loop c c' hv hs ih =>
    have htimely : Timely c' := (hv.loop hs).timely
    have hlater := hs.later
    have hsound := hv.sound hG
    obtain ⟨i, -, hphase⟩ := hs
    refine ih.phase htimely hlater hphase ?_ ?_ ?_
    · intro s hs hc _
      cases hs with
      | keep => exact .inr ⟨hc, rfl, rfl⟩
      | apply => exact .inr ⟨hc, rfl, rfl⟩
      | stand => exact .inl (Nat.lt_succ_self _)
      | lead => cases hc
    · intro e he msg hmsg
      obtain ⟨dest, ⟨hs, hann⟩, -⟩ := he.out
      rw [hmsg] at hann
      cases hann with
      | canvass hc =>
        refine ⟨hc, hc.describes ?_⟩
        rw [hs.log_eq]
        exact (hsound i).length
    · intro e he msg hmsg
      rw [he.loop_grantOf] at hmsg
      cases hmsg

end Cluster

end MiniRaft
