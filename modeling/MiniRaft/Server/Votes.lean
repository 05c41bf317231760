import MiniRaft.Server.Discipline

/-!
# The votes of one server

What a single server makes of the `RequestVote`s that reach it, along every run from
`Server::new`.

* `Server.handleRequestVoteRpc_cases` : the handler grants, refuses, or looks up the last entry of
  an empty log.
* `Server.Phased.preserved` : **the induction rule** for the servers at the ends of the phases.
* `Server.vote_handler_safety` : `voted_for` goes with the role, which keeps the handler from the
  empty log.
* `Server.ballots_trace` : a vote is given exactly where a Follower is asked in a term that is not
  below its own: neither an earlier vote nor the log makes a difference.
* `Server.up_to_date_iff` : so the log of the candidate counts only where the vote is refused
  anyway.
-/

namespace MiniRaft

variable {σ : Type}

namespace Outcome

/-- A granting reply has been sent. -/
def grants (o : Outcome σ) : Bool :=
  o.sent.any fun out => out.msg.asRequestVoteResponse.any fun reply => reply.voteGranted

end Outcome

namespace Server

/-- `voted_for` is `None` in a Follower, and the node itself in a Candidate or a Leader. -/
def Pledged (s : Server σ) : Prop := s.votedFor = if s.state = .follower then none else some s.id

instance (s : Server σ) : Decidable s.Pledged := inferInstanceAs (Decidable (_ = _))

/-- The request makes the handler look up the last entry of an empty log. -/
def Stumbles (s : Server σ) (msg : RequestVote) : Prop :=
  s.currentTerm ≤ msg.term ∧ s.votedFor = some msg.candidateId ∧ s.log = []

instance (s : Server σ) (msg : RequestVote) : Decidable (s.Stumbles msg) :=
  inferInstanceAs (Decidable (_ ∧ _ ∧ _))

/-! ### The handler -/

/-- **What the handler does.** -/
theorem handleRequestVoteRpc_cases (s : Server σ) (msg : RequestVote) :
    (s.Grants msg ∧ s.handleRequestVoteRpc msg =
      .send s ⟨.node msg.candidateId, .requestVoteResponse ⟨s.currentTerm, true⟩⟩) ∨
    (¬ s.Grants msg ∧ ¬ s.Stumbles msg ∧ s.handleRequestVoteRpc msg =
      .send s ⟨.node msg.candidateId, .requestVoteResponse ⟨s.currentTerm, false⟩⟩) ∨
    (¬ s.Grants msg ∧ s.Stumbles msg ∧ s.handleRequestVoteRpc msg = .panic s) := by
  unfold handleRequestVoteRpc
  by_cases hlt : msg.term < s.currentTerm
  · have hnot : ¬ s.currentTerm ≤ msg.term := Nat.not_le.2 hlt
    right; left
    refine ⟨fun h => hnot h.1, fun h => hnot h.1, ?_⟩
    simp [hlt, replyFalseIfLowerTerm]
  · have hle : s.currentTerm ≤ msg.term := Nat.not_lt.1 hlt
    simp only [hlt, ↓reduceIte]
    cases hv : s.votedFor with
    | none => exact .inl ⟨⟨hle, .inl hv⟩, rfl⟩
    | some v =>
      by_cases heq : v = msg.candidateId
      · -- only here are the last entries compared
        subst heq
        simp only [ne_eq, not_true_eq_false, ↓reduceIte]
        cases hlast : s.log.getLast? with
        | none =>
          right; right
          refine ⟨fun h => ?_, ⟨hle, hv, List.getLast?_eq_none_iff.1 hlast⟩, rfl⟩
          rcases h.2 with hnone | ⟨-, last, hmem, -⟩
          · simp [hv] at hnone
          · simp [hlast] at hmem
        | some last =>
          have hne : s.log ≠ [] := fun hnil => by simp [hnil] at hlast
          by_cases hbad : msg.lastLogIndex < asI32 last.index ∨ msg.lastLogTerm ≠ last.term
          · right; left
            refine ⟨fun h => ?_, fun h => hne h.2.2, by simp [hbad]⟩
            rcases h.2 with hnone | ⟨-, last', hmem, hidx, hterm⟩
            · simp [hv] at hnone
            · rw [hlast, Option.mem_def, Option.some.injEq] at hmem
              subst hmem
              rcases hbad with hbad | hbad
              · omega
              · exact hbad hterm.symm
          · left
            obtain ⟨hidx, hterm⟩ := not_or.1 hbad
            refine ⟨⟨hle, .inr ⟨hv, last, hlast, Int.not_lt.1 hidx, ?_⟩⟩, if_neg hbad⟩
            exact (not_not.1 hterm).symm
      · right; left
        refine ⟨fun h => ?_, fun h => ?_, by simp [heq]⟩
        · rcases h.2 with hnone | ⟨hsome, -⟩
          · simp [hv] at hnone
          · exact heq (Option.some.inj (hv.symm.trans hsome))
        · exact heq (Option.some.inj (hv.symm.trans h.2.1))

theorem grants_handleRequestVoteRpc (s : Server σ) (msg : RequestVote) :
    (s.handleRequestVoteRpc msg).grants = true ↔ s.Grants msg := by
  rcases s.handleRequestVoteRpc_cases msg with ⟨hg, heq⟩ | ⟨hg, -, heq⟩ | ⟨hg, -, heq⟩
  · rw [heq]
    simp [hg, Outcome.grants, Outcome.sent, Message.asRequestVoteResponse]
  · rw [heq]
    simp [hg, Outcome.grants, Outcome.sent, Message.asRequestVoteResponse]
  · rw [heq]
    simp [hg, Outcome.grants, Outcome.sent]

theorem handleRequestVoteRpc_panicked (s : Server σ) (msg : RequestVote) :
    (s.handleRequestVoteRpc msg).panicked = true ↔ s.Stumbles msg := by
  rcases s.handleRequestVoteRpc_cases msg with ⟨hg, heq⟩ | ⟨-, hs, heq⟩ | ⟨-, hs, heq⟩
  · rw [heq]
    refine iff_of_false Bool.false_ne_true fun hs => ?_
    -- a log without entries has no last one
    obtain ⟨-, hnone | ⟨-, last, hlast, -⟩⟩ := hg
    · rw [hs.2.1] at hnone
      cases hnone
    · simp [hs.2.2] at hlast
  · rw [heq]
    exact iff_of_false Bool.false_ne_true hs
  · rw [heq]
    exact iff_of_true rfl hs

/-- The handler changes nothing: a vote is given without a note of it. -/
theorem handleRequestVoteRpc_server (s : Server σ) (msg : RequestVote) :
    (s.handleRequestVoteRpc msg).server = s := by
  rcases s.handleRequestVoteRpc_cases msg with ⟨-, heq⟩ | ⟨-, -, heq⟩ | ⟨-, -, heq⟩
  · rw [heq, Outcome.send_server]
  · rw [heq, Outcome.send_server]
  · rw [heq, Outcome.panic_server]

/-! ### The vote and the role -/

theorem Pledged.new (id : NodeId) (config : ServerConfig) (stateMachine : σ) :
    (Server.new id config stateMachine).Pledged := rfl

theorem Pledged.sameRole {s s' : Server σ} (h : s.Pledged) (hid : s'.id = s.id)
    (hvoted : s'.votedFor = s.votedFor) (hstate : s'.state = .follower ↔ s.state = .follower) :
    s'.Pledged := by
  unfold Pledged
  rw [hvoted, hid, h]
  simp only [hstate]

theorem Pledged.votedFor {s : Server σ} (h : s.Pledged) (hst : s.state ≠ .follower) :
    s.votedFor = some s.id := by
  rw [h, if_neg hst]

theorem ne_follower_of_isLeader {s : Server σ} (h : s.state.isLeader = true) :
    s.state ≠ .follower := fun hf => by simp [hf] at h

theorem Pledged.handles {s s' : Server σ} {incoming : Incoming} (h : s.Pledged)
    (hs : s.Handles incoming s') : s'.Pledged ∧ s'.id = s.id := by
  cases hs with
  | keep => exact ⟨h, rfl⟩
  | stepDown => exact ⟨rfl, rfl⟩
  | accept => exact ⟨h.sameRole rfl rfl Iff.rfl, rfl⟩
  | vote _ _ _ hst => exact ⟨h.sameRole rfl rfl (by simp [hst]), rfl⟩
  | win _ _ _ hst => exact ⟨h.sameRole rfl rfl (by simp [becomeLeader, hst]), rfl⟩
  | push => exact ⟨h.sameRole rfl rfl Iff.rfl, rfl⟩
  | response _ _ _ hcredit =>
    have hne := ne_follower_of_isLeader hcredit.isLeader
    exact ⟨h.sameRole rfl rfl (by simp [hne]), rfl⟩

theorem Pledged.goes {s s' : Server σ} (h : s.Pledged) (hs : s.Goes s') :
    s'.Pledged ∧ s'.id = s.id := by
  cases hs with
  | keep => exact ⟨h, rfl⟩
  | apply => exact ⟨h.sameRole rfl rfl Iff.rfl, rfl⟩
  | stand => exact ⟨rfl, rfl⟩
  | lead _ _ _ _ hl =>
    have hne := ne_follower_of_isLeader hl
    exact ⟨h.sameRole rfl rfl (by simp [becomeLeader, hne]), rfl⟩

/-- **The guarded induction rule** for the servers at the ends of the phases: in a run whose servers
all satisfy `J`, what handlers and role loops keep between such servers holds of all of them. -/
theorem Phased.preserved_of {I J : Server σ → Prop} {s : Server σ} {ps : List (Phase σ)}
    (h : s.Phased ps) (h₀ : I s) (hJ : ∀ x ∈ s :: passed ps, J x)
    (handles : ∀ s incoming s', I s → J s → J s' → s.Handles incoming s' → I s')
    (goes : ∀ s s', I s → J s → J s' → s.Goes s' → I s') : ∀ x ∈ s :: passed ps, I x := by
  induction h with
  | nil => simpa [passed] using h₀
  | panic _ hp => simpa [passed, hp] using h₀
  | @cons s p ps hperf hp _ ih =>
    rw [passed_cons ps hp] at hJ ⊢
    obtain ⟨hs, hrest⟩ := List.forall_mem_cons.1 hJ
    have hnext : I p.outcome.server := by
      have hs' := hrest _ List.mem_cons_self
      cases hperf with
      | handler hspec => exact handles s _ _ h₀ hs hs' (hspec.ensures.server hp).1
      | loop hspec => exact goes s _ h₀ hs hs' (hspec.ensures.server hp)
    exact List.forall_mem_cons.2 ⟨h₀, ih hnext hrest⟩

/-- **The induction rule** for the servers at the ends of the phases: what handlers and role loops
keep holds of all of them. -/
theorem Phased.preserved {I : Server σ → Prop} {s : Server σ} {ps : List (Phase σ)}
    (h : s.Phased ps) (h₀ : I s)
    (handles : ∀ s incoming s', I s → s.Handles incoming s' → I s')
    (goes : ∀ s s', I s → s.Goes s' → I s') : ∀ x ∈ s :: passed ps, I x :=
  h.preserved_of (J := fun _ => True) h₀ (fun _ _ => trivial)
    (fun s incoming s' hs _ _ => handles s incoming s' hs) (fun s s' hs _ _ => goes s s' hs)

theorem Turns.preserved {I : Server σ → Prop} {s : Server σ} {incoming : Option Incoming}
    {phases : List (Phase σ)} (h : s.Turns incoming phases) (h₀ : I s)
    (handles : ∀ s x s', x ∈ incoming → I s → s.Handles x s' → I s')
    (goes : ∀ s s', I s → s.Goes s' → I s') : ∀ x ∈ s :: passed phases, I x := by
  have loop : ∀ {s : Server σ} {o : Outcome σ}, I s → s.LoopSpec o →
      ∀ x ∈ s :: passed [⟨none, o⟩], I x := by
    intro s o hs hloop
    cases hp : o.panicked with
    | true => simpa [passed, hp] using hs
    | false => simpa [passed, hp] using ⟨hs, goes s _ hs (hloop.ensures.server hp)⟩
  cases h with
  | timer hloop => exact loop h₀ hloop
  | stuck hp => simpa [passed, hp] using h₀
  | handler hp hspec hloop =>
    rw [passed_cons _ hp]
    exact List.forall_mem_cons.2
      ⟨h₀, loop (handles s _ _ rfl h₀ (hspec.ensures.server hp).1) hloop⟩

variable [StateMachine σ]

/-- **The induction rule for runs** in which every message satisfies `P`. -/
theorem trace_preserved {I : Server σ → Prop} {P : Incoming → Prop} {s : Server σ}
    {evs : List Select} (hP : ∀ ev ∈ evs, ∀ incoming ∈ ev.incoming, P incoming) (h₀ : I s)
    (handles : ∀ s incoming s', P incoming → I s → s.Handles incoming s' → I s')
    (goes : ∀ s s', I s → s.Goes s' → I s') : ∀ x ∈ s :: passed (s.trace evs), I x := by
  induction evs generalizing s with
  | nil => simpa [trace, passed] using h₀
  | cons ev evs ih =>
    obtain ⟨hev, hevs⟩ := List.forall_mem_cons.1 hP
    unfold trace
    split
    · simpa [passed] using h₀
    · rename_i phases hturn
      have hphases : ∀ x ∈ s :: passed phases, I x :=
        (turns_of_turn hturn).preserved h₀ (fun s x s' hx => handles s x s' (hev x hx)) goes
      rw [passed_append]
      refine List.forall_mem_cons.2 ⟨h₀, List.forall_mem_append.2
        ⟨(List.forall_mem_cons.1 hphases).2, ?_⟩⟩
      split
      · simp [passed]
      · rename_i s' hend
        have hs' : I s' := hphases s' (List.mem_of_getLast? (getLast?_of_endOfTurn hend))
        exact (List.forall_mem_cons.1 (ih hevs hs')).2

theorem pledged_of_mem_passed {id : NodeId} {config : ServerConfig} {stateMachine : σ}
    {evs : List Select} {s : Server σ}
    (h : s ∈ Server.new id config stateMachine ::
      passed ((Server.new id config stateMachine).trace evs)) : s.Pledged ∧ s.id = id := by
  refine (phased_trace _ evs).preserved (I := fun s => s.Pledged ∧ s.id = id)
    ⟨.new id config stateMachine, rfl⟩ ?_ ?_ s h
  · rintro s incoming s' ⟨hs, hid⟩ hhandles
    obtain ⟨hs', hid'⟩ := hs.handles hhandles
    exact ⟨hs', hid'.trans hid⟩
  · rintro s s' ⟨hs, hid⟩ hgoes
    obtain ⟨hs', hid'⟩ := hs.goes hgoes
    exact ⟨hs', hid'.trans hid⟩

/-- **Vote handler safety.**  Along every run of one server, whatever messages it is sent and
whenever its timers fire, `voted_for` is `None` in a Follower and the server itself in a Candidate
or a Leader; so for a request in another node's name the handler does not look for the last entry of
an empty log, and a Candidate or a Leader does not grant it. -/
theorem vote_handler_safety (id : NodeId) (config : ServerConfig) (stateMachine : σ)
    (evs : List Select) :
    let s₀ := Server.new id config stateMachine
    ∀ s ∈ s₀ :: passed (s₀.trace evs),
      s.votedFor = (if s.state = .follower then none else some id) ∧
      ∀ msg : RequestVote, msg.candidateId ≠ id →
        (s.handleRequestVoteRpc msg).panicked = false ∧
        (s.state ≠ .follower → (s.handleRequestVoteRpc msg).grants = false) := by
  intro s₀ s hs
  obtain ⟨hpledged, hid⟩ := pledged_of_mem_passed hs
  refine ⟨by rw [← hid]; exact hpledged, fun msg hmsg => ⟨?_, fun hst => ?_⟩⟩
  · rw [← Bool.not_eq_true, handleRequestVoteRpc_panicked]
    rintro ⟨-, hvoted, -⟩
    rw [hpledged] at hvoted
    split_ifs at hvoted
    rw [Option.some.injEq, hid] at hvoted
    exact hmsg hvoted.symm
  · rw [← Bool.not_eq_true, grants_handleRequestVoteRpc]
    have hself := hpledged.votedFor hst
    rintro ⟨-, hnone | ⟨hvoted, -⟩⟩
    · rw [hself] at hnone
      cases hnone
    · rw [hself, Option.some.injEq, hid] at hvoted
      exact hmsg hvoted.symm

/-- A Candidate with an empty log refuses a request of a higher term. -/
theorem vote_handler_safety_candidate :
    let s₀ := Server.new 1 ⟨3, [1, 2, 3]⟩ SimpleStateMachine.new
    ∃ s ∈ s₀ :: passed (s₀.trace [.timer]), s.state.isCandidate = true ∧ s.log = [] ∧
      (s.handleRequestVoteRpc ⟨5, 2, 0, 0⟩).panicked = false ∧
      (s.handleRequestVoteRpc ⟨5, 2, 0, 0⟩).grants = false := by
  intro s₀
  obtain ⟨s, hs, hst⟩ : ∃ s ∈ s₀ :: passed (s₀.trace [.timer]),
      s.state.isCandidate = true ∧ s.log = [] := ⟨_, List.mem_cons_of_mem _ List.mem_cons_self, by
    decide⟩
  obtain ⟨-, hsafe⟩ := vote_handler_safety 1 ⟨3, [1, 2, 3]⟩ SimpleStateMachine.new [.timer] s hs
  obtain ⟨hp, hgrants⟩ := hsafe ⟨5, 2, 0, 0⟩ (by decide)
  refine ⟨s, hs, hst.1, hst.2, hp, hgrants fun hf => ?_⟩
  rw [hf] at hst
  cases hst.1

/-! ### One vote per term -/

/-- The server at each wait of a run, with what ends the wait. -/
def visits : Server σ → List Select → List (Server σ × Select)
  | _, [] => []
  | s, ev :: evs =>
    match s.turn ev with
    | none => []
    | some phases =>
      (s, ev) ::
        match s.endOfTurn phases with
        | none => []
        | some s' => s'.visits evs

theorem turn_of_mem_visits {s : Server σ} {evs : List Select} {v : Server σ × Select}
    (h : v ∈ s.visits evs) : ∃ phases, v.1.turn v.2 = some phases := by
  induction evs generalizing s with
  | nil => cases h
  | cons ev evs ih =>
    rw [visits] at h
    cases hturn : s.turn ev with
    | none => simp [hturn] at h
    | some phases =>
      simp only [hturn, List.mem_cons] at h
      rcases h with rfl | h
      · exact ⟨phases, hturn⟩
      · cases hend : s.endOfTurn phases with
        | none => simp [hend] at h
        | some s' =>
          rw [hend] at h
          exact ih h

omit [StateMachine σ] in
/-- The votes given in a run: the term and the candidate of each request granted. -/
def ballots (phases : List (Phase σ)) : List (ℕ × NodeId) :=
  phases.filterMap fun p =>
    (p.cause.bind Message.asRequestVote).bind fun msg =>
      if p.outcome.grants then some (msg.term, msg.candidateId) else none

omit [StateMachine σ] in
/-- The request asks a Follower whose term is not above its own; or, in the server's own name, a
Candidate or a Leader whose last entry it describes well enough. -/
def Asks (s : Server σ) (msg : RequestVote) : Prop :=
  s.currentTerm ≤ msg.term ∧
    (s.state = .follower ∨ msg.candidateId = s.id ∧
      ∃ last ∈ s.log.getLast?, asI32 last.index ≤ msg.lastLogIndex ∧ last.term = msg.lastLogTerm)

instance (s : Server σ) (msg : RequestVote) : Decidable (s.Asks msg) :=
  inferInstanceAs (Decidable (_ ∧ (_ ∨ _ ∧ ∃ last ∈ s.log.getLast?, _)))

omit [StateMachine σ] in
/-- The term and the candidate of each request that asks the server it reaches. -/
def polls (visits : List (Server σ × Select)) : List (ℕ × NodeId) :=
  visits.filterMap fun
    | (s, .rpc _ incoming) => incoming.msg.asRequestVote.bind fun msg =>
      if s.Asks msg then some (msg.term, msg.candidateId) else none
    | _ => none

omit [StateMachine σ] in
/-- No two of the pairs name different candidates for one term, and none names another candidate
than `id` for a term in which one of the servers is a Candidate. -/
def Exclusive (id : NodeId) (servers : List (Server σ)) (pairs : List (ℕ × NodeId)) : Prop :=
  ∀ T q, (T, q) ∈ pairs → (∀ q', (T, q') ∈ pairs → q' = q) ∧
    ∀ s ∈ servers, s.state.isCandidate = true → s.currentTerm = T → q = id

omit [StateMachine σ] in
theorem Pledged.grants_iff {s : Server σ} (h : s.Pledged) (msg : RequestVote) :
    s.Grants msg ↔ s.Asks msg := by
  refine and_congr_right fun _ => ?_
  by_cases hst : s.state = .follower
  · rw [h, if_pos hst]
    exact iff_of_true (.inl rfl) (.inl hst)
  · rw [h.votedFor hst]
    simp only [reduceCtorEq, false_or, hst, Option.some.injEq]
    exact and_congr_left fun _ => eq_comm

omit [StateMachine σ] in
/-- A handler that is dropped at its reply has not given its vote. -/
theorem grants_cut_handleRequestVoteRpc {s : Server σ} {msg : RequestVote} {k : ℕ} {o : Outcome σ}
    (h : (s.handleRequestVoteRpc msg).cut k = some o) : o.grants = false := by
  have hlen : (s.handleRequestVoteRpc msg).effects.length ≤ 1 := by
    rcases s.handleRequestVoteRpc_cases msg with ⟨-, heq⟩ | ⟨-, -, heq⟩ | ⟨-, -, heq⟩ <;>
      simp [heq]
  obtain ⟨out, snap, hget, rfl⟩ := Outcome.cut_eq_some_iff.1 h
  have hk := (List.getElem?_eq_some_iff.1 hget).1
  have hzero : k = 0 := by omega
  simp [hzero, Outcome.grants, Outcome.sent]

omit [StateMachine σ] in
theorem ballots_append (ps ps' : List (Phase σ)) :
    ballots (ps ++ ps') = ballots ps ++ ballots ps' :=
  List.filterMap_append

omit [StateMachine σ] in
theorem polls_cons (v : Server σ × Select) (vs : List (Server σ × Select)) :
    polls (v :: vs) = polls [v] ++ polls vs := by
  show polls ([v] ++ vs) = _
  exact List.filterMap_append

omit [StateMachine σ] in
theorem ballots_of_cause_none (o : Outcome σ) : ballots [⟨none, o⟩] = [] := rfl

theorem ballots_turn {s : Server σ} {ev : Select} {phases : List (Phase σ)} (h : s.Pledged)
    (hturn : s.turn ev = some phases) : ballots phases = polls [(s, ev)] := by
  cases ev with
  | timer =>
    cases hturn
    rfl
  | rpc order incoming =>
    have handler : ballots [⟨some incoming.msg, s.recieveRpc order incoming⟩] =
        polls [(s, .rpc order incoming)] := by
      obtain ⟨sender, m⟩ := incoming
      cases m with
      | requestVote msg =>
        have hiff := (grants_handleRequestVoteRpc s msg).trans (h.grants_iff msg)
        simp only [ballots, polls, recieveRpc, Message.asRequestVote, Option.bind_some, hiff,
          List.filterMap_cons, List.filterMap_nil]
      | _ => rfl
    simp only [turn] at hturn
    split_ifs at hturn
    · cases hturn
      exact handler
    · -- the loop after the handler votes for nobody
      cases hturn
      rw [← handler]
      exact (ballots_append [_] [_]).trans (by rw [ballots_of_cause_none, List.append_nil])
  | cancelled order incoming k =>
    simp only [turn] at hturn
    split_ifs at hturn
    obtain ⟨o, ho, rfl⟩ := Option.map_eq_some_iff.1 hturn
    obtain ⟨sender, m⟩ := incoming
    cases m with
    | requestVote msg =>
      have hno : o.grants = false := grants_cut_handleRequestVoteRpc ho
      simp [ballots, polls, hno, Message.asRequestVote]
    | _ => rfl

theorem Pledged.endOfTurn {s s' : Server σ} {ev : Select} {phases : List (Phase σ)}
    (h : s.Pledged) (hturn : s.turn ev = some phases) (hend : s.endOfTurn phases = some s') :
    s'.Pledged :=
  (turns_of_turn hturn).phased.preserved h (fun _ _ _ h hs => (h.handles hs).1)
    (fun _ _ h hs => (h.goes hs).1) s'
    (List.mem_of_getLast? (getLast?_of_endOfTurn hend))

/-- **A server votes where it is asked.** -/
theorem ballots_trace {s : Server σ} (h : s.Pledged) (evs : List Select) :
    ballots (s.trace evs) = polls (s.visits evs) := by
  induction evs generalizing s with
  | nil => rfl
  | cons ev evs ih =>
    rw [trace, visits]
    cases hturn : s.turn ev with
    | none => rfl
    | some phases =>
      dsimp only
      rw [ballots_append, polls_cons, ballots_turn h hturn]
      congr 1
      cases hend : s.endOfTurn phases with
      | none => rfl
      | some s' => exact ih (h.endOfTurn hturn hend)

/-- **One vote per term.**  Along a run of one server, the votes it gives are exclusive, no two for
different candidates of one term and none for another node in a term it stands for itself, exactly
if the requests are that ask it: those that reach it as a Follower in a term not above theirs, and
those in its own name that describe its last entry. -/
theorem one_vote_per_term_iff (id : NodeId) (config : ServerConfig) (stateMachine : σ)
    (evs : List Select) :
    let s₀ := Server.new id config stateMachine
    Exclusive id (s₀ :: passed (s₀.trace evs)) (ballots (s₀.trace evs)) ↔
      Exclusive id (s₀ :: passed (s₀.trace evs)) (polls (s₀.visits evs)) := by
  intro s₀
  rw [ballots_trace (.new id config stateMachine) evs]

/-- Node 3 votes for two candidates of term 1, one after the other. -/
theorem votes_twice :
    let s₀ := Server.new 3 ⟨3, [1, 2, 3]⟩ SimpleStateMachine.new
    let phases := s₀.trace [.rpc [1, 2, 3] ⟨.peer 1, .requestVote ⟨1, 1, 0, 0⟩⟩,
      .rpc [1, 2, 3] ⟨.peer 2, .requestVote ⟨1, 2, 0, 0⟩⟩]
    ¬ Exclusive 3 (s₀ :: passed phases) (ballots phases) := by
  intro s₀ phases h
  have hballots : ballots phases = [(1, 1), (1, 2)] := by decide
  rw [hballots] at h
  exact absurd ((h 1 1 (by decide)).1 2 (by decide)) (by decide)

/-! ### The logs of candidate and voter -/

omit [StateMachine σ] in
/-- The log `log'` of a candidate is at least as up to date as the log `log` of a voter. -/
def UpToDateFor (log' log : List LogEntry) : Prop :=
  match log'.getLast?, log.getLast? with
  | _, none => True
  | none, some _ => False
  | some x', some x => x.term < x'.term ∨ x'.term = x.term ∧ x.index ≤ x'.index

instance (log' log : List LogEntry) : Decidable (UpToDateFor log' log) := by
  unfold UpToDateFor
  split <;> infer_instance

omit [StateMachine σ] in
theorem candidateId_of_sent {s snap : Server σ} {msg : RequestVote}
    (h : .send ⟨.broadcast, .requestVote msg⟩ snap ∈ s.sendRequestVoteRpcToPeers.effects) :
    msg.candidateId = s.id := by
  unfold sendRequestVoteRpcToPeers at h
  split at h
  · cases h
  · simp only [Outcome.send_effects, List.mem_singleton, Effect.send.injEq, Outgoing.mk.injEq,
      Message.requestVote.injEq, true_and] at h
    rw [h.1]

/-- **Up-to-date restriction.**  A server of a run grants the request of another node only if that
node's log is at least as up to date, exactly if it is not a Follower, or its term is above that of
the request, or the node's log is at least as up to date: a Follower compares no logs. -/
theorem up_to_date_iff {id : NodeId} {config : ServerConfig} {stateMachine : σ} {evs : List Select}
    {s candidate snap : Server σ} {msg : RequestVote} (order : List NodeId) (sender : Id)
    (hs : s ∈ Server.new id config stateMachine ::
      passed ((Server.new id config stateMachine).trace evs))
    (hid : candidate.id ≠ id)
    (hsent : .send ⟨.broadcast, .requestVote msg⟩ snap ∈
      candidate.sendRequestVoteRpcToPeers.effects) :
    ((s.recieveRpc order ⟨sender, .requestVote msg⟩).grants = true →
        UpToDateFor candidate.log s.log) ↔
      (s.state ≠ .follower ∨ msg.term < s.currentTerm ∨ UpToDateFor candidate.log s.log) := by
  obtain ⟨hpledged, hself⟩ := pledged_of_mem_passed hs
  have hother : msg.candidateId ≠ s.id := by
    rw [candidateId_of_sent hsent, hself]
    exact hid
  have hgrants : (s.recieveRpc order ⟨sender, .requestVote msg⟩).grants = true ↔
      s.currentTerm ≤ msg.term ∧ s.state = .follower := by
    rw [recieveRpc, grants_handleRequestVoteRpc, hpledged.grants_iff, Asks]
    simp only [hother, false_and, or_false]
  rw [hgrants]
  constructor
  · intro h
    by_cases hst : s.state = .follower
    · rcases Nat.lt_or_ge msg.term s.currentTerm with hlt | hle
      · exact .inr (.inl hlt)
      · exact .inr (.inr (h ⟨hle, hst⟩))
    · exact .inl hst
  · rintro (hst | hlt | hup) ⟨hle, hf⟩
    · exact absurd hf hst
    · exact absurd hle (Nat.not_le.2 hlt)
    · exact hup

theorem up_to_date_iff_longer :
    let voter := Server.new 2 ⟨3, [1, 2, 3]⟩ SimpleStateMachine.new
    let entries : List LogEntry := [⟨1, .set "x" "1", 0, 7, 1⟩, ⟨1, .set "x" "2", 1, 7, 2⟩]
    let candidate := { Server.new 3 ⟨3, [1, 2, 3]⟩ SimpleStateMachine.new with
      log := entries, state := .candidate 0, currentTerm := 2, votedFor := some 3 }
    let s := { voter with log := entries.take 1, currentTerm := 1 }
    s ∈ voter :: passed (voter.trace [.rpc [1, 2, 3] ⟨.peer 1, .appendEntries
        ⟨1, 1, -1, 0, entries.take 1, -1⟩⟩]) ∧
      (s.recieveRpc [1, 2, 3] ⟨.peer 3, .requestVote ⟨2, 3, 1, 1⟩⟩).grants = true ∧
        UpToDateFor candidate.log s.log := by
  intro voter entries candidate s
  have hs : s ∈ voter :: passed (voter.trace [.rpc [1, 2, 3] ⟨.peer 1, .appendEntries
      ⟨1, 1, -1, 0, entries.take 1, -1⟩⟩]) := List.mem_cons_of_mem _ List.mem_cons_self
  have hsent : .send ⟨.broadcast, .requestVote ⟨2, 3, 1, 1⟩⟩ candidate ∈
      candidate.sendRequestVoteRpcToPeers.effects := List.mem_singleton_self _
  have hgrants : (s.recieveRpc [1, 2, 3]
      ⟨.peer 3, .requestVote ⟨2, 3, 1, 1⟩⟩).grants = true := by decide
  have hiff := up_to_date_iff [1, 2, 3] (.peer 3) hs (by decide) hsent
  exact ⟨hs, hgrants, hiff.2 (.inr (.inr (by decide))) hgrants⟩

/-- Node 2, whose log has an entry of term 1, votes for node 3, whose log is empty. -/
theorem votes_for_shorter_log :
    let voter := Server.new 2 ⟨3, [1, 2, 3]⟩ SimpleStateMachine.new
    let other := Server.new 3 ⟨3, [1, 2, 3]⟩ SimpleStateMachine.new
    ∃ s ∈ voter :: passed (voter.trace [.rpc [1, 2, 3] ⟨.peer 1, .appendEntries
        ⟨1, 1, -1, 0, [⟨1, .set "x" "1", 0, 1, 1⟩], -1⟩⟩]),
      ∃ candidate ∈ other :: passed (other.trace [.timer]), ∃ msg snap,
        .send ⟨.broadcast, .requestVote msg⟩ snap ∈ candidate.sendRequestVoteRpcToPeers.effects ∧
          (s.recieveRpc [1, 2, 3] ⟨.peer 3, .requestVote msg⟩).grants = true ∧
            ¬ UpToDateFor candidate.log s.log := by
  intro voter other
  refine ⟨_, List.mem_cons_of_mem _ List.mem_cons_self,
    _, List.mem_cons_of_mem _ List.mem_cons_self, ⟨1, 3, 0, 0⟩, _, List.mem_singleton_self _, ?_, ?_⟩
  · decide
  · decide

end Server

end MiniRaft
