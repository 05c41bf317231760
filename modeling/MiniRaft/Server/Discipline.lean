import MiniRaft.Server.SimpleStateMachine
import MiniRaft.Server.Turns

/-!
# Terms and roles of one server

What a single server does with its term and its role, whatever messages reach it and whenever its
timers fire.

* `Server.RoleStep` : the three things a phase can do: stay in role and term, win the term it
  stands for, or rise to a higher term.
* `Server.Phased.isChain` : every phase of a run does one of them.
* `Server.term_and_role_discipline` : **the discipline of whole runs**: how the term may move,
  that a server wins every term at most once, and that it replicates in the term it won last.
-/

namespace MiniRaft

variable {σ : Type}

namespace Server

/-- How the term and the role change in one phase. -/
inductive RoleStep (s s' : Server σ) : Prop
  | stay : s'.currentTerm = s.currentTerm → s.SameRole s' → RoleStep s s'
  | win : s'.currentTerm = s.currentTerm → s.state.isCandidate = true →
      s'.state.isLeader = true → RoleStep s s'
  | rise : s.currentTerm < s'.currentTerm → s'.state.isLeader = false →
      (s'.state.isCandidate = true → s.state = .follower) → RoleStep s s'

/-- What a change of term and role has to respect. -/
structure Disciplined (s s' : Server σ) : Prop where
  mono : s.currentTerm ≤ s'.currentTerm
  leads : s.state.isLeader = true → s'.state.isLeader = true → s'.currentTerm = s.currentTerm
  stands : s.state.isCandidate = true → s'.state.isCandidate = true →
    s'.currentTerm = s.currentTerm
  stepsDown : s.state ≠ .follower → s'.state = .follower → s.currentTerm < s'.currentTerm
  candidacy : s.state.isCandidate = false → s'.state.isCandidate = true →
    s.currentTerm < s'.currentTerm
  wins : s.state.isLeader = false → s'.state.isLeader = true →
    s.state.isCandidate = true ∧ s'.currentTerm = s.currentTerm

/-- The servers at the ends of the phases; one that panics leaves none. -/
def passed (phases : List (Phase σ)) : List (Server σ) :=
  (phases.filter fun p => !p.outcome.panicked).map (·.outcome.server)

/-- The terms in which a candidate turns leader along a list of servers. -/
def wins : List (Server σ) → List ℕ
  | s :: s' :: l =>
    if s.state.isCandidate && s'.state.isLeader then s'.currentTerm :: wins (s' :: l)
    else wins (s' :: l)
  | _ => []

/-! ### One phase -/

theorem isCandidate_of_isLeader {s : Server σ} (h : s.state.isLeader = true) :
    s.state.isCandidate = false := by
  obtain ⟨mi, ni, hst⟩ := RaftState.isLeader_iff.1 h
  rw [hst]
  rfl

theorem isLeader_of_isCandidate {s : Server σ} (h : s.state.isCandidate = true) :
    s.state.isLeader = false := by
  obtain ⟨v, hst⟩ := RaftState.isCandidate_iff.1 h
  rw [hst]
  rfl

theorem SameRole.follower {s s' : Server σ} (h : s.SameRole s') (hf : s'.state = .follower) :
    s.state = .follower := by
  obtain ⟨hl, hc⟩ := h
  rw [hf] at hl hc
  cases hs : s.state with
  | follower => rfl
  | candidate v => simp [hs] at hc
  | leader mi ni => simp [hs] at hl

theorem RoleStep.disciplined {s s' : Server σ} (h : s.RoleStep s') : s.Disciplined s' := by
  cases h with
  | stay hterm hrole =>
    have hl : s'.state.isLeader = s.state.isLeader := hrole.1
    have hc : s'.state.isCandidate = s.state.isCandidate := hrole.2
    exact {
      mono := Nat.le_of_eq hterm.symm
      leads := fun _ _ => hterm
      stands := fun _ _ => hterm
      stepsDown := fun h h' => absurd (hrole.follower h') h
      candidacy := fun h h' => by simp [hc, h] at h'
      wins := fun h h' => by simp [hl, h] at h' }
  | win hterm hc hl =>
    exact {
      mono := Nat.le_of_eq hterm.symm
      leads := fun _ _ => hterm
      stands := fun _ _ => hterm
      stepsDown := fun _ h' => by simp [h'] at hl
      candidacy := fun h _ => by simp [hc] at h
      wins := fun _ _ => ⟨hc, hterm⟩ }
  | rise hlt hl hc =>
    exact {
      mono := Nat.le_of_lt hlt
      leads := fun _ h' => by simp [hl] at h'
      stands := fun h h' => by simp [hc h'] at h
      stepsDown := fun _ _ => hlt
      candidacy := fun _ _ => hlt
      wins := fun _ h' => by simp [hl] at h' }

theorem Handles.roleStep {s s' : Server σ} {incoming : Incoming} (h : s.Handles incoming s') :
    s.RoleStep s' := by
  cases h with
  | keep => exact .stay rfl ⟨rfl, rfl⟩
  | stepDown T _ hlt => exact .rise hlt rfl fun h => by cases h
  | accept sm ci la log hin hacc =>
    obtain ⟨hle, -, hf | hterm⟩ := hacc
    · -- a follower takes over the term of the message, if it is higher
      rcases Nat.eq_or_lt_of_le hle with heq | hlt
      · exact .stay heq.symm ⟨rfl, rfl⟩
      · exact .rise hlt (by rw [hf]; rfl) fun _ => hf
    · exact .stay hterm ⟨rfl, rfl⟩
  | vote _ _ _ hst => exact .stay rfl ⟨by rw [hst]; rfl, by rw [hst]; rfl⟩
  | win _ _ _ hst => exact .win rfl (by rw [hst]; rfl) rfl
  | push => exact .stay rfl ⟨rfl, rfl⟩
  | response sm _ _ hcredit _ =>
    have hl : s.state.isLeader = true := hcredit.isLeader
    exact .stay rfl ⟨hl.symm, (isCandidate_of_isLeader hl).symm⟩

theorem Goes.roleStep {s s' : Server σ} (h : s.Goes s') : s.RoleStep s' := by
  cases h with
  | keep => exact .stay rfl ⟨rfl, rfl⟩
  | apply => exact .stay rfl ⟨rfl, rfl⟩
  | stand hst _ => exact .rise (Nat.lt_succ_self _) rfl fun _ => hst
  | lead sm la _ _ hl => exact .stay rfl ⟨hl.symm, (isCandidate_of_isLeader hl).symm⟩

theorem RoleStep.leader {s s' : Server σ} (h : s.RoleStep s') (hl : s'.state.isLeader = true) :
    s'.currentTerm = s.currentTerm ∧ (s.state.isLeader = true ∨ s.state.isCandidate = true) := by
  cases h with
  | stay hterm hrole => exact ⟨hterm, .inl (hrole.1 ▸ hl)⟩
  | win hterm hc _ => exact ⟨hterm, .inr hc⟩
  | rise _ hl' _ => simp [hl'] at hl

/-! ### Runs -/

/-- The server `s` goes through a handler or a part of its loop. -/
inductive Performs (s : Server σ) : Phase σ → Prop
  | handler {incoming : Incoming} {log : List LogEntry} {o : Outcome σ} :
      s.HandlerSpec incoming log o → Performs s ⟨some incoming.msg, o⟩
  | loop {o : Outcome σ} : s.LoopSpec o → Performs s ⟨none, o⟩

/-- The phases that follow each other from the server `s` on. -/
inductive Phased : Server σ → List (Phase σ) → Prop
  | nil {s : Server σ} : Phased s []
  | panic {s : Server σ} {p : Phase σ} : Performs s p → p.outcome.panicked = true → Phased s [p]
  | cons {s : Server σ} {p : Phase σ} {ps : List (Phase σ)} : Performs s p →
      p.outcome.panicked = false → Phased p.outcome.server ps → Phased s (p :: ps)

theorem Performs.roleStep {s : Server σ} {p : Phase σ} (h : s.Performs p)
    (hp : p.outcome.panicked = false) : s.RoleStep p.outcome.server := by
  cases h with
  | handler h => exact (h.ensures.server hp).1.roleStep
  | loop h => exact (h.ensures.server hp).roleStep

theorem Performs.appendEntries {s snap : Server σ} {p : Phase σ} {dest : Destination}
    {msg : AppendEntries} (h : s.Performs p)
    (hmem : .send ⟨dest, .appendEntries msg⟩ snap ∈ p.outcome.effects) :
    s.state.isLeader = true ∧ msg.term = s.currentTerm := by
  cases h with
  | handler h =>
    obtain ⟨hs, hq⟩ := h.ensures.sends hmem
    cases hq with
    | replicate hl hr _ => exact ⟨hl, hr.term.trans (hs.1.roleStep.disciplined.leads hl hr.leader)⟩
  | loop h =>
    obtain ⟨hs, hq⟩ := h.ensures.sends hmem
    cases hq with
    | heartbeat hr _ _ =>
      obtain ⟨hterm, hrole⟩ := hs.roleStep.leader hr.leader
      refine ⟨?_, hr.term.trans hterm⟩
      cases hs with
      | keep => exact hr.leader
      | apply => exact hr.leader
      | stand => cases hr.leader
      | lead _ _ _ _ hl => exact hl

/-! ### Wins along a list of servers -/

theorem wins_cons (s s' : Server σ) (l : List (Server σ)) :
    wins (s :: s' :: l) =
      if s.state.isCandidate && s'.state.isLeader then s'.currentTerm :: wins (s' :: l)
      else wins (s' :: l) := rfl

/-- A win later in the list is in a later term than the one the list starts in with a leader. -/
theorem lt_of_mem_wins {s : Server σ} {l : List (Server σ)} {T : ℕ}
    (h : (s :: l).IsChain RoleStep) (hT : T ∈ wins (s :: l)) :
    s.currentTerm ≤ T ∧ (s.state.isLeader = true → s.currentTerm < T) := by
  induction l generalizing s with
  | nil => cases hT
  | cons s' l ih =>
    obtain ⟨hstep, hrest⟩ := List.isChain_cons_cons.1 h
    have later : T ∈ wins (s' :: l) →
        s.currentTerm ≤ T ∧ (s.state.isLeader = true → s.currentTerm < T) := fun hT => by
      obtain ⟨hle, hlt⟩ := ih hrest hT
      have hmono : s.currentTerm ≤ s'.currentTerm := hstep.disciplined.mono
      refine ⟨by omega, fun hl => ?_⟩
      cases hstep with
      | stay hterm hrole =>
        have := hlt (hrole.1.trans hl)
        omega
      | win _ hc _ => simp [isCandidate_of_isLeader hl] at hc
      | rise hrise _ _ => omega
    rw [wins_cons] at hT
    split_ifs at hT with hwin
    · rw [Bool.and_eq_true] at hwin
      rcases List.mem_cons.1 hT with rfl | hT
      · obtain ⟨hterm, -⟩ := hstep.leader hwin.2
        refine ⟨Nat.le_of_eq hterm.symm, fun hl => ?_⟩
        simp [isCandidate_of_isLeader hl] at hwin
      · exact later hT
    · exact later hT

/-- **No term is won twice.** -/
theorem pairwise_wins {s : Server σ} {l : List (Server σ)} (h : (s :: l).IsChain RoleStep) :
    (wins (s :: l)).Pairwise (· < ·) := by
  induction l generalizing s with
  | nil => exact .nil
  | cons s' l ih =>
    obtain ⟨-, hrest⟩ := List.isChain_cons_cons.1 h
    rw [wins_cons]
    split_ifs with hwin
    · rw [Bool.and_eq_true] at hwin
      exact .cons (fun T hT => (lt_of_mem_wins hrest hT).2 hwin.2) (ih hrest)
    · exact ih hrest

/-- A server that leads at the end of the list leads in the term won last, or has led since the
start of the list. -/
theorem getLast?_wins {s x : Server σ} {l : List (Server σ)} (h : (s :: l).IsChain RoleStep)
    (hx : (s :: l).getLast? = some x) (hl : x.state.isLeader = true) :
    (wins (s :: l)).getLast? = some x.currentTerm ∨
      wins (s :: l) = [] ∧ s.state.isLeader = true ∧ s.currentTerm = x.currentTerm := by
  induction l generalizing s with
  | nil =>
    cases hx
    exact .inr ⟨rfl, hl, rfl⟩
  | cons s' l ih =>
    obtain ⟨hstep, hrest⟩ := List.isChain_cons_cons.1 h
    rw [List.getLast?_cons_cons] at hx
    rw [wins_cons]
    rcases ih hrest hx with hlast | ⟨hnil, hl', hterm⟩
    · have hne : wins (s' :: l) ≠ [] := fun hnil => by simp [hnil] at hlast
      split_ifs
      · left
        rw [List.getLast?_cons, hlast]
        rfl
      · exact .inl hlast
    · obtain ⟨hterm', hl | hc⟩ := hstep.leader hl'
      · right
        simp [isCandidate_of_isLeader hl, hnil, hl, ← hterm', hterm]
      · left
        simp [hc, hl', hnil, hterm]

/-! ### Phases of a run -/

theorem passed_cons {p : Phase σ} (ps : List (Phase σ)) (hp : p.outcome.panicked = false) :
    passed (p :: ps) = p.outcome.server :: passed ps := by
  simp [passed, hp]

theorem passed_append (ps ps' : List (Phase σ)) : passed (ps ++ ps') = passed ps ++ passed ps' := by
  simp [passed]

theorem Phased.isChain {s : Server σ} {ps : List (Phase σ)} (h : s.Phased ps) :
    (s :: passed ps).IsChain RoleStep := by
  induction h with
  | nil => exact .singleton _
  | panic _ hp => simp [passed, hp]
  | cons hperf hp _ ih =>
    rw [passed_cons _ hp]
    exact .cons_cons (hperf.roleStep hp) ih

/-- The server that goes through the phase `p` is the one that the phases before it leave. -/
theorem Phased.performs {s : Server σ} {ps₁ ps₂ : List (Phase σ)} {p : Phase σ}
    (h : s.Phased (ps₁ ++ p :: ps₂)) :
    ∃ x, (s :: passed ps₁).getLast? = some x ∧ (s :: passed ps₁).IsChain RoleStep ∧
      x.Performs p := by
  induction ps₁ generalizing s with
  | nil =>
    refine ⟨s, rfl, .singleton _, ?_⟩
    cases h with
    | panic hperf _ => exact hperf
    | cons hperf _ _ => exact hperf
  | cons p₁ ps₁ ih =>
    rw [List.cons_append] at h
    generalize hps : ps₁ ++ p :: ps₂ = ps at h
    cases h with
    | panic => simp at hps
    | cons hperf hp hrest =>
      subst hps
      obtain ⟨x, hx, hchain, hperf'⟩ := ih hrest
      refine ⟨x, ?_, ?_, hperf'⟩
      · rw [passed_cons _ hp, List.getLast?_cons_cons]
        exact hx
      · rw [passed_cons _ hp]
        exact .cons_cons (hperf.roleStep hp) hchain

theorem endOfTurn_cons (s : Server σ) (p : Phase σ) (ps : List (Phase σ)) :
    s.endOfTurn (p :: ps) =
      if p.outcome.panicked then none else p.outcome.server.endOfTurn ps := by
  unfold endOfTurn
  cases hp : p.outcome.panicked with
  | true => simp [hp]
  | false => cases ps <;> simp [hp, List.getLast?_cons]

theorem getLast?_of_endOfTurn {s s' : Server σ} {phases : List (Phase σ)}
    (h : s.endOfTurn phases = some s') : (s :: passed phases).getLast? = some s' := by
  induction phases generalizing s with
  | nil => exact h
  | cons p ps ih =>
    rw [endOfTurn_cons] at h
    cases hp : p.outcome.panicked with
    | true => simp [hp] at h
    | false =>
      rw [hp, if_neg Bool.false_ne_true] at h
      rw [passed_cons ps hp, List.getLast?_cons_cons]
      exact ih h

/-- A turn ends where the loop after its handler leads, if only back to where the handler left
off. -/
theorem goes_of_getLast? {s s' : Server σ} {cause : Option Message} {o o' : Outcome σ}
    (hp : o.panicked = false) (hloop : o.server.LoopSpec o')
    (hend : (s :: passed [⟨cause, o⟩, ⟨none, o'⟩]).getLast? = some s') : o.server.Goes s' := by
  rw [passed_cons (p := ⟨cause, o⟩) _ hp, List.getLast?_cons_cons] at hend
  cases hp' : o'.panicked with
  | true =>
    have hnil : passed [(⟨none, o'⟩ : Phase σ)] = [] := by simp [passed, hp']
    rw [hnil] at hend
    cases hend
    exact .keep
  | false =>
    rw [passed_cons (p := ⟨none, o'⟩) _ hp', List.getLast?_cons_cons] at hend
    cases hend
    exact hloop.ensures.server hp'

theorem Phased.append {s s' : Server σ} {ps ps' : List (Phase σ)} (h : s.Phased ps)
    (hend : s.endOfTurn ps = some s') (h' : s'.Phased ps') : s.Phased (ps ++ ps') := by
  induction h with
  | nil =>
    cases hend
    exact h'
  | panic _ hp => simp [endOfTurn, hp] at hend
  | cons hperf hp _ ih =>
    rw [endOfTurn_cons, hp] at hend
    exact .cons hperf hp (ih hend)

theorem Turns.phased {s : Server σ} {incoming : Option Incoming} {phases : List (Phase σ)}
    (h : s.Turns incoming phases) : s.Phased phases := by
  cases h with
  | timer h =>
    rename_i o
    cases hp : o.panicked with
    | true => exact .panic (.loop h) hp
    | false => exact .cons (.loop h) hp .nil
  | stuck hp h => exact .panic (.handler h) hp
  | handler hp h h' =>
    rename_i o'
    refine .cons (.handler h) hp ?_
    cases hp' : o'.panicked with
    | true => exact .panic (.loop h') hp'
    | false => exact .cons (.loop h') hp' .nil

variable [StateMachine σ]

theorem phased_trace (s : Server σ) (evs : List Select) : s.Phased (s.trace evs) := by
  induction evs generalizing s with
  | nil => exact .nil
  | cons ev evs ih =>
    unfold trace
    split
    · exact .nil
    · rename_i phases hturn
      have hphases : s.Phased phases := (turns_of_turn hturn).phased
      split
      · rw [List.append_nil]
        exact hphases
      · rename_i s' hend
        exact hphases.append hend (ih s')

/-- **The discipline of terms and roles.**  Along every run of one server from `Server::new`,
whatever messages it is sent and whenever its timers fire: every phase is disciplined, no term is
won twice, and an `AppendEntries` carries the term of the last election won before it is sent.  A
run ends where `current_term += 1` overflows. -/
theorem term_and_role_discipline (id : NodeId) (config : ServerConfig) (stateMachine : σ)
    (evs : List Select) :
    let s := Server.new id config stateMachine
    (s :: passed (s.trace evs)).IsChain Disciplined ∧
    (wins (s :: passed (s.trace evs))).Pairwise (· < ·) ∧
    ∀ ps₁ p ps₂, s.trace evs = ps₁ ++ p :: ps₂ →
      ∀ dest msg snap, .send ⟨dest, .appendEntries msg⟩ snap ∈ p.outcome.effects →
        (wins (s :: passed ps₁)).getLast? = some msg.term := by
  intro s
  have hrun : s.Phased (s.trace evs) := s.phased_trace evs
  refine ⟨hrun.isChain.imp fun _ _ h => h.disciplined, pairwise_wins hrun.isChain, ?_⟩
  intro ps₁ p ps₂ hps dest msg snap hmem
  rw [hps] at hrun
  obtain ⟨x, hx, hchain, hperf⟩ := hrun.performs
  obtain ⟨hl, hterm⟩ := hperf.appendEntries hmem
  rw [hterm]
  rcases getLast?_wins hchain hx hl with hlast | ⟨-, hfollower, -⟩
  · exact hlast
  · cases hfollower

/-- Node 1 stands for election, gets two votes and sends its first heartbeat. -/
theorem term_and_role_discipline_won :
    let s := Server.new 1 ⟨3, [1, 2, 3]⟩ SimpleStateMachine.new
    let phases := s.trace [.timer, .rpc [1, 2, 3] ⟨.peer 2, .requestVoteResponse ⟨0, true⟩⟩,
      .rpc [1, 2, 3] ⟨.peer 3, .requestVoteResponse ⟨0, true⟩⟩]
    (s :: passed phases).IsChain Disciplined ∧ wins (s :: passed phases) = [1] ∧
      ∃ ps₁ p ps₂, phases = ps₁ ++ p :: ps₂ ∧ ∃ dest msg snap,
        .send ⟨dest, .appendEntries msg⟩ snap ∈ p.outcome.effects ∧
          (wins (s :: passed ps₁)).getLast? = some msg.term := by
  intro s phases
  obtain ⟨hchain, -, hsent⟩ := term_and_role_discipline 1 ⟨3, [1, 2, 3]⟩ SimpleStateMachine.new
    [.timer, .rpc [1, 2, 3] ⟨.peer 2, .requestVoteResponse ⟨0, true⟩⟩,
      .rpc [1, 2, 3] ⟨.peer 3, .requestVoteResponse ⟨0, true⟩⟩]
  -- the last phase is the loop of the new leader
  have hlast : phases[4]?.any (fun p =>
      p.outcome.sent.any fun out => out.msg.asAppendEntries.isSome) = true := by
    decide
  obtain ⟨p, hp, hany⟩ := (Option.any_eq_true _ _).1 hlast
  obtain ⟨hlen, hp⟩ := List.getElem?_eq_some_iff.1 hp
  have hphases : phases = phases.take 4 ++ p :: phases.drop 5 := by
    rw [← hp, ← List.drop_eq_getElem_cons hlen, List.take_append_drop]
  obtain ⟨⟨dest, m⟩, hout, hmsg⟩ := List.any_eq_true.1 hany
  cases m with
  | appendEntries msg =>
    obtain ⟨ef, hmem, hef⟩ := List.mem_filterMap.1 hout
    cases ef with
    | send out snap =>
      cases hef
      exact ⟨hchain, by decide, _, _, _, hphases, dest, msg, snap, hmem,
        hsent _ _ _ hphases dest msg snap hmem⟩
    | apply => cases hef
  | _ => cases hmsg

end Server

end MiniRaft
