import MiniRaft.Server.Applied
import MiniRaft.Server.Closing

/-!
# Inversion of the role loops and of turns

`Server.Goes` and `Server.Announces` list what the role loops do between a handler and the next
`select!`; `Server.Turns` puts a handler and the loop after it together.
-/

namespace MiniRaft

variable {σ : Type}

namespace Server

/-! ### The role loops -/

/-- Both servers follow, both stand for election or both lead. -/
def SameRole (s s' : Server σ) : Prop :=
  s'.state.isLeader = s.state.isLeader ∧ s'.state.isCandidate = s.state.isCandidate

/-- The servers a role loop passes through after a handler or the timer. -/
inductive Goes (s : Server σ) : Server σ → Prop
  | keep : Goes s s
  | apply (sm : σ) (la : ℤ) : s.lastApplied ≤ la → la ≤ max s.lastApplied s.commitIndex →
      Goes s { s with stateMachine := sm, lastApplied := la }
  | stand : s.state = .follower → s.currentTerm < u32Max →
      Goes s { s with
        state := .candidate 0, currentTerm := s.currentTerm + 1, votedFor := some s.id }
  | lead (sm : σ) (la : ℤ) : s.lastApplied ≤ la → la ≤ max s.lastApplied s.commitIndex →
      s.state.isLeader = true →
      Goes s { s with stateMachine := sm, lastApplied := la }.becomeLeader

theorem Goes.log_eq {s s' : Server σ} (h : s.Goes s') : s'.log = s.log := by
  cases h <;> rfl

theorem Goes.commitIndex_eq {s s' : Server σ} (h : s.Goes s') : s'.commitIndex = s.commitIndex := by
  cases h <;> rfl

theorem Goes.isLeader {s s' : Server σ} (h : s.Goes s') (hl : s'.state.isLeader = true) :
    s.state.isLeader = true := by
  cases h with
  | keep => exact hl
  | apply => exact hl
  | stand => cases hl
  | lead _ _ _ _ hlead => exact hlead

theorem Goes.leads {s s' : Server σ} (h : s.Goes s') (hl : s.state.isLeader = true) :
    s'.state.isLeader = true := by
  cases h with
  | keep => exact hl
  | apply => exact hl
  | stand hst => simp [hst] at hl
  | lead => rfl

/-- The messages a role loop sends after a handler or the timer. -/
inductive Announces (s : Server σ) : Outgoing → Server σ → Prop
  | canvass {msg : RequestVote} {snap : Server σ} : snap.Canvasses msg →
      Announces s ⟨.broadcast, .requestVote msg⟩ snap
  | heartbeat {msg : AppendEntries} {snap : Server σ} : snap.Replicates msg → msg.entries = [] →
      (s.log.length ≤ 2 ^ 31 → snap.Carries msg) →
      Announces s ⟨.broadcast, .appendEntries msg⟩ snap

variable [StateMachine σ]

omit [StateMachine σ] in
theorem sendRequestVoteRpcToPeers_ensures {s s₀ : Server σ} {P : Server σ → Prop} (hP : P s)
    (h : s.state.isCandidate = true) :
    s.sendRequestVoteRpcToPeers.Ensures P s₀.Announces := by
  unfold sendRequestVoteRpcToPeers
  split
  · exact .panic
  · rename_i lastLogIndex hlast
    refine .send hP (.canvass ⟨h, rfl, rfl, fun hlen => ?_, rfl⟩)
    by_cases hnil : s.log = []
    · simp only [hnil, List.isEmpty_nil, ↓reduceIte, Option.some.injEq] at hlast ⊢
      exact hlast.symm
    · simp only [List.isEmpty_iff, hnil, ↓reduceIte] at hlast ⊢
      exact (lenMinusOne_eq_some hlen hlast).2

omit [StateMachine σ] in
theorem lastTermOrZero_prevIn {s : Server σ} :
    PrevIn s.log ((s.log.length : ℤ) - 1) s.lastTermOrZero := by
  unfold lastTermOrZero
  cases hlast : s.log.getLast? with
  | none =>
    rw [List.getLast?_eq_none_iff] at hlast
    exact .inl ⟨by simp [hlast], rfl⟩
  | some entry =>
    have hpos : 0 < s.log.length := by
      cases hl : s.log with
      | nil => simp [hl] at hlast
      | cons _ _ => simp
    rw [List.getLast?_eq_getElem?] at hlast
    exact .inr ⟨s.log.length - 1, entry, by omega, hlast, rfl⟩

omit [StateMachine σ] in
theorem sendHeartbeat_ensures {s s₀ : Server σ} {P : Server σ → Prop} (hP : P s)
    (h : s.state.isLeader = true) (hlog : s.log = s₀.log) :
    s.sendHeartbeat.Ensures P s₀.Announces := by
  unfold sendHeartbeat
  split
  · exact .panic
  · rename_i prevLogIndex hprev
    refine .send hP (.heartbeat ⟨h, rfl, rfl, rfl⟩ rfl fun hlen => ?_)
    rw [← hlog] at hlen
    obtain ⟨hlen, rfl⟩ := lenMinusOne_eq_some hlen hprev
    refine ⟨hlen, lastTermOrZero_prevIn, s.log.length, Nat.le_refl _, by simp, fun entry he => ?_⟩
    simp at he

theorem follower_ensures (s : Server σ) : s.follower.Ensures s.Goes s.Announces := by
  rw [follower, applyLatestCommitedLogs_self]
  refine (s.applyCommitted_ensures _).mono ?_ fun _ _ _ h => h
  rintro _ ⟨sm, la, rfl, hge, hle⟩
  exact .apply sm la hge hle

theorem leader_ensures {s : Server σ} (h : s.state.isLeader = true) :
    s.leader.Ensures s.Goes s.Announces := by
  rw [leader, applyLatestCommitedLogs_self]
  have first : (s.applyCommitted.andThen sendHeartbeat).Ensures
      (fun s' => ∃ sm la, s' = { s with stateMachine := sm, lastApplied := la } ∧
        s.lastApplied ≤ la ∧ la ≤ max s.lastApplied s.commitIndex) s.Announces := by
    refine (s.applyCommitted_ensures _).silent_andThen ?_
    rintro _ ⟨sm, la, rfl, hla⟩
    exact sendHeartbeat_ensures ⟨sm, la, rfl, hla⟩ h rfl
  refine first.andThen ?_ ?_
  · rintro _ ⟨sm, la, rfl, hge, hle⟩
    exact .apply sm la hge hle
  · rintro _ ⟨sm, la, rfl, hge, hle⟩
    exact .done (.lead sm la hge hle h)

omit [StateMachine σ] in
theorem candidate_ensures {s : Server σ} (h : s.state = .follower) :
    { s with state := .candidate 0 }.candidate.Ensures s.Goes s.Announces := by
  unfold candidate becomeCandidate
  split
  · rename_i hlt
    rw [Outcome.done_andThen]
    exact sendRequestVoteRpcToPeers_ensures (.stand h hlt) rfl
  · rw [Outcome.andThen_of_panicked rfl]
    exact .panic

theorem run_ensures {s : Server σ} (h : s.state.isCandidate = false) :
    s.run.Ensures s.Goes s.Announces := by
  unfold run
  split
  · exact s.follower_ensures
  · rename_i hst
    simp [hst] at h
  · rename_i hst
    exact leader_ensures (by simp [hst])

/-- **Inversion of a role loop after a handler.**  A handler turns no other role into a
candidate. -/
theorem afterRpc_ensures {s : Server σ} {role : RaftState}
    (h : role.isCandidate = false → s.state.isCandidate = false) :
    (s.afterRpc role).Ensures s.Goes s.Announces := by
  unfold afterRpc
  split
  · exact run_ensures (h rfl)
  · split
    · rename_i hc
      exact sendRequestVoteRpcToPeers_ensures .keep hc
    · rename_i hc
      exact run_ensures (by simpa using hc)
  · split
    · exact .done .keep
    · exact run_ensures (h rfl)

/-- **Inversion of a role loop after its timer.** -/
theorem afterTimer_ensures {s : Server σ} {role : RaftState}
    (hl : s.state.isLeader = role.isLeader) (hc : s.state.isCandidate = role.isCandidate) :
    (s.afterTimer role).Ensures s.Goes s.Announces := by
  unfold afterTimer
  split
  · have hst : s.state = .follower := by
      cases hs : s.state with
      | follower => rfl
      | candidate _ => simp [hs] at hc
      | leader _ _ => simp [hs] at hl
    exact candidate_ensures hst
  · exact sendRequestVoteRpcToPeers_ensures .keep (by simpa using hc)
  · exact sendHeartbeat_ensures .keep (by simpa using hl) rfl

theorem afterRpc_of_isLeader {s : Server σ} {role : RaftState} (hrole : role.isLeader = true)
    (h : s.state.isLeader = true) : s.afterRpc role = .done s := by
  obtain ⟨mi, ni, rfl⟩ := RaftState.isLeader_iff.1 hrole
  simp only [afterRpc, h, ↓reduceIte]

theorem afterTimer_of_isLeader {s : Server σ} {role : RaftState} (hrole : role.isLeader = true) :
    s.afterTimer role = s.sendHeartbeat := by
  obtain ⟨mi, ni, rfl⟩ := RaftState.isLeader_iff.1 hrole
  rfl

omit [StateMachine σ] in
theorem sendHeartbeat_of_lt {s : Server σ} (h : s.log.length < 2 ^ 31) :
    s.sendHeartbeat.panicked = false ∧ s.sendHeartbeat.server = s := by
  unfold sendHeartbeat
  rw [lenMinusOne_of_lt h]
  exact ⟨rfl, rfl⟩

/-! ### What the loops apply -/

theorem run_calls {s : Server σ} (h : s.state.isCandidate = false) :
    s.run.Calls (s.Resumes s.commitIndex) := by
  unfold run
  split
  · rw [follower, applyLatestCommitedLogs_self]
    exact s.applyCommitted_calls
  · rename_i hst
    simp [hst] at h
  · rw [leader, applyLatestCommitedLogs_self]
    refine (s.applyCommitted_calls.andThen fun _ => ?_).andThen fun _ => .of_effects_eq_nil rfl
    unfold sendHeartbeat
    split
    · exact .of_effects_eq_nil rfl
    · exact .send _ _

omit [StateMachine σ] in
theorem sendRequestVoteRpcToPeers_calls (s : Server σ) (A : ℕ → LogCommand → Prop) :
    s.sendRequestVoteRpcToPeers.Calls A := by
  unfold sendRequestVoteRpcToPeers
  split
  · exact .of_effects_eq_nil rfl
  · exact .send _ _

theorem afterRpc_calls {s : Server σ} {role : RaftState}
    (h : role.isCandidate = false → s.state.isCandidate = false) :
    (s.afterRpc role).Calls (s.Resumes s.commitIndex) := by
  unfold afterRpc
  split
  · exact run_calls (h rfl)
  · split
    · exact sendRequestVoteRpcToPeers_calls _ _
    · rename_i hc
      exact run_calls (by simpa using hc)
  · split
    · exact .of_effects_eq_nil rfl
    · exact run_calls (h rfl)

theorem afterTimer_calls (s : Server σ) (role : RaftState) (A : ℕ → LogCommand → Prop) :
    (s.afterTimer role).Calls A := by
  unfold afterTimer
  split
  · change ({ s with state := .candidate 0 }.becomeCandidate.andThen
      sendRequestVoteRpcToPeers).Calls A
    refine .andThen ?_ fun _ => sendRequestVoteRpcToPeers_calls _ _
    unfold becomeCandidate
    split
    · exact .of_effects_eq_nil rfl
    · exact .of_effects_eq_nil rfl
  · exact sendRequestVoteRpcToPeers_calls _ _
  · unfold sendHeartbeat
    split
    · exact .of_effects_eq_nil rfl
    · exact .send _ _

/-! ### Roles across a handler -/

omit [StateMachine σ] in
theorem Handles.isCandidate {s s' : Server σ} {incoming : Incoming} (h : s.Handles incoming s')
    (hc : s.state.isCandidate = false) : s'.state.isCandidate = false := by
  cases h with
  | keep => exact hc
  | stepDown => rfl
  | accept => exact hc
  | vote _ _ _ hst => simp [hst] at hc
  | win _ _ _ hst => simp [hst] at hc
  | push => exact hc
  | response => rfl

omit [StateMachine σ] in
theorem Handles.leads {s s' : Server σ} {incoming : Incoming} (h : s.Handles incoming s')
    (hl : s.state.isLeader = true) (hterm : s'.currentTerm ≤ s.currentTerm) :
    s'.state.isLeader = true ∧ s'.currentTerm = s.currentTerm := by
  cases h with
  | keep => exact ⟨hl, rfl⟩
  | stepDown T _ hlt => exact absurd hterm (Nat.not_le.2 hlt)
  | accept _ _ _ _ _ hacc => exact ⟨hl, Nat.le_antisymm hterm hacc.1⟩
  | vote _ _ _ hst | win _ _ _ hst =>
    rw [hst] at hl
    cases hl
  | push => exact ⟨hl, rfl⟩
  | response => exact ⟨rfl, rfl⟩

omit [StateMachine σ] in
theorem Emits.sameRole {s snap : Server σ} {incoming : Incoming} {out : Outgoing}
    (h : s.Emits incoming out snap) : s.SameRole snap := by
  have leads : ∀ {r r' : RaftState}, r.isLeader = true → r'.isLeader = true →
      r'.isLeader = r.isLeader ∧ r'.isCandidate = r.isCandidate := fun {r r'} hr hr' => by
    cases r <;> cases r' <;> simp_all
  cases h with
  | reject => exact ⟨rfl, rfl⟩
  | acknowledge _ _ _ _ _ hst => exact ⟨by rw [hst], by rw [hst]⟩
  | deny => exact ⟨rfl, rfl⟩
  | grant => exact ⟨rfl, rfl⟩
  | replicate hl hr _ => exact leads hl hr.leader
  | answer hl hl' => exact leads hl hl'

/-! ### Turns -/

/-- What a handler does to the server `s`: it writes the log `log` before it sends anything. -/
structure HandlerSpec (s : Server σ) (incoming : Incoming) (log : List LogEntry)
    (o : Outcome σ) : Prop where
  ensures : o.Ensures (s.HandlesTo incoming log) (s.Emits incoming)
  calls : o.Calls (s.Applies incoming)
  covers : ∀ {msg}, incoming.msg = .appendEntriesResponse msg →
    o.Covers fun index command s' => s.Resumes s'.commitIndex index command
  closes : o.Closes

/-- What a role loop does to the server `s` between a handler and the next `select!`. -/
structure LoopSpec (s : Server σ) (o : Outcome σ) : Prop where
  ensures : o.Ensures s.Goes s.Announces
  calls : o.Calls (s.Resumes s.commitIndex)
  closes : o.Closes

theorem recieveRpc_spec (s : Server σ) (order : List NodeId) (incoming : Incoming) :
    ∃ log, s.HandlerSpec incoming log (s.recieveRpc order incoming) := by
  obtain ⟨log, hens⟩ := s.recieveRpc_ensures order incoming
  exact ⟨log, hens, s.recieveRpc_calls order incoming, s.recieveRpc_covers order incoming,
    s.recieveRpc_closes order incoming⟩

theorem cut_recieveRpc {s : Server σ} {order : List NodeId} {incoming : Incoming} {k : ℕ}
    {o : Outcome σ} (h : (s.recieveRpc order incoming).cut k = some o) :
    (∃ log, s.HandlerSpec incoming log o) ∧ s.SameRole o.server ∧ o.panicked = false := by
  obtain ⟨log, hens, hcalls, hcovers, hcloses⟩ := s.recieveRpc_spec order incoming
  refine ⟨⟨log, hens.cut h, hcalls.cut h, fun hmsg => (hcovers hmsg).cut h, hcloses.cut h⟩, ?_⟩
  obtain ⟨out, snap, hget, rfl⟩ := Outcome.cut_eq_some_iff.1 h
  exact ⟨(hens.sends (List.mem_of_getElem? hget)).2.sameRole, rfl⟩

/-- The phases of a turn that takes up the message `incoming`, if any. -/
inductive Turns (s : Server σ) : Option Incoming → List (Phase σ) → Prop
  | timer {o : Outcome σ} : s.LoopSpec o → Turns s none [⟨none, o⟩]
  | stuck {incoming : Incoming} {log : List LogEntry} {o : Outcome σ} : o.panicked = true →
      s.HandlerSpec incoming log o → Turns s (some incoming) [⟨some incoming.msg, o⟩]
  | handler {incoming : Incoming} {log : List LogEntry} {o o' : Outcome σ} :
      o.panicked = false → s.HandlerSpec incoming log o → o.server.LoopSpec o' →
      Turns s (some incoming) [⟨some incoming.msg, o⟩, ⟨none, o'⟩]

/-- A turn with a message: its handler, whole or dropped at a send, and the loop after it. -/
theorem turn_handler {s : Server σ} {ev : Select} {incoming : Incoming} {phases : List (Phase σ)}
    (hin : ev.incoming = some incoming) (h : s.turn ev = some phases) :
    ∃ order o, (ev = .rpc order incoming ∧ o = s.recieveRpc order incoming ∨
        ∃ k, ev = .cancelled order incoming k ∧ (s.recieveRpc order incoming).cut k = some o) ∧
      (o.panicked = true ∧ phases = [⟨some incoming.msg, o⟩] ∨
        o.panicked = false ∧ ∃ o', o.server.LoopSpec o' ∧
          phases = [⟨some incoming.msg, o⟩, ⟨none, o'⟩]) := by
  cases ev with
  | timer => cases hin
  | rpc order _ =>
    cases hin
    obtain ⟨log, hspec⟩ := s.recieveRpc_spec order incoming
    refine ⟨order, _, .inl ⟨rfl, rfl⟩, ?_⟩
    simp only [turn] at h
    split_ifs at h with hperm hpan
    · cases h
      exact .inl ⟨hpan, rfl⟩
    · cases h
      have hpan : (s.recieveRpc order incoming).panicked = false := by simpa using hpan
      have hrole := (hspec.ensures.server hpan).1.isCandidate
      exact .inr ⟨hpan, _, ⟨afterRpc_ensures hrole, afterRpc_calls hrole, afterRpc_closes ..⟩, rfl⟩
  | cancelled order _ k =>
    cases hin
    simp only [turn] at h
    split_ifs at h with hperm
    obtain ⟨o, ho, hphases⟩ := Option.map_eq_some_iff.1 h
    cases hphases
    obtain ⟨-, ⟨hl, hc⟩, hpan⟩ := cut_recieveRpc ho
    exact ⟨order, o, .inr ⟨k, rfl, ho⟩, .inr ⟨hpan, _,
      ⟨afterTimer_ensures hl hc, afterTimer_calls .., afterTimer_closes ..⟩, rfl⟩⟩

/-- **Inversion of a turn.** -/
theorem turns_of_turn {s : Server σ} {ev : Select} {phases : List (Phase σ)}
    (h : s.turn ev = some phases) : s.Turns ev.incoming phases := by
  cases hin : ev.incoming with
  | none =>
    cases ev with
    | timer =>
      cases h
      exact .timer ⟨afterTimer_ensures rfl rfl, afterTimer_calls .., afterTimer_closes ..⟩
    | rpc => cases hin
    | cancelled => cases hin
  | some incoming =>
    obtain ⟨order, o, ho, hphases⟩ := turn_handler hin h
    obtain ⟨log, hspec⟩ : ∃ log, s.HandlerSpec incoming log o := by
      rcases ho with ⟨-, rfl⟩ | ⟨k, -, hk⟩
      · exact s.recieveRpc_spec order incoming
      · exact (cut_recieveRpc hk).1
    rcases hphases with ⟨hp, rfl⟩ | ⟨hp, o', hspec', rfl⟩
    · exact .stuck hp hspec
    · exact .handler hp hspec hspec'

end Server

end MiniRaft
