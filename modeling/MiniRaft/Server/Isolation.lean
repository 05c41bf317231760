import MiniRaft.Server.Votes
import Mathlib.Data.List.Destutter

/-!
# Messages that clients send in place of peers

Nothing on the way to `recieve_rpc` keeps a client from sending the message of a peer.

* `Server.recieveRpc_posing` : the messages of this kind that leave the Raft state as it is.
* `Server.client_isolation` : **isolation**: a run goes through the same Raft states with and
  without them.
-/

namespace MiniRaft

variable {σ : Type}

/-- The Raft state of a server: all but who it is and what it has last sent. -/
structure Raft (σ : Type) where
  state : RaftState
  currentTerm : ℕ
  votedFor : Option NodeId
  log : List LogEntry
  commitIndex : ℤ
  lastApplied : ℤ
  stateMachine : σ

/-- A message that a client sends in place of a peer. -/
def Incoming.posing (incoming : Incoming) : Bool :=
  match incoming.sender with
  | .client _ => incoming.msg.asClientRequest.isNone
  | .peer _ => false

namespace Server

/-- The Raft state of the server. -/
def raft (s : Server σ) : Raft σ where
  state := s.state
  currentTerm := s.currentTerm
  votedFor := s.votedFor
  log := s.log
  commitIndex := s.commitIndex
  lastApplied := s.lastApplied
  stateMachine := s.stateMachine

/-- The server acts on the message, whoever has sent it: a Candidate on a vote or a higher term, a
Leader on a higher term, and a server without entries crashes on a request of the node it has voted
for. -/
def FooledBy (s : Server σ) : Message → Prop
  | .requestVoteResponse msg =>
      s.state.isCandidate = true ∧ (s.currentTerm < msg.term ∨ msg.voteGranted = true)
  | .appendEntriesResponse msg => s.state.isLeader = true ∧ s.currentTerm < msg.term
  | .requestVote msg => s.Stumbles msg
  | _ => False

instance (s : Server σ) : (msg : Message) → Decidable (s.FooledBy msg)
  | .requestVoteResponse _ => inferInstanceAs (Decidable (_ ∧ (_ ∨ _)))
  | .appendEntriesResponse _ => inferInstanceAs (Decidable (_ ∧ _))
  | .requestVote msg => inferInstanceAs (Decidable (s.Stumbles msg))
  | .appendEntries _ | .clientRequest _ | .clientResponse _ | .hello _ | .helloClient _ =>
      .isFalse not_false

/-! ### One message -/

theorem ne_raft_of_currentTerm {s s' : Server σ} (h : s'.currentTerm ≠ s.currentTerm) :
    s'.raft ≠ s.raft := fun heq => h (congrArg Raft.currentTerm heq)

theorem ne_raft_of_state {s s' : Server σ} (h : s'.state ≠ s.state) : s'.raft ≠ s.raft :=
  fun heq => h (congrArg Raft.state heq)

/-- A vote reply changes a server just if it is a Candidate that takes it for an answer. -/
theorem handleRequestVoteResponseRpc_cases (s : Server σ) (msg : RequestVoteResponse) :
    (s.FooledBy (.requestVoteResponse msg) ∧ (s.handleRequestVoteResponseRpc msg).raft ≠ s.raft) ∨
    (¬ s.FooledBy (.requestVoteResponse msg) ∧ s.handleRequestVoteResponseRpc msg = s) := by
  cases hst : s.state with
  | candidate votes =>
    by_cases hgt : msg.term > s.currentTerm
    · left
      refine ⟨⟨by rw [hst]; rfl, .inl hgt⟩, ne_raft_of_currentTerm ?_⟩
      simp only [handleRequestVoteResponseRpc, hst, hgt, ↓reduceIte, becomeFollowerIfHigherTerm,
        becomeFollower]
      exact Nat.ne_of_gt hgt
    · cases hgranted : msg.voteGranted with
      | true =>
        left
        refine ⟨⟨by rw [hst]; rfl, .inr hgranted⟩, ne_raft_of_state ?_⟩
        simp only [handleRequestVoteResponseRpc, hst, hgt, ↓reduceIte, hgranted]
        split
        · simp [becomeLeader]
        · simp
      | false =>
        right
        refine ⟨fun h => ?_, ?_⟩
        · rcases h.2 with h | h
          · exact hgt h
          · exact Bool.false_ne_true (hgranted.symm.trans h)
        · simp [handleRequestVoteResponseRpc, hst, hgt, hgranted]
  | _ =>
    right
    refine ⟨fun h => ?_, by simp [handleRequestVoteResponseRpc, hst]⟩
    simpa [hst] using h.1

variable [StateMachine σ]

/-- The sender of a reply to an `AppendEntries` is looked at only after its term. -/
theorem handleAppendEntriesResponse_client (s : Server σ) (id : ClientId)
    (msg : AppendEntriesResponse) :
    (s.FooledBy (.appendEntriesResponse msg) ∧
      (s.handleAppendEntriesResponse (.client id) msg).server.raft ≠ s.raft) ∨
    (¬ s.FooledBy (.appendEntriesResponse msg) ∧
      s.handleAppendEntriesResponse (.client id) msg = .done s) := by
  cases hst : s.state with
  | leader mi ni =>
    by_cases hgt : msg.term > s.currentTerm
    · left
      refine ⟨⟨by rw [hst]; rfl, hgt⟩, ne_raft_of_currentTerm ?_⟩
      simp only [handleAppendEntriesResponse, hst, hgt, ↓reduceIte, becomeFollowerIfHigherTerm,
        becomeFollower, Outcome.done_server]
      exact Nat.ne_of_gt hgt
    · right
      refine ⟨fun h => hgt h.2, ?_⟩
      simp only [handleAppendEntriesResponse, hst, hgt, ↓reduceIte]
  | _ =>
    right
    refine ⟨fun h => ?_, by simp [handleAppendEntriesResponse, hst]⟩
    simpa [hst] using h.1

/-- The handler does not panic and leaves the Raft state as it is. -/
def Untouched (s : Server σ) (order : List NodeId) (incoming : Incoming) : Prop :=
  (s.recieveRpc order incoming).panicked = false ∧
    (s.recieveRpc order incoming).server.raft = s.raft

/-- **What a client's message leaves as it is.** -/
theorem recieveRpc_posing (s : Server σ) {incoming : Incoming} (order : List NodeId)
    (h : incoming.posing = true) :
    (¬ s.FooledBy incoming.msg ∧ (s.recieveRpc order incoming).panicked = false ∧
      (s.recieveRpc order incoming).server = s) ∨
    (s.FooledBy incoming.msg ∧ ¬ s.Untouched order incoming) := by
  obtain ⟨sender, m⟩ := incoming
  cases sender with
  | peer => cases h
  | client id =>
    cases m with
    | requestVote msg =>
      -- a vote is given without being noted, so that only a panic shows
      have hpan := s.handleRequestVoteRpc_panicked msg
      by_cases hs : s.Stumbles msg
      · right
        refine ⟨hs, fun h => ?_⟩
        exact Bool.false_ne_true (h.1.symm.trans (hpan.2 hs))
      · left
        refine ⟨hs, Bool.eq_false_iff.2 fun h => hs (hpan.1 h), ?_⟩
        exact s.handleRequestVoteRpc_server msg
    | requestVoteResponse msg =>
      rcases s.handleRequestVoteResponseRpc_cases msg with ⟨hf, hne⟩ | ⟨hf, heq⟩
      · exact .inr ⟨hf, fun h => hne h.2⟩
      · exact .inl ⟨hf, rfl, heq⟩
    | appendEntriesResponse msg =>
      rcases s.handleAppendEntriesResponse_client id msg with ⟨hf, hne⟩ | ⟨hf, heq⟩
      · exact .inr ⟨hf, fun h => hne h.2⟩
      · left
        refine ⟨hf, ?_⟩
        simp only [recieveRpc, heq, Outcome.done_panicked, Outcome.done_server, and_self]
    | clientRequest _ => cases h
    -- `handle_append_entries` looks at the sender first, and the rest has no handler
    | _ => exact .inl ⟨not_false, rfl, rfl⟩

theorem send_of_mem_effects {s : Server σ} {incoming : Incoming} {order : List NodeId}
    (h : incoming.posing = true) : ∀ ef ∈ (s.recieveRpc order incoming).effects,
      ∃ out, ef = .send out s := by
  obtain ⟨sender, m⟩ := incoming
  cases sender with
  | peer => cases h
  | client id =>
    have done : ∀ s' : Server σ, ∀ ef ∈ (Outcome.done s').effects, ∃ out, ef = .send out s :=
      fun _ _ hmem => by cases hmem
    cases m with
    | requestVote msg =>
      simp only [recieveRpc]
      rcases s.handleRequestVoteRpc_cases msg with ⟨-, heq⟩ | ⟨-, -, heq⟩ | ⟨-, -, heq⟩ <;>
        simp [heq]
    | appendEntriesResponse msg =>
      simp only [recieveRpc, handleAppendEntriesResponse]
      split
      · split
        · exact done _
        · exact done _
      · exact done _
    | clientRequest _ => cases h
    | _ => exact done _

theorem cut_posing {s : Server σ} {incoming : Incoming} {order : List NodeId} {k : ℕ}
    {o : Outcome σ} (h : incoming.posing = true)
    (hcut : (s.recieveRpc order incoming).cut k = some o) : o.server = s ∧ o.panicked = false := by
  obtain ⟨out, snap, hget, rfl⟩ := Outcome.cut_eq_some_iff.1 hcut
  obtain ⟨_, heq⟩ := send_of_mem_effects h _ (List.mem_of_getElem? hget)
  cases heq
  exact ⟨rfl, rfl⟩

/-! ### Runs -/

/-- The loop of the Follower has something to apply as soon as it is woken: the call for the next
committed entry has failed before, and would now change the state machine or go through. -/
def Retries (s : Server σ) : Prop :=
  s.state = .follower ∧ s.lastApplied < s.commitIndex ∧
    ∃ entry ∈ s.log[asUsize (s.lastApplied + 1)]?,
      execute s.stateMachine entry.command ≠ (s.stateMachine, false)

/-- A client's message in place of a peer's, if the wait ends with one, does not fool the server,
and does not wake it to apply anything. -/
def Harmless (s : Server σ) : Select → Prop
  | .rpc _ incoming => incoming.posing = true → ¬ s.FooledBy incoming.msg ∧ ¬ s.Retries
  | _ => True

theorem applyCommitted_of_not_retries {s : Server σ} (hf : s.state = .follower)
    (h : ¬ s.Retries) : s.applyCommitted.server = s := by
  unfold applyCommitted
  cases hn : (s.commitIndex - s.lastApplied).toNat with
  | zero => rfl
  | succ n =>
    have hlt : s.lastApplied < s.commitIndex := by omega
    unfold applyLoop
    split
    · rfl
    · rename_i entry hentry
      have hfail : execute s.stateMachine entry.command = (s.stateMachine, false) := by
        by_contra hne
        exact h ⟨hf, hlt, entry, hentry, hne⟩
      rw [hfail]

theorem afterRpc_self {s : Server σ} (h : ¬ s.Retries) : (s.afterRpc s.state).server = s := by
  cases hst : s.state with
  | follower =>
    simp only [afterRpc, run, hst, follower, applyLatestCommitedLogs_self]
    exact applyCommitted_of_not_retries hst h
  | candidate v =>
    -- it asks for votes again, as it is
    simp only [afterRpc, hst, RaftState.isCandidate_candidate, ↓reduceIte, sendRequestVoteRpcToPeers]
    split
    · rfl
    · rfl
  | leader mi ni =>
    simp only [afterRpc, hst, RaftState.isLeader_leader, ↓reduceIte, Outcome.done_server]

end Server

/-- What ends the wait where the clients' messages in place of peers' are left out. -/
def Select.unposed : Select → Option Select
  | .rpc order incoming => if incoming.posing then none else some (.rpc order incoming)
  | .timer => some .timer
  -- the timer that drops the handler fires all the same
  | .cancelled order incoming k =>
    if incoming.posing then some .timer else some (.cancelled order incoming k)

namespace Server

variable [StateMachine σ]

/-- The run takes place: every wait ends as `evs` says. -/
def Completes (s : Server σ) (evs : List Select) : Prop := (s.visits evs).length = evs.length

instance (s : Server σ) (evs : List Select) : Decidable (s.Completes evs) :=
  inferInstanceAs (Decidable (_ = _))

/-! Lists up to repetition. -/

section Destutter

variable {α : Type*} [DecidableEq α]

omit [StateMachine σ] in
theorem destutter'_append_of_forall_eq {a : α} {l l' : List α} (h : ∀ x ∈ l, x = a) :
    (l ++ l').destutter' (· ≠ ·) a = l'.destutter' (· ≠ ·) a := by
  induction l with
  | nil => rfl
  | cons b l ih =>
    obtain ⟨hb, hl⟩ := List.forall_mem_cons.1 h
    rw [List.cons_append, List.destutter'_cons_neg _ (not_not.2 hb.symm)]
    exact ih hl

omit [StateMachine σ] in
theorem destutter'_append_congr {a b : α} {l l₁ l₂ : List α} (hlast : (a :: l).getLast? = some b)
    (h : l₁.destutter' (· ≠ ·) b = l₂.destutter' (· ≠ ·) b) :
    (l ++ l₁).destutter' (· ≠ ·) a = (l ++ l₂).destutter' (· ≠ ·) a := by
  induction l generalizing a with
  | nil =>
    cases hlast
    exact h
  | cons c l ih =>
    rw [List.getLast?_cons_cons] at hlast
    by_cases hac : a = c
    · subst hac
      rw [List.cons_append, List.cons_append, List.destutter'_cons_neg _ (not_not.2 rfl),
        List.destutter'_cons_neg _ (not_not.2 rfl)]
      exact ih hlast
    · rw [List.cons_append, List.cons_append, List.destutter'_cons_pos _ hac,
        List.destutter'_cons_pos _ hac, ih hlast]

end Destutter

open Classical in
/-- From the server `s` on, the phases lead through the same Raft states, each taken once as long as
it lasts. -/
def SameStates (s : Server σ) (ps ps' : List (Phase σ)) : Prop :=
  ((s :: passed ps).map raft).destutter (· ≠ ·) = ((s :: passed ps').map raft).destutter (· ≠ ·)

/-- The rest of a run, after the phases of its first turn. -/
def after (s : Server σ) (phases : List (Phase σ)) (evs : List Select) : List (Phase σ) :=
  match s.endOfTurn phases with
  | none => []
  | some s' => s'.trace evs

theorem trace_cons {s : Server σ} {ev : Select} {evs : List Select} {phases : List (Phase σ)}
    (h : s.turn ev = some phases) : s.trace (ev :: evs) = phases ++ s.after phases evs := by
  rw [trace, h]
  rfl

namespace SameStates

variable {s : Server σ} {ps ps' ps'' : List (Phase σ)} {evs evs' : List Select}

omit [StateMachine σ] in
theorem idle (hidle : ∀ x ∈ passed ps, x = s) (h : s.SameStates ps' ps'') :
    s.SameStates (ps ++ ps') ps'' := by
  classical
  unfold SameStates
  rw [passed_append, List.map_cons, List.destutter_cons', List.map_append,
    destutter'_append_of_forall_eq (by simpa using fun x hx => congrArg raft (hidle x hx))]
  exact h

theorem turn (h : ∀ b, s.endOfTurn ps = some b → b.SameStates (b.trace evs) (b.trace evs')) :
    s.SameStates (ps ++ s.after ps evs) (ps ++ s.after ps evs') := by
  classical
  cases hend : s.endOfTurn ps with
  | none => simp only [after, hend, SameStates]
  | some b =>
    have hlast : (s.raft :: (passed ps).map raft).getLast? = some b.raft := by
      rw [← List.map_cons, List.getLast?_map, getLast?_of_endOfTurn hend]
      rfl
    simp only [after, hend, SameStates, passed_append, List.map_cons, List.map_append]
    exact destutter'_append_congr hlast (h b hend)

end SameStates

/-- What the first turn of a run becomes if it is left out: itself, nothing at all, or that of the
timer. -/
theorem turn_unposed {s : Server σ} {ev : Select} {phases : List (Phase σ)} (h : s.Harmless ev)
    (hturn : s.turn ev = some phases) :
    ev.unposed = some ev ∨
    (ev.unposed = none ∧ ∀ x ∈ passed phases, x = s) ∨
    (ev.unposed = some .timer ∧ ∃ p ps, phases = p :: ps ∧ p.outcome.panicked = false ∧
      p.outcome.server = s ∧ s.turn .timer = some ps) := by
  cases ev with
  | timer => exact .inl rfl
  | rpc order incoming =>
    cases hpos : incoming.posing with
    | false =>
      left
      simp [Select.unposed, hpos]
    | true =>
      right; left
      obtain ⟨hfooled, hretries⟩ := h hpos
      refine ⟨by simp [Select.unposed, hpos], ?_⟩
      rcases s.recieveRpc_posing order hpos with ⟨-, hp, heq⟩ | ⟨hf, -⟩
      · simp only [turn, hp, Bool.false_eq_true, ↓reduceIte, heq] at hturn
        split_ifs at hturn
        cases hturn
        rw [passed_cons _ hp]
        intro x hx
        rcases List.mem_cons.1 hx with rfl | hx
        · exact heq
        · obtain ⟨p, hmem, rfl⟩ := List.mem_map.1 hx
          rw [List.mem_singleton.1 (List.mem_of_mem_filter hmem)]
          exact afterRpc_self hretries
      · exact absurd hf hfooled
  | cancelled order incoming k =>
    cases hpos : incoming.posing with
    | false =>
      left
      simp [Select.unposed, hpos]
    | true =>
      right; right
      refine ⟨by simp [Select.unposed, hpos], ?_⟩
      simp only [turn] at hturn
      split_ifs at hturn
      obtain ⟨o, ho, rfl⟩ := Option.map_eq_some_iff.1 hturn
      obtain ⟨heq, hp⟩ := cut_posing hpos ho
      exact ⟨_, _, rfl, hp, heq, by rw [heq]; rfl⟩

/-- **Isolation along a run.** -/
theorem sameStates_unposed {s : Server σ} {evs : List Select} (hrun : s.Completes evs)
    (h : ∀ v ∈ s.visits evs, v.1.Harmless v.2) :
    s.SameStates (s.trace evs) (s.trace (evs.filterMap Select.unposed)) := by
  induction evs generalizing s with
  | nil => rfl
  | cons ev evs ih =>
    cases hturn : s.turn ev with
    | none => simp [Completes, visits, hturn] at hrun
    | some phases =>
      simp only [visits, hturn, List.forall_mem_cons] at h
      obtain ⟨hev, hrest⟩ := h
      simp only [Completes, visits, hturn, List.length_cons, Nat.add_right_cancel_iff] at hrun
      have rest : ∀ b, s.endOfTurn phases = some b →
          b.SameStates (b.trace evs) (b.trace (evs.filterMap Select.unposed)) := by
        intro b hend
        rw [hend] at hrest hrun
        exact ih hrun hrest
      rw [trace_cons hturn]
      rcases turn_unposed hev hturn with heq | ⟨hnone, hidle⟩ | ⟨htimer, p, ps, rfl, hp, hserver, hps⟩
      · rw [List.filterMap_cons_some heq, trace_cons hturn]
        exact .turn rest
      · rw [List.filterMap_cons_none hnone]
        refine .idle hidle ?_
        cases hend : s.endOfTurn phases with
        | none =>
          -- a run ends where the server panics
          rw [hend] at hrun
          simp [after, hend, List.length_eq_zero_iff.1 hrun.symm, trace, SameStates]
        | some b =>
          have hb : b = s := by
            rcases List.mem_cons.1 (List.mem_of_getLast? (getLast?_of_endOfTurn hend)) with hb | hb
            · exact hb
            · exact hidle b hb
          subst hb
          simp only [after, hend]
          exact rest b hend
      · have hend : s.endOfTurn (p :: ps) = s.endOfTurn ps := by
          rw [endOfTurn_cons, hp, if_neg Bool.false_ne_true, hserver]
        have hafter : s.after (p :: ps) evs = s.after ps evs := by
          simp only [after, hend]
        rw [List.filterMap_cons_some htimer, trace_cons hps, hafter, ← List.singleton_append,
          List.append_assoc]
        refine .idle (by simp [passed, hp, hserver]) (.turn fun b hb => rest b (hend.trans hb))

/-- **Client isolation.**  A client's message in place of a peer's leaves the Raft state of a server
as it is exactly if it does not fool the server; and two runs of one server that differ only by such
messages, where those of both are harmless, go through the same Raft states. -/
theorem client_isolation (σ : Type) [StateMachine σ] :
    (∀ (s : Server σ) (order : List NodeId) (incoming : Incoming), incoming.posing = true →
      (s.Untouched order incoming ↔ ¬ s.FooledBy incoming.msg)) ∧
    ∀ (id : NodeId) (config : ServerConfig) (stateMachine : σ) (evs evs' : List Select),
      let s₀ := Server.new id config stateMachine
      s₀.Completes evs → s₀.Completes evs' →
      evs.filterMap Select.unposed = evs'.filterMap Select.unposed →
      (∀ v ∈ s₀.visits evs, v.1.Harmless v.2) → (∀ v ∈ s₀.visits evs', v.1.Harmless v.2) →
      s₀.SameStates (s₀.trace evs) (s₀.trace evs') := by
  constructor
  · intro s order incoming hpos
    rcases s.recieveRpc_posing order hpos with ⟨hf, hp, heq⟩ | ⟨hf, hno⟩
    · exact iff_of_true ⟨hp, congrArg raft heq⟩ hf
    · exact iff_of_false hno (not_not.2 hf)
  · intro id config stateMachine evs evs' s₀ hrun hrun' hsame h h'
    have hleft : s₀.SameStates (s₀.trace evs) (s₀.trace (evs.filterMap Select.unposed)) :=
      sameStates_unposed hrun h
    have hright : s₀.SameStates (s₀.trace evs') (s₀.trace (evs'.filterMap Select.unposed)) :=
      sameStates_unposed hrun' h'
    rw [hsame] at hleft
    exact hleft.trans hright.symm

/-- A client's heartbeat is ignored by a Candidate, whose run goes on as without it. -/
theorem client_isolation_heartbeat :
    let s₀ := Server.new 1 ⟨3, [1, 2, 3]⟩ SimpleStateMachine.new
    let heartbeat : Incoming := ⟨.client 7, .appendEntries ⟨5, 2, -1, 0, [], -1⟩⟩
    s₀.Untouched [1, 2, 3] heartbeat ∧
      s₀.SameStates (s₀.trace [.timer, .rpc [1, 2, 3] heartbeat]) (s₀.trace [.timer]) := by
  intro s₀ heartbeat
  obtain ⟨hone, hruns⟩ := client_isolation SimpleStateMachine
  refine ⟨(hone s₀ [1, 2, 3] heartbeat rfl).2 (by decide), hruns 1 ⟨3, [1, 2, 3]⟩ _ _ _ (by decide)
    (by decide) rfl ?_ ?_⟩
  · refine List.forall_mem_cons.2 ⟨trivial, List.forall_mem_cons.2
      ⟨fun _ => ⟨not_false, ?_⟩, List.forall_mem_nil _⟩⟩
    rintro ⟨hf, -⟩
    cases hf
  · exact List.forall_mem_cons.2 ⟨trivial, List.forall_mem_nil _⟩

/-- A client makes a Candidate the leader of its term. -/
theorem client_elects_leader :
    let s₀ := Server.new 1 ⟨3, [1, 2, 3]⟩ SimpleStateMachine.new
    let vote : Incoming := ⟨.client 7, .requestVoteResponse ⟨0, true⟩⟩
    ∃ s ∈ s₀ :: passed (s₀.trace [.timer, .rpc [1, 2, 3] vote]), vote.posing = true ∧
      s.state.isCandidate = true ∧ (s.recieveRpc [1, 2, 3] vote).server.state.isLeader = true ∧
        ¬ s.Untouched [1, 2, 3] vote := by
  intro s₀ vote
  refine ⟨_, List.mem_cons_of_mem _ (List.mem_cons_of_mem _ List.mem_cons_self), rfl, by decide,
    by decide, fun h => ?_⟩
  exact absurd (congrArg Raft.state h.2) (by decide)

end Server

end MiniRaft
