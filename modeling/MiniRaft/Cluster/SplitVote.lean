import MiniRaft.Cluster.Canvass
import MiniRaft.Cluster.Provenance
import MiniRaft.Server.Terms

/-!
# Split votes

The timer of a candidate repeats its request in the same term: only a follower goes on to a new one.
So once all running nodes are candidates of one term, with no vote and no higher term on its way,
nothing that the environment does, short of delivering a message twice, makes any of them leader,
and no client is answered again.
-/

namespace MiniRaft

variable {σ : Type}

/-- The message neither carries a term above `T` nor grants a vote. -/
def Message.Barren (T : ℕ) (msg : Message) : Prop :=
  (∀ t ∈ msg.term, t ≤ T) ∧ ∀ reply ∈ msg.asRequestVoteResponse, reply.voteGranted = false

/-- A message is delivered in this step. -/
def Action.delivers : Action → Bool
  | .deliver .. => true
  | _ => false

instance (T : ℕ) (msg : Message) : Decidable (msg.Barren T) :=
  inferInstanceAs (Decidable (_ ∧ _))

namespace Server

/-- The server is a candidate of term `T`. -/
structure Stands (T : ℕ) (s : Server σ) : Prop where
  candidate : s.state.isCandidate = true
  term : s.currentTerm = T

instance (T : ℕ) (s : Server σ) : Decidable (s.Stands T) :=
  decidable_of_iff (s.state.isCandidate = true ∧ s.currentTerm = T)
    ⟨fun h => ⟨h.1, h.2⟩, fun h => ⟨h.candidate, h.term⟩⟩

theorem Stands.not_isLeader {s : Server σ} {T : ℕ} (h : s.Stands T) : s.state.isLeader ≠ true := by
  obtain ⟨v, hst⟩ := RaftState.isCandidate_iff.1 h.candidate
  simp [hst]

theorem Stands.sendRequestVoteRpcToPeers {s : Server σ} {T : ℕ} (h : s.Stands T) :
    s.sendRequestVoteRpcToPeers.Ensures (Stands T) fun out _ => out.msg.Barren T := by
  unfold Server.sendRequestVoteRpcToPeers
  split
  · exact .panic
  · refine .send h ⟨fun t ht => ?_, fun _ hreply => by cases hreply⟩
    cases ht
    exact Nat.le_of_eq h.term

variable [StateMachine σ]

/-- **What a candidate makes of a message** that is of no consequence for the election. -/
theorem Stands.recieveRpc {s : Server σ} {T : ℕ} (h : s.Stands T) (order : List NodeId)
    {incoming : Incoming} (hmsg : incoming.msg.Barren T)
    (hvote : ∀ msg, incoming.msg = .requestVote msg → ¬ s.Grants msg) :
    (s.recieveRpc order incoming).Ensures (Stands T) fun out _ => out.msg.Barren T := by
  obtain ⟨hterms, hgrant⟩ := hmsg
  have hterm : s.currentTerm ≤ T := Nat.le_of_eq h.term
  obtain ⟨log, hens⟩ := s.recieveRpc_ensures order incoming
  refine (((recieveRpc_terms_le order hterm hterms).and hens).and
    (s.recieveRpc_termFrom order incoming)).mono ?_ ?_
  · rintro s' ⟨⟨hle, hs, -⟩, -⟩
    cases hs with
    | keep => exact h
    | stepDown T' _ hlt =>
      have hle : T' ≤ T := hle
      have := h.term
      omega
    | accept sm ci la log _ haccepts =>
      obtain ⟨-, -, hfollower | hsame⟩ := haccepts
      · have hcandidate := h.candidate
        rw [hfollower] at hcandidate
        cases hcandidate
      · exact ⟨h.candidate, hsame.trans h.term⟩
    | vote hin hyes =>
      have hno := hgrant _ (by rw [hin]; rfl)
      rw [hyes] at hno
      cases hno
    | win hin hyes =>
      have hno := hgrant _ (by rw [hin]; rfl)
      rw [hyes] at hno
      cases hno
    | push _ _ _ _ _ hl => exact absurd hl h.not_isLeader
    | response _ _ _ hcredit => exact absurd hcredit.isLeader h.not_isLeader
  · rintro out snap - ⟨⟨hle, hemit⟩, -⟩
    refine ⟨hle, fun reply hreply => ?_⟩
    cases hemit with
    | grant hin hgrants => exact absurd hgrants (hvote _ hin)
    | deny =>
      cases hreply
      rfl
    | reject | acknowledge | replicate | answer => cases hreply

/-- The timer of the server has fired once, or not yet. -/
def Early (s : Server σ) : Prop := s.state = .follower ∧ s.currentTerm = 0 ∨ s.Stands 1

omit [StateMachine σ] in
theorem Early.not_isLeader {s : Server σ} (h : s.Early) : s.state.isLeader ≠ true := by
  rcases h with ⟨hfollower, -⟩ | hstands
  · simp [hfollower]
  · exact hstands.not_isLeader

omit [StateMachine σ] in
theorem Early.currentTerm_le {s : Server σ} (h : s.Early) : s.currentTerm ≤ 1 := by
  rcases h with ⟨-, hterm⟩ | hstands
  · omega
  · exact Nat.le_of_eq hstands.term

omit [StateMachine σ] in
theorem Early.goes {s s' : Server σ} (h : s.Early) (hs : s.Goes s') : s'.Early := by
  cases hs with
  | keep => exact h
  | apply sm la =>
    exact h.imp (fun hfollower => hfollower) fun hstands => ⟨hstands.candidate, hstands.term⟩
  | stand hfollower =>
    rcases h with ⟨-, hterm⟩ | hstands
    · exact .inr ⟨rfl, by rw [hterm]⟩
    · have hcandidate := hstands.candidate
      rw [hfollower] at hcandidate
      cases hcandidate
  | lead _ _ _ _ hl => exact absurd hl h.not_isLeader

omit [StateMachine σ] in
theorem Early.announces {s snap : Server σ} {out : Outgoing} (h : snap.Early)
    (hann : s.Announces out snap) : out.msg.Barren 1 := by
  refine ⟨fun t ht => ?_, fun reply hreply => ?_⟩
  · rw [hann.term ht]
    exact h.currentTerm_le
  · cases hann <;> cases hreply

theorem Early.request {s : Server σ} (h : s.Early) (order : List NodeId) (client : ClientId)
    (req : ClientRequest) :
    (s.recieveRpc order ⟨.client client, .clientRequest req⟩).Ensures Early
      fun out _ => out.msg.Barren 1 := by
  obtain ⟨log, hens⟩ := s.recieveRpc_ensures order ⟨.client client, .clientRequest req⟩
  refine ((recieveRpc_terms_le order (Nat.le_refl _) ?_).and hens).mono ?_ ?_
  · rintro _ ⟨⟩
  · rintro s' ⟨hle, hs, -⟩
    cases hs with
    | keep => exact h
    | stepDown T _ hlt => exact absurd hlt (Nat.not_lt.2 hle)
    | push _ _ _ _ _ hl => exact absurd hl h.not_isLeader
    | accept _ _ _ _ hin => cases hin
    | vote hin | win hin | response _ hin => cases hin
  · rintro out snap - ⟨hle, hemit⟩
    refine ⟨fun t ht => Nat.le_trans (hle t ht) h.currentTerm_le, fun reply hreply => ?_⟩
    cases hemit with
    | deny hin | grant hin => cases hin
    | reject | acknowledge | replicate | answer => cases hreply

end Server

namespace Cluster

open Server

/-- The envelope at `k` is on its way to a node that runs. -/
def Pending (c : Cluster σ) (k : ℕ) : Prop :=
  k ∉ c.delivered ∧ ∀ e ∈ c.sent[k]?, c.crashed e.dst = false

/-- Nothing is delivered a second time. -/
def AtMostOnce (c : Cluster σ) : Action → Prop
  | .deliver k _ _ => k ∉ c.delivered
  | _ => True

instance : ∀ (c : Cluster σ) (a : Action), Decidable (c.AtMostOnce a)
  | _, .deliver _ _ _ => inferInstanceAs (Decidable (_ ∉ _))
  | _, .request _ _ _ _ _ => .isTrue trivial
  | _, .timeout _ => .isTrue trivial

/-- All running nodes are candidates of term `T`, and no message on its way to one of them is of
consequence for the election. -/
structure Gridlocked (ids : List NodeId) (T : ℕ) (c : Cluster σ) : Prop where
  nodes : ∀ i ∈ ids, c.crashed i = false → (c.nodes i).Stands T
  sent : ∀ k e, c.Pending k → c.sent[k]? = some e → e.msg.Barren T

theorem gridlocked_iff {ids : List NodeId} {T : ℕ} {c : Cluster σ} : Gridlocked ids T c ↔
    (∀ i ∈ ids, c.crashed i = false → (c.nodes i).Stands T) ∧
      ∀ k < c.sent.length, ∀ e ∈ c.sent[k]?, k ∉ c.delivered → c.crashed e.dst = false →
        e.msg.Barren T := by
  constructor
  · intro h
    refine ⟨h.nodes, fun k _ e he hk hc => h.sent k e ⟨hk, fun e' he' => ?_⟩ he⟩
    rw [Option.mem_unique he' he]
    exact hc
  · rintro ⟨hnodes, hsent⟩
    exact ⟨hnodes, fun k e hk he =>
      hsent k (List.getElem?_eq_some_iff.1 he).1 e he hk.1 (hk.2 e he)⟩

instance (ids : List NodeId) (T : ℕ) (c : Cluster σ) : Decidable (Gridlocked ids T c) :=
  decidable_of_iff _ gridlocked_iff.symm

variable [StateMachine σ] {ids : List NodeId} {stateMachine : NodeId → σ}
  {G : Cluster σ → Action → Prop} {c c' : Cluster σ} {a : Action} {T : ℕ}

omit [StateMachine σ] in
theorem PhaseOf.crashed {i j : NodeId} {cause : Option Message} {P : Server σ → Prop}
    {Q : Outgoing → Server σ → Prop} {A : ℕ → LogCommand → Prop}
    (h : c.PhaseOf ids i cause P Q A c')
    (hc : c.crashed j = true) : c'.crashed j = true := by
  have hne : j ≠ i := by
    rintro rfl
    rw [h.alive] at hc
    cases hc
  rw [(h.others j hne).2]
  exact hc

theorem crashed_of_next (h : next ids c a = some c') {j : NodeId} (hc : c.crashed j = true) :
    c'.crashed j = true := by
  cases steps_of_next h with
  | loop hl =>
    obtain ⟨i, -, hphase⟩ := hl
    exact hphase.crashed hc
  | handler hh =>
    obtain ⟨i, incoming, log, -, -, hphase⟩ := hh
    exact hphase.crashed hc
  | both hh hl =>
    obtain ⟨i, incoming, log, -, -, hphase⟩ := hh
    obtain ⟨i', -, hphase'⟩ := hl
    exact hphase'.crashed (hphase.crashed hc)

theorem Pending.of_next {k : ℕ} (h : c'.Pending k) (hn : next ids c a = some c') : c.Pending k := by
  have hlater := later_of_next hn
  refine ⟨fun hk => h.1 (hlater.delivered.subset hk), fun e he => ?_⟩
  have hc' := h.2 e (hlater.getElem? he)
  cases hc : c.crashed e.dst with
  | false => rfl
  | true =>
    rw [crashed_of_next hn hc] at hc'
    cases hc'

/-- **One step** does not end a gridlock. -/
theorem Gridlocked.next (h : Gridlocked ids T c) (hv : Visited ids stateMachine G c)
    (hfresh : c.AtMostOnce a) (hn : next ids c a = some c') : Gridlocked ids T c' := by
  have before : Throughout c.Pending
      (fun j crashed s => j ∈ ids → crashed = false → s.Stands T) (fun _ msg => msg.Barren T) c :=
    ⟨fun j hj hc => h.nodes j hj hc, h.sent⟩
  have after : Throughout c.Pending
      (fun j crashed s => j ∈ ids → crashed = false → s.Stands T) (fun _ msg => msg.Barren T)
        c' := by
    refine before.next hn (fun _ _ _ hs => hs) (fun _ _ hm => hm) (fun _ _ _ _ hc => by cases hc)
      (fun _ _ _ _ hc => by cases hc) ?_ ?_ ?_
    · intro j order incoming hj harr hs
      have hstands := hs hj rfl
      refine Outcome.Ensures.mono (hstands.recieveRpc order ?_ ?_) (fun _ h _ _ => h)
        fun _ _ _ h => h
      · cases harr with
        | @deliver k _ _ e he =>
          obtain ⟨-, hrun⟩ := of_next_deliver hn he
          refine h.sent k e ⟨hfresh, fun e' he' => ?_⟩ he
          rw [he] at he'
          cases he'
          exact hrun
        | request =>
          constructor
          · rintro _ ⟨⟩
          · rintro _ ⟨⟩
      · intro msg hmsg hgrants
        cases harr with
        | deliver he =>
          have hfollower := hv.follower_of_grants (List.mem_of_getElem? he) hmsg hgrants
          have hcandidate := hstands.candidate
          rw [hfollower] at hcandidate
          cases hcandidate
        | request => cases hmsg
    · intro j s role hj hs hrole
      have hstands := hs hj rfl
      have hloop : s.afterRpc role = s.sendRequestVoteRpcToPeers := by
        cases role with
        | candidate v =>
          unfold Server.afterRpc
          rw [if_pos hstands.candidate]
        | follower | leader mi ni =>
          have hcandidate := hstands.candidate
          rw [hrole rfl] at hcandidate
          cases hcandidate
      rw [hloop]
      exact hstands.sendRequestVoteRpcToPeers.mono (fun _ h _ _ => h) fun _ _ _ h => h
    · intro j s role hj _ _ _ hs _ hrole
      have hstands := hs hj rfl
      have hloop : s.afterTimer role = s.sendRequestVoteRpcToPeers := by
        rw [hstands.candidate] at hrole
        obtain ⟨v, rfl⟩ := RaftState.isCandidate_iff.1 hrole.symm
        rfl
      rw [hloop]
      exact hstands.sendRequestVoteRpcToPeers.mono (fun _ h _ _ => h) fun _ _ _ h => h
  exact ⟨fun i hi hc => after.nodes i hi hc, fun k e hk he => after.sent k e (hk.of_next hn) he⟩

/-- **Runs** do not end a gridlock. -/
theorem Gridlocked.reach (h : Gridlocked ids T c)
    (hv : Visited ids stateMachine (fun _ _ => True) c)
    (hr : (machine σ ids).Reach AtMostOnce c c') :
    Gridlocked ids T c' := by
  have hinv := hr.invariant
    (I := fun c => Visited ids stateMachine (fun _ _ => True) c ∧ Gridlocked ids T c) ⟨hv, h⟩
    fun c a c' hc hfresh hn => ⟨visited_of_next hc.1 trivial hn, hc.2.next hc.1 hfresh hn⟩
  exact hinv.2

theorem answers_eq_nil (h : ∀ i ∈ ids, c.crashed i = false → (c.nodes i).state.isLeader ≠ true)
    (hn : Cluster.next ids c a = some c') : c.answers a = [] := by
  rw [List.eq_nil_iff_forall_not_mem]
  rintro ⟨id, response⟩ hmem
  obtain ⟨-, i, entry, -, hi, hc, hfor⟩ := answersFor_of_next hn hmem
  exact h i hi hc hfor.leader

theorem Gridlocked.answers (h : Gridlocked ids T c) (hn : Cluster.next ids c a = some c') :
    c.answers a = [] :=
  answers_eq_nil (fun i hi hc => (h.nodes i hi hc).not_isLeader) hn

/-- **A split vote is for ever.**  Once all running nodes are candidates of one term, with no vote
and no higher term on its way to them, they remain so in every run that delivers each message at
most once, whatever timers fire and whatever clients ask for, and no client is answered in it. -/
theorem split_vote_permanent (h : (machine σ ids).Reach G (init ids stateMachine) c)
    (hgrid : Gridlocked ids T c) (h' : (machine σ ids).Reach AtMostOnce c c') :
    Gridlocked ids T c' ∧ ∀ a c'', next ids c' a = some c'' → c'.answers a = [] := by
  obtain ⟨ls, hrun⟩ := h
  have hv : Visited ids stateMachine (fun _ _ => True) c :=
    visited_of_reach ⟨ls, hrun.mono fun _ _ _ => trivial⟩
  have hgrid' := hgrid.reach hv h'
  exact ⟨hgrid', fun a c'' hn => hgrid'.answers hn⟩

/-- Node 1 has one vote of the two it needs when the other timers fire. -/
theorem split_vote_permanent_three : ∃ c : Cluster SimpleStateMachine,
    (c.nodes 1).state = .candidate 1 ∧ Gridlocked [1, 2, 3] 1 c ∧
    ∀ c', (machine SimpleStateMachine [1, 2, 3]).Reach AtMostOnce c c' →
      Gridlocked [1, 2, 3] 1 c' := by
  have hrun : ((machine SimpleStateMachine [1, 2, 3]).exec AtMostOnce
      (init [1, 2, 3] fun _ => .new)
      [.timeout 1, .receive [1, 2, 3] 0, .receive [1, 2, 3] 2, .timeout 2, .timeout 3]).any
      (fun c => decide ((c.nodes 1).state = .candidate 1 ∧ Gridlocked [1, 2, 3] 1 c)) = true := by
    decide
  obtain ⟨c, hc, hvotes, hgrid⟩ := Machine.exists_reach_of_exec hrun
  exact ⟨c, hvotes, hgrid, fun c' hc' => (split_vote_permanent hc hgrid hc').1⟩

/-- **One step** before anything is delivered. -/
theorem early_of_next
    (h : Throughout (fun _ => True) (fun _ _ s => s.Early) (fun _ msg => msg.Barren 1) c)
    (ha : a.delivers = false) (hn : next ids c a = some c') :
    Throughout (fun _ => True) (fun _ _ s => s.Early) (fun _ msg => msg.Barren 1) c' := by
  have loop : ∀ {s : Server σ} {o : Outcome σ}, s.Early → o.Ensures s.Goes s.Announces →
      o.Ensures Early fun out _ => out.msg.Barren 1 := fun hs ho =>
    ho.mono (fun _ hgoes => hs.goes hgoes) fun _ _ hgoes hann => (hs.goes hgoes).announces hann
  refine h.next hn (fun _ _ _ hs => hs) (fun _ _ hm => hm) (fun _ _ hs => hs) (fun _ _ hs => hs)
    ?_ ?_ ?_
  · intro j order incoming _ harr hs
    cases harr with
    | deliver => cases ha
    | @request _ client req => exact hs.request order client req
  · intro j s role _ hs hrole
    exact loop hs (afterRpc_ensures hrole)
  · intro j s role _ _ _ _ hs hl hc
    exact loop hs (afterTimer_ensures hl hc)

theorem early_of_reach
    (h : (machine σ ids).Reach (fun _ a => a.delivers = false) (init ids stateMachine) c) :
    Throughout (fun _ => True) (fun _ _ s => s.Early) (fun _ msg => msg.Barren 1) c := by
  have h₀ : Throughout (fun _ => True) (fun _ _ s => s.Early) (fun _ msg => msg.Barren 1)
      (init ids stateMachine) := ⟨fun _ => .inl ⟨rfl, rfl⟩, by simp [init]⟩
  exact h.invariant h₀ fun c a c' hc ha hn => early_of_next hc ha hn

theorem gridlocked_of_early
    (h : (machine σ ids).Reach (fun _ a => a.delivers = false) (init ids stateMachine) c)
    (hstood : ∀ i ∈ ids, c.crashed i = false → (c.nodes i).state.isCandidate = true) :
    Gridlocked ids 1 c := by
  have hearly := early_of_reach h
  refine ⟨fun i hi hc => ?_, fun k e _ he => hearly.sent k e trivial he⟩
  rcases hearly.nodes i with ⟨hfollower, -⟩ | hstands
  · have hcandidate := hstood i hi hc
    rw [hfollower] at hcandidate
    cases hcandidate
  · exact hstands

/-- **Timers that fire first.**  If every running node has stood for election before any message is
delivered, no node ever leads, in any cluster and any run that delivers each message at most once,
and no client is ever answered. -/
theorem timers_first_deadlock
    (h : (machine σ ids).Reach (fun _ a => a.delivers = false) (init ids stateMachine) c)
    (hstood : ∀ i ∈ ids, c.crashed i = false → (c.nodes i).state.isCandidate = true)
    (h' : (machine σ ids).Reach AtMostOnce c c') :
    (∀ i ∈ ids, c'.crashed i = false → (c'.nodes i).Stands 1) ∧
      ∀ a c'', next ids c' a = some c'' → c'.answers a = [] := by
  have hgrid := gridlocked_of_early h hstood
  obtain ⟨ls, hrun⟩ := h
  have hgrid' := hgrid.reach (visited_of_reach ⟨ls, hrun.mono fun _ _ _ => trivial⟩) h'
  exact ⟨hgrid'.nodes, fun a c'' hn => hgrid'.answers hn⟩

/-- Three nodes, two of them asked for something before the third stands too. -/
theorem timers_first_deadlock_three : ∃ c : Cluster SimpleStateMachine,
    ∀ c', (machine SimpleStateMachine [1, 2, 3]).Reach AtMostOnce c c' →
      ∀ i ∈ [1, 2, 3], c'.crashed i = false → (c'.nodes i).Stands 1 := by
  have hrun : ((machine SimpleStateMachine [1, 2, 3]).exec (fun _ a => a.delivers = false)
      (init [1, 2, 3] fun _ => .new)
      [.timeout 1, .set [1, 2, 3] 1 "x" "1", .timeout 2, .set [1, 2, 3] 3 "x" "1", .timeout 3]).any
      (fun c => decide (∀ i ∈ ([1, 2, 3] : List NodeId), c.crashed i = false →
        (c.nodes i).state.isCandidate = true)) = true := by
    decide
  obtain ⟨c, hc, hstood⟩ := Machine.exists_reach_of_exec hrun
  exact ⟨c, fun c' hc' => (timers_first_deadlock hc hstood hc').1⟩

end Cluster

end MiniRaft
