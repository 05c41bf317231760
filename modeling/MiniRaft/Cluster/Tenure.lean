import MiniRaft.Cluster.AppendOnly
import MiniRaft.Cluster.Steady

/-!
# The tenure of a stable leader

A term is raised by an election timer alone.  Where only the timer of one node fires, no node and no
message has a term above that of this node, so that nothing can depose it: once it leads, it leads
on, in the same term, whatever is lost, duplicated, reordered or dropped.
-/

namespace MiniRaft

variable {σ : Type}

namespace Server

variable [StateMachine σ] {s : Server σ} {role : RaftState}

theorem afterTimer_eq (s : Server σ) (role : RaftState) :
    ∃ s', s.afterTimer role = .panic s' ∨ ∃ out, s.afterTimer role = .send s' out := by
  have votes : ∀ s : Server σ, s.sendRequestVoteRpcToPeers = .panic s ∨
      ∃ out, s.sendRequestVoteRpcToPeers = .send s out := by
    intro s
    unfold sendRequestVoteRpcToPeers
    split
    · exact .inl rfl
    · exact .inr ⟨_, rfl⟩
  have stands : ∀ s : Server σ, ∃ s', s.candidate = .panic s' ∨
      ∃ out, s.candidate = .send s' out := by
    intro s
    unfold candidate becomeCandidate
    split
    · rw [Outcome.done_andThen]
      exact ⟨_, votes _⟩
    · exact ⟨_, .inl (Outcome.andThen_of_panicked rfl)⟩
  unfold afterTimer
  split
  · exact stands { s with state := .candidate 0 }
  · exact ⟨s, votes s⟩
  · unfold sendHeartbeat
    split
    · exact ⟨s, .inl rfl⟩
    · exact ⟨s, .inr ⟨_, rfl⟩⟩

theorem afterTimer_highest (hl : s.state.isLeader = role.isLeader)
    (hc : s.state.isCandidate = role.isCandidate) : (s.afterTimer role).Ensures
      (fun s' => s'.currentTerm ≤ (s.afterTimer role).server.currentTerm)
      fun out _ => ∀ t ∈ out.msg.term, t ≤ (s.afterTimer role).server.currentTerm where
  server _ := Nat.le_refl _
  sends := by
    intro out snap hmem
    obtain ⟨-, hann⟩ := (afterTimer_ensures hl hc).sends hmem
    have hsnap : snap = (s.afterTimer role).server := by
      obtain ⟨s', heq | ⟨out', heq⟩⟩ := s.afterTimer_eq role
      · rw [heq] at hmem
        cases hmem
      · rw [heq, Outcome.send_effects, List.mem_singleton] at hmem
        cases hmem
        rw [heq]
        rfl
    subst hsnap
    exact ⟨Nat.le_refl _, fun t ht => Nat.le_of_eq (hann.term ht)⟩

omit [StateMachine σ] in
theorem sendHeartbeat_server (s : Server σ) : s.sendHeartbeat.Ensures (fun s' => s' = s)
    fun out _ => ∀ t ∈ out.msg.term, t = s.currentTerm := by
  unfold sendHeartbeat
  split
  · exact .panic
  · refine .send rfl fun t ht => ?_
    cases ht
    rfl

end Server

namespace Cluster

open Server

variable {ids : List NodeId} {l : NodeId} {T : ℕ} {c c' d : Cluster σ} {a : Action}

theorem Steady.eq (h : Steady l c a) {j : NodeId} (hf : a.fires = true)
    (hactor : c.actor a = some j) : j = l := by
  rw [h hf, Option.some.injEq] at hactor
  exact hactor.symm

/-- While `l` runs, no node has a term above its own, and no message carries one. -/
def Foremost (l : NodeId) (c : Cluster σ) : Prop :=
  c.crashed l = false → TermsUpTo (c.nodes l).currentTerm c

/-- `l` leads the term `T`, and there is no later term. -/
def Reigning (l : NodeId) (T : ℕ) : Cluster σ → Prop :=
  Throughout (fun _ => True)
    (fun j _ s => s.currentTerm ≤ T ∧ (j = l → s.state.isLeader = true ∧ s.currentTerm = T))
    fun _ msg => ∀ t ∈ msg.term, t ≤ T

theorem Reigning.terms (h : Reigning l T c) : TermsUpTo T c :=
  h.mono (fun _ hk => hk) (fun _ _ _ hs => hs.1) fun _ _ hm => hm

variable [StateMachine σ] {stateMachine : NodeId → σ} {ls : List Action}

theorem alive_of_next (hn : next ids c a = some c') {j : NodeId} (hc : c'.crashed j = false) :
    c.crashed j = false := by
  obtain ⟨ds, i, incoming, phases, -, hi, hrun, -, -, rfl⟩ := turn_of_next hn
  by_cases hj : j = i
  · rw [hj]
    exact hrun
  · rwa [(foldl_perform_of_ne _ hj phases).2] at hc

theorem currentTerm_le_of_next (hn : next ids c a = some c') (j : NodeId) :
    (c.nodes j).currentTerm ≤ (c'.nodes j).currentTerm :=
  rel_of_next (R := fun s s' => s.currentTerm ≤ s'.currentTerm) (fun _ => Nat.le_refl _)
    (fun _ _ _ => Nat.le_trans) (fun _ _ h => h.roleStep.disciplined.mono) hn j
    fun _ _ _ _ _ h => h.1.roleStep.disciplined.mono

theorem Foremost.next (h : Foremost l c) (hsteady : Steady l c a) (hn : next ids c a = some c') :
    Foremost l c' := by
  intro hc'
  have hterms : TermsUpTo _ c := h (alive_of_next hn hc')
  have hle := currentTerm_le_of_next hn l
  refine Throughout.next hterms hn (fun _ _ _ hs => Nat.le_trans hs hle)
    (fun _ _ hm t ht => Nat.le_trans (hm t ht) hle) (fun _ _ hs => hs) (fun _ _ hs => hs)
    ?_ ?_ ?_
  · intro j order incoming _ harr hs
    exact recieveRpc_terms_le order hs (hterms.arrives harr)
  · intro j s role _ hs hrole
    exact afterRpc_terms_le (Nat.le_trans hs hle) hrole
  · intro j s role _ hf hactor hend _ hl hc
    obtain rfl := hsteady.eq hf hactor
    rw [hend.node (hend.crashed ▸ hc')]
    exact afterTimer_highest hl hc

theorem Reigning.next (h : Reigning l T c) (hsteady : Steady l c a)
    (hn : next ids c a = some c') : Reigning l T c' := by
  refine Throughout.next h hn (fun _ _ _ hs => hs) (fun _ _ hm => hm) (fun _ _ hs => hs)
    (fun _ _ hs => hs) ?_ ?_ ?_
  · intro j order incoming _ harr hs
    obtain ⟨log, hens⟩ := (c.nodes j).recieveRpc_ensures order incoming
    refine ((recieveRpc_terms_le order hs.1 (h.terms.arrives harr)).and hens).mono ?_
      fun _ _ _ h => h.1
    rintro s ⟨hle, hhandles, -⟩
    refine ⟨hle, fun hj => ?_⟩
    obtain ⟨hl, hterm⟩ := hs.2 hj
    rw [← hterm] at hle ⊢
    exact hhandles.leads hl hle
  · intro j s role _ hs hrole
    refine (((afterRpc_terms_le hs.1 hrole).and (afterRpc_currentTerm hrole)).and
      (afterRpc_ensures hrole)).mono ?_ fun _ _ _ h => h.1.1
    rintro s' ⟨⟨hle, hsame⟩, hgoes⟩
    refine ⟨hle, fun hj => ?_⟩
    obtain ⟨hl, hterm⟩ := hs.2 hj
    exact ⟨hgoes.leads hl, hsame.trans hterm⟩
  · intro j s role _ hf hactor _ hs hl _
    obtain ⟨hleads, hterm⟩ := hs.2 (hsteady.eq hf hactor)
    rw [afterTimer_of_isLeader (hl ▸ hleads)]
    refine s.sendHeartbeat_server.mono ?_ fun _ _ _ h t ht => ?_
    · rintro _ rfl
      exact hs
    · rw [h t ht]
      exact hs.1

/-- **A stable leader is never deposed.**  In every run in which no timer fires but that of the node
`l`, once `l` leads it leads on while it runs, in the same term, and all other nodes follow and have
no later term. -/
theorem steady_leader_stays (h : (machine σ ids).Run (Steady l) (init ids stateMachine) ls c)
    (hc : c.crashed l = false) (hl : (c.nodes l).state.isLeader = true)
    (hd : (machine σ ids).Reach (Steady l) c d) :
    (d.crashed l = false → (d.nodes l).state.isLeader = true ∧
        (d.nodes l).currentTerm = (c.nodes l).currentTerm) ∧
      ∀ j, (d.nodes j).currentTerm ≤ (c.nodes l).currentTerm ∧
        (j ≠ l → (d.nodes j).state = .follower) := by
  have hforemost : Foremost l c := h.invariant (I := Foremost l)
    (fun _ => ⟨fun _ => Nat.le_refl 0, by simp [init]⟩) fun _ _ _ hI hg hn => hI.next hg hn
  have hreign : Reigning l (c.nodes l).currentTerm c :=
    ⟨fun j => ⟨(hforemost hc).nodes j, by rintro rfl; exact ⟨hl, rfl⟩⟩, (hforemost hc).sent⟩
  have hfollow : OthersFollow l c := h.invariant (I := OthersFollow l)
    ⟨fun _ _ => rfl, fun _ _ h => h.elim⟩ fun _ _ _ hI hg hn => hI.next hg hn
  obtain ⟨hreign, hfollow⟩ := hd.invariant
    (I := fun d => Reigning l (c.nodes l).currentTerm d ∧ OthersFollow l d) ⟨hreign, hfollow⟩
    fun _ _ _ hI hg hn => ⟨hI.1.next hg hn, hI.2.next hg hn⟩
  exact ⟨fun _ => (hreign.nodes l).2 rfl, fun j => ⟨(hreign.nodes j).1, hfollow.nodes j⟩⟩

/-- Node 1 leads on when node 3 gets the request for its vote, late and twice, and node 1 its
answer. -/
theorem steady_leader_stays_late : ∃ d : Cluster SimpleStateMachine,
    7 ∈ d.delivered ∧ (d.nodes 1).state.isLeader = true ∧ (d.nodes 1).currentTerm = 1 ∧
      (d.nodes 3).currentTerm ≤ 1 := by
  have hrun : ((machine SimpleStateMachine [1, 2, 3]).exec (Steady 1)
      (init [1, 2, 3] fun _ => .new)
      [.timeout 1, .receive [1, 2, 3] 0, .receive [1, 2, 3] 2, .receive [1, 2, 3] 2]).any
      (fun c => decide (c.crashed 1 = false ∧ (c.nodes 1).state.isLeader = true ∧
        (c.nodes 1).currentTerm = 1 ∧
        ((machine SimpleStateMachine [1, 2, 3]).exec (Steady 1) c
          [.receive [1, 2, 3] 1, .receive [1, 2, 3] 1, .timeout 1, .receive [1, 2, 3] 7]).any
          (fun d => decide (7 ∈ d.delivered ∧ d.crashed 1 = false)) = true)) = true := by
    decide
  obtain ⟨c, hc, hruns, hleads, hterm, hlater⟩ := Machine.exists_run_of_exec hrun
  obtain ⟨d, hd, hanswered, hruns'⟩ := Machine.exists_reach_of_exec hlater
  obtain ⟨hstays, hall⟩ := steady_leader_stays hc hruns hleads hd
  obtain ⟨hleads', hterm'⟩ := hstays hruns'
  rw [hterm] at hterm' hall
  exact ⟨d, hanswered, hleads', hterm', (hall 3).1⟩

end Cluster

end MiniRaft
