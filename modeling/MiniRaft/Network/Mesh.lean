import MiniRaft.Network.Channels
import MiniRaft.Network.Refinement

/-!
# Starting up

Where nothing fails, the dial loops and handshakes of the nodes end after boundedly many steps, in
any order of these and all other steps, and every node is then connected to every other.  From then
on the dispatchers do what `route` says of a cluster.

* `Deployment.effort` : what is left of the start-up.
* `Deployment.Meshes` : every pair of nodes is connected, or will be.
* `Deployment.start_up` : the start-up ends, with all nodes connected.
-/

namespace MiniRaft

variable {σ : Type}

namespace Task

/-- A dial loop goes on or a connection comes into use in this step. -/
def connects : Task → Bool
  | .dial _ _ => true
  | .identify _ _ => true
  | _ => false

/-- Nothing fails between nodes in this step: neither all attempts to connect, nor a handshake, nor
a writer. -/
def faultless : Task → Bool
  | .dial _ attempts => connectWithRetry attempts
  | .abandon _ _ => false
  | .exit _ _ => false
  | _ => true

end Task

namespace Deployment

variable {ids : List NodeId} {w w' : Deployment σ} {i j : NodeId} {t : Task}

/-- How many steps the start-up takes from here. -/
def effort (ids : List NodeId) (w : Deployment σ) : ℕ :=
  ∑ i ∈ ids.toFinset, 3 * (w.toDial i).length + w.greeting.length

/-- The node `i` is connected to `j`, or waits for its greeting. -/
def Meets (w : Deployment σ) (i j : NodeId) : Prop :=
  (i, j) ∈ w.greeting ∨ (w.registry i).Connected j

/-- Every pair of nodes is connected, or will be. -/
def Meshes (ids : List NodeId) (w : Deployment σ) : Prop :=
  ∀ i ∈ ids, ∀ j ∈ ids, i < j → j ∈ w.toDial i ∨ w.Meets i j ∧ w.Meets j i

theorem Meets.mono (h : w.Meets i j) (hgreeting : (i, j) ∈ w.greeting → (i, j) ∈ w'.greeting)
    (hconn : (w.registry i).Connected j → (w'.registry i).Connected j) : w'.Meets i j :=
  h.imp hgreeting hconn

theorem Meshes.mono (h : Meshes ids w) (htoDial : w'.toDial = w.toDial)
    (hmeets : ∀ i j, w.Meets i j → w'.Meets i j) : Meshes ids w' := by
  intro i hi j hj hlt
  rw [htoDial]
  exact (h i hi j hj hlt).imp_right fun hboth => ⟨hmeets i j hboth.1, hmeets j i hboth.2⟩

variable [StateMachine σ]

/-- **One step** that does not fail. -/
theorem Meshes.next (h : Meshes ids w) (hm : Moves ids w t w') (ht : t.faultless = true) :
    Meshes ids w' := by
  cases hm with
  | serve | timeout =>
    rw [foldl_settle]
    exact h.mono rfl fun _ _ hmeets => hmeets
  | @dispatch node out rest =>
    rw [(foldl_handTo _ _ _).1]
    exact h.mono rfl fun _ _ hmeets => hmeets
  | @dial node peer rest attempts hpeers =>
    have kept : ∀ i j, i < j → j ∈ w.toDial i → (i, j) ≠ (node, peer) →
        j ∈ Function.update w.toDial node rest i := by
      intro i j _ hmem hne
      by_cases hi : i = node
      · subst hi
        rw [hpeers] at hmem
        rw [Function.update_self]
        exact (List.mem_cons.1 hmem).resolve_left fun heq => hne (by rw [heq])
      · rwa [Function.update_of_ne hi]
    intro i hi j hj hlt
    unfold dialNext
    split_ifs with hdial
    · by_cases hends : (i, j) = (node, peer)
      · obtain ⟨rfl, rfl⟩ := Prod.mk.inj hends
        exact .inr ⟨.inl List.mem_cons_self, .inl (List.mem_cons_of_mem _ List.mem_cons_self)⟩
      · refine (h i hi j hj hlt).imp (fun hmem => kept i j hlt hmem hends) fun hboth => ?_
        have more : ∀ {x}, x ∈ w.greeting → x ∈ (node, peer) :: (peer, node) :: w.greeting :=
          fun hmem => List.mem_cons_of_mem _ (List.mem_cons_of_mem _ hmem)
        exact ⟨hboth.1.mono more id, hboth.2.mono more id⟩
    · have hends : (i, j) ≠ (node, peer) := by
        rintro ⟨⟩
        exact hdial ⟨hlt, ht⟩
      exact (h i hi j hj hlt).imp_left fun hmem => kept i j hlt hmem hends
  | @identify node peer hmem =>
    refine h.mono rfl fun i j hmeets => ?_
    by_cases hends : (i, j) = (node, peer)
    · obtain ⟨rfl, rfl⟩ := Prod.mk.inj hends
      refine .inr ?_
      simp only [spawn, Function.update_self]
      exact ConnectionRegistry.connected_register _ _
    · refine hmeets.mono (fun hmem => (List.mem_erase_of_ne hends).2 hmem) fun hconn => ?_
      by_cases hi : i = node
      · subst hi
        have hj : j ≠ peer := fun heq => hends (by rw [heq])
        simp only [spawn, Function.update_self]
        rwa [ConnectionRegistry.connected_register_of_ne _ hj]
      · simpa only [spawn, Function.update_of_ne hi] using hconn
  | abandon | exit => cases ht
  | @welcome node client | @leave node client =>
    refine h.mono rfl fun i j hmeets => hmeets.mono id fun hconn => ?_
    by_cases hi : i = node
    · subst hi
      simp only [Function.update_self]
      exact hconn
    · simpa only [Function.update_of_ne hi] using hconn
  | forward | submit => exact h.mono rfl fun _ _ hmeets => hmeets

/-- **One step** of the start-up is one less to come, and no other step adds to it. -/
theorem effort_next (hm : Moves ids w t w') :
    w'.effort ids + t.connects.toNat ≤ w.effort ids := by
  cases hm with
  | serve | timeout =>
    rw [foldl_settle]
    exact Nat.le_refl _
  | dispatch =>
    rw [(foldl_handTo _ _ _).1]
    exact Nat.le_refl _
  | @dial node peer rest attempts hpeers hi =>
    have hsum := sum_update (f := fun i => 3 * (w.toDial i).length)
      (g := fun i => 3 * (Function.update w.toDial node rest i).length) hi
      fun j hj => by rw [Function.update_of_ne hj]
    simp only [Function.update_self, hpeers, List.length_cons] at hsum
    unfold dialNext
    split_ifs
    · simp only [effort, List.length_cons, Task.connects, Bool.toNat_true]
      omega
    · simp only [effort, Task.connects, Bool.toNat_true]
      omega
  | @identify node peer hmem =>
    have hlength := List.length_erase_of_mem hmem
    have hpos := List.length_pos_of_mem hmem
    simp only [effort, spawn, hlength, Task.connects, Bool.toNat_true]
    omega
  | @abandon node peer hmem =>
    have hlength := List.length_erase_of_mem hmem
    simp only [effort, hlength, Task.connects, Bool.toNat_false]
    omega
  | welcome | forward | exit | submit | leave => exact Nat.le_refl _

omit [StateMachine σ] in
theorem not_dialing (h : w.greeting = []) (node : NodeId) : w.dialing node = false := by
  rw [dialing, h]
  rfl

theorem ended_iff : (∀ t, t.connects = true → t.faultless = true → next ids w t = none) ↔
    w.greeting = [] ∧ ∀ i ∈ ids, w.toDial i = [] := by
  constructor
  · intro h
    have hgreeting : w.greeting = [] := by
      by_contra hne
      obtain ⟨⟨node, peer⟩, hmem⟩ := List.exists_mem_of_ne_nil _ hne
      have hnone := h (.identify node peer) rfl rfl
      simp only [Deployment.next, if_pos hmem] at hnone
      cases hnone
    refine ⟨hgreeting, fun i hi => ?_⟩
    have hnone := h (.dial i [true]) rfl rfl
    cases hdial : w.toDial i with
    | nil => rfl
    | cons peer rest =>
      simp only [Deployment.next, hdial, if_pos (And.intro hi (not_dialing hgreeting i))] at hnone
      cases hnone
  · rintro ⟨hgreeting, hdialed⟩ t ht -
    cases t with
    | dial node attempts =>
      simp only [Deployment.next]
      split
      · rfl
      · rename_i peer rest hdial
        refine if_neg fun hrun => ?_
        rw [hdialed node hrun.1] at hdial
        cases hdial
    | identify node peer =>
      refine if_neg fun hmem => ?_
      rw [hgreeting] at hmem
      cases hmem
    | _ => cases ht

/-- **Start-up.**  Where nothing fails, at most three steps for each address lead to the end of all
dial loops and handshakes, in any order of these and all other steps; and when none of them is left
to be taken, every node is connected to exactly the others, and its dispatcher does what `route`
says. -/
theorem start_up {peerAddresses : NodeId → List NodeId} {stateMachine : NodeId → σ} {ts : List Task}
    (hids : ids.Nodup) (hpeers : ∀ i, ∀ peer ∈ peerAddresses i, peer ∈ ids)
    (hall : ∀ i ∈ ids, ∀ j ∈ ids, i < j → j ∈ peerAddresses i)
    (h : (machine σ ids).Run (fun _ t => t.faultless = true) (init ids peerAddresses stateMachine)
      ts w) :
    ts.countP Task.connects ≤ ∑ i ∈ ids.toFinset, 3 * (peerAddresses i).length ∧
    ((∀ t, t.connects = true → t.faultless = true → next ids w t = none) → ∀ i ∈ ids,
      (∀ j, (w.registry i).Connected j ↔ j ∈ ids ∧ j ≠ i) ∧
      ∀ cause out (snap : Server σ) dst, received dst ((w.registry i).dispatchServerMsg out) =
        ((route ids i cause (.send out snap)).filter (·.dst = dst)).map (·.msg)) := by
  let I : ℕ → Deployment σ → Prop := fun n w =>
    n + w.effort ids ≤ (init ids peerAddresses stateMachine).effort ids ∧ Wired ids w ∧ Meshes ids w
  have h₀ : I 0 (init ids peerAddresses stateMachine) :=
    ⟨by omega, wired_init hpeers, fun i hi j hj hlt => .inl (hall i hi j hj hlt)⟩
  have step : ∀ n w t w', n + t.connects.toNat ≤ ts.countP Task.connects → I n w →
      t.faultless = true → (machine σ ids).next w t = some w' →
      True ∧ I (n + t.connects.toNat) w' := by
    rintro n w t w' - ⟨heffort, hwired, hmeshes⟩ ht hn
    have hmoves := moves_of_next hn
    have hnext := effort_next hmoves
    exact ⟨trivial, by omega, hwired.next hmoves, hmeshes.next hmoves ht⟩
  obtain ⟨-, heffort, hwired, hmeshes⟩ := h.within (Nat.le_refl _) h₀ step
  refine ⟨?_, fun hend i hi => ?_⟩
  · simp only [effort, init, List.length_nil, Nat.add_zero] at heffort
    omega
  · obtain ⟨hgreeting, hdialed⟩ := ended_iff.1 hend
    have hmeets : ∀ {i j}, w.Meets i j → (w.registry i).Connected j := by
      intro i j hmeets
      refine hmeets.resolve_left fun hmem => ?_
      rw [hgreeting] at hmem
      cases hmem
    have hpair : ∀ i ∈ ids, ∀ j ∈ ids, i < j →
        (w.registry i).Connected j ∧ (w.registry j).Connected i := by
      intro i hi j hj hlt
      rcases hmeshes i hi j hj hlt with hmem | ⟨hij, hji⟩
      · rw [hdialed i hi] at hmem
        cases hmem
      · exact ⟨hmeets hij, hmeets hji⟩
    have hconn : ∀ j, (w.registry i).Connected j ↔ j ∈ ids ∧ j ≠ i := by
      intro j
      refine ⟨fun hconn => hwired.registry i j (mem_keys_of_connected hconn), ?_⟩
      rintro ⟨hj, hne⟩
      rcases Nat.lt_or_gt_of_ne hne with hlt | hlt
      · exact (hpair j hj i hi hlt).2
      · exact (hpair i hi j hj hlt).1
    exact ⟨hconn, fun cause out snap dst => received_route hids hconn cause out snap dst⟩

/-- Three nodes; node 1 needs a second attempt to reach node 3. -/
theorem start_up_three : ∃ w : Deployment SimpleStateMachine,
    ∀ i ∈ [1, 2, 3], ∀ j, (w.registry i).Connected j ↔ j ∈ [1, 2, 3] ∧ j ≠ i := by
  have hrun : ((machine SimpleStateMachine [1, 2, 3]).exec (fun _ t => t.faultless = true)
      (init [1, 2, 3] (fun _ => [3, 1, 2]) fun _ => .new)
      [.dial 1 [false, true], .dial 2 [true], .identify 3 2, .timeout 2, .identify 3 1,
        .identify 1 3,
        .dial 1 [true], .dial 1 [true], .identify 1 2, .identify 2 1, .dispatch 2, .identify 2 3,
        .dial 2 [true], .dial 2 [true], .dial 3 [true], .dial 3 [true], .dial 3 [true]]).any
      (fun w => decide (w.greeting = [] ∧ ∀ i ∈ ([1, 2, 3] : List NodeId), w.toDial i = [])) =
        true := by
    decide
  obtain ⟨w, hw, hend⟩ := Machine.exists_run_of_exec hrun
  obtain ⟨-, hconn⟩ := start_up (by decide) (fun _ => by decide) (by decide) hw
  exact ⟨w, fun i hi => (hconn (ended_iff.2 hend) i hi).1⟩

end Deployment

end MiniRaft
