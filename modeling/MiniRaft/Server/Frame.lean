import MiniRaft.Server.Run
import Mathlib.Data.List.Basic

/-!
# What the handlers change

One specification for each method of `Server`, so that no later proof unfolds one.

`Outcome.Ensures P Q` says of an outcome that every server it passes through at a send, and the
one it ends with unless it panics, satisfies `P`, and that every message it sends satisfies `Q`.
It is kept by `andThen` and by dropping the handler at a send, which is how whole turns are
assembled.
-/

namespace MiniRaft

variable {σ : Type}

/-! ### Rules for outcomes -/

namespace Outcome

@[simp] theorem done_server (s : Server σ) : (done s).server = s := rfl
@[simp] theorem done_effects (s : Server σ) : (done s).effects = [] := rfl
@[simp] theorem done_panicked (s : Server σ) : (done s).panicked = false := rfl
@[simp] theorem panic_server (s : Server σ) : (panic s).server = s := rfl
@[simp] theorem panic_effects (s : Server σ) : (panic s).effects = [] := rfl
@[simp] theorem panic_panicked (s : Server σ) : (panic s).panicked = true := rfl
@[simp] theorem send_server (s : Server σ) (out : Outgoing) : (send s out).server = s := rfl
@[simp] theorem send_effects (s : Server σ) (out : Outgoing) :
    (send s out).effects = [.send out s] := rfl
@[simp] theorem send_panicked (s : Server σ) (out : Outgoing) :
    (send s out).panicked = false := rfl

theorem andThen_of_panicked {o : Outcome σ} {f : Server σ → Outcome σ} (h : o.panicked = true) :
    o.andThen f = o := by
  simp [andThen, h]

theorem andThen_of_not_panicked {o : Outcome σ} {f : Server σ → Outcome σ}
    (h : o.panicked = false) : o.andThen f =
      ⟨(f o.server).server, o.effects ++ (f o.server).effects, (f o.server).panicked⟩ := by
  simp [andThen, h]

@[simp] theorem andThen_panicked (o : Outcome σ) (f : Server σ → Outcome σ) :
    (o.andThen f).panicked = (o.panicked || (f o.server).panicked) := by
  cases hp : o.panicked with
  | true => rw [andThen_of_panicked hp, hp, Bool.true_or]
  | false => rw [andThen_of_not_panicked hp, Bool.false_or]

@[simp] theorem done_andThen (s : Server σ) (f : Server σ → Outcome σ) :
    (done s).andThen f = f s := by
  simp [andThen]

theorem andThen_done (o : Outcome σ) : (o.andThen done) = o := by
  cases hp : o.panicked with
  | true => rw [andThen_of_panicked hp]
  | false =>
    rw [andThen_of_not_panicked hp, done_effects, List.append_nil, done_panicked, ← hp, done_server]

theorem andThen_assoc (o : Outcome σ) (f g : Server σ → Outcome σ) :
    (o.andThen f).andThen g = o.andThen fun s => (f s).andThen g := by
  cases hp : o.panicked with
  | true => rw [andThen_of_panicked hp, andThen_of_panicked hp, andThen_of_panicked hp]
  | false =>
    cases hp' : (f o.server).panicked with
    | true => simp [andThen, hp, hp']
    | false => simp [andThen, hp, hp', List.append_assoc]

theorem sent_andThen (o : Outcome σ) (f : Server σ → Outcome σ) :
    (o.andThen f).sent = o.sent ++ if o.panicked then [] else (f o.server).sent := by
  cases hp : o.panicked with
  | true =>
    rw [andThen_of_panicked hp, if_pos rfl, List.append_nil]
  | false =>
    rw [andThen_of_not_panicked hp, if_neg Bool.false_ne_true]
    exact List.filterMap_append

theorem mem_sent_iff {o : Outcome σ} {out : Outgoing} :
    out ∈ o.sent ↔ ∃ snap, .send out snap ∈ o.effects := by
  unfold Outcome.sent
  rw [List.mem_filterMap]
  constructor
  · rintro ⟨ef, hmem, hef⟩
    cases ef with
    | send out' snap =>
      cases hef
      exact ⟨snap, hmem⟩
    | apply => cases hef
  · rintro ⟨snap, hmem⟩
    exact ⟨_, hmem, rfl⟩

theorem cut_eq_some_iff {o o' : Outcome σ} {k : ℕ} : o.cut k = some o' ↔
    ∃ out snap, o.effects[k]? = some (.send out snap) ∧ o' = ⟨snap, o.effects.take k, false⟩ := by
  unfold cut
  constructor
  · intro h
    split at h
    · rename_i out snap hget
      cases h
      exact ⟨out, snap, hget, rfl⟩
    · cases h
  · rintro ⟨out, snap, hget, rfl⟩
    simp only [hget]

/-- Every server that `o` passes through at a send, and the one it ends with unless it panics,
satisfies `P`; every message it sends satisfies `Q` there. -/
structure Ensures (o : Outcome σ) (P : Server σ → Prop) (Q : Outgoing → Server σ → Prop) :
    Prop where
  server : o.panicked = false → P o.server
  sends : ∀ {out : Outgoing} {snap : Server σ}, .send out snap ∈ o.effects → P snap ∧ Q out snap

namespace Ensures

variable {P P' : Server σ → Prop} {Q Q' : Outgoing → Server σ → Prop} {o : Outcome σ}
  {s : Server σ} {out : Outgoing} {f : Server σ → Outcome σ}

theorem done (h : P s) : (Outcome.done s).Ensures P Q :=
  ⟨fun _ => h, by simp⟩

theorem panic : (Outcome.panic s).Ensures P Q :=
  ⟨by simp, by simp⟩

theorem send (h : P s) (hQ : Q out s) : (Outcome.send s out).Ensures P Q := by
  refine ⟨fun _ => h, fun {out' snap} hmem => ?_⟩
  simp only [send_effects, List.mem_singleton, Effect.send.injEq] at hmem
  obtain ⟨rfl, rfl⟩ := hmem
  exact ⟨h, hQ⟩

theorem mono (h : o.Ensures P Q) (hP : ∀ s, P s → P' s) (hQ : ∀ out s, P s → Q out s → Q' out s) :
    o.Ensures P' Q' := by
  refine ⟨fun hp => hP _ (h.server hp), fun hmem => ?_⟩
  obtain ⟨h₁, h₂⟩ := h.sends hmem
  exact ⟨hP _ h₁, hQ _ _ h₁ h₂⟩

theorem andThen (h : o.Ensures P Q) (hP : ∀ s, P s → P' s) (hf : ∀ s, P s → (f s).Ensures P' Q) :
    (o.andThen f).Ensures P' Q := by
  cases hp : o.panicked with
  | true =>
    rw [andThen_of_panicked hp]
    exact h.mono hP fun _ _ _ hQ => hQ
  | false =>
    rw [andThen_of_not_panicked hp]
    refine ⟨(hf _ (h.server hp)).server, fun hmem => ?_⟩
    rcases List.mem_append.1 hmem with hmem | hmem
    · exact ⟨hP _ (h.sends hmem).1, (h.sends hmem).2⟩
    · exact (hf _ (h.server hp)).sends hmem

theorem silent_andThen (h : o.Ensures P fun _ _ => False) (hf : ∀ s, P s → (f s).Ensures P' Q) :
    (o.andThen f).Ensures P' Q := by
  cases hp : o.panicked with
  | true =>
    rw [andThen_of_panicked hp]
    exact ⟨fun h' => by simp [hp] at h', fun hmem => (h.sends hmem).2.elim⟩
  | false =>
    rw [andThen_of_not_panicked hp]
    refine ⟨(hf _ (h.server hp)).server, fun hmem => ?_⟩
    rcases List.mem_append.1 hmem with hmem | hmem
    · exact (h.sends hmem).2.elim
    · exact (hf _ (h.server hp)).sends hmem

theorem cut {k : ℕ} {o' : Outcome σ} (h : o.Ensures P Q) (hk : o.cut k = some o') :
    o'.Ensures P Q := by
  obtain ⟨out, snap, hget, rfl⟩ := cut_eq_some_iff.1 hk
  exact ⟨fun _ => (h.sends (List.mem_of_getElem? hget)).1,
    fun hmem => h.sends (List.mem_of_mem_take hmem)⟩

end Ensures

/-- Every entry that `o` hands to the state machine, by its index and command, satisfies `A`. -/
structure Calls (o : Outcome σ) (A : ℕ → LogCommand → Prop) : Prop where
  apply : ∀ {index : ℕ} {command : LogCommand} {ok : Bool},
    .apply index command ok ∈ o.effects → A index command

namespace Calls

variable {A A' : ℕ → LogCommand → Prop} {o : Outcome σ} {f : Server σ → Outcome σ}

theorem of_effects_eq_nil (h : o.effects = []) : o.Calls A := ⟨fun hmem => by simp [h] at hmem⟩

theorem send (s : Server σ) (out : Outgoing) : (Outcome.send s out).Calls A :=
  ⟨fun hmem => by simp at hmem⟩

theorem mono (h : o.Calls A) (hA : ∀ i cmd, A i cmd → A' i cmd) : o.Calls A' :=
  ⟨fun hmem => hA _ _ (h.apply hmem)⟩

theorem andThen (h : o.Calls A) (hf : o.panicked = false → (f o.server).Calls A) :
    (o.andThen f).Calls A := by
  cases hp : o.panicked with
  | true =>
    rw [andThen_of_panicked hp]
    exact h
  | false =>
    rw [andThen_of_not_panicked hp]
    refine ⟨fun hmem => ?_⟩
    rcases List.mem_append.1 hmem with hmem | hmem
    · exact h.apply hmem
    · exact (hf hp).apply hmem

theorem cut {k : ℕ} {o' : Outcome σ} (h : o.Calls A) (hk : o.cut k = some o') : o'.Calls A := by
  obtain ⟨out, snap, -, rfl⟩ := cut_eq_some_iff.1 hk
  exact ⟨fun hmem => h.apply (List.mem_of_mem_take hmem)⟩

end Calls

/-- As soon as `o` applies a command, the server satisfies `C` for it at each send, and at the end
unless `o` panics. -/
structure Covers (o : Outcome σ) (C : ℕ → LogCommand → Server σ → Prop) : Prop where
  ensures : ∀ {index : ℕ} {command : LogCommand} {ok : Bool}, .apply index command ok ∈ o.effects →
    o.Ensures (C index command) fun _ _ => True

namespace Covers

variable {o o' : Outcome σ} {C : ℕ → LogCommand → Server σ → Prop} {f : Server σ → Outcome σ}

theorem of_effects_eq_nil (h : o.effects = []) : o.Covers C := ⟨fun hmem => by simp [h] at hmem⟩

theorem of_calls (h : o.Calls fun _ _ => False) : o.Covers C := ⟨fun hmem => (h.apply hmem).elim⟩

theorem of_ensures {A : ℕ → LogCommand → Prop} {P : Server σ → Prop}
    {Q : Outgoing → Server σ → Prop} (hcalls : o.Calls A) (hens : o.Ensures P Q)
    (h : ∀ index command s, A index command → P s → C index command s) : o.Covers C :=
  ⟨fun hmem => hens.mono (fun s hs => h _ _ s (hcalls.apply hmem) hs) fun _ _ _ _ => trivial⟩

theorem silent_andThen (h : o.effects = []) (hf : o.panicked = false → (f o.server).Covers C) :
    (o.andThen f).Covers C := by
  cases hp : o.panicked with
  | true =>
    rw [andThen_of_panicked hp]
    exact .of_effects_eq_nil h
  | false =>
    rw [andThen_of_not_panicked hp, h, List.nil_append]
    exact hf hp

theorem cut {k : ℕ} (h : o.Covers C) (hk : o.cut k = some o') : o'.Covers C := by
  refine ⟨fun {index command ok} hmem => ?_⟩
  have hmem' : .apply index command ok ∈ o.effects := by
    obtain ⟨out, snap, -, rfl⟩ := cut_eq_some_iff.1 hk
    exact List.mem_of_mem_take hmem
  exact (h.ensures hmem').cut hk

end Covers

end Outcome

namespace Server

/-! ### Applying the log -/

variable [StateMachine σ]

theorem applyLoop_spec (n : ℕ) (s : Server σ) :
    (∃ sm, ∃ k ≤ n, (s.applyLoop n).server =
      { s with stateMachine := sm, lastApplied := s.lastApplied + k }) ∧
    (s.applyLoop n).panicked = false ∧
    ∀ ef ∈ (s.applyLoop n).effects, ∃ j : ℕ, 1 ≤ j ∧ j ≤ n ∧
      ∃ entry, s.log[asUsize (s.lastApplied + j)]? = some entry ∧
        ∃ ok, ef = .apply (asUsize (s.lastApplied + j)) entry.command ok := by
  induction n generalizing s with
  | zero => exact ⟨⟨s.stateMachine, 0, Nat.le_refl _, by simp [applyLoop]⟩, rfl, by simp [applyLoop]⟩
  | succ n ih =>
    unfold applyLoop
    split
    · exact ⟨⟨s.stateMachine, 0, by omega, by simp⟩, rfl, by simp⟩
    · rename_i entry hentry
      split
      · rename_i sm _
        refine ⟨⟨sm, 0, by omega, by simp⟩, rfl, ?_⟩
        simp only [List.mem_singleton, forall_eq]
        exact ⟨1, Nat.le_refl _, by omega, entry, by simpa using hentry, false, by simp⟩
      · rename_i sm _
        obtain ⟨⟨sm', k, hk, hs⟩, hp, heff⟩ :=
          ih { s with stateMachine := sm, lastApplied := s.lastApplied + 1 }
        rw [Outcome.andThen_of_not_panicked rfl]
        refine ⟨⟨sm', k + 1, by omega, ?_⟩, hp, fun ef hef => ?_⟩
        · rw [hs]
          simp only [Server.mk.injEq, true_and, and_true]
          push_cast; omega
        · rcases List.mem_append.1 hef with hef | hef
          · simp only [List.mem_singleton] at hef
            exact ⟨1, Nat.le_refl _, by omega, entry, by simpa using hentry, true, by simpa using hef⟩
          · obtain ⟨j, hj₁, hj₂, entry', hentry', ok, hok⟩ := heff ef hef
            have e : s.lastApplied + 1 + (j : ℤ) = s.lastApplied + ((j + 1 : ℕ) : ℤ) := by
              push_cast; omega
            rw [e] at hentry' hok
            exact ⟨j + 1, by omega, by omega, entry', hentry', ok, hok⟩

/-- The commit index `apply_latest_commited_logs` goes on with. -/
def clampCommit (s : Server σ) (leaderCommit : ℤ) : ℤ :=
  if leaderCommit > s.commitIndex ∧ s.log ≠ [] then min leaderCommit (s.log.length - 1)
  else s.commitIndex

omit [StateMachine σ] in
theorem lenMinusOne_of_lt {s : Server σ} (h : s.log.length < 2 ^ 31) :
    s.lenMinusOne = some ((s.log.length : ℤ) - 1) := by
  unfold lenMinusOne
  rw [asI32_of_lt h]
  exact checkedI32_of_mem (by omega) (by omega)

/-- The call on a log of fewer than `2 ^ 31` entries clamps the commit index to the log. -/
theorem applyLatestCommitedLogs_of_lt {s : Server σ} (hlen : s.log.length < 2 ^ 31) (lc : ℤ) :
    s.applyLatestCommitedLogs lc = { s with commitIndex := s.clampCommit lc }.applyCommitted := by
  unfold applyLatestCommitedLogs clampCommit
  rw [lenMinusOne_of_lt hlen]
  by_cases h : lc > s.commitIndex
  · by_cases hnil : s.log = []
    · simp only [h, hnil, ne_eq, not_true_eq_false, and_false, ↓reduceIte]
      exact congrArg applyCommitted (by rw [← hnil])
    · have hpos : 0 < s.log.length := List.length_pos_iff.2 hnil
      have : (0 : ℤ) ≤ (s.log.length : ℤ) - 1 := by omega
      simp only [h, hnil, this, ne_eq, not_false_eq_true, and_self, ↓reduceIte]
  · simp [h]

/-- `lastApplied` moves up to at most the commit index, and every entry applied is the log entry at
its index. -/
theorem applyLatestCommitedLogs_spec {s : Server σ} (hlen : s.log.length < 2 ^ 31) (lc : ℤ) :
    (∃ sm, ∃ k ≤ (s.clampCommit lc - s.lastApplied).toNat,
      (s.applyLatestCommitedLogs lc).server = { s with
        stateMachine := sm
        commitIndex := s.clampCommit lc
        lastApplied := s.lastApplied + k }) ∧
    (s.applyLatestCommitedLogs lc).panicked = false ∧
    ∀ ef ∈ (s.applyLatestCommitedLogs lc).effects,
      ∃ j : ℕ, 1 ≤ j ∧ j ≤ (s.clampCommit lc - s.lastApplied).toNat ∧
        ∃ entry, s.log[asUsize (s.lastApplied + j)]? = some entry ∧
          ∃ ok, ef = .apply (asUsize (s.lastApplied + j)) entry.command ok := by
  rw [applyLatestCommitedLogs_of_lt hlen]
  obtain ⟨⟨sm, k, hk, hs⟩, hp, heff⟩ :=
    applyLoop_spec (s.clampCommit lc - s.lastApplied).toNat { s with commitIndex := s.clampCommit lc }
  exact ⟨⟨sm, k, hk, hs⟩, hp, heff⟩

theorem send_notMem_applyLoop (n : ℕ) (s : Server σ) {out : Outgoing} {snap : Server σ} :
    .send out snap ∉ (s.applyLoop n).effects := by
  intro hmem
  obtain ⟨j, -, -, entry, -, ok, h⟩ := (applyLoop_spec n s).2.2 _ hmem
  cases h

theorem send_notMem_applyLatestCommitedLogs (s : Server σ) (lc : ℤ) {out : Outgoing}
    {snap : Server σ} : .send out snap ∉ (s.applyLatestCommitedLogs lc).effects := by
  unfold applyLatestCommitedLogs
  split
  · split
    · simp
    · split
      · exact send_notMem_applyLoop _ _
      · exact send_notMem_applyLoop _ _
  · exact send_notMem_applyLoop _ _

theorem applyLatestCommitedLogs_self (s : Server σ) :
    s.applyLatestCommitedLogs s.commitIndex = s.applyCommitted := by
  simp [applyLatestCommitedLogs]

theorem applyCommitted_ensures (s : Server σ) (Q : Outgoing → Server σ → Prop) :
    s.applyCommitted.Ensures
      (fun s' => ∃ sm la, s' = { s with stateMachine := sm, lastApplied := la } ∧
        s.lastApplied ≤ la ∧ la ≤ max s.lastApplied s.commitIndex) Q := by
  refine ⟨fun _ => ?_, fun hmem => absurd hmem (send_notMem_applyLoop _ _)⟩
  obtain ⟨⟨sm, k, hk, h⟩, -⟩ := applyLoop_spec (s.commitIndex - s.lastApplied).toNat s
  exact ⟨sm, _, h, by omega, by omega⟩

/-- The commit index and `last_applied` that `apply_latest_commited_logs` leaves. -/
def Advances (s : Server σ) (lc ci la : ℤ) : Prop :=
  s.log.length < 2 ^ 31 →
    ci = s.clampCommit lc ∧ s.lastApplied ≤ la ∧ la ≤ max s.lastApplied (s.clampCommit lc)

theorem applyLatestCommitedLogs_ensures (s : Server σ) (lc : ℤ)
    (Q : Outgoing → Server σ → Prop) :
    (s.applyLatestCommitedLogs lc).Ensures
      (fun s' => ∃ sm ci la, s' =
        { s with stateMachine := sm, commitIndex := ci, lastApplied := la } ∧
          s.Advances lc ci la) Q := by
  refine ⟨fun _ => ?_, fun hmem => absurd hmem (send_notMem_applyLatestCommitedLogs _ _)⟩
  by_cases hlen : s.log.length < 2 ^ 31
  · obtain ⟨⟨sm, k, hk, h⟩, -⟩ := applyLatestCommitedLogs_spec hlen lc
    exact ⟨sm, _, _, h, fun _ => ⟨rfl, by omega, by omega⟩⟩
  · have key : ∀ s' : Server σ, (∃ ci, s' = { s with commitIndex := ci }) →
        ∃ sm ci la, s'.applyCommitted.server =
          { s with stateMachine := sm, commitIndex := ci, lastApplied := la } := by
      rintro _ ⟨ci, rfl⟩
      obtain ⟨sm, la, h, -⟩ :=
        ({ s with commitIndex := ci }.applyCommitted_ensures fun _ _ => True).server
          (applyLoop_spec _ _).2.1
      exact ⟨sm, ci, la, h⟩
    suffices h : ∃ sm ci la, (s.applyLatestCommitedLogs lc).server =
        { s with stateMachine := sm, commitIndex := ci, lastApplied := la } by
      obtain ⟨sm, ci, la, h⟩ := h
      exact ⟨sm, ci, la, h, fun h => absurd h hlen⟩
    unfold applyLatestCommitedLogs
    split
    · split
      · exact ⟨_, _, _, rfl⟩
      · split
        · exact key _ ⟨_, rfl⟩
        · exact key _ ⟨_, rfl⟩
    · exact key _ ⟨_, rfl⟩

end Server

end MiniRaft
