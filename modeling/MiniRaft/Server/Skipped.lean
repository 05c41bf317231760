import MiniRaft.Server.Cancellation

/-!
# Entries that are skipped

Two paths advance `last_applied`: the loop of `apply_latest_commited_logs`, one entry after the
other and not past one that fails, and the end of `handle_append_entries_response`, which sets it to
the commit index whatever the calls before it returned.

* `Server.SkipsNothing` : every index that `last_applied` moves past has been applied.
* `Server.applyLoop_skipsNothing` : the loop skips nothing.
* `Server.overcomes_of_succeed` : calls that do not fail are enough for what is committed.
* `Server.skipsNothing_iff` : a handler does not either, unless calls for what it commits fail too
  often.
* `Server.never_skips_iff` : the runs in which no entry is skipped.
-/

namespace MiniRaft

variable {σ : Type}

namespace Server

/-! ### What may not be skipped -/

/-- The entries past `last_applied` up to `la` are among those applied. -/
def Passes (s : Server σ) (la : ℤ) (effects : List (Effect σ)) : Prop :=
  ∀ k, s.lastApplied < k → k ≤ la → ∃ entry, s.log[asUsize k]? = some entry ∧
    .apply (asUsize k) entry.command true ∈ effects

theorem Passes.of_le_lastApplied {s : Server σ} {la : ℤ} {effects : List (Effect σ)}
    (h : la ≤ s.lastApplied) : s.Passes la effects := fun k hk hk' => by omega

theorem Passes.of_le {s : Server σ} {la la' : ℤ} {effects : List (Effect σ)}
    (h : s.Passes la effects) (hle : la' ≤ la) : s.Passes la' effects :=
  fun k hk hk' => h k hk (Int.le_trans hk' hle)

theorem Passes.append {s s' : Server σ} {la : ℤ} {effects effects' : List (Effect σ)}
    (h : s.Passes s'.lastApplied effects) (hlog : s'.log = s.log) (h' : s'.Passes la effects') :
    s.Passes la (effects ++ effects') := by
  intro k hk hk'
  rcases Int.lt_or_le s'.lastApplied k with hlt | hle
  · obtain ⟨entry, hentry, hmem⟩ := h' k hlt hk'
    rw [hlog] at hentry
    exact ⟨entry, hentry, List.mem_append_right _ hmem⟩
  · obtain ⟨entry, hentry, hmem⟩ := h k hk hle
    exact ⟨entry, hentry, List.mem_append_left _ hmem⟩

theorem Passes.mono {s : Server σ} {la : ℤ} {effects effects' : List (Effect σ)}
    (h : s.Passes la effects) (hsub : effects ⊆ effects') : s.Passes la effects' := by
  intro k hk hk'
  obtain ⟨entry, hentry, hmem⟩ := h k hk hk'
  exact ⟨entry, hentry, hsub hmem⟩

/-- What a client is told is done has been applied: the entry at the commit index, unless it lies
behind `last_applied` already. -/
def Vouched (s : Server σ) (out : Outgoing) (snap : Server σ) (effects : List (Effect σ)) : Prop :=
  ∀ id requestId, out = ⟨.client id, .clientResponse (.setSuccess requestId)⟩ →
    ∃ entry, s.log[asUsize snap.commitIndex]? = some entry ∧ entry.requestId = requestId ∧
      (snap.commitIndex ≤ s.lastApplied ∨
        .apply (asUsize snap.commitIndex) entry.command true ∈ effects)

theorem Vouched.mono {s snap : Server σ} {out : Outgoing} {effects effects' : List (Effect σ)}
    (h : s.Vouched out snap effects) (hsub : effects ⊆ effects') : s.Vouched out snap effects' := by
  intro id requestId heq
  obtain ⟨entry, hentry, hid, hmem⟩ := h id requestId heq
  exact ⟨entry, hentry, hid, hmem.imp_right fun hmem => hsub hmem⟩

/-- From `s` on, `last_applied` has moved past no index whose entry has not been applied, neither at
the end nor at a send; and no client has been told of a Set that has not been applied. -/
structure SkipsNothing (s : Server σ) (o : Outcome σ) : Prop where
  passes : s.Passes o.server.lastApplied o.effects
  sends : ∀ {j : ℕ} {out : Outgoing} {snap : Server σ}, o.effects[j]? = some (.send out snap) →
    s.Passes snap.lastApplied (o.effects.take j) ∧ s.Vouched out snap (o.effects.take j)

theorem SkipsNothing.cut {s : Server σ} {o o' : Outcome σ} {k : ℕ} (h : s.SkipsNothing o)
    (hk : o.cut k = some o') : s.SkipsNothing o' := by
  obtain ⟨out, snap, hget, rfl⟩ := Outcome.cut_eq_some_iff.1 hk
  refine ⟨(h.sends hget).1, fun {j out' snap'} hj => ?_⟩
  have hjk : j < k := by
    have := (List.getElem?_eq_some_iff.1 hj).1
    rw [List.length_take] at this
    omega
  have hj : (o.effects.take k)[j]? = some (.send out' snap') := hj
  rw [List.getElem?_take_of_lt hjk] at hj
  show s.Passes _ ((o.effects.take k).take j) ∧ s.Vouched _ _ ((o.effects.take k).take j)
  rw [List.take_take, Nat.min_eq_left (Nat.le_of_lt hjk)]
  exact h.sends hj

/-- `last_applied` stays, and no client is answered. -/
structure MovesNothing (s : Server σ) (o : Outcome σ) : Prop where
  lastApplied : o.server.lastApplied = s.lastApplied
  sends : ∀ {out : Outgoing} {snap : Server σ}, .send out snap ∈ o.effects →
    snap.lastApplied = s.lastApplied ∧ ∀ id, out.dest ≠ .client id

namespace MovesNothing

variable {s s' : Server σ} {o : Outcome σ} {f : Server σ → Outcome σ}

theorem of_silent (hla : o.server.lastApplied = s.lastApplied) (h : o.effects = []) :
    s.MovesNothing o :=
  ⟨hla, fun hmem => by simp [h] at hmem⟩

theorem done (h : s'.lastApplied = s.lastApplied) : s.MovesNothing (.done s') := .of_silent h rfl

theorem panic (h : s'.lastApplied = s.lastApplied) : s.MovesNothing (.panic s') := .of_silent h rfl

theorem send {out : Outgoing} (h : s'.lastApplied = s.lastApplied)
    (hout : ∀ id, out.dest ≠ .client id) : s.MovesNothing (.send s' out) := by
  refine ⟨h, fun hmem => ?_⟩
  rw [Outcome.send_effects, List.mem_singleton, Effect.send.injEq] at hmem
  obtain ⟨rfl, rfl⟩ := hmem
  exact ⟨h, hout⟩

theorem andThen (h : s.MovesNothing o)
    (hf : ∀ s', s'.lastApplied = s.lastApplied → s.MovesNothing (f s')) :
    s.MovesNothing (o.andThen f) := by
  cases hp : o.panicked with
  | true =>
    rw [Outcome.andThen_of_panicked hp]
    exact h
  | false =>
    rw [Outcome.andThen_of_not_panicked hp]
    have hrest := hf o.server h.lastApplied
    refine ⟨hrest.lastApplied, fun hmem => ?_⟩
    rcases List.mem_append.1 hmem with hmem | hmem
    · exact h.sends hmem
    · exact hrest.sends hmem

theorem skipsNothing (h : s.MovesNothing o) : s.SkipsNothing o := by
  refine ⟨.of_le_lastApplied (Int.le_of_eq h.lastApplied), fun hget => ?_⟩
  obtain ⟨hla, hdest⟩ := h.sends (List.mem_of_getElem? hget)
  refine ⟨.of_le_lastApplied (Int.le_of_eq hla), fun id requestId heq => ?_⟩
  rw [heq] at hdest
  exact absurd rfl (hdest id)

end MovesNothing

/-- What follows a part that skips nothing may answer clients, as long as it does not move
`last_applied` further. -/
theorem SkipsNothing.andThen_of_le {s : Server σ} {o : Outcome σ} {f : Server σ → Outcome σ}
    (h : s.SkipsNothing o) (hla : (f o.server).server.lastApplied ≤ o.server.lastApplied)
    (hsends : ∀ {out : Outgoing} {snap : Server σ}, .send out snap ∈ (f o.server).effects →
      snap.lastApplied ≤ o.server.lastApplied ∧ s.Vouched out snap o.effects) :
    s.SkipsNothing (o.andThen f) := by
  cases hp : o.panicked with
  | true =>
    rw [Outcome.andThen_of_panicked hp]
    exact h
  | false =>
    rw [Outcome.andThen_of_not_panicked hp]
    refine ⟨?_, fun {j out snap} hget => ?_⟩
    · exact (h.passes.of_le hla).mono (List.subset_append_left _ _)
    · have hget : (o.effects ++ (f o.server).effects)[j]? = some (.send out snap) := hget
      show s.Passes _ ((o.effects ++ (f o.server).effects).take j) ∧
        s.Vouched _ _ ((o.effects ++ (f o.server).effects).take j)
      rcases Nat.lt_or_ge j o.effects.length with hlt | hge
      · rw [List.getElem?_append_left hlt] at hget
        rw [List.take_append_of_le_length (Nat.le_of_lt hlt)]
        exact h.sends hget
      · rw [List.getElem?_append_right hge] at hget
        obtain ⟨hle, hvouched⟩ := hsends (List.mem_of_getElem? hget)
        have hsub : o.effects ⊆ (o.effects ++ (f o.server).effects).take j := fun ef hef => by
          rw [List.take_append]
          exact List.mem_append_left _ (by rwa [List.take_of_length_le hge])
        exact ⟨(h.passes.of_le hle).mono hsub, hvouched.mono hsub⟩

theorem SkipsNothing.andThen {s : Server σ} {o : Outcome σ} {f : Server σ → Outcome σ}
    (h : s.SkipsNothing o) (hf : o.server.MovesNothing (f o.server)) :
    s.SkipsNothing (o.andThen f) := by
  refine h.andThen_of_le (Int.le_of_eq hf.lastApplied) fun hmem => ?_
  obtain ⟨hla, hdest⟩ := hf.sends hmem
  refine ⟨Int.le_of_eq hla, fun id requestId heq => ?_⟩
  rw [heq] at hdest
  exact absurd rfl (hdest id)

variable [StateMachine σ]

/-! ### The apply loop -/

/-- **The loop skips nothing.** -/
theorem applyLoop_skipsNothing (n : ℕ) (s : Server σ) : s.SkipsNothing (s.applyLoop n) := by
  refine ⟨?_, fun hget => absurd (List.mem_of_getElem? hget) (send_notMem_applyLoop n s)⟩
  induction n generalizing s with
  | zero => exact .of_le_lastApplied (Int.le_refl _)
  | succ n ih =>
    unfold applyLoop
    split
    · exact .of_le_lastApplied (Int.le_refl _)
    · rename_i entry hentry
      split
      · exact .of_le_lastApplied (Int.le_refl _)
      · rename_i sm _
        rw [Outcome.andThen_of_not_panicked rfl]
        let s' : Server σ := { s with stateMachine := sm, lastApplied := s.lastApplied + 1 }
        have hfirst : s.Passes s'.lastApplied
            [.apply (asUsize (s.lastApplied + 1)) entry.command true] := by
          intro k hk hk'
          obtain rfl : k = s.lastApplied + 1 := Int.le_antisymm hk' hk
          exact ⟨entry, hentry, List.mem_cons_self⟩
        exact hfirst.append rfl (ih s')

theorem applyLatestCommitedLogs_skipsNothing (s : Server σ) (lc : ℤ) :
    s.SkipsNothing (s.applyLatestCommitedLogs lc) := by
  rw [applyLatestCommitedLogs_eq]
  cases s.raisedCommit lc with
  | none => exact (MovesNothing.panic rfl).skipsNothing
  | some ci =>
    have h := applyLoop_skipsNothing (ci - s.lastApplied).toNat { s with commitIndex := ci }
    exact ⟨h.passes, h.sends⟩

/-! ### Handlers without an answer to a client -/

theorem acceptAppendEntries_skipsNothing (s : Server σ) (msg : AppendEntries) (nodeId : NodeId) :
    s.SkipsNothing (s.acceptAppendEntries msg nodeId) := by
  refine (s.applyLatestCommitedLogs_skipsNothing msg.leaderCommit).andThen ?_
  generalize (s.applyLatestCommitedLogs msg.leaderCommit).server = s'
  split_ifs
  · exact .done rfl
  · refine MovesNothing.andThen ?_ fun s'' hla => ?_
    · unfold deleteConflictingAndAppendNewEntries
      split
      · exact .panic rfl
      · exact .done rfl
    · unfold commitAndReply
      split
      · exact .done hla
      · refine .send ?_ fun id h => by cases h
        split_ifs
        · exact hla
        · exact hla

theorem handleAppendEntries_skipsNothing (s : Server σ) (sender : Id) (msg : AppendEntries) :
    s.SkipsNothing (s.handleAppendEntries sender msg) := by
  cases sender with
  | client _ => exact (MovesNothing.done rfl).skipsNothing
  | peer nodeId =>
    rcases s.handleAppendEntries_cases nodeId msg with ⟨-, heq⟩ | ⟨-, -, -, heq⟩ | ⟨-, heq⟩
    · rw [heq]
      exact (MovesNothing.send rfl fun id h => by cases h).skipsNothing
    · rw [heq]
      have h : s.MovesNothing (.done (s.becomeFollower msg.term)) := .done rfl
      exact h.skipsNothing
    · rw [heq]
      have h := acceptAppendEntries_skipsNothing { s with currentTerm := msg.term } msg nodeId
      exact ⟨h.passes, h.sends⟩

omit [StateMachine σ] in
theorem handleRequestVoteRpc_movesNothing (s : Server σ) (msg : RequestVote) :
    s.MovesNothing (s.handleRequestVoteRpc msg) := by
  rcases s.handleRequestVoteRpc_cases msg with ⟨-, heq⟩ | ⟨-, -, heq⟩ | ⟨-, -, heq⟩
  · rw [heq]
    exact .send rfl fun id h => by cases h
  · rw [heq]
    exact .send rfl fun id h => by cases h
  · rw [heq]
    exact .panic rfl

omit [StateMachine σ] in
theorem handleRequestVoteResponseRpc_lastApplied (s : Server σ) (msg : RequestVoteResponse) :
    (s.handleRequestVoteResponseRpc msg).lastApplied = s.lastApplied := by
  unfold handleRequestVoteResponseRpc
  split
  · split_ifs
    · rfl
    · rfl
    · rfl
    · rfl
  · rfl

omit [StateMachine σ] in
theorem broadcastEntry_movesNothing (s : Server σ) {s' : Server σ} (logEntry : LogEntry)
    (ni : List ℕ) (peers : List NodeId) (hla : s'.lastApplied = s.lastApplied) :
    s.MovesNothing (broadcastEntry logEntry ni peers s') := by
  induction peers generalizing s' with
  | nil => exact .done hla
  | cons peer peers ih =>
    unfold broadcastEntry
    split_ifs
    · exact ih hla
    · refine MovesNothing.andThen ?_ fun s'' hla' => ih hla'
      rcases s'.sendEntryFor_cases logEntry ni peer with heq | ⟨_, _, -, -, -, heq⟩
      · rw [heq]
        exact .panic hla
      · rw [heq]
        exact .send hla fun id h => by cases h

omit [StateMachine σ] in
theorem handleClientRequest_movesNothing (s : Server σ) (order : List NodeId)
    (req : ClientRequest) : s.MovesNothing (s.handleClientRequest order req) := by
  unfold handleClientRequest
  split
  · split
    · unfold handleSetCommand
      split
      · exact broadcastEntry_movesNothing s _ _ order rfl
      · exact .done rfl
    · exact .done rfl
  · exact .done rfl

theorem advanceCommit_false_movesNothing (s : Server σ) : s.MovesNothing (s.advanceCommit false) :=
  .of_silent s.advanceCommit_false_lastApplied s.advanceCommit_false_effects

theorem retry_movesNothing (s : Server σ) (mi : List ℤ) (ni : List ℕ) (i : NodeId) :
    s.MovesNothing ((s.retryFollower mi ni i).andThen fun s => s.advanceCommit false) := by
  refine MovesNothing.andThen ?_ fun s' hla => ?_
  · rcases s.retryFollower_cases mi ni i with ⟨st, heq⟩ | ⟨_, _, -, -, -, heq⟩
    · rw [heq]
      exact .panic rfl
    · rw [heq]
      exact .send rfl fun id h => by cases h
  · have h := s'.advanceCommit_false_movesNothing
    exact ⟨h.lastApplied.trans hla, fun hmem => ⟨(h.sends hmem).1.trans hla, (h.sends hmem).2⟩⟩

/-! ### The role loops -/

omit [StateMachine σ] in
theorem sendRequestVoteRpcToPeers_movesNothing (s : Server σ) {s' : Server σ}
    (hla : s'.lastApplied = s.lastApplied) : s.MovesNothing s'.sendRequestVoteRpcToPeers := by
  unfold sendRequestVoteRpcToPeers
  split
  · exact .panic hla
  · exact .send hla fun id h => by cases h

omit [StateMachine σ] in
theorem sendHeartbeat_movesNothing (s : Server σ) {s' : Server σ}
    (hla : s'.lastApplied = s.lastApplied) : s.MovesNothing s'.sendHeartbeat := by
  unfold sendHeartbeat
  split
  · exact .panic hla
  · exact .send hla fun id h => by cases h

theorem run_skipsNothing (s : Server σ) : s.SkipsNothing s.run := by
  have hloop := s.applyLatestCommitedLogs_skipsNothing s.commitIndex
  unfold run
  split
  · exact hloop
  · refine MovesNothing.skipsNothing (MovesNothing.andThen ?_ fun s' hla =>
      s.sendRequestVoteRpcToPeers_movesNothing hla)
    unfold becomeCandidate
    split_ifs
    · exact .done rfl
    · exact .panic rfl
  · rw [leader, Outcome.andThen_assoc]
    refine hloop.andThen ?_
    exact (sendHeartbeat_movesNothing _ rfl).andThen fun s' hla => .done hla

theorem afterRpc_skipsNothing (role : RaftState) (s : Server σ) :
    s.SkipsNothing (s.afterRpc role) := by
  cases role with
  | follower => exact s.run_skipsNothing
  | candidate votesReceived =>
    unfold afterRpc
    dsimp only
    split_ifs
    · exact (s.sendRequestVoteRpcToPeers_movesNothing rfl).skipsNothing
    · exact s.run_skipsNothing
  | leader mi ni =>
    unfold afterRpc
    dsimp only
    split_ifs
    · exact (MovesNothing.done rfl).skipsNothing
    · exact s.run_skipsNothing

theorem afterTimer_skipsNothing (role : RaftState) (s : Server σ) :
    s.SkipsNothing (s.afterTimer role) := by
  cases role with
  | follower =>
    have h := run_skipsNothing { s with state := .candidate 0 }
    exact ⟨h.passes, h.sends⟩
  | candidate _ => exact (s.sendRequestVoteRpcToPeers_movesNothing rfl).skipsNothing
  | leader _ _ => exact (s.sendHeartbeat_movesNothing rfl).skipsNothing

/-! ### The calls for what a success commits -/

theorem applyRepeatedly_skipsNothing (n : ℕ) (s : Server σ) :
    s.SkipsNothing (applyRepeatedly s.commitIndex n s) := by
  refine ⟨?_, fun hget => ?_⟩
  · induction n generalizing s with
    | zero => exact .of_le_lastApplied (Int.le_refl _)
    | succ n ih =>
      obtain ⟨sm, la, -, hserver, heq⟩ := applyRepeatedly_succ n s
      let s' : Server σ := { s with stateMachine := sm, lastApplied := la }
      have hfirst : s.Passes s.applyCommitted.server.lastApplied s.applyCommitted.effects :=
        (applyLoop_skipsNothing _ s).passes
      rw [show s.applyCommitted.server = s' from hserver] at hfirst
      rw [heq]
      exact hfirst.append rfl (ih s')
  · have hensures := applyRepeatedly_ensures n s fun _ _ => False
    exact (hensures.sends (List.mem_of_getElem? hget)).2.elim

theorem apply_mem_applyLoop {n : ℕ} {s : Server σ} {i : ℕ} {command : LogCommand}
    (h : .apply i command true ∈ (s.applyLoop n).effects) :
    ∃ k, s.lastApplied < k ∧ k ≤ (s.applyLoop n).server.lastApplied ∧ i = asUsize k := by
  induction n generalizing s with
  | zero => cases h
  | succ n ih =>
    unfold applyLoop at h ⊢
    split at h
    · cases h
    · rename_i entry _
      split at h
      · rw [List.mem_singleton] at h
        cases h
      · rename_i sm _
        rw [Outcome.andThen_of_not_panicked rfl] at h ⊢
        let s' : Server σ := { s with stateMachine := sm, lastApplied := s.lastApplied + 1 }
        rcases List.mem_append.1 h with h | h
        · rw [List.mem_singleton, Effect.apply.injEq] at h
          obtain ⟨⟨sm', k, -, heq⟩, -⟩ := applyLoop_spec n s'
          refine ⟨s.lastApplied + 1, by omega, ?_, h.1⟩
          show s.lastApplied + 1 ≤ (s'.applyLoop n).server.lastApplied
          rw [heq]
          show s.lastApplied + 1 ≤ s.lastApplied + 1 + (k : ℤ)
          omega
        · obtain ⟨k, hk, hk', hi⟩ := ih (s := s') h
          have hk : s.lastApplied + 1 < k := hk
          exact ⟨k, by omega, hk', hi⟩

theorem apply_mem_applyRepeatedly {n : ℕ} {s : Server σ} {i : ℕ} {command : LogCommand}
    (h : .apply i command true ∈ (applyRepeatedly s.commitIndex n s).effects) :
    ∃ k, s.lastApplied < k ∧
      k ≤ (applyRepeatedly s.commitIndex n s).server.lastApplied ∧ i = asUsize k := by
  induction n generalizing s with
  | zero => cases h
  | succ n ih =>
    obtain ⟨sm, la, hla, hserver, heq⟩ := applyRepeatedly_succ n s
    let s' : Server σ := { s with stateMachine := sm, lastApplied := la }
    rw [heq] at h ⊢
    have hmono : la ≤ (applyRepeatedly s'.commitIndex n s').server.lastApplied := by
      obtain ⟨sm', la', heq', hla'⟩ :=
        (applyRepeatedly_ensures n s' fun _ _ => True).server (applyRepeatedly_not_panicked n s')
      rw [heq']
      exact hla'
    rcases List.mem_append.1 h with h | h
    · obtain ⟨k, hk, hk', hi⟩ := apply_mem_applyLoop h
      have hk' : k ≤ s.applyCommitted.server.lastApplied := hk'
      rw [hserver] at hk'
      exact ⟨k, hk, Int.le_trans hk' hmono, hi⟩
    · obtain ⟨k, hk, hk', hi⟩ := ih (s := s') h
      exact ⟨k, Int.lt_of_le_of_lt hla hk, hk', hi⟩

/-- The rounds reach the commit index just if as many attempts overcome what they find. -/
theorem overcomes_iff_commitIndex_le {s : Server σ} {entries : List LogEntry}
    (h : HoldsFrom s.log (s.lastApplied + 1) entries)
    (hci : s.commitIndex = s.lastApplied + entries.length) (n : ℕ) :
    consumer.overcomes n s.stateMachine entries = true ↔
      s.commitIndex ≤ (applyRepeatedly s.commitIndex n s).server.lastApplied := by
  induction n generalizing s entries with
  | zero =>
    rw [Consumer.overcomes, List.isEmpty_iff, applyRepeatedly, Outcome.done_server]
    constructor
    · rintro rfl
      simpa using Int.le_of_eq hci
    · intro hla
      exact List.length_eq_zero_iff.1 (by omega)
  | succ n ih =>
    have hrounds : (s.commitIndex - s.lastApplied).toNat = entries.length := by omega
    have hserver := applyLoop_attempt h
    have hp : s.applyCommitted.panicked = false := (applyLoop_spec _ s).2.1
    have hle := Consumer.length_accepted_le (C := consumer) s.stateMachine entries
    rw [applyRepeatedly, applyLatestCommitedLogs_self, Outcome.andThen_of_not_panicked hp,
      Consumer.overcomes]
    unfold applyCommitted
    rw [hrounds, hserver]
    let s' : Server σ := { s with
      stateMachine := consumer.attempt s.stateMachine entries
      lastApplied := s.lastApplied + (consumer.accepted s.stateMachine entries).length }
    refine ih (s := s') ?_ ?_
    · have hdrop := h.drop (consumer.accepted s.stateMachine entries).length
      rw [show s'.lastApplied + 1 = s.lastApplied + 1 +
        ((consumer.accepted s.stateMachine entries).length : ℤ) by
          show s.lastApplied + _ + 1 = _
          omega]
      exact hdrop
    · show s.commitIndex = s.lastApplied + _ + _
      rw [List.length_drop]
      omega

omit [StateMachine σ] in
theorem exists_holdsFrom {log : List LogEntry} {i : ℤ} (m : ℕ)
    (h : ∀ k, i ≤ k → k < i + m → ∃ entry, log[asUsize k]? = some entry) :
    ∃ entries, entries.length = m ∧ HoldsFrom log i entries := by
  induction m generalizing i with
  | zero => exact ⟨[], rfl, trivial⟩
  | succ m ih =>
    obtain ⟨entry, hentry⟩ := h i (Int.le_refl _) (by omega)
    obtain ⟨entries, hlength, hholds⟩ := ih (i := i + 1) fun k hk hk' => h k (by omega) (by omega)
    exact ⟨entry :: entries, by rw [List.length_cons, hlength], hentry, hholds⟩

/-- The state machine takes every entry past `last_applied` up to `n`, in no more attempts than
there are entries, each of which starts over at the one refused last. -/
def Overcomes (s : Server σ) (n : ℤ) : Prop :=
  ∃ entries, entries.length = (n - s.lastApplied).toNat ∧
    HoldsFrom s.log (s.lastApplied + 1) entries ∧
    consumer.overcomes entries.length s.stateMachine entries = true

theorem overcomes_of_succeed {s : Server σ} {n : ℤ} {entries : List LogEntry}
    (hlength : entries.length = (n - s.lastApplied).toNat)
    (hholds : HoldsFrom s.log (s.lastApplied + 1) entries)
    (h : succeed s.stateMachine entries = true) : s.Overcomes n := by
  refine ⟨entries, hlength, hholds, ?_⟩
  cases entries with
  | nil => rfl
  | cons entry entries => exact Consumer.overcomes_of_accepted_eq _ (succeed_iff.1 h)

omit [StateMachine σ] in
theorem answerClient_lastApplied (s : Server σ) :
    s.answerClient.server.lastApplied = s.commitIndex := by
  obtain ⟨st, heq | heq | ⟨_, _, -, -, heq⟩⟩ := s.answerClient_cases
  · rw [heq, Outcome.panic_server]
  · rw [heq, Outcome.done_server]
  · rw [heq, Outcome.send_server]

omit [StateMachine σ] in
theorem mem_answerClient {s : Server σ} {ef : Effect σ} (h : ef ∈ s.answerClient.effects) :
    ∃ entry response s', s.log[asUsize s.commitIndex]? = some entry ∧
      clientResponse entry = some response ∧
      ef = .send ⟨.client entry.clientId, .clientResponse response⟩ s' ∧
      s'.lastApplied = s.commitIndex ∧ s'.commitIndex = s.commitIndex := by
  obtain ⟨st, heq | heq | ⟨entry, response, hentry, hresponse, heq⟩⟩ := s.answerClient_cases
  · rw [heq] at h
    cases h
  · rw [heq] at h
    cases h
  · rw [heq, Outcome.send_effects, List.mem_singleton] at h
    exact ⟨entry, response, _, hentry, hresponse, h, rfl, rfl⟩

theorem requestId_of_clientResponse {entry : LogEntry} {requestId : ℕ}
    (h : clientResponse entry = some (.setSuccess requestId)) : entry.requestId = requestId := by
  obtain ⟨term, command, index, clientId, requestId'⟩ := entry
  cases command with
  | set key value =>
    cases h
    rfl
  | get key => cases h
  | delete key => cases h

/-- A commit that skips nothing has been overcome: the call for the last entry is among the
effects. -/
theorem overcomes_of_passes {s : Server σ} (hla : -2 ^ 31 ≤ s.lastApplied + 1)
    (hci : s.commitIndex < 2 ^ 31)
    (h : s.Passes s.commitIndex
      ((applyRepeatedly s.commitIndex (s.commitIndex - s.lastApplied).toNat s).andThen
        answerClient).effects) : s.Overcomes s.commitIndex := by
  rcases Int.lt_or_le s.lastApplied s.commitIndex with hlt | hle
  · obtain ⟨entries, hlength, hholds⟩ : ∃ entries,
        entries.length = (s.commitIndex - s.lastApplied).toNat ∧
          HoldsFrom s.log (s.lastApplied + 1) entries := by
      refine exists_holdsFrom _ fun k hk hk' => ?_
      obtain ⟨entry, hentry, -⟩ := h k (by omega) (by omega)
      exact ⟨entry, hentry⟩
    refine ⟨entries, hlength, hholds, ?_⟩
    rw [overcomes_iff_commitIndex_le hholds (by omega), hlength]
    obtain ⟨entry, -, hmem⟩ := h s.commitIndex hlt (Int.le_refl _)
    rw [Outcome.andThen_of_not_panicked (applyRepeatedly_not_panicked _ s)] at hmem
    rcases List.mem_append.1 hmem with hmem | hmem
    · obtain ⟨k, hk, hk', hidx⟩ := apply_mem_applyRepeatedly hmem
      by_contra hnot
      have heq : s.commitIndex = k :=
        asUsize_inj (by omega) hci (by omega) (by omega) hidx
      omega
    · obtain ⟨_, _, _, -, -, hef, -⟩ := mem_answerClient hmem
      cases hef
  · have hzero : (s.commitIndex - s.lastApplied).toNat = 0 := by omega
    exact ⟨[], hzero.symm, trivial, rfl⟩

theorem skipsNothing_of_overcomes {s : Server σ} (h : s.Overcomes s.commitIndex) :
    s.SkipsNothing ((applyRepeatedly s.commitIndex (s.commitIndex - s.lastApplied).toNat s).andThen
      answerClient) := by
  obtain ⟨entries, hlength, hholds, hovercomes⟩ := h
  let rounds := applyRepeatedly s.commitIndex (s.commitIndex - s.lastApplied).toNat s
  have hskips : s.SkipsNothing rounds := applyRepeatedly_skipsNothing _ s
  obtain ⟨sm, la, heq, hla⟩ : ∃ sm la,
      rounds.server = { s with stateMachine := sm, lastApplied := la } ∧ s.lastApplied ≤ la :=
    (applyRepeatedly_ensures _ s fun _ _ => True).server (applyRepeatedly_not_panicked _ s)
  have hlog : rounds.server.log = s.log := by rw [heq]
  have hcommit : rounds.server.commitIndex = s.commitIndex := by rw [heq]
  have hreach : s.commitIndex ≤ rounds.server.lastApplied := by
    rcases Int.lt_or_le s.lastApplied s.commitIndex with hlt | hle
    · show _ ≤ (applyRepeatedly s.commitIndex _ s).server.lastApplied
      rw [← hlength]
      exact (overcomes_iff_commitIndex_le hholds (by omega) _).1 hovercomes
    · rw [heq]
      exact Int.le_trans hle hla
  refine hskips.andThen_of_le ?_ fun {out snap} hmem => ?_
  · rw [answerClient_lastApplied, hcommit]
    exact hreach
  · obtain ⟨entry, _, _, hentry, hresponse, hef, hla', hci⟩ := mem_answerClient hmem
    rw [Effect.send.injEq] at hef
    obtain ⟨rfl, rfl⟩ := hef
    rw [hcommit] at hla' hci hentry
    rw [hlog] at hentry
    rw [hla']
    refine ⟨hreach, fun id requestId hout => ⟨entry, ?_, ?_, ?_⟩⟩
    · rw [hci]
      exact hentry
    · rw [Outgoing.mk.injEq, Message.clientResponse.injEq] at hout
      rw [hout.2] at hresponse
      exact requestId_of_clientResponse hresponse
    · rw [hci]
      rcases Int.lt_or_le s.lastApplied s.commitIndex with hlt | hle
      · obtain ⟨entry', hentry', happly⟩ := hskips.passes s.commitIndex hlt hreach
        obtain rfl : entry = entry' := Option.some.inj (hentry.symm.trans hentry')
        exact .inr happly
      · exact .inl hle

/-! ### Handlers that commit -/

omit [StateMachine σ] in
/-- The commit loop of a leader with this `match_index` is to commit up to `n`: the first entry of
the current term past the commit index is the one there, and enough nodes hold it. -/
def ToCommit (s : Server σ) (mi : List ℤ) (n : ℤ) : Prop :=
  (checkedI32 (s.commitIndex + 1)).isSome = true ∧ ∃ lastIdx ∈ s.lastLogIndex,
    n ∈ rangeInclusive (s.commitIndex + 1) lastIdx ∧ s.Current n ∧ s.Enough mi n ∧
      ∀ m ∈ rangeInclusive (s.commitIndex + 1) lastIdx, m < n →
        (∃ entry, s.log[asUsize m]? = some entry) ∧ ¬ s.Current m

omit [StateMachine σ] in
/-- The message is an acknowledgement that makes the Leader commit up to `n` and apply. -/
inductive CommitsAt (s : Server σ) : Incoming → ℤ → Prop
  | success {peer : NodeId} {msg : AppendEntriesResponse} {mi : List ℤ} {ni : List ℕ}
      {lastSent n : ℤ} : s.state = .leader mi ni → msg.success = true → msg.term ≤ s.currentTerm →
      s.lastSentIndex[peer]? = some lastSent → peer < mi.length → peer < ni.length →
      asUsize lastSent + 1 < 2 ^ 64 → s.ToCommit (mi.set peer lastSent) n →
      (checkedI32 (s.lastApplied + 1)).isSome = true →
      CommitsAt s ⟨.peer peer, .appendEntriesResponse msg⟩ n

theorem advanceCommit_true_cases {s : Server σ} {mi : List ℤ} {ni : List ℕ}
    (hst : s.state = .leader mi ni) : s.MovesNothing (s.advanceCommit true) ∨
      ∃ n, s.ToCommit mi n ∧ (checkedI32 (s.lastApplied + 1)).isSome = true := by
  have hcases := s.advanceCommit_cases true
  generalize s.advanceCommit true = o at hcases
  cases hcases with
  | panic => exact .inl (.panic rfl)
  | idle => exact .inl (.done rfl)
  | keep => exact .inl (.done rfl)
  | raise _ hok => cases hok
  | @commit mi' ni' lastIdx n hfind _ happlied =>
    obtain ⟨rfl, -⟩ := RaftState.leader.inj (hfind.leader.symm.trans hst)
    have hcommit := (findCommit_eq_some_some_iff (rangeInclusive_pairwise _ _)).1 hfind.found
    exact .inr ⟨n, ⟨Option.isSome_of_eq_some hfind.start, lastIdx, hfind.last, hcommit⟩, happlied⟩

theorem ToCommit.advanceCommit {s : Server σ} {mi : List ℤ} {ni : List ℕ} {n : ℤ}
    (h : s.ToCommit mi n) (hst : s.state = .leader mi ni)
    (happlied : (checkedI32 (s.lastApplied + 1)).isSome = true) : s.advanceCommit true =
      (applyRepeatedly n (n - s.lastApplied).toNat { s with commitIndex := n }).andThen
        answerClient := by
  obtain ⟨hstart, lastIdx, hlast, hcommit⟩ := h
  obtain ⟨startIndex, hstart⟩ := Option.isSome_iff_exists.1 hstart
  obtain ⟨bound, happlied⟩ := Option.isSome_iff_exists.1 happlied
  obtain ⟨rfl, -⟩ := checkedI32_eq_some.1 hstart
  have hlast : (if s.log.isEmpty then some 0 else s.lenMinusOne) = some lastIdx := hlast
  have hfind := (findCommit_eq_some_some_iff (rangeInclusive_pairwise _ _)).2 hcommit
  unfold Server.advanceCommit
  simp only [hst, hlast, hstart, hfind, happlied, ↓reduceIte]

theorem CommitsAt.recieveRpc {s : Server σ} {incoming : Incoming} {n : ℤ}
    (h : s.CommitsAt incoming n) (order : List NodeId) :
    ∃ mi ni, s.recieveRpc order incoming = (applyRepeatedly n (n - s.lastApplied).toNat
      { s with state := .leader mi ni, commitIndex := n }).andThen answerClient := by
  cases h with
  | @success peer msg mi ni lastSent _ hst hok hterm hsent hmi hni hcast hcommit happlied =>
    refine ⟨mi.set peer lastSent, ni.set peer (asUsize lastSent + 1), ?_⟩
    let s' : Server σ := { s with
      state := .leader (mi.set peer lastSent) (ni.set peer (asUsize lastSent + 1)) }
    have hcredit : s.creditFollower mi ni peer = .done s' := by
      unfold creditFollower
      simp only [hsent, hmi, hni, hcast, and_self, ↓reduceIte]
      rfl
    have hadvance := ToCommit.advanceCommit (s := s') hcommit rfl happlied
    show s.handleAppendEntriesResponse (.peer peer) msg = _
    rw [handleAppendEntriesResponse_of_leader peer hst hterm, hok, if_pos rfl, hcredit,
      Outcome.done_andThen]
    exact hadvance

omit [StateMachine σ] in
theorem CommitsAt.bounds {s : Server σ} {incoming : Incoming} {n : ℤ} (h : s.CommitsAt incoming n) :
    -2 ^ 31 ≤ s.lastApplied + 1 ∧ n < 2 ^ 31 := by
  cases h with
  | success _ _ _ _ _ _ _ hcommit happlied =>
    obtain ⟨-, lastIdx, hlast, hn, -⟩ := hcommit
    obtain ⟨bound, happlied⟩ := Option.isSome_iff_exists.1 happlied
    obtain ⟨rfl, hge, -⟩ := checkedI32_eq_some.1 happlied
    have hle := (mem_rangeInclusive.1 hn).2
    have hlt := lastLogIndex_lt hlast
    exact ⟨hge, by omega⟩

/-- A reply to a leader that commits nothing, or does not apply what it commits, skips nothing. -/
theorem handleAppendEntriesResponse_skipsNothing_or (s : Server σ) (sender : Id)
    (msg : AppendEntriesResponse) : s.SkipsNothing (s.handleAppendEntriesResponse sender msg) ∨
      ∃ n, s.CommitsAt ⟨sender, .appendEntriesResponse msg⟩ n := by
  rcases s.handleAppendEntriesResponse_cases sender msg with
    ⟨-, -, heq⟩ | heq | ⟨mi, ni, peer, hst, rfl, hle, heq⟩
  · have h : s.MovesNothing (.done (s.becomeFollower msg.term)) := .done rfl
    rw [heq]
    exact .inl h.skipsNothing
  · rw [heq]
    exact .inl (MovesNothing.done rfl).skipsNothing
  · rw [heq]
    cases hok : msg.success with
    | false => exact .inl (s.retry_movesNothing mi ni peer).skipsNothing
    | true =>
      simp only [↓reduceIte]
      rcases s.creditFollower_cases mi ni peer with heq | ⟨lastSent, hsent, hmi, hni, hcast, heq⟩
      · rw [heq, Outcome.andThen_of_panicked rfl]
        exact .inl (MovesNothing.panic rfl).skipsNothing
      · rw [heq, Outcome.done_andThen]
        let s' : Server σ := { s with
          state := .leader (mi.set peer lastSent) (ni.set peer (asUsize lastSent + 1)) }
        rcases advanceCommit_true_cases (s := s') rfl with h | ⟨n, hcommit, happlied⟩
        · have h' := h.skipsNothing
          exact .inl ⟨h'.passes, h'.sends⟩
        · exact .inr ⟨n, .success hst hok hle hsent hmi hni hcast hcommit happlied⟩

theorem recieveRpc_skipsNothing_or (s : Server σ) (order : List NodeId) (incoming : Incoming) :
    s.SkipsNothing (s.recieveRpc order incoming) ∨ ∃ n, s.CommitsAt incoming n := by
  obtain ⟨sender, m⟩ := incoming
  cases m with
  | appendEntries msg => exact .inl (s.handleAppendEntries_skipsNothing sender msg)
  | appendEntriesResponse msg => exact s.handleAppendEntriesResponse_skipsNothing_or sender msg
  | requestVote msg => exact .inl (s.handleRequestVoteRpc_movesNothing msg).skipsNothing
  | requestVoteResponse msg =>
    have h : s.MovesNothing (.done (s.handleRequestVoteResponseRpc msg)) :=
      .done (s.handleRequestVoteResponseRpc_lastApplied msg)
    exact .inl h.skipsNothing
  | clientRequest req => exact .inl (s.handleClientRequest_movesNothing order req).skipsNothing
  | clientResponse _ => exact .inl (MovesNothing.done rfl).skipsNothing
  | hello _ => exact .inl (MovesNothing.done rfl).skipsNothing
  | helloClient _ => exact .inl (MovesNothing.done rfl).skipsNothing

/-- The outcome of a commit that applies, whole or dropped at its answer, skips nothing just if the
state machine overcomes what is committed. -/
theorem CommitsAt.skipsNothing_iff {s : Server σ} {order : List NodeId} {incoming : Incoming}
    {n : ℤ} {o : Outcome σ} (h : s.CommitsAt incoming n)
    (ho : o = s.recieveRpc order incoming ∨ ∃ k, (s.recieveRpc order incoming).cut k = some o) :
    s.SkipsNothing o ↔ s.Overcomes n := by
  obtain ⟨hla, hn⟩ := h.bounds
  obtain ⟨mi, ni, heq⟩ := h.recieveRpc order
  let s' : Server σ := { s with state := .leader mi ni, commitIndex := n }
  let rounds := applyRepeatedly n (n - s.lastApplied).toNat s'
  have hp : rounds.panicked = false := applyRepeatedly_not_panicked _ s'
  have hend : (rounds.andThen answerClient).server.lastApplied = n := by
    obtain ⟨sm, la, hrounds, -⟩ :=
      (applyRepeatedly_ensures (n - s.lastApplied).toNat s' fun _ _ => True).server hp
    have hrounds : rounds.server = { s' with stateMachine := sm, lastApplied := la } := hrounds
    rw [Outcome.andThen_of_not_panicked hp]
    show rounds.server.answerClient.server.lastApplied = n
    rw [answerClient_lastApplied, hrounds]
  have hfirst : (rounds.andThen answerClient).WritesFirst := by
    refine .silent_andThen (fun hmem => ?_) answerClient_writesFirst
    exact ((applyRepeatedly_ensures _ s' fun _ _ => False).sends hmem).2
  rw [heq] at ho
  constructor
  · intro hskips
    refine overcomes_of_passes (s := s') hla hn ?_
    rcases ho with rfl | ⟨k, hk⟩
    · have hpasses := hskips.passes
      rw [hend] at hpasses
      exact hpasses
    · have hpasses := hskips.passes
      rw [(hfirst.losesMessagesOnly hk).server, hend] at hpasses
      obtain ⟨out, snap, -, rfl⟩ := Outcome.cut_eq_some_iff.1 hk
      exact hpasses.mono (List.take_subset k _)
  · intro hovercomes
    have hskips := skipsNothing_of_overcomes (s := s') hovercomes
    have hfull : s.SkipsNothing (rounds.andThen answerClient) := ⟨hskips.passes, hskips.sends⟩
    rcases ho with rfl | ⟨k, hk⟩
    · exact hfull
    · exact hfull.cut hk

/-- **A handler skips nothing**, whole or dropped at a send, just if the state machine overcomes
what it commits. -/
theorem skipsNothing_iff {s : Server σ} {order : List NodeId} {incoming : Incoming} {o : Outcome σ}
    (ho : o = s.recieveRpc order incoming ∨ ∃ k, (s.recieveRpc order incoming).cut k = some o) :
    s.SkipsNothing o ↔ ∀ n, s.CommitsAt incoming n → s.Overcomes n := by
  constructor
  · exact fun h n hcommit => (hcommit.skipsNothing_iff ho).1 h
  · intro h
    rcases s.recieveRpc_skipsNothing_or order incoming with hfull | ⟨n, hcommit⟩
    · rcases ho with rfl | ⟨k, hk⟩
      · exact hfull
      · exact hfull.cut hk
    · exact (hcommit.skipsNothing_iff ho).2 (h n hcommit)

/-! ### Runs -/

omit [StateMachine σ] in
/-- Each phase skips nothing, from where the one before has ended. -/
def NeverSkips : Server σ → List (Phase σ) → Prop
  | _, [] => True
  | s, p :: ps => s.SkipsNothing p.outcome ∧ NeverSkips p.outcome.server ps

omit [StateMachine σ] in
/-- The server after the phases, also when the last one has panicked. -/
def serverAfter (s : Server σ) (phases : List (Phase σ)) : Server σ :=
  (phases.getLast?.map (·.outcome.server)).getD s

omit [StateMachine σ] in
@[simp] theorem serverAfter_nil (s : Server σ) : s.serverAfter [] = s := rfl

omit [StateMachine σ] in
@[simp] theorem serverAfter_cons (s : Server σ) (p : Phase σ) (ps : List (Phase σ)) :
    s.serverAfter (p :: ps) = p.outcome.server.serverAfter ps := by
  cases ps with
  | nil => rfl
  | cons q qs => simp [serverAfter, List.getLast?_cons]

omit [StateMachine σ] in
theorem neverSkips_append {s : Server σ} {ps qs : List (Phase σ)} :
    s.NeverSkips (ps ++ qs) ↔ s.NeverSkips ps ∧ (s.serverAfter ps).NeverSkips qs := by
  induction ps generalizing s with
  | nil => simp [NeverSkips]
  | cons p ps ih =>
    rw [List.cons_append, NeverSkips, NeverSkips, ih, serverAfter_cons, and_assoc]

omit [StateMachine σ] in
/-- **In a run that never skips** every index up to `last_applied` has been applied. -/
theorem NeverSkips.applied {s : Server σ} {phases : List (Phase σ)} {k : ℤ}
    (h : s.NeverSkips phases) (hk : s.lastApplied < k)
    (hk' : k ≤ (s.serverAfter phases).lastApplied) :
    ∃ p ∈ phases, ∃ command, .apply (asUsize k) command true ∈ p.outcome.effects := by
  induction phases generalizing s with
  | nil =>
    rw [serverAfter_nil] at hk'
    exact absurd hk (Int.not_lt.2 hk')
  | cons p ps ih =>
    rw [serverAfter_cons] at hk'
    rcases Int.lt_or_le p.outcome.server.lastApplied k with hlt | hle
    · obtain ⟨q, hq, happly⟩ := ih h.2 hlt hk'
      exact ⟨q, .tail _ hq, happly⟩
    · obtain ⟨entry, -, happly⟩ := h.1.passes k hk hle
      exact ⟨p, .head _, entry.command, happly⟩

theorem turn_neverSkips_iff {s : Server σ} {ev : Select} {phases : List (Phase σ)}
    (h : s.turn ev = some phases) : s.NeverSkips phases ↔
      ∀ incoming, ev.incoming = some incoming → ∀ n, s.CommitsAt incoming n → s.Overcomes n := by
  cases ev with
  | timer =>
    cases h
    refine iff_of_true ⟨s.afterTimer_skipsNothing _, trivial⟩ fun incoming hin => ?_
    cases hin
  | rpc order incoming =>
    simp only [turn] at h
    simp only [Select.incoming, Option.some.injEq, forall_eq']
    have hiff : s.SkipsNothing (s.recieveRpc order incoming) ↔
        ∀ n, s.CommitsAt incoming n → s.Overcomes n := skipsNothing_iff (.inl rfl)
    rw [← hiff]
    split_ifs at h with hperm hp
    · cases h
      exact and_iff_left trivial
    · cases h
      exact and_iff_left ⟨afterRpc_skipsNothing _ _, trivial⟩
  | cancelled order incoming k =>
    simp only [turn] at h
    simp only [Select.incoming, Option.some.injEq, forall_eq']
    split_ifs at h with hperm
    obtain ⟨o, ho, heq⟩ := Option.map_eq_some_iff.1 h
    cases heq
    rw [← skipsNothing_iff (.inr ⟨k, ho⟩)]
    exact and_iff_left ⟨afterTimer_skipsNothing _ _, trivial⟩

/-- **No entry is skipped** in a run just if, whenever an acknowledgement makes the server commit as
a Leader, the state machine overcomes what is committed: it takes every entry in as many attempts as
there are entries. -/
theorem never_skips_iff {s₀ : Server σ} {evs : List Select} :
    s₀.NeverSkips (s₀.trace evs) ↔ ∀ v ∈ s₀.visits evs, ∀ incoming,
      v.2.incoming = some incoming → ∀ n, v.1.CommitsAt incoming n → v.1.Overcomes n := by
  induction evs generalizing s₀ with
  | nil => exact iff_of_true trivial fun v hv => by cases hv
  | cons ev evs ih =>
    rw [trace, visits]
    cases hturn : s₀.turn ev with
    | none => exact iff_of_true trivial fun v hv => by cases hv
    | some phases =>
      dsimp only
      rw [neverSkips_append, List.forall_mem_cons]
      refine and_congr (turn_neverSkips_iff hturn) ?_
      cases hend : s₀.endOfTurn phases with
      | none => exact iff_of_true trivial fun v hv => by cases hv
      | some s' =>
        have hafter : s₀.serverAfter phases = s' := by
          unfold endOfTurn at hend
          split_ifs at hend
          exact Option.some.inj hend
        rw [hafter]
        exact ih

end Server

/-- A state machine that refuses every call. -/
structure Offline

instance : StateMachine Offline where
  applyLog sm _ _ := (sm, false)
  deleteKey sm _ := (sm, false)

namespace Server

/-- Node 1 leads and replicates a Set; the acknowledgement of node 2 commits it.  Its only call is
refused, but `last_applied` moves past it and the client is told of a success. -/
theorem leader_skips_failed_set :
    let s₀ := Server.new 1 ⟨3, [1, 2, 3]⟩ Offline.mk
    let vote (peer : NodeId) : Select :=
      .rpc [1, 2, 3] ⟨.peer peer, .requestVoteResponse ⟨1, true⟩⟩
    let phases := s₀.trace [.timer, vote 2, vote 3,
      .rpc [1, 2, 3] ⟨.client 7, .clientRequest ⟨.set "x" "1", 7, 1⟩⟩,
      .rpc [1, 2, 3] ⟨.peer 2, .appendEntriesResponse ⟨1, true⟩⟩]
    (∀ p ∈ phases, appliedBy p.outcome = []) ∧ (s₀.serverAfter phases).lastApplied = 0 ∧
      (∃ p ∈ phases, ⟨.client 7, .clientResponse (.setSuccess 1)⟩ ∈ p.outcome.sent) ∧
      ¬ s₀.NeverSkips phases := by
  intro s₀ vote phases
  have hnone : ∀ p ∈ phases, appliedBy p.outcome = [] := by decide
  refine ⟨hnone, by decide, by decide, fun h => ?_⟩
  obtain ⟨p, hp, command, happly⟩ := h.applied (k := 0) (by decide) (by decide)
  have hcall := List.filterMap_eq_nil_iff.1 (hnone p hp) _ happly
  cases hcall

end Server

end MiniRaft
