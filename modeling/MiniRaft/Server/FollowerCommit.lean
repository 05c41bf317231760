import MiniRaft.Server.Apply
import MiniRaft.Server.Merge

/-!
# What a follower commits

`handle_append_entries` raises the commit index twice: to at most the end of its old log before the
conflicting entries are deleted, and to at most the last carried entry after that.  The message has
verified the log up to `prev_log_index` and the entries it carries, and neither bound is that one.

* `Server.follower_commit_iff` : when the handler stays within the verified part.
-/

namespace MiniRaft

/-- The last index up to which the message has verified the receiver's log. -/
def AppendEntries.verified (msg : AppendEntries) : ℤ := msg.prevLogIndex + msg.entries.length

variable {σ : Type}

namespace Server

/-! ### What is deleted -/

/-- The entries that the first loop leaves: those before every index at which a carried entry has
another term. -/
theorem lt_length_collectNewEntries {log acc entries : List LogEntry} {k : ℕ} :
    k < (collectNewEntries log acc entries).1.length ↔
      k < log.length ∧
        ∀ entry ∈ entries, entry.index ≤ k → ∀ x ∈ log[entry.index]?, x.term = entry.term := by
  induction entries generalizing log acc with
  | nil => simp [collectNewEntries]
  | cons entry entries ih =>
    rw [List.forall_mem_cons]
    unfold collectNewEntries
    cases hget : log[entry.index]? with
    | none =>
      simp only [ih]
      exact and_congr_right fun _ => ⟨fun h => ⟨fun _ x hx => by simp at hx, h⟩, fun h => h.2⟩
    | some x =>
      have hlt : entry.index < log.length := (List.getElem?_eq_some_iff.1 hget).1
      simp only [Option.mem_def, Option.some.injEq, forall_eq']
      split_ifs with hterm
      · -- the log is cut at the conflict
        rw [ih, List.length_take]
        constructor
        · rintro ⟨hk, hrest⟩
          refine ⟨by omega, fun hle => absurd hle (by omega), fun e he hle y hy => ?_⟩
          exact hrest e he hle y ((List.getElem?_take_of_lt (by omega)).trans hy)
        · rintro ⟨hk, hentry, hrest⟩
          have hki : k < entry.index := by
            by_contra hge
            exact hterm (hentry (by omega))
          refine ⟨by omega, fun e he hle y hy => hrest e he hle y ?_⟩
          rw [List.getElem?_take_of_lt (by omega)] at hy
          exact hy
      · rw [ih]
        exact and_congr_right fun _ => ⟨fun h => ⟨fun _ => not_not.1 hterm, h⟩, fun h => h.2⟩

/-! ### What is committed -/

/-- The commit index the handler ends with, if it has gone on with `ci` before it merged. -/
def settledCommit (s : Server σ) (msg : AppendEntries) (ci : ℤ) : ℤ :=
  match msg.entries.getLast?, mergedLog s.log msg.entries with
  | some last, some _ =>
    if msg.leaderCommit > ci then min msg.leaderCommit (asI32 last.index) else ci
  | _, _ => ci

variable [StateMachine σ]

theorem applyLatestCommitedLogs_panicked (s : Server σ) (lc : ℤ) :
    (s.applyLatestCommitedLogs lc).panicked = (s.raisedCommit lc).isNone := by
  rw [applyLatestCommitedLogs_eq]
  cases s.raisedCommit lc with
  | none => rfl
  | some ci => exact (applyLoop_spec _ _).2.1

theorem applyLatestCommitedLogs_commitIndex (s : Server σ) (lc : ℤ) :
    (s.applyLatestCommitedLogs lc).server.commitIndex =
      (s.raisedCommit lc).getD s.commitIndex := by
  rw [applyLatestCommitedLogs_eq]
  cases s.raisedCommit lc with
  | none => rfl
  | some ci =>
    obtain ⟨⟨sm, k, -, hs⟩, -⟩ :=
      applyLoop_spec (ci - s.lastApplied).toNat { s with commitIndex := ci }
    show (applyLoop _ _).server.commitIndex = ci
    rw [hs]

theorem acceptAppendEntries_commitIndex (s : Server σ) (msg : AppendEntries) (nodeId : NodeId) :
    (s.acceptAppendEntries msg nodeId).server.commitIndex =
      ((s.raisedCommit msg.leaderCommit).map (s.settledCommit msg)).getD s.commitIndex := by
  have hci := s.applyLatestCommitedLogs_commitIndex msg.leaderCommit
  unfold acceptAppendEntries
  cases hraised : s.raisedCommit msg.leaderCommit with
  | none =>
    have hp : (s.applyLatestCommitedLogs msg.leaderCommit).panicked = true := by
      rw [applyLatestCommitedLogs_panicked, hraised]; rfl
    rw [Outcome.andThen_of_panicked hp, hci, hraised]
    rfl
  | some ci =>
    have hp : (s.applyLatestCommitedLogs msg.leaderCommit).panicked = false := by
      rw [applyLatestCommitedLogs_panicked, hraised]; rfl
    obtain ⟨sm, ci', la, hs, -⟩ :=
      (s.applyLatestCommitedLogs_ensures msg.leaderCommit fun _ _ => True).server hp
    rw [Outcome.andThen_of_not_panicked hp, hs]
    rw [hs, hraised] at hci
    obtain rfl : ci' = ci := hci
    show Server.commitIndex (Outcome.server _) = s.settledCommit msg ci'
    unfold settledCommit
    cases hlast : msg.entries.getLast? with
    | none =>
      have hnil : msg.entries = [] := List.getLast?_eq_none_iff.1 hlast
      simp [hnil]
    | some last =>
      have hne : msg.entries.isEmpty = false := by
        cases hentries : msg.entries with
        | nil => simp [hentries] at hlast
        | cons _ _ => rfl
      rw [hne]
      simp only [Bool.false_eq_true, ↓reduceIte, deleteConflictingAndAppendNewEntries]
      cases hmerged : mergedLog s.log msg.entries with
      | none =>
        rw [mergedLog] at hmerged
        simp [hmerged, Outcome.andThen]
      | some log =>
        rw [mergedLog] at hmerged
        simp only [hmerged, Outcome.done_andThen, commitAndReply, hlast, Outcome.send_server]
        split_ifs with hgt
        · rfl
        · rfl

theorem acceptAppendEntries_panicked (s : Server σ) (msg : AppendEntries) (nodeId : NodeId) :
    (s.acceptAppendEntries msg nodeId).panicked =
      ((s.raisedCommit msg.leaderCommit).isNone || (mergedLog s.log msg.entries).isNone) := by
  unfold acceptAppendEntries
  rw [Outcome.andThen_panicked, applyLatestCommitedLogs_panicked]
  cases hraised : s.raisedCommit msg.leaderCommit with
  | none => rfl
  | some ci =>
    have hp : (s.applyLatestCommitedLogs msg.leaderCommit).panicked = false := by
      rw [applyLatestCommitedLogs_panicked, hraised]; rfl
    obtain ⟨sm, ci', la, hs, -⟩ :=
      (s.applyLatestCommitedLogs_ensures msg.leaderCommit fun _ _ => True).server hp
    rw [hs, Option.isNone_some, Bool.false_or, Bool.false_or]
    by_cases hnil : msg.entries = []
    · simp [hnil, mergedLog, collectNewEntries, insertNewEntries]
    · simp only [List.isEmpty_iff, hnil, ↓reduceIte, Outcome.andThen_panicked,
        deleteConflictingAndAppendNewEntries]
      cases hmerged : mergedLog s.log msg.entries with
      | none =>
        rw [mergedLog] at hmerged
        simp [hmerged]
      | some log =>
        rw [mergedLog] at hmerged
        simp only [hmerged, Outcome.done_panicked, Outcome.done_server, Bool.false_or,
          commitAndReply, Option.isNone_some]
        split
        · rfl
        · rfl

/-- While the log is short, the only panic is that of `Vec::insert`. -/
theorem handleAppendEntries_panicked_iff {s : Server σ} (msg : AppendEntries) (nodeId : NodeId)
    (hlen : s.log.length < 2 ^ 31) :
    (s.handleAppendEntries (.peer nodeId) msg).panicked = true ↔
      s.Accepts msg ∧ mergedLog s.log msg.entries = none := by
  rcases s.handleAppendEntries_cases nodeId msg with
    ⟨hno, heq⟩ | ⟨hgt, -, hf, heq⟩ | ⟨hacc, heq⟩
  · rw [heq]
    refine iff_of_false Bool.false_ne_true fun h => ?_
    rcases hno with hlt | hm
    · exact Nat.not_le.2 hlt h.1.1
    · exact Bool.false_ne_true (hm.symm.trans h.1.2.1)
  · rw [heq]
    refine iff_of_false Bool.false_ne_true fun h => ?_
    rcases h.1.2.2 with hf' | hterm
    · exact hf hf'
    · exact Nat.ne_of_gt hgt hterm
  · have hraised : (s.raisedCommit msg.leaderCommit).isNone = false := by
      unfold raisedCommit
      rw [lenMinusOne_of_lt hlen]
      split_ifs <;> rfl
    rw [heq, acceptAppendEntries_panicked]
    show ((s.raisedCommit msg.leaderCommit).isNone || (mergedLog s.log msg.entries).isNone) = true ↔ _
    rw [hraised, Bool.false_or, Option.isNone_iff_eq_none]
    exact (and_iff_right hacc).symm

/-! ### What is applied -/

/-- The apply loop, going by the commit index `ci`, gets past the entry at `k`: no call for the
entries up to `k` fails. -/
def Reaches (s : Server σ) (ci : ℤ) (k : ℕ) : Prop :=
  (-1 ≤ s.lastApplied ∧ s.lastApplied < k ∧ k ≤ ci) ∧ k < s.log.length ∧
    succeed s.stateMachine (s.pending (k + 1 - (s.lastApplied + 1).toNat)) = true

omit [StateMachine σ] in
/-- The fields hold values of their types: `i32`s, and a `Vec`. -/
structure Ranged (s : Server σ) : Prop where
  commitIndex : -2 ^ 31 ≤ s.commitIndex ∧ s.commitIndex < 2 ^ 31
  lastApplied : -2 ^ 31 ≤ s.lastApplied ∧ s.lastApplied < 2 ^ 31
  log : s.log.length < 2 ^ 63

instance (s : Server σ) (ci : ℤ) (k : ℕ) : Decidable (s.Reaches ci k) :=
  inferInstanceAs (Decidable (_ ∧ _ ∧ _))

theorem apply_mem_applyCommitted {s : Server σ} {k : ℕ} {command : LogCommand} (hs : s.Ranged) :
    .apply k command true ∈ s.applyCommitted.effects ↔
      s.Reaches s.commitIndex k ∧ ∃ entry ∈ s.log[k]?, entry.command = command := by
  obtain ⟨hci, hla, hlen⟩ := hs
  unfold applyCommitted
  rcases Int.lt_or_le s.lastApplied (-1) with hneg | h₀
  · rw [applyLoop_of_lt hlen hneg hla.1]
    simp only [Outcome.done_effects, List.not_mem_nil, false_iff, Reaches]
    omega
  · rw [applyLoop_effects hlen h₀ (by omega), apply_mem_calls]
    constructor
    · rintro ⟨j, entry, rfl, hget, hcmd, hok⟩
      rw [pending, List.getElem?_take] at hget
      split_ifs at hget with hj
      rw [List.getElem?_drop] at hget
      refine ⟨⟨⟨h₀, by omega, by omega⟩, (List.getElem?_eq_some_iff.1 hget).1, ?_⟩,
        entry, hget, hcmd⟩
      rw [pending, List.take_take, Nat.min_eq_left (by omega)] at hok
      rw [pending, Nat.add_assoc, Nat.add_sub_cancel_left]
      exact hok
    · rintro ⟨⟨⟨-, hlt, hle⟩, hk, hok⟩, entry, hget, hcmd⟩
      have hka : k = (s.lastApplied + 1).toNat + (k - (s.lastApplied + 1).toNat) := by omega
      refine ⟨k - (s.lastApplied + 1).toNat, entry, hka, ?_, hcmd, ?_⟩
      · rw [pending, List.getElem?_take_of_lt (by omega), List.getElem?_drop, ← hka]
        exact hget
      · rw [pending, List.take_take, Nat.min_eq_left (by omega)]
        rw [pending, show k + 1 - (s.lastApplied + 1).toNat =
          k - (s.lastApplied + 1).toNat + 1 by omega] at hok
        exact hok

theorem apply_mem_acceptAppendEntries {s : Server σ} {msg : AppendEntries} {nodeId : NodeId}
    {k : ℕ} {command : LogCommand} {ok : Bool} :
    .apply k command ok ∈ (s.acceptAppendEntries msg nodeId).effects ↔
      .apply k command ok ∈ (s.applyLatestCommitedLogs msg.leaderCommit).effects := by
  unfold acceptAppendEntries
  cases hp : (s.applyLatestCommitedLogs msg.leaderCommit).panicked with
  | true => rw [Outcome.andThen_of_panicked hp]
  | false =>
    rw [Outcome.andThen_of_not_panicked hp, List.mem_append, or_iff_left]
    simp only [deleteConflictingAndAppendNewEntries]
    split
    · simp
    · split
      · simp [Outcome.andThen]
      · rw [Outcome.done_andThen, commitAndReply]
        split
        · simp
        · simp

/-! ### The commit rule of a follower -/

/-- The handler raises the commit index no further than the message has verified the log, and
applies no entry that it deletes. -/
structure CommitsVerified (s : Server σ) (nodeId : NodeId) (msg : AppendEntries) : Prop where
  applying : ({ s with currentTerm := msg.term }.applyLatestCommitedLogs
    msg.leaderCommit).server.commitIndex ≤ max s.commitIndex (min msg.leaderCommit msg.verified)
  settled : (s.handleAppendEntries (.peer nodeId) msg).server.commitIndex ≤
    max s.commitIndex (min msg.leaderCommit msg.verified)
  applied : ∀ k command,
    .apply k command true ∈ (s.handleAppendEntries (.peer nodeId) msg).effects →
      k < (collectNewEntries s.log [] msg.entries).1.length

/-- The old log up to `leader_commit` is verified or committed before; so is what the message
carries up to `leader_commit`, if it is to raise the commit index again and can be inserted; and the
apply loop stops before the first index at which a carried entry has another term. -/
structure Vouches (s : Server σ) (msg : AppendEntries) : Prop where
  held : ∀ lastIdx ∈ s.lenMinusOne, 0 ≤ lastIdx →
    min msg.leaderCommit lastIdx ≤ max s.commitIndex msg.verified
  carried : ∀ last ∈ msg.entries.getLast?, (mergedLog s.log msg.entries).isSome = true →
    ∀ lastIdx ∈ s.lenMinusOne, lastIdx < max 0 msg.leaderCommit →
      min msg.leaderCommit (asI32 last.index) ≤ max s.commitIndex msg.verified
  kept : ∀ ci ∈ s.raisedCommit msg.leaderCommit, ∀ k, s.Reaches ci k →
    ∀ entry ∈ msg.entries, entry.index ≤ k → ∀ x ∈ s.log[entry.index]?, x.term = entry.term

omit [StateMachine σ] in
theorem le_bound_of_raisedCommit {s : Server σ} {lc ci : ℤ} (h : s.raisedCommit lc = some ci) :
    ci = s.commitIndex ∨ s.commitIndex < lc ∧ ∃ lastIdx, s.lenMinusOne = some lastIdx ∧
      0 ≤ lastIdx ∧ ci = min lc lastIdx := by
  unfold raisedCommit at h
  split_ifs at h with hgt
  · obtain ⟨lastIdx, hlast, rfl⟩ := Option.map_eq_some_iff.1 h
    split_ifs with hle
    · exact .inr ⟨hgt, lastIdx, hlast, hle, rfl⟩
    · exact .inl rfl
  · exact .inl (Option.some.inj h).symm

omit [StateMachine σ] in
theorem raisedCommit_le_iff (s : Server σ) (lc v : ℤ) :
    (s.raisedCommit lc).getD s.commitIndex ≤ max s.commitIndex (min lc v) ↔
      ∀ lastIdx ∈ s.lenMinusOne, 0 ≤ lastIdx → min lc lastIdx ≤ max s.commitIndex v := by
  unfold raisedCommit
  cases s.lenMinusOne with
  | none =>
    simp only [Option.map_none, Option.mem_def, reduceCtorEq, false_implies, implies_true, iff_true]
    split_ifs <;> simp only [Option.getD_none, Option.getD_some] <;> omega
  | some lastIdx =>
    simp only [Option.map_some, Option.mem_def, Option.some.injEq, forall_eq']
    split_ifs with hgt hle
    · simp only [Option.getD_some]
      omega
    · simp only [Option.getD_some]
      omega
    · simp only [Option.getD_some]
      omega

omit [StateMachine σ] in
theorem settledCommit_le_iff (s : Server σ) (msg : AppendEntries)
    (h : (s.raisedCommit msg.leaderCommit).getD s.commitIndex ≤
      max s.commitIndex (min msg.leaderCommit msg.verified)) :
    ((s.raisedCommit msg.leaderCommit).map (s.settledCommit msg)).getD s.commitIndex ≤
        max s.commitIndex (min msg.leaderCommit msg.verified) ↔
      ∀ last ∈ msg.entries.getLast?, (mergedLog s.log msg.entries).isSome = true →
        ∀ lastIdx ∈ s.lenMinusOne, lastIdx < max 0 msg.leaderCommit →
          min msg.leaderCommit (asI32 last.index) ≤ max s.commitIndex msg.verified := by
  revert h
  unfold raisedCommit settledCommit
  cases msg.entries.getLast? with
  | none => split_ifs <;> cases s.lenMinusOne <;> simp
  | some last =>
    cases mergedLog s.log msg.entries with
    | none => split_ifs <;> cases s.lenMinusOne <;> simp
    | some log =>
      cases s.lenMinusOne with
      | none =>
        split_ifs with hgt
        · simp
        · simp [hgt]
      | some lastIdx =>
        simp only [Option.map_some, Option.mem_def, Option.some.injEq, forall_eq', Option.isSome_some,
          forall_const]
        split_ifs <;> simp only [Option.map_some, Option.getD_some] <;> omega

/-- **Follower commit rule.**  An accepted message makes the handler commit and apply within the
part of the log it has verified just if it vouches for what the handler goes by. -/
theorem follower_commit_iff {s : Server σ} {nodeId : NodeId} {msg : AppendEntries} (hs : s.Ranged)
    (hlc : msg.leaderCommit < 2 ^ 31) (hacc : s.Accepts msg) :
    s.CommitsVerified nodeId msg ↔ s.Vouches msg := by
  let s' := { s with currentTerm := msg.term }
  have heq := handleAppendEntries_of_accepts nodeId hacc
  have happlying : (s'.applyLatestCommitedLogs msg.leaderCommit).server.commitIndex =
      (s.raisedCommit msg.leaderCommit).getD s.commitIndex :=
    s'.applyLatestCommitedLogs_commitIndex _
  have hsettled : (s'.acceptAppendEntries msg nodeId).server.commitIndex =
      ((s.raisedCommit msg.leaderCommit).map (s.settledCommit msg)).getD s.commitIndex :=
    s'.acceptAppendEntries_commitIndex msg nodeId
  have happly : ∀ k command, .apply k command true ∈ (s'.acceptAppendEntries msg nodeId).effects ↔
      ∃ ci ∈ s.raisedCommit msg.leaderCommit, s.Reaches ci k ∧
        ∃ entry ∈ s.log[k]?, entry.command = command := by
    intro k command
    have hsame : s'.raisedCommit msg.leaderCommit = s.raisedCommit msg.leaderCommit := rfl
    rw [apply_mem_acceptAppendEntries, applyLatestCommitedLogs_eq, hsame]
    cases hraised : s.raisedCommit msg.leaderCommit with
    | none => simp
    | some ci =>
      have hci : { s' with commitIndex := ci }.Ranged := by
        obtain ⟨hci, hla, hlen⟩ := hs
        refine ⟨?_, hla, hlen⟩
        rcases le_bound_of_raisedCommit hraised with rfl | ⟨hgt, lastIdx, -, hle, rfl⟩
        · exact hci
        · simp only
          omega
      simp only [Option.elim_some, Option.mem_def, Option.some.injEq, exists_eq_left']
      exact apply_mem_applyCommitted hci
  constructor
  · rintro ⟨hheld, hcarried, happlied⟩
    rw [happlying] at hheld
    rw [heq, hsettled] at hcarried
    rw [heq] at happlied
    refine ⟨(raisedCommit_le_iff s _ _).1 hheld, (settledCommit_le_iff s msg hheld).1 hcarried, ?_⟩
    intro ci hci k hreach
    have hlt : k < s.log.length := hreach.2.1
    have hget : s.log[k]? = some s.log[k] := List.getElem?_eq_getElem hlt
    have hk := happlied k _ ((happly k _).2 ⟨ci, hci, hreach, _, hget, rfl⟩)
    exact (lt_length_collectNewEntries.1 hk).2
  · rintro ⟨hheld, hcarried, hkept⟩
    have hraised := (raisedCommit_le_iff s _ _).2 hheld
    refine ⟨?_, ?_, ?_⟩
    · rw [happlying]
      exact hraised
    · rw [heq, hsettled]
      exact (settledCommit_le_iff s msg hraised).2 hcarried
    · rw [heq]
      intro k command hmem
      obtain ⟨ci, hci, hreach, -⟩ := (happly k command).1 hmem
      exact lt_length_collectNewEntries.2 ⟨hreach.2.1, hkept ci hci k hreach⟩

/-- An entry is appended behind one that the leader has committed. -/
theorem follower_commit_iff_append :
    let first : LogEntry := ⟨1, .set "x" "1", 0, 7, 1⟩
    let second : LogEntry := ⟨1, .set "x" "2", 1, 7, 2⟩
    let s := { Server.new 2 ⟨3, [1, 2, 3]⟩ SimpleStateMachine.new with
      log := [first], currentTerm := 1 }
    s.CommitsVerified 1 ⟨1, 1, 0, 1, [second], 0⟩ := by
  intro first second s
  have hs : s.Ranged := ⟨by decide, by decide, by decide⟩
  refine (follower_commit_iff hs (by decide) (by decide)).2 ⟨?_, ?_, ?_⟩
  · rintro lastIdx hlast -
    cases hlast
    decide
  · rintro last hlast - lastIdx hidx -
    cases hlast
    cases hidx
    decide
  · rintro ci - k - entry hentry - x hx
    obtain rfl : entry = second := List.mem_singleton.1 hentry
    cases hx

/-- The leader of term 2 sends its whole log to a follower with two entries of term 1 left over:
they are committed and applied, and then deleted. -/
theorem follower_applies_deleted :
    let first : LogEntry := ⟨1, .set "x" "1", 0, 7, 1⟩
    let stale : LogEntry := ⟨1, .set "x" "2", 1, 8, 1⟩
    let stale' : LogEntry := ⟨1, .delete "x", 2, 8, 2⟩
    let new : LogEntry := ⟨2, .set "x" "3", 1, 7, 2⟩
    let new' : LogEntry := ⟨2, .set "x" "4", 2, 7, 3⟩
    let s := { Server.new 2 ⟨3, [1, 2, 3]⟩ SimpleStateMachine.new with
      log := [first, stale, stale'], currentTerm := 1, commitIndex := 0, lastApplied := 0 }
    let msg : AppendEntries := ⟨2, 1, 0, 1, [first, new, new'], 2⟩
    let o := s.handleAppendEntries (.peer 1) msg
    s.Accepts msg ∧ .apply 1 stale.command true ∈ o.effects ∧
      .apply 2 stale'.command true ∈ o.effects ∧ o.server.log = [first, new, new'] ∧
        ¬ s.CommitsVerified 1 msg := by
  intro first stale stale' new new' s msg o
  have hstale : .apply 1 stale.command true ∈ o.effects := List.mem_cons_self
  have hstale' : .apply 2 stale'.command true ∈ o.effects :=
    List.mem_cons_of_mem _ List.mem_cons_self
  refine ⟨by decide, hstale, hstale', rfl, fun h => ?_⟩
  exact absurd (h.applied 1 _ hstale) (by decide)

end Server

end MiniRaft
