import MiniRaft.Server.Inversion

/-!
# Where the leader's handlers panic

One specification for each body that accesses `match_index`, `next_index`, `last_sent_index` and
the log: what it does where every access is in bounds, and that it panics everywhere else.

* `Server.advanceCommit_not_panicked` : the commit loop.
* `Server.retryFollower_eq` : the retry after a rejection.
* `Server.broadcastEntry_panicked_iff` : the loop of `handle_set_command`.
-/

namespace MiniRaft

variable {σ : Type}

namespace Server

/-! ### The commit loop -/

/-- The search fails at `total_nodes / 2 - 1`, for an entry of the current term. -/
theorem findCommit_eq_none_iff {s : Server σ} {mi ns : List ℤ}
    (hns : ∀ n ∈ ns, asUsize n < s.log.length) :
    s.findCommit mi ns = none ↔ s.config.totalNodes / 2 = 0 ∧
      ∃ n ∈ ns, ∃ entry, s.log[asUsize n]? = some entry ∧ entry.term = s.currentTerm := by
  induction ns with
  | nil => simp [findCommit]
  | cons n ns ih =>
    obtain ⟨hn, hrest⟩ := List.forall_mem_cons.1 hns
    have ih := ih hrest
    have hget : s.log[asUsize n]? = some s.log[asUsize n] := List.getElem?_eq_getElem hn
    rw [findCommit, hget]
    dsimp only
    split_ifs with hterm htwo hmaj
    · exact iff_of_true rfl ⟨htwo, n, List.mem_cons_self, _, hget, hterm⟩
    · simp [htwo]
    · rw [ih]
      simp [htwo]
    · rw [ih]
      simp [hget, hterm]

theorem asUsize_lt_of_mem_rangeInclusive {log : List LogEntry} {ci n : ℤ} (hci : -1 ≤ ci)
    (hlen : log.length < 2 ^ 31) (hn : n ∈ rangeInclusive (ci + 1) (log.length - 1)) :
    asUsize n < log.length := by
  obtain ⟨h₁, h₂⟩ := mem_rangeInclusive.1 hn
  rw [asUsize_toNat (by omega) (by omega)]
  omega

section

variable [StateMachine σ]

theorem applyRepeatedly_not_panicked (n : ℕ) (s : Server σ) :
    (applyRepeatedly s.commitIndex n s).panicked = false := by
  induction n generalizing s with
  | zero => rfl
  | succ n ih =>
    obtain ⟨sm, la, -, -, heq⟩ := applyRepeatedly_succ n s
    rw [heq]
    exact ih { s with stateMachine := sm, lastApplied := la }

theorem advanceCommit_not_panicked {s : Server σ} {mi : List ℤ} {ni : List ℕ} (success : Bool)
    (hst : s.state = .leader mi ni) (hlen : s.log.length < 2 ^ 31) (hne : s.log ≠ [])
    (hci : -1 ≤ s.commitIndex ∧ s.commitIndex + 1 < 2 ^ 31)
    (hla : -1 ≤ s.lastApplied ∧ s.lastApplied + 1 < 2 ^ 31)
    (htwo : s.config.totalNodes / 2 ≠ 0) (hid : s.id < mi.length) :
    (s.advanceCommit success).panicked = false := by
  have hns : ∀ n ∈ rangeInclusive (s.commitIndex + 1) (s.log.length - 1),
      asUsize n < s.log.length := fun n hn => asUsize_lt_of_mem_rangeInclusive hci.1 hlen hn
  have hfind : s.findCommit mi (rangeInclusive (s.commitIndex + 1) (s.log.length - 1)) ≠ none :=
    fun hnone => htwo ((findCommit_eq_none_iff hns).1 hnone).1
  unfold advanceCommit
  simp only [hst, List.isEmpty_iff, hne, ↓reduceIte, lenMinusOne_of_lt hlen,
    checkedI32_of_mem (x := s.commitIndex + 1) (by omega) (by omega),
    checkedI32_of_mem (x := s.lastApplied + 1) (by omega) (by omega)]
  split
  · rename_i h
    exact absurd h hfind
  · rfl
  · rename_i n _
    split
    · rw [← hst]
      have hp := applyRepeatedly_not_panicked (n - s.lastApplied).toNat { s with commitIndex := n }
      obtain ⟨sm, la, heq, -⟩ := (applyRepeatedly_ensures (n - s.lastApplied).toNat
        { s with commitIndex := n } fun _ _ => True).server hp
      rw [Outcome.andThen_panicked, hp, heq, Bool.false_or]
      simp only [answerClient, hst, hid, ↓reduceIte]
      split
      · rfl
      · split
        · rfl
        · rfl
    · rfl

end

/-! ### Replies -/

theorem creditFollower_not_panicked {s : Server σ} {mi : List ℤ} {ni : List ℕ} {peer : NodeId}
    (hlast : ∀ x ∈ s.lastSentIndex, 0 ≤ x ∧ x < 2 ^ 31) (hpeer : peer < s.lastSentIndex.length)
    (hmi : peer < mi.length) (hni : peer < ni.length) :
    (s.creditFollower mi ni peer).panicked = false := by
  have hx := hlast _ (List.getElem_mem hpeer)
  have hcast : asUsize s.lastSentIndex[peer] + 1 < 2 ^ 64 := by
    rw [asUsize_toNat hx.1 (by omega)]
    omega
  unfold creditFollower
  rw [List.getElem?_eq_getElem hpeer]
  simp only [hmi, hni, hcast, and_self, ↓reduceIte]
  rfl

theorem retryFollower_eq (s : Server σ) (mi : List ℤ) {ni : List ℕ} {peer : NodeId} {next : ℕ}
    (hnext : ni[peer]? = some next) (hle : next ≤ 2 ^ 31) :
    let s' : Server σ := { s with state := .leader mi (ni.set peer (next - 1)) }
    s.retryFollower mi ni peer = (s.log[next - 1]?).elim (.panic s') fun prev =>
      .send s' ⟨.node peer, .appendEntries
        { term := s.currentTerm
          leaderId := s.id
          prevLogIndex := (next - 1 : ℕ)
          prevLogTerm := prev.term
          entries := s.log.drop (next - 1)
          leaderCommit := s.commitIndex }⟩ := by
  have hdec : (if next > 0 then next - 1 else 0) = next - 1 := by split <;> omega
  have hi32 : asI32 (next - 1) = (next - 1 : ℕ) := asI32_of_lt (by omega)
  have husize : asUsize (next - 1 : ℕ) = next - 1 := asUsize_natCast (by omega)
  intro s'
  unfold retryFollower
  simp only [hnext, hdec, hi32, husize]
  cases hget : s.log[next - 1]? with
  | none => rfl
  | some prev =>
    have hlt := (List.getElem?_eq_some_iff.1 hget).1
    simp only [Nat.le_of_lt hlt, ↓reduceIte]
    rfl

theorem retryFollower_panicked_iff (s : Server σ) (mi : List ℤ) {ni : List ℕ} {peer : NodeId}
    {next : ℕ} (hnext : ni[peer]? = some next) (hle : next ≤ 2 ^ 31) :
    (s.retryFollower mi ni peer).panicked = true ↔ ¬ next - 1 < s.log.length := by
  rw [s.retryFollower_eq mi hnext hle]
  cases hget : s.log[next - 1]? with
  | none => simpa using hget
  | some prev =>
    have hlt := (List.getElem?_eq_some_iff.1 hget).1
    simp [hlt]

/-! ### Commands -/

theorem prevLogOf_eq_none_iff {log : List LogEntry} {next : ℕ} (hlen : log.length < 2 ^ 31)
    (hle : next ≤ 2 ^ 31) : prevLogOf log next = none ↔ log.length < next := by
  unfold prevLogOf
  by_cases hzero : next = 0
  · simp [hzero]
  · rcases Nat.lt_or_eq_of_le hle with hlt | rfl
    · have hcast : checkedI32 (asI32 next - 1) = some ((next : ℤ) - 1) := by
        rw [asI32_of_lt hlt]
        exact checkedI32_of_mem (by omega) (by omega)
      have hneg : ¬ (next : ℤ) - 1 = -1 := by omega
      have husize : asUsize ((next : ℤ) - 1) = next - 1 := by
        rw [asUsize_toNat (by omega) (by omega)]
        omega
      simp only [hzero, ↓reduceIte, hcast, hneg, husize, Option.map_eq_none_iff,
        List.getElem?_eq_none_iff]
      omega
    · -- `next_index[i] as i32 - 1` overflows
      have hcast : checkedI32 (asI32 (2 ^ 31) - 1) = none := by decide
      rw [if_neg hzero, hcast]
      simpa using hlen

theorem lenMinusOne_eq_none_iff {s : Server σ} (hlen : s.log.length ≤ 2 ^ 31) :
    s.lenMinusOne = none ↔ ¬ s.log.length < 2 ^ 31 := by
  constructor
  · intro h hlt
    rw [lenMinusOne_of_lt hlt] at h
    cases h
  · intro h
    cases hl : s.lenMinusOne with
    | none => rfl
    | some x => exact absurd (lenMinusOne_eq_some hlen hl).1 h

/-- `prev_log_index` and `prev_log_term` computed for a peer. -/
def prevLogFor (s : Server σ) (nextIndex : List ℕ) (peer : NodeId) : Option (ℤ × ℕ) :=
  nextIndex[peer]?.bind (prevLogOf s.log)

/-- The message with the new entry and these fields. -/
def entryMessage (s : Server σ) (logEntry : LogEntry) (prev : ℤ × ℕ) : Message :=
  .appendEntries
    { term := s.currentTerm
      leaderId := s.id
      prevLogIndex := prev.1
      prevLogTerm := prev.2
      entries := [logEntry]
      leaderCommit := s.commitIndex }

/-- The body of the loop does not panic for the peer: `next_index` and `last_sent_index` have a slot
for it, and the entry before `next_index` exists. -/
def CanSendTo (s : Server σ) (nextIndex : List ℕ) (peer : NodeId) : Prop :=
  (s.prevLogFor nextIndex peer).isSome = true ∧ s.lenMinusOne.isSome = true ∧
    peer < s.lastSentIndex.length

instance (s : Server σ) (nextIndex : List ℕ) (peer : NodeId) :
    Decidable (s.CanSendTo nextIndex peer) := inferInstanceAs (Decidable (_ ∧ _ ∧ _))

theorem sendEntryFor_of_canSendTo {s : Server σ} {nextIndex : List ℕ} {peer : NodeId}
    (logEntry : LogEntry) (h : s.CanSendTo nextIndex peer) : ∃ lastIndex prev,
      s.lenMinusOne = some lastIndex ∧ s.prevLogFor nextIndex peer = some prev ∧
        sendEntryFor logEntry nextIndex peer s =
          .send { s with lastSentIndex := s.lastSentIndex.set peer lastIndex }
            ⟨.broadcast, s.entryMessage logEntry prev⟩ := by
  obtain ⟨hprev, hlast, hslot⟩ := h
  obtain ⟨prev, hprev⟩ := Option.isSome_iff_exists.1 hprev
  obtain ⟨lastIndex, hlast⟩ := Option.isSome_iff_exists.1 hlast
  refine ⟨lastIndex, prev, hlast, hprev, ?_⟩
  have hprev : (nextIndex[peer]?).bind (prevLogOf s.log) = some prev := hprev
  simp only [sendEntryFor, hprev, hlast, if_pos hslot]
  rfl

theorem sendEntryFor_of_not_canSendTo {s : Server σ} {nextIndex : List ℕ} {peer : NodeId}
    (logEntry : LogEntry) (h : ¬ s.CanSendTo nextIndex peer) :
    sendEntryFor logEntry nextIndex peer s = .panic s := by
  unfold sendEntryFor
  split
  · rename_i hprev hlast
    rw [if_neg]
    intro hslot
    exact h ⟨Option.isSome_of_eq_some hprev, Option.isSome_of_eq_some hlast, hslot⟩
  · rfl

theorem canSendTo_of_length {s : Server σ} {ls : List ℤ} {ni : List ℕ} {peer : NodeId}
    (hls : ls.length = s.lastSentIndex.length) :
    CanSendTo { s with lastSentIndex := ls } ni peer ↔ s.CanSendTo ni peer := by
  rw [CanSendTo, CanSendTo, hls]
  rfl

/-- With slots for the peer, the entry before `next_index` is all that may be missing. -/
theorem canSendTo_iff {s : Server σ} {ni : List ℕ} {peer : NodeId} (hlen : s.log.length ≤ 2 ^ 31)
    (hpeer : peer < s.lastSentIndex.length) (hni : peer < ni.length) (hle : ∀ x ∈ ni, x ≤ 2 ^ 31) :
    s.CanSendTo ni peer ↔ s.log.length < 2 ^ 31 ∧ ∀ next ∈ ni[peer]?, next ≤ s.log.length := by
  have hget : ni[peer]? = some ni[peer] := List.getElem?_eq_getElem hni
  have hbound : ni[peer] ≤ 2 ^ 31 := hle _ (List.getElem_mem hni)
  have hlast : s.lenMinusOne.isSome = true ↔ s.log.length < 2 ^ 31 := by
    rw [Option.isSome_iff_ne_none, ne_eq, lenMinusOne_eq_none_iff hlen, not_not]
  simp only [CanSendTo, prevLogFor, hget, Option.bind_some, Option.mem_def, Option.some.injEq,
    forall_eq', hlast, hpeer, and_true]
  rw [and_comm, Option.isSome_iff_ne_none, ne_eq]
  refine and_congr_right fun hlt => ?_
  rw [prevLogOf_eq_none_iff hlt hbound, Nat.not_lt]

theorem broadcastEntry_panicked_iff (s : Server σ) (logEntry : LogEntry) (ni : List ℕ)
    (peers : List NodeId) : (broadcastEntry logEntry ni peers s).panicked = true ↔
      ∃ peer ∈ peers, peer ≠ s.id ∧ ¬ s.CanSendTo ni peer := by
  induction peers generalizing s with
  | nil => simp [broadcastEntry]
  | cons peer peers ih =>
    unfold broadcastEntry
    split_ifs with hid
    · rw [ih]
      simp [hid]
    · by_cases h : s.CanSendTo ni peer
      · obtain ⟨lastIndex, prev, -, -, heq⟩ := sendEntryFor_of_canSendTo logEntry h
        rw [heq, Outcome.andThen_panicked, Outcome.send_panicked, Bool.false_or, Outcome.send_server,
          ih]
        simp only [canSendTo_of_length List.length_set, List.mem_cons, exists_eq_or_imp, h,
          not_true_eq_false, and_false, false_or]
      · rw [sendEntryFor_of_not_canSendTo logEntry h, Outcome.andThen_of_panicked rfl]
        exact iff_of_true rfl ⟨peer, List.mem_cons_self, hid, h⟩

end Server

end MiniRaft
