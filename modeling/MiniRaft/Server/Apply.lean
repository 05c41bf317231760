import MiniRaft.Machine.Consumer
import MiniRaft.Server.Frame

/-!
# The apply loop

The loop of `apply_latest_commited_logs` hands a piece of the log to the state machine, entry by
entry, and stops at the first call that fails.  `Server.calls` lists these calls,
`Server.succeed` says that none of them fails.

* `Server.carryOut` : what the call for a command makes of the state machine; `Server.Called` : what
  a list of calls, some of which may fail, makes of it.
* `Server.applyLoop_effects` : the effects of the loop are the calls for its piece of the log.
* `Server.applyLoop_attempt` : the loop makes one attempt to hand its piece to the state machine.
* `Server.applyLatestCommitedLogs_eq` : the commit index the method goes on with.
-/

namespace MiniRaft

variable {σ : Type} [StateMachine σ]

namespace Server

/-! ### Calls of the state machine -/

/-- What a command makes of the state machine: a `Set` calls `apply_log`, a `Delete` calls
`delete_key`, and a `Get` makes no call. -/
def carryOut (sm : σ) : LogCommand → σ
  | .set key value => (StateMachine.applyLog sm key value).1
  | .delete key => (StateMachine.deleteKey sm key).1
  | .get _ => sm

theorem execute_fst (sm : σ) (command : LogCommand) :
    (execute sm command).1 = carryOut sm command := by
  cases command <;> rfl

/-- The calls `cs`, each with its index, its command and whether it returned `Ok`, make `sm'` of
`sm`, one after the other. -/
inductive Called : σ → List (ℕ × LogCommand × Bool) → σ → Prop
  | nil {sm : σ} : Called sm [] sm
  | set {sm sm' sm'' : σ} {cs : List (ℕ × LogCommand × Bool)} {index : ℕ} {key value : String}
      {ok : Bool} : StateMachine.applyLog sm key value = (sm', ok) → Called sm' cs sm'' →
      Called sm ((index, .set key value, ok) :: cs) sm''
  | delete {sm sm' sm'' : σ} {cs : List (ℕ × LogCommand × Bool)} {index : ℕ} {key : String}
      {ok : Bool} : StateMachine.deleteKey sm key = (sm', ok) → Called sm' cs sm'' →
      Called sm ((index, .delete key, ok) :: cs) sm''
  | get {sm sm' : σ} {cs : List (ℕ × LogCommand × Bool)} {index : ℕ} {key : String} :
      Called sm cs sm' → Called sm ((index, .get key, true) :: cs) sm'

theorem Called.append {sm sm' sm'' : σ} {cs cs' : List (ℕ × LogCommand × Bool)}
    (h : Called sm cs sm') (h' : Called sm' cs' sm'') : Called sm (cs ++ cs') sm'' := by
  induction h with
  | nil => exact h'
  | set hcall _ ih => exact .set hcall (ih h')
  | delete hcall _ ih => exact .delete hcall (ih h')
  | get _ ih => exact .get (ih h')

theorem Called.execute {sm sm' sm'' : σ} {cs : List (ℕ × LogCommand × Bool)} {command : LogCommand}
    {ok : Bool} (hexec : execute sm command = (sm', ok)) (h : Called sm' cs sm'') (index : ℕ) :
    Called sm ((index, command, ok) :: cs) sm'' := by
  cases command with
  | set key value => exact .set hexec h
  | delete key => exact .delete hexec h
  | get key =>
    cases hexec
    exact .get h

omit [StateMachine σ] in
/-- The calls among the effects. -/
def attempts (effects : List (Effect σ)) : List (ℕ × LogCommand × Bool) :=
  effects.filterMap fun
    | .apply index command ok => some (index, command, ok)
    | .send .. => none

omit [StateMachine σ] in
theorem attempts_append (es es' : List (Effect σ)) :
    attempts (es ++ es') = attempts es ++ attempts es' :=
  List.filterMap_append

/-- The calls for `entries`, the first of which has the index `a`, up to the first that fails. -/
def calls (sm : σ) : ℕ → List LogEntry → List (Effect σ)
  | _, [] => []
  | a, entry :: entries =>
    match execute sm entry.command with
    | (_, false) => [.apply a entry.command false]
    | (sm', true) => .apply a entry.command true :: calls sm' (a + 1) entries

/-- No call for `entries` fails. -/
def succeed (sm : σ) : List LogEntry → Bool
  | [] => true
  | entry :: entries =>
    (execute sm entry.command).2 && succeed (execute sm entry.command).1 entries

/-- The state machine once it has taken `entries`. -/
def replay (sm : σ) : List LogEntry → σ
  | [] => sm
  | entry :: entries => replay (execute sm entry.command).1 entries

@[simp] theorem succeed_cons (sm : σ) (entry : LogEntry) (entries : List LogEntry) :
    succeed sm (entry :: entries) = true ↔
      (execute sm entry.command).2 = true ∧ succeed (execute sm entry.command).1 entries = true := by
  simp [succeed]

theorem apply_mem_calls {sm : σ} {a k : ℕ} {entries : List LogEntry} {command : LogCommand} :
    .apply k command true ∈ calls sm a entries ↔
      ∃ j entry, k = a + j ∧ entries[j]? = some entry ∧ entry.command = command ∧
        succeed sm (entries.take (j + 1)) = true := by
  induction entries generalizing sm a with
  | nil => simp [calls]
  | cons entry entries ih =>
    have hcall : ∀ sm', (execute sm entry.command) = (sm', true) →
        (.apply k command true ∈ calls sm a (entry :: entries) ↔
          (k = a ∧ command = entry.command) ∨ .apply k command true ∈ calls sm' (a + 1) entries) := by
      intro sm' hexec
      simp [calls, hexec]
    constructor
    · intro h
      cases hexec : execute sm entry.command with
      | mk sm' ok =>
        cases ok with
        | false => simp [calls, hexec] at h
        | true =>
          rcases (hcall sm' hexec).1 h with ⟨rfl, rfl⟩ | h
          · exact ⟨0, entry, rfl, rfl, rfl, by simp [hexec, succeed]⟩
          · obtain ⟨j, entry', rfl, hget, hcmd, hok⟩ := ih.1 h
            exact ⟨j + 1, entry', by omega, hget, hcmd, by simp [hexec, hok]⟩
    · rintro ⟨j, entry', rfl, hget, hcmd, hok⟩
      rw [List.take_succ_cons, succeed_cons] at hok
      have hexec : execute sm entry.command = ((execute sm entry.command).1, true) := by
        rw [← hok.1]
      refine (hcall _ hexec).2 ?_
      cases j with
      | zero =>
        cases hget
        exact .inl ⟨rfl, hcmd.symm⟩
      | succ j => exact .inr (ih.2 ⟨j, entry', by omega, hget, hcmd, hok.2⟩)

theorem calls_of_succeed {sm : σ} {a : ℕ} {entries : List LogEntry}
    (h : succeed sm entries = true) :
    calls sm a entries = entries.mapIdx fun i entry => .apply (a + i) entry.command true := by
  induction entries generalizing sm a with
  | nil => rfl
  | cons entry entries ih =>
    rw [succeed_cons] at h
    have hexec : execute sm entry.command = ((execute sm entry.command).1, true) := by
      rw [← h.1]
    rw [calls, hexec, List.mapIdx_cons]
    show _ :: calls _ _ _ = _
    rw [ih h.2]
    simp only [Nat.add_zero, Nat.add_right_comm, Nat.add_assoc]

/-! ### The state machine as a consumer -/

/-- The state machine takes an entry if its call returns `Ok`. -/
def consumer : Consumer σ LogEntry := ⟨fun sm entry => execute sm entry.command⟩

theorem succeed_iff {sm : σ} {entries : List LogEntry} :
    succeed sm entries = true ↔ consumer.accepted sm entries = entries := by
  induction entries generalizing sm with
  | nil => exact iff_of_true rfl rfl
  | cons entry entries ih =>
    rw [succeed_cons, ih]
    cases hexec : consumer.offer sm entry with
    | mk sm' ok =>
      have hexec' : execute sm entry.command = (sm', ok) := hexec
      cases ok with
      | false => simp [Consumer.accepted_of_refused hexec, hexec']
      | true => simp [Consumer.accepted_of_taken hexec, hexec']

theorem attempt_of_succeed {sm : σ} {entries : List LogEntry} (h : succeed sm entries = true) :
    consumer.attempt sm entries = replay sm entries := by
  induction entries generalizing sm with
  | nil => rfl
  | cons entry entries ih =>
    rw [succeed_cons] at h
    have hexec : consumer.offer sm entry = ((execute sm entry.command).1, true) := by
      rw [← h.1]
      rfl
    rw [Consumer.attempt_of_taken hexec, ih h.2, replay]

theorem called_calls (sm : σ) (a : ℕ) (entries : List LogEntry) :
    Called sm (attempts (calls sm a entries)) (consumer.attempt sm entries) := by
  induction entries generalizing sm a with
  | nil => exact .nil
  | cons entry entries ih =>
    rw [calls]
    cases hexec : consumer.offer sm entry with
    | mk sm' ok =>
      have hexec' : Server.execute sm entry.command = (sm', ok) := hexec
      cases ok with
      | false =>
        rw [hexec', Consumer.attempt_of_refused hexec]
        exact Called.nil.execute hexec' a
      | true =>
        rw [hexec', Consumer.attempt_of_taken hexec]
        exact (ih sm' (a + 1)).execute hexec' a

/-- One call for each entry taken, and one for the entry that is refused. -/
theorem calls_eq (sm : σ) (a : ℕ) (entries : List LogEntry) :
    calls sm a entries =
      ((consumer.accepted sm entries).mapIdx fun i entry => .apply (a + i) entry.command true) ++
        (entries[(consumer.accepted sm entries).length]?.map fun entry =>
          .apply (a + (consumer.accepted sm entries).length) entry.command false).toList := by
  induction entries generalizing sm a with
  | nil => rfl
  | cons entry entries ih =>
    rw [calls]
    cases hexec : consumer.offer sm entry with
    | mk sm' ok =>
      have hexec' : execute sm entry.command = (sm', ok) := hexec
      cases ok with
      | false =>
        rw [hexec', Consumer.accepted_of_refused hexec]
        rfl
      | true =>
        rw [hexec', Consumer.accepted_of_taken hexec]
        show _ :: calls sm' (a + 1) entries = _
        rw [ih, List.mapIdx_cons, List.length_cons, List.getElem?_cons_succ, List.cons_append]
        simp only [Nat.add_zero, Nat.add_assoc, Nat.add_comm 1]

/-! ### The loop -/

omit [StateMachine σ] in
/-- The log holds `entries` from index `i` on. -/
def HoldsFrom (log : List LogEntry) : ℤ → List LogEntry → Prop
  | _, [] => True
  | i, entry :: entries => log[asUsize i]? = some entry ∧ HoldsFrom log (i + 1) entries

omit [StateMachine σ] in
theorem HoldsFrom.drop {log entries : List LogEntry} {i : ℤ} (h : HoldsFrom log i entries) (k : ℕ) :
    HoldsFrom log (i + k) (entries.drop k) := by
  induction entries generalizing i k with
  | nil =>
    rw [List.drop_nil]
    trivial
  | cons entry entries ih =>
    cases k with
    | zero => simpa using h
    | succ k =>
      have hrest := ih h.2 k
      rw [List.drop_succ_cons]
      have hidx : i + ((k + 1 : ℕ) : ℤ) = i + 1 + k := by omega
      rw [hidx]
      exact hrest

/-- **The loop is one attempt** on the entries it finds. -/
theorem applyLoop_attempt {s : Server σ} {entries : List LogEntry}
    (h : HoldsFrom s.log (s.lastApplied + 1) entries) :
    (s.applyLoop entries.length).server = { s with
      stateMachine := consumer.attempt s.stateMachine entries
      lastApplied := s.lastApplied + (consumer.accepted s.stateMachine entries).length } := by
  induction entries generalizing s with
  | nil => simp [applyLoop, Consumer.attempt, Consumer.accepted]
  | cons entry entries ih =>
    obtain ⟨hentry, hrest⟩ := h
    rw [List.length_cons, applyLoop, hentry]
    dsimp only
    cases hexec : consumer.offer s.stateMachine entry with
    | mk sm ok =>
      have hexec' : execute s.stateMachine entry.command = (sm, ok) := hexec
      cases ok with
      | false =>
        rw [hexec', Consumer.attempt_of_refused hexec, Consumer.accepted_of_refused hexec]
        simp
      | true =>
        rw [hexec', Consumer.attempt_of_taken hexec, Consumer.accepted_of_taken hexec]
        dsimp only
        rw [Outcome.andThen_of_not_panicked rfl]
        dsimp only
        rw [ih (s := { s with stateMachine := sm, lastApplied := s.lastApplied + 1 }) hrest]
        simp only [Server.mk.injEq, List.length_cons, true_and, and_true]
        push_cast
        omega

/-- The piece of the log the loop is to apply. -/
def pending (s : Server σ) (n : ℕ) : List LogEntry := (s.log.drop (s.lastApplied + 1).toNat).take n

omit [StateMachine σ] in
theorem pending_of_none {s : Server σ} {n : ℕ} (h : s.log[(s.lastApplied + 1).toNat]? = none) :
    s.pending n = [] := by
  rw [pending, List.drop_eq_nil_of_le (List.getElem?_eq_none_iff.1 h), List.take_nil]

omit [StateMachine σ] in
theorem pending_succ_of_some {s : Server σ} {n : ℕ} {entry : LogEntry} (sm : σ)
    (h₀ : -1 ≤ s.lastApplied) (h : s.log[(s.lastApplied + 1).toNat]? = some entry) :
    s.pending (n + 1) = entry ::
      { s with stateMachine := sm, lastApplied := s.lastApplied + 1 }.pending n := by
  obtain ⟨hlt, rfl⟩ := List.getElem?_eq_some_iff.1 h
  have hnext : (s.lastApplied + 1 + 1).toNat = (s.lastApplied + 1).toNat + 1 := by omega
  simp only [pending, hnext]
  rw [List.drop_eq_getElem_cons hlt, List.take_succ_cons]

/-- **The effects of the loop.** -/
theorem applyLoop_effects {n : ℕ} {s : Server σ} (hlen : s.log.length < 2 ^ 63)
    (h₀ : -1 ≤ s.lastApplied) (hn : s.lastApplied + n < 2 ^ 63) :
    (s.applyLoop n).effects =
      calls s.stateMachine (s.lastApplied + 1).toNat (s.pending n) := by
  induction n generalizing s with
  | zero => simp [applyLoop, pending, calls]
  | succ n ih =>
    have hidx : asUsize (s.lastApplied + 1) = (s.lastApplied + 1).toNat :=
      asUsize_toNat (by omega) (by omega)
    unfold applyLoop
    rw [hidx]
    split
    · rename_i hnone
      simp [pending_of_none hnone, calls]
    · rename_i entry hentry
      split
      · rename_i sm hexec
        simp [pending_succ_of_some sm h₀ hentry, calls, hexec]
      · rename_i sm hexec
        have hnext : (s.lastApplied + 1 + 1).toNat = (s.lastApplied + 1).toNat + 1 := by omega
        rw [Outcome.andThen_of_not_panicked rfl, pending_succ_of_some sm h₀ hentry, calls, hexec]
        show _ :: (applyLoop n _).effects = _ :: _
        rw [ih (s := { s with stateMachine := sm, lastApplied := s.lastApplied + 1 }) hlen
          (by simp only; omega) (by simp only; omega)]
        simp only [hnext]

omit [StateMachine σ] in
theorem holdsFrom_drop {log : List LogEntry} (hlen : log.length < 2 ^ 63) (i n : ℕ) :
    HoldsFrom log i ((log.drop i).take n) := by
  induction n generalizing i with
  | zero =>
    rw [List.take_zero]
    trivial
  | succ n ih =>
    rcases Nat.lt_or_ge i log.length with hlt | hge
    · rw [List.drop_eq_getElem_cons hlt, List.take_succ_cons]
      refine ⟨?_, ?_⟩
      · rw [asUsize_natCast (by omega)]
        exact List.getElem?_eq_getElem hlt
      · exact_mod_cast ih (i + 1)
    · rw [List.drop_eq_nil_of_le hge, List.take_nil]
      trivial

/-- **Applying up to a commit index** within the log. -/
theorem applyCommitted_eq {s : Server σ} (hlen : s.log.length < 2 ^ 63) (h₀ : -1 ≤ s.lastApplied)
    (hle : s.lastApplied ≤ s.commitIndex) (hci : s.commitIndex < s.log.length) :
    s.applyCommitted = ⟨{ s with
        stateMachine :=
          consumer.attempt s.stateMachine (s.pending (s.commitIndex - s.lastApplied).toNat)
        lastApplied := s.lastApplied + (consumer.accepted s.stateMachine
          (s.pending (s.commitIndex - s.lastApplied).toNat)).length },
      calls s.stateMachine (s.lastApplied + 1).toNat
        (s.pending (s.commitIndex - s.lastApplied).toNat), false⟩ := by
  have hlength : (s.pending (s.commitIndex - s.lastApplied).toNat).length =
      (s.commitIndex - s.lastApplied).toNat := by
    rw [pending, List.length_take, List.length_drop]
    omega
  have hholds : HoldsFrom s.log (s.lastApplied + 1)
      (s.pending (s.commitIndex - s.lastApplied).toNat) := by
    have hnext : s.lastApplied + 1 = ((s.lastApplied + 1).toNat : ℕ) := by omega
    rw [hnext]
    exact holdsFrom_drop hlen _ _
  have hserver := applyLoop_attempt hholds
  have heffects := applyLoop_effects (n := (s.commitIndex - s.lastApplied).toNat) hlen h₀ (by omega)
  have hp := (applyLoop_spec (s.commitIndex - s.lastApplied).toNat s).2.1
  rw [hlength] at hserver
  unfold applyCommitted
  rw [← hserver, ← heffects, ← hp]

/-- A `last_applied` below `-1` names no entry. -/
theorem applyLoop_of_lt {n : ℕ} {s : Server σ} (hlen : s.log.length < 2 ^ 63)
    (h₀ : s.lastApplied < -1) (h : -2 ^ 31 ≤ s.lastApplied) : s.applyLoop n = .done s := by
  have hnone : s.log[asUsize (s.lastApplied + 1)]? = none := by
    have := le_asUsize_of_neg (x := s.lastApplied + 1) (by omega) (by omega)
    exact List.getElem?_eq_none (by omega)
  cases n with
  | zero => rfl
  | succ n => simp [applyLoop, hnone]

/-! ### The commit index the loop goes by -/

omit [StateMachine σ] in
/-- The commit index `apply_latest_commited_logs` goes on with; `none` where the subtraction
panics. -/
def raisedCommit (s : Server σ) (leaderCommit : ℤ) : Option ℤ :=
  if leaderCommit > s.commitIndex then
    s.lenMinusOne.map fun lastIdx =>
      if lastIdx ≥ 0 then min leaderCommit lastIdx else s.commitIndex
  else some s.commitIndex

theorem applyLatestCommitedLogs_eq (s : Server σ) (leaderCommit : ℤ) :
    s.applyLatestCommitedLogs leaderCommit =
      (s.raisedCommit leaderCommit).elim (.panic s) fun ci =>
        { s with commitIndex := ci }.applyCommitted := by
  unfold applyLatestCommitedLogs raisedCommit
  split_ifs with hgt
  · cases s.lenMinusOne with
    | none => rfl
    | some lastIdx =>
      by_cases h : lastIdx ≥ 0
      · simp [h]
      · simp [h]
  · rfl

end Server

end MiniRaft
