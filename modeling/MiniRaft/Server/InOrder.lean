import MiniRaft.Server.LeaderCommit

/-!
# Application in order

`apply_latest_commited_logs` called again and again, with whatever commit indices the leaders send,
on a log that grows at its end in between.

* `Server.AppliesInOrder` : what has been applied so far is the log up to `last_applied`, once.
* `Server.appliesInOrder_observe` : it holds after every sequence of calls and appends.
* `Server.apply_in_order` : so failures only delay entries, and where there are none, the greatest
  commit index alone decides the outcome.
-/

namespace MiniRaft

variable {σ : Type}

/-- What reaches a log and its commit index. -/
inductive Notice
  /-- A call of `apply_latest_commited_logs`. -/
  | commit (leaderCommit : ℤ)
  /-- New entries at the end of the log. -/
  | append (entries : List LogEntry)

namespace Outcome

/-- No call of the state machine has failed. -/
def NeverFails (o : Outcome σ) : Prop := ∀ index command, .apply index command false ∉ o.effects

end Outcome

namespace Server

variable [StateMachine σ]

/-- The server once the notices have reached it, one after the other. -/
def observe : List Notice → Server σ → Outcome σ
  | [], s => .done s
  | .commit leaderCommit :: notices, s =>
    (s.applyLatestCommitedLogs leaderCommit).andThen (observe notices)
  | .append entries :: notices, s => observe notices { s with log := s.log ++ entries }

theorem observe_nil : (observe [] : Server σ → Outcome σ) = Outcome.done := rfl

/-! ### One call -/

omit [StateMachine σ] in
/-- The fields of a server that keep `last_applied` and the commit index within the log. -/
structure Within (s : Server σ) : Prop where
  lastApplied : -1 ≤ s.lastApplied
  le : s.lastApplied ≤ s.commitIndex
  lt : s.commitIndex < s.log.length

omit [StateMachine σ] in
theorem Within.clampCommit {s : Server σ} (h : s.Within) (lc : ℤ) :
    s.clampCommit lc = max s.commitIndex (min lc (s.log.length - 1)) := by
  have hlt := h.lt
  unfold Server.clampCommit
  split_ifs with hgt
  · omega
  · rw [not_and_or, not_not] at hgt
    rcases hgt with hle | hnil
    · omega
    · have h₁ := h.lastApplied
      have h₂ := h.le
      have hzero : s.log.length = 0 := by rw [hnil]; rfl
      omega

omit [StateMachine σ] in
/-- The entries a call is to apply. -/
def due (s : Server σ) (lc : ℤ) : List LogEntry :=
  s.pending (s.clampCommit lc - s.lastApplied).toNat

omit [StateMachine σ] in
theorem Within.length_due {s : Server σ} (h : s.Within) (lc : ℤ) :
    ((s.due lc).length : ℤ) = s.clampCommit lc - s.lastApplied := by
  obtain ⟨h₁, h₂, h₃⟩ := h
  have hclamp := Within.clampCommit ⟨h₁, h₂, h₃⟩ lc
  rw [due, pending, List.length_take, List.length_drop]
  omega

/-- **One call.** -/
theorem Within.applyLatestCommitedLogs {s : Server σ} (h : s.Within) (hlen : s.log.length < 2 ^ 31)
    (lc : ℤ) : s.applyLatestCommitedLogs lc = ⟨{ s with
        commitIndex := s.clampCommit lc
        stateMachine := consumer.attempt s.stateMachine (s.due lc)
        lastApplied := s.lastApplied + (consumer.accepted s.stateMachine (s.due lc)).length },
      calls s.stateMachine (s.lastApplied + 1).toNat (s.due lc), false⟩ := by
  obtain ⟨h₁, h₂, h₃⟩ := h
  have hclamp := Within.clampCommit ⟨h₁, h₂, h₃⟩ lc
  rw [applyLatestCommitedLogs_of_lt hlen]
  refine applyCommitted_eq (s := { s with commitIndex := s.clampCommit lc }) ?_ h₁ ?_ ?_
  · show s.log.length < 2 ^ 63
    omega
  · show s.lastApplied ≤ s.clampCommit lc
    omega
  · show s.clampCommit lc < s.log.length
    omega

theorem Within.server_applyLatestCommitedLogs {s : Server σ} (h : s.Within)
    (hlen : s.log.length < 2 ^ 31) (lc : ℤ) : (s.applyLatestCommitedLogs lc).server.Within := by
  have hclamp := h.clampCommit lc
  have hdue := h.length_due lc
  have hle := Consumer.length_accepted_le (C := consumer) s.stateMachine (s.due lc)
  rw [h.applyLatestCommitedLogs hlen lc]
  obtain ⟨h₁, h₂, h₃⟩ := h
  refine ⟨?_, ?_, ?_⟩
  · show -1 ≤ s.lastApplied + (consumer.accepted s.stateMachine (s.due lc)).length
    omega
  · show s.lastApplied + (consumer.accepted s.stateMachine (s.due lc)).length ≤ s.clampCommit lc
    omega
  · show s.clampCommit lc < s.log.length
    omega

/-! ### What has been applied -/

/-- `o`, reached from the server `s₀`, has applied the log up to `last_applied`, every entry once
and in order, and its state machine is what the calls made have left; without failures these are
the calls for the log up to `last_applied`, and nothing committed is left. -/
structure AppliesInOrder (s₀ : Server σ) (o : Outcome σ) : Prop where
  returns : o.panicked = false
  within : o.server.Within
  applied : appliedBy o = (o.server.log.take (o.server.lastApplied + 1).toNat).mapIdx
    fun i entry => (i, entry.command)
  called : Called s₀.stateMachine (attempts o.effects) o.server.stateMachine
  store : o.NeverFails → o.server.lastApplied = o.server.commitIndex ∧
    o.server.stateMachine = (o.server.log.take (o.server.lastApplied + 1).toNat).foldl
      (fun sm entry => carryOut sm entry.command) s₀.stateMachine

theorem replay_eq_foldl (sm : σ) (entries : List LogEntry) :
    replay sm entries = entries.foldl (fun sm entry => carryOut sm entry.command) sm := by
  induction entries generalizing sm with
  | nil => rfl
  | cons entry entries ih =>
    rw [replay, ih, execute_fst]
    rfl

theorem appliedBy_of_calls (sm : σ) (a : ℕ) (entries : List LogEntry) (s : Server σ)
    (panicked : Bool) : appliedBy ⟨s, calls sm a entries, panicked⟩ =
      (consumer.accepted sm entries).mapIdx fun i entry => (a + i, entry.command) := by
  have haccepted := appliedBy_calls a (consumer.accepted sm entries) [] s panicked
  rw [List.map_nil, List.append_nil] at haccepted
  rw [← haccepted, calls_eq]
  unfold appliedBy
  rw [List.filterMap_append]
  cases entries[(consumer.accepted sm entries).length]? <;> simp

theorem accepted_eq_of_calls {sm : σ} {a : ℕ} {entries : List LogEntry}
    (h : ∀ index command, .apply index command false ∉ calls sm a entries) :
    consumer.accepted sm entries = entries := by
  have hlen : entries.length ≤ (consumer.accepted sm entries).length := by
    by_contra hlt
    obtain ⟨entry, hget⟩ : ∃ entry, entries[(consumer.accepted sm entries).length]? = some entry :=
      ⟨_, List.getElem?_eq_getElem (Nat.not_le.1 hlt)⟩
    refine h (a + (consumer.accepted sm entries).length) entry.command ?_
    rw [calls_eq, hget]
    exact List.mem_append_right _ List.mem_cons_self
  rw [Consumer.accepted_eq_take, List.take_of_length_le hlen]

theorem AppliesInOrder.append {s₀ : Server σ} {o : Outcome σ} (h : s₀.AppliesInOrder o)
    (entries : List LogEntry) : s₀.AppliesInOrder
      (o.andThen fun s => .done { s with log := s.log ++ entries }) := by
  obtain ⟨hp, ⟨h₁, h₂, h₃⟩, happlied, hcalled, hstore⟩ := h
  have htake : (o.server.log ++ entries).take (o.server.lastApplied + 1).toNat =
      o.server.log.take (o.server.lastApplied + 1).toNat :=
    List.take_append_of_le_length (by omega)
  rw [Outcome.andThen_of_not_panicked hp, Outcome.done_effects, List.append_nil]
  refine ⟨rfl, ⟨h₁, h₂, ?_⟩, ?_, hcalled, ?_⟩
  · show o.server.commitIndex < (o.server.log ++ entries).length
    rw [List.length_append]
    omega
  · show appliedBy o = ((o.server.log ++ entries).take (o.server.lastApplied + 1).toNat).mapIdx _
    rw [htake, happlied]
  · intro hnever
    obtain ⟨hla, hsm⟩ := hstore hnever
    refine ⟨hla, ?_⟩
    show _ = ((o.server.log ++ entries).take (o.server.lastApplied + 1).toNat).foldl _ _
    rw [htake]
    exact hsm

theorem AppliesInOrder.commit {s₀ : Server σ} {o : Outcome σ} (h : s₀.AppliesInOrder o)
    (hlen : o.server.log.length < 2 ^ 31) (lc : ℤ) :
    s₀.AppliesInOrder (o.andThen fun s => s.applyLatestCommitedLogs lc) := by
  obtain ⟨hp, hwithin, happlied, hcalled, hstore⟩ := h
  have hwithin' := hwithin.server_applyLatestCommitedLogs hlen lc
  rw [Outcome.andThen_of_not_panicked hp]
  rw [hwithin.applyLatestCommitedLogs hlen lc] at hwithin' ⊢
  have hclamp := hwithin.clampCommit lc
  have hdue := hwithin.length_due lc
  obtain ⟨h₁, h₂, h₃⟩ := hwithin
  have hle := Consumer.length_accepted_le (C := consumer) o.server.stateMachine (o.server.due lc)
  have heq := Consumer.accepted_eq_take (C := consumer) o.server.stateMachine (o.server.due lc)
  generalize hacc : consumer.accepted o.server.stateMachine (o.server.due lc) = acc
    at hwithin' hle heq ⊢
  -- the entries of this call follow those of the calls before
  have htake : o.server.log.take (o.server.lastApplied + acc.length + 1).toNat =
      o.server.log.take (o.server.lastApplied + 1).toNat ++ acc := by
    have hnext : (o.server.lastApplied + acc.length + 1).toNat =
        (o.server.lastApplied + 1).toNat + acc.length := by omega
    rw [hnext, List.take_add]
    congr 1
    conv_rhs => rw [heq, due, pending, List.take_take, Nat.min_eq_left (by omega)]
  refine ⟨rfl, hwithin', ?_, ?_, ?_⟩
  · have hcalls := appliedBy_of_calls o.server.stateMachine (o.server.lastApplied + 1).toNat
      (o.server.due lc) o.server false
    have hlength : (o.server.log.take (o.server.lastApplied + 1).toNat).length =
        (o.server.lastApplied + 1).toNat := by
      rw [List.length_take]
      omega
    show (o.effects ++ calls _ _ _).filterMap _ =
      (o.server.log.take (o.server.lastApplied + acc.length + 1).toNat).mapIdx _
    rw [htake, List.mapIdx_append, ← happlied, List.filterMap_append, hlength]
    congr 1
    refine hcalls.trans ?_
    rw [hacc]
    simp only [Nat.add_comm]
  · show Called s₀.stateMachine (attempts (o.effects ++ calls _ _ _)) _
    rw [attempts_append]
    exact hcalled.append (called_calls _ _ _)
  · intro hnever
    have hfirst : o.NeverFails := fun k cmd hmem => hnever k cmd (List.mem_append_left _ hmem)
    have hall : acc = o.server.due lc := by
      rw [← hacc]
      exact accepted_eq_of_calls fun k cmd hmem => hnever k cmd (List.mem_append_right _ hmem)
    have hsucceed : succeed o.server.stateMachine (o.server.due lc) = true := by
      rw [succeed_iff, hacc, hall]
    obtain ⟨-, hsm⟩ := hstore hfirst
    constructor
    · show o.server.lastApplied + acc.length = o.server.clampCommit lc
      rw [hall]
      omega
    · show consumer.attempt o.server.stateMachine (o.server.due lc) =
        (o.server.log.take (o.server.lastApplied + acc.length + 1).toNat).foldl _ _
      rw [htake, List.foldl_append, ← hsm, attempt_of_succeed hsucceed, replay_eq_foldl, hall]

/-! ### All notices -/

theorem log_applyLatestCommitedLogs (s : Server σ) (lc : ℤ) :
    (s.applyLatestCommitedLogs lc).server.log = s.log := by
  rw [applyLatestCommitedLogs_eq]
  cases s.raisedCommit lc with
  | none => rfl
  | some ci =>
    let s' : Server σ := { s with commitIndex := ci }
    obtain ⟨sm, la, heq, -⟩ := (s'.applyCommitted_ensures fun _ _ => True).server
      (applyLoop_spec _ s').2.1
    show s'.applyCommitted.server.log = s.log
    rw [heq]

theorem isPrefix_log_observe (ns : List Notice) (s : Server σ) :
    s.log <+: (observe ns s).server.log := by
  induction ns generalizing s with
  | nil => exact List.prefix_refl _
  | cons n ns ih =>
    cases n with
    | commit lc =>
      have hlog := s.log_applyLatestCommitedLogs lc
      rw [observe]
      cases hp : (s.applyLatestCommitedLogs lc).panicked with
      | true =>
        refine ⟨[], ?_⟩
        rw [Outcome.andThen_of_panicked hp, hlog, List.append_nil]
      | false =>
        rw [Outcome.andThen_of_not_panicked hp, ← hlog]
        exact ih _
    | append entries => exact (List.prefix_append _ entries).trans (ih { s with log := _ })

/-- **In order, whatever comes next.** -/
theorem AppliesInOrder.observe {s₀ : Server σ} {o : Outcome σ} (h : s₀.AppliesInOrder o)
    (ns : List Notice) (hlen : (o.andThen (observe ns)).server.log.length < 2 ^ 31) :
    s₀.AppliesInOrder (o.andThen (observe ns)) := by
  induction ns generalizing o with
  | nil =>
    rw [observe_nil, Outcome.andThen_done]
    exact h
  | cons n ns ih =>
    cases n with
    | commit lc =>
      have hstep : o.andThen (Server.observe (.commit lc :: ns)) =
          (o.andThen fun s => s.applyLatestCommitedLogs lc).andThen (Server.observe ns) :=
        (o.andThen_assoc _ _).symm
      have hlog : o.server.log.length < 2 ^ 31 := by
        rw [Outcome.andThen_of_not_panicked h.returns] at hlen
        exact Nat.lt_of_le_of_lt (isPrefix_log_observe (.commit lc :: ns) o.server).length_le hlen
      rw [hstep] at hlen ⊢
      exact ih (h.commit hlog lc) hlen
    | append entries =>
      have hstep : o.andThen (Server.observe (.append entries :: ns)) =
          (o.andThen fun s => .done { s with log := s.log ++ entries }).andThen
            (Server.observe ns) := by
        rw [Outcome.andThen_assoc]
        simp only [Outcome.done_andThen]
        rfl
      rw [hstep] at hlen ⊢
      exact ih (h.append entries) hlen

theorem appliesInOrder_done {s₀ : Server σ} (hci : s₀.commitIndex = -1)
    (hla : s₀.lastApplied = -1) : s₀.AppliesInOrder (.done s₀) := by
  refine ⟨rfl, ⟨?_, ?_, ?_⟩, ?_, .nil, fun _ => ⟨?_, ?_⟩⟩
  · exact Int.le_of_eq hla.symm
  · exact Int.le_of_eq (hla.trans hci.symm)
  · show s₀.commitIndex < s₀.log.length
    omega
  · show [] = (s₀.log.take (s₀.lastApplied + 1).toNat).mapIdx _
    rw [hla]
    rfl
  · exact hla.trans hci.symm
  · show s₀.stateMachine = (s₀.log.take (s₀.lastApplied + 1).toNat).foldl _ _
    rw [hla]
    rfl

/-! ### Failures -/

/-- The call for the entry at `index` has failed: nothing follows it, `last_applied` stays before
it, and the next call begins with it. -/
structure StopsAt (o : Outcome σ) (index : ℕ) (command : LogCommand) : Prop where
  last : o.effects.getLast? = some (.apply index command false)
  lastApplied : o.server.lastApplied = index - 1
  resumes : ∀ entries lc, (o.server.log ++ entries).length < 2 ^ 31 →
    ∃ ok, ({ o.server with log := o.server.log ++ entries }.applyLatestCommitedLogs
      lc).effects.head? = some (.apply index command ok)

theorem head?_calls (sm : σ) (a : ℕ) (entry : LogEntry) (entries : List LogEntry) :
    ∃ ok, (calls sm a (entry :: entries)).head? = some (.apply a entry.command ok) := by
  rw [calls]
  cases execute sm entry.command with
  | mk sm' ok => cases ok <;> exact ⟨_, rfl⟩

theorem Within.head?_effects {s : Server σ} (h : s.Within) (hlen : s.log.length < 2 ^ 31) (lc : ℤ)
    {index : ℕ} {entry : LogEntry} (hentry : s.log[index]? = some entry)
    (hla : s.lastApplied + 1 = index) (hlt : s.lastApplied < s.commitIndex) :
    ∃ ok, (s.applyLatestCommitedLogs lc).effects.head? = some (.apply index entry.command ok) := by
  have hclamp := h.clampCommit lc
  obtain ⟨hidx, hget⟩ := List.getElem?_eq_some_iff.1 hentry
  have hstart : (s.lastApplied + 1).toNat = index := by omega
  have hcount : (s.clampCommit lc - s.lastApplied).toNat =
      (s.clampCommit lc - s.lastApplied).toNat - 1 + 1 := by omega
  have hdue : s.due lc = entry ::
      (s.log.drop (index + 1)).take ((s.clampCommit lc - s.lastApplied).toNat - 1) := by
    rw [due, pending, hstart, List.drop_eq_getElem_cons hidx, hcount, List.take_succ_cons, hget]
    rfl
  rw [h.applyLatestCommitedLogs hlen lc]
  show ∃ ok, (calls s.stateMachine (s.lastApplied + 1).toNat (s.due lc)).head? = _
  rw [hstart, hdue]
  exact head?_calls _ _ _ _

theorem Within.stopsAt {s : Server σ} (h : s.Within) (hlen : s.log.length < 2 ^ 31) {lc : ℤ}
    {index : ℕ} {command : LogCommand}
    (hfail : .apply index command false ∈ (s.applyLatestCommitedLogs lc).effects) :
    StopsAt (s.applyLatestCommitedLogs lc) index command := by
  have hclamp := h.clampCommit lc
  have hdue := h.length_due lc
  rw [h.applyLatestCommitedLogs hlen lc] at hfail ⊢
  obtain ⟨h₁, h₂, h₃⟩ := h
  have hfail : .apply index command false ∈
      calls s.stateMachine (s.lastApplied + 1).toNat (s.due lc) := hfail
  generalize hn : (consumer.accepted s.stateMachine (s.due lc)).length = n
  obtain ⟨entry, hentry, rfl, rfl⟩ : ∃ entry, (s.due lc)[n]? = some entry ∧
      index = (s.lastApplied + 1).toNat + n ∧ command = entry.command := by
    rw [calls_eq, hn] at hfail
    rcases List.mem_append.1 hfail with hmem | hmem
    · obtain ⟨i, hi, heq⟩ := List.mem_mapIdx.1 hmem
      cases heq
    · rw [Option.mem_toList, Option.map_eq_some_iff] at hmem
      obtain ⟨entry, hentry, heq⟩ := hmem
      cases heq
      exact ⟨entry, hentry, rfl, rfl⟩
  have hlt := (List.getElem?_eq_some_iff.1 hentry).1
  have hget : s.log[(s.lastApplied + 1).toNat + n]? = some entry := by
    rw [due, pending, List.getElem?_take_of_lt (by omega), List.getElem?_drop] at hentry
    exact hentry
  refine ⟨?_, ?_, fun entries lc' hlen' => ?_⟩
  · show (calls _ _ _).getLast? = _
    rw [calls_eq, hn, hentry]
    simp
  · show s.lastApplied + n = _
    omega
  · let s' : Server σ := { s with
      log := s.log ++ entries
      stateMachine := consumer.attempt s.stateMachine (s.due lc)
      commitIndex := s.clampCommit lc
      lastApplied := s.lastApplied + n }
    have hs' : s'.Within := by
      refine ⟨?_, ?_, ?_⟩
      · show -1 ≤ s.lastApplied + n
        omega
      · show s.lastApplied + n ≤ s.clampCommit lc
        omega
      · show s.clampCommit lc < (s.log ++ entries).length
        rw [List.length_append]
        omega
    refine hs'.head?_effects hlen' lc' ?_ ?_ ?_
    · exact (List.getElem?_append_left (List.getElem?_eq_some_iff.1 hget).1).trans hget
    · show s.lastApplied + n + 1 = _
      omega
    · show s.lastApplied + n < s.clampCommit lc
      omega

/-! ### A fixed log -/

theorem log_observe_commit (lcs : List ℤ) (s : Server σ) :
    (observe (lcs.map .commit) s).server.log = s.log := by
  induction lcs generalizing s with
  | nil => rfl
  | cons lc lcs ih =>
    have hlog := s.log_applyLatestCommitedLogs lc
    rw [List.map_cons, observe]
    cases hp : (s.applyLatestCommitedLogs lc).panicked with
    | true => rw [Outcome.andThen_of_panicked hp, hlog]
    | false => rw [Outcome.andThen_of_not_panicked hp, ih, hlog]

theorem commitIndex_observe {s : Server σ} (h : s.Within) (hlen : s.log.length < 2 ^ 31)
    (lcs : List ℤ) :
    s.commitIndex ≤ (observe (lcs.map .commit) s).server.commitIndex ∧
      (∀ lc ∈ lcs, min lc (s.log.length - 1) ≤
        (observe (lcs.map .commit) s).server.commitIndex) ∧
      ((observe (lcs.map .commit) s).server.commitIndex = s.commitIndex ∨
        ∃ lc ∈ lcs, (observe (lcs.map .commit) s).server.commitIndex =
          min lc (s.log.length - 1)) := by
  induction lcs generalizing s with
  | nil => exact ⟨Int.le_refl _, List.forall_mem_nil _, .inl rfl⟩
  | cons lc lcs ih =>
    have hcall := h.applyLatestCommitedLogs hlen lc
    have hclamp := h.clampCommit lc
    have hlog := s.log_applyLatestCommitedLogs lc
    have hci : (s.applyLatestCommitedLogs lc).server.commitIndex = s.clampCommit lc := by rw [hcall]
    have hp : (s.applyLatestCommitedLogs lc).panicked = false := by rw [hcall]
    have hstep : (observe ((lc :: lcs).map .commit) s).server =
        (observe (lcs.map .commit) (s.applyLatestCommitedLogs lc).server).server := by
      rw [List.map_cons, observe, Outcome.andThen_of_not_panicked hp]
    obtain ⟨hle, hall, hend⟩ := ih (h.server_applyLatestCommitedLogs hlen lc) (by rwa [hlog])
    simp only [hlog, hci] at hle hall hend
    rw [hstep]
    refine ⟨Int.le_trans ?_ hle, List.forall_mem_cons.2 ⟨Int.le_trans ?_ hle, hall⟩, ?_⟩
    · rw [hclamp]
      exact Int.le_max_left _ _
    · rw [hclamp]
      exact Int.le_max_right _ _
    rcases hend with hend | ⟨lc', hmem, hend⟩
    · rcases Int.le_total (min lc (s.log.length - 1)) s.commitIndex with hmin | hmin
      · exact .inl (by omega)
      · exact .inr ⟨lc, List.mem_cons_self, by omega⟩
    · exact .inr ⟨lc', List.mem_cons_of_mem _ hmem, hend⟩

theorem observe_of_greatest (s₀ : Server σ) (hci : s₀.commitIndex = -1) (hla : s₀.lastApplied = -1)
    (hlen : s₀.log.length < 2 ^ 31) {lcs : List ℤ} {v : ℤ} (hv : -1 ≤ v) (hmem : v ∈ lcs)
    (hall : ∀ lc ∈ lcs, lc ≤ v) (hnever : (observe (lcs.map .commit) s₀).NeverFails) :
    (observe (lcs.map .commit) s₀).server.commitIndex = min v (s₀.log.length - 1) ∧
      (observe (lcs.map .commit) s₀).server.lastApplied = min v (s₀.log.length - 1) ∧
      (observe (lcs.map .commit) s₀).server.stateMachine =
        (s₀.log.take (min v (s₀.log.length - 1) + 1).toNat).foldl
          (fun sm entry => carryOut sm entry.command) s₀.stateMachine := by
  have hlog := log_observe_commit lcs s₀
  have hdone := appliesInOrder_done hci hla
  have horder : s₀.AppliesInOrder (observe (lcs.map .commit) s₀) := by
    have h := hdone.observe (lcs.map .commit)
    rw [Outcome.done_andThen, hlog] at h
    exact h hlen
  have hwithin : s₀.Within := hdone.within
  have hlt := hwithin.lt
  obtain ⟨hle, hge, hend⟩ := commitIndex_observe hwithin hlen lcs
  obtain ⟨happlied, hstore⟩ := horder.store hnever
  have hfinal : (observe (lcs.map .commit) s₀).server.commitIndex = min v (s₀.log.length - 1) := by
    have hreached := hge v hmem
    rcases hend with hend | ⟨lc, hlc, hend⟩
    · omega
    · have := hall lc hlc
      omega
  rw [happlied, hfinal, hlog] at hstore
  exact ⟨hfinal, happlied.trans hfinal, hstore⟩

/-- **In-order, exactly-once application.**  From the initial state with any log, after any calls
and appends that leave the log below `2 ^ 31` entries: what has been applied is the log up to
`last_applied`, in order and once, and a call that fails is the last of its notice and the first of
the next.  On a fixed log, if no call fails, the greatest commit index of the notices alone decides
what is committed, what is applied and what the state machine holds. -/
theorem apply_in_order (id : NodeId) (config : ServerConfig) (stateMachine : σ)
    (log : List LogEntry) :
    let s₀ : Server σ := { Server.new id config stateMachine with log := log }
    (∀ notices, (observe notices s₀).server.log.length < 2 ^ 31 →
      s₀.AppliesInOrder (observe notices s₀) ∧
      ∀ lc index command,
        .apply index command false ∈
          ((observe notices s₀).server.applyLatestCommitedLogs lc).effects →
        StopsAt ((observe notices s₀).server.applyLatestCommitedLogs lc) index command) ∧
    (log.length < 2 ^ 31 → ∀ (lcs lcs' : List ℤ) (v : ℤ), -1 ≤ v →
      (v ∈ lcs ∧ ∀ lc ∈ lcs, lc ≤ v) → (v ∈ lcs' ∧ ∀ lc ∈ lcs', lc ≤ v) →
      let o := observe (lcs.map .commit) s₀
      let o' := observe (lcs'.map .commit) s₀
      o.NeverFails → o'.NeverFails →
        o.server.commitIndex = min v (log.length - 1) ∧
        o'.server.commitIndex = o.server.commitIndex ∧
        o'.server.lastApplied = o.server.lastApplied ∧
        o'.server.stateMachine = o.server.stateMachine) := by
  intro s₀
  refine ⟨fun notices hlen => ?_, ?_⟩
  · have horder : s₀.AppliesInOrder (observe notices s₀) := by
      have hdone : s₀.AppliesInOrder (.done s₀) := appliesInOrder_done rfl rfl
      have h := hdone.observe notices
      rw [Outcome.done_andThen] at h
      exact h hlen
    exact ⟨horder, fun lc index command hfail => horder.within.stopsAt hlen hfail⟩
  · rintro hlen lcs lcs' v hv ⟨hmem, hall⟩ ⟨hmem', hall'⟩ o o' hnever hnever'
    obtain ⟨hci, hla, hsm⟩ := s₀.observe_of_greatest rfl rfl hlen hv hmem hall hnever
    obtain ⟨hci', hla', hsm'⟩ := s₀.observe_of_greatest rfl rfl hlen hv hmem' hall' hnever'
    exact ⟨hci, hci'.trans hci.symm, hla'.trans hla.symm, hsm'.trans hsm.symm⟩

/-- Two entries, notified in one order and in the other, and a third one appended later. -/
theorem apply_in_order_two :
    let s₀ := { Server.new 1 ⟨3, [1, 2, 3]⟩ SimpleStateMachine.new with
      log := [⟨1, .set "x" "1", 0, 7, 1⟩, ⟨1, .delete "x", 1, 7, 2⟩] }
    s₀.AppliesInOrder (observe [.commit 0, .append [⟨1, .get "x", 2, 7, 3⟩], .commit 9] s₀) ∧
      (observe [.commit 4, .commit 0] s₀).server.stateMachine =
        (observe [.commit (-1), .commit 0, .commit 4] s₀).server.stateMachine := by
  intro s₀
  obtain ⟨horder, hfixed⟩ := apply_in_order 1 ⟨3, [1, 2, 3]⟩ SimpleStateMachine.new
    [⟨1, .set "x" "1", 0, 7, 1⟩, ⟨1, .delete "x", 1, 7, 2⟩]
  have hnever : ∀ o : Outcome SimpleStateMachine, o.effects =
      [.apply 0 (.set "x" "1") true, .apply 1 (.delete "x") true] → o.NeverFails := by
    intro o heffects index command hmem
    simp [heffects] at hmem
  refine ⟨(horder [.commit 0, .append [⟨1, .get "x", 2, 7, 3⟩], .commit 9] (by decide)).1, ?_⟩
  exact (hfixed (by decide) [-1, 0, 4] [4, 0] 4 (by decide) (by decide) (by decide)
    (hnever _ rfl) (hnever _ rfl)).2.2.2

end Server

end MiniRaft
