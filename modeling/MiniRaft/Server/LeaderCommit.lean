import MiniRaft.Server.FollowerCommit
import MiniRaft.Server.Votes
import Mathlib.Data.Finset.Card
import Mathlib.Data.Finset.Dedup

/-!
# What a leader commits

The commit loop of `handle_append_entries_response` takes the first index past the commit index
whose entry is of the current term and that enough slots of `match_index` have reached.

* `Server.leader_commit_sound` : what it commits, a majority holds.
* `Server.leader_commit_complete_iff` : when nothing that a majority holds is left.
* `Server.commits_answered_iff` : when every new commit is applied and answered.
-/

namespace MiniRaft

variable {σ : Type}

namespace Server

/-! ### Counting slots -/

theorem matchCount_anti {mi : List ℤ} {m n : ℤ} (h : m ≤ n) :
    matchCount mi n ≤ matchCount mi m := by
  refine List.countP_mono_left fun x _ hx => ?_
  simp only [decide_eq_true_eq] at hx ⊢
  exact Int.le_trans h hx

/-- The number of slots other than the server's own that have reached `n`. -/
def peerCount (s : Server σ) (mi : List ℤ) (n : ℤ) : ℕ := matchCount (mi.eraseIdx s.id) n

theorem peerCount_le_matchCount (s : Server σ) (mi : List ℤ) (n : ℤ) :
    s.peerCount mi n ≤ matchCount mi n :=
  List.Sublist.countP_le (List.eraseIdx_sublist mi s.id)

theorem peerCount_set (s : Server σ) (mi : List ℤ) (x n : ℤ) :
    s.peerCount (mi.set s.id x) n = s.peerCount mi n := by
  unfold peerCount
  rw [List.eraseIdx_set_eq]

/-- The peers, other than the server itself, whose slots have reached `n`. -/
def peersAt (s : Server σ) (mi : List ℤ) (n : ℤ) : Finset NodeId :=
  (s.config.peerAddresses.toFinset.erase s.id).filter fun p => ∃ x ∈ mi[p]?, n ≤ x

theorem mem_peersAt {s : Server σ} {mi : List ℤ} {n : ℤ} {p : NodeId} :
    p ∈ s.peersAt mi n ↔
      p ≠ s.id ∧ p ∈ s.config.peerAddresses ∧ ∃ x ∈ mi[p]?, n ≤ x := by
  simp [peersAt, and_assoc]

theorem peersAt_set (s : Server σ) (mi : List ℤ) (x n : ℤ) :
    s.peersAt (mi.set s.id x) n = s.peersAt mi n := by
  ext p
  rw [mem_peersAt, mem_peersAt]
  refine and_congr_right fun hne => ?_
  rw [List.getElem?_set_ne hne.symm]

theorem matchCount_le_card {mi : List ℤ} {n : ℤ} {F : Finset NodeId}
    (h : ∀ p : NodeId, ∀ x ∈ mi[p]?, n ≤ x → p ∈ F) : matchCount mi n ≤ F.card := by
  -- the last slot belongs to a node that none of the others belongs to
  induction mi using List.reverseRecOn generalizing F with
  | nil => exact Nat.zero_le _
  | append_singleton mi x ih =>
    have hfront : ∀ {p : NodeId} {y : ℤ}, y ∈ mi[p]? → y ∈ (mi ++ [x])[p]? ∧ p ≠ mi.length := by
      intro p y hy
      have hp := (List.getElem?_eq_some_iff.1 hy).1
      exact ⟨by rw [List.getElem?_append_left hp]; exact hy, Nat.ne_of_lt hp⟩
    rw [matchCount, List.countP_append]
    by_cases hx : n ≤ x
    · have hlast : mi.length ∈ F := h mi.length x (by simp) hx
      have hrest : matchCount mi n ≤ (F.erase mi.length).card := ih fun p y hy hle =>
        Finset.mem_erase.2 ⟨(hfront hy).2, h p y (hfront hy).1 hle⟩
      rw [Finset.card_erase_of_mem hlast] at hrest
      have hpos : 0 < F.card := Finset.card_pos.2 ⟨_, hlast⟩
      have hone : [x].countP (fun m => decide (n ≤ m)) = 1 := by simp [hx]
      rw [hone]
      unfold matchCount at hrest
      omega
    · have hnone : [x].countP (fun m => decide (n ≤ m)) = 0 := by simpa using hx
      rw [hnone]
      exact ih fun p y hy hle => h p y (hfront hy).1 hle

/-! ### The commit loop -/

/-- The test of the loop at an entry of the current term. -/
def Enough (s : Server σ) (mi : List ℤ) (n : ℤ) : Prop :=
  s.config.totalNodes / 2 ≠ 0 ∧ s.config.totalNodes / 2 - 1 < matchCount mi n

theorem Enough.anti {s : Server σ} {mi : List ℤ} {m n : ℤ} (h : s.Enough mi n) (hmn : m ≤ n) :
    s.Enough mi m := ⟨h.1, Nat.lt_of_lt_of_le h.2 (matchCount_anti hmn)⟩

/-- The log has an entry of the current term at `n`. -/
def Current (s : Server σ) (n : ℤ) : Prop :=
  ∃ entry ∈ s.log[asUsize n]?, entry.term = s.currentTerm

/-- The loop takes the first index with an entry of the current term, if enough nodes hold that one,
and looks at every index before. -/
theorem findCommit_eq_some_some_iff {s : Server σ} {mi ns : List ℤ} {n : ℤ}
    (hns : ns.Pairwise (· < ·)) : s.findCommit mi ns = some (some n) ↔
      n ∈ ns ∧ s.Current n ∧ s.Enough mi n ∧
        ∀ m ∈ ns, m < n → (∃ entry, s.log[asUsize m]? = some entry) ∧ ¬ s.Current m := by
  induction ns with
  | nil => simp [findCommit]
  | cons x ns ih =>
    obtain ⟨hx, hns⟩ := List.pairwise_cons.1 hns
    rw [findCommit]
    cases hentry : s.log[asUsize x]? with
    | none =>
      refine iff_of_false (by simp) ?_
      rintro ⟨hn, ⟨entry, hentry', -⟩, -, hbefore⟩
      rcases List.mem_cons.1 hn with rfl | hn
      · rw [hentry] at hentry'
        cases hentry'
      · obtain ⟨⟨entry', hentry'⟩, -⟩ := hbefore x List.mem_cons_self (hx n hn)
        rw [hentry] at hentry'
        cases hentry'
    | some entry =>
      have hcur : s.Current x ↔ entry.term = s.currentTerm := by simp [Current, hentry]
      -- past an entry that the loop goes on after, both sides are about the rest
      have hrest : ¬ s.Current x → (s.findCommit mi ns = some (some n) ↔
          n ∈ x :: ns ∧ s.Current n ∧ s.Enough mi n ∧ ∀ m ∈ x :: ns, m < n →
            (∃ entry, s.log[asUsize m]? = some entry) ∧ ¬ s.Current m) := by
        intro hnot
        rw [ih hns, List.forall_mem_cons]
        constructor
        · rintro ⟨hn, hcur', henough, hbefore⟩
          exact ⟨.tail _ hn, hcur', henough, fun _ => ⟨⟨entry, hentry⟩, hnot⟩, hbefore⟩
        · rintro ⟨hn, hcur', henough, -, hbefore⟩
          rcases List.mem_cons.1 hn with rfl | hn
          · exact absurd hcur' hnot
          · exact ⟨hn, hcur', henough, hbefore⟩
      have hfirst : s.Current x → n ∈ x :: ns → (∀ m ∈ x :: ns, m < n →
          (∃ entry, s.log[asUsize m]? = some entry) ∧ ¬ s.Current m) → n = x := by
        intro hcur' hn hbefore
        rcases List.mem_cons.1 hn with rfl | hn
        · rfl
        · exact absurd hcur' (hbefore x List.mem_cons_self (hx n hn)).2
      dsimp only
      split_ifs with hterm htwo hmaj
      · refine iff_of_false (by simp) ?_
        rintro ⟨-, -, henough, -⟩
        exact henough.1 htwo
      · rw [Option.some.injEq, Option.some.injEq]
        constructor
        · rintro rfl
          refine ⟨List.mem_cons_self, hcur.2 hterm, ⟨htwo, hmaj⟩, fun m hm hlt => ?_⟩
          rcases List.mem_cons.1 hm with rfl | hm
          · exact absurd hlt (Int.lt_irrefl _)
          · exact absurd hlt (Int.not_lt.2 (Int.le_of_lt (hx m hm)))
        · rintro ⟨hn, -, -, hbefore⟩
          exact (hfirst (hcur.2 hterm) hn hbefore).symm
      · refine iff_of_false (fun h => ?_) ?_
        · obtain ⟨hn, -, henough, -⟩ := (ih hns).1 h
          exact hmaj (henough.anti (Int.le_of_lt (hx n hn))).2
        · rintro ⟨hn, -, henough, hbefore⟩
          rw [hfirst (hcur.2 hterm) hn hbefore] at henough
          exact hmaj henough.2
      · exact hrest fun h => hterm (hcur.1 h)

/-- The loop takes nothing if it looks at every index, and no entry of the current term there is
held by enough nodes. -/
theorem findCommit_eq_some_none_iff {s : Server σ} {mi ns : List ℤ} :
    s.findCommit mi ns = some none ↔ ∀ m ∈ ns, (∃ entry, s.log[asUsize m]? = some entry) ∧
      (s.Current m → s.config.totalNodes / 2 ≠ 0 ∧ ¬ s.Enough mi m) := by
  induction ns with
  | nil => simp [findCommit]
  | cons x ns ih =>
    rw [List.forall_mem_cons, ← ih, findCommit]
    cases hentry : s.log[asUsize x]? with
    | none => simp
    | some entry =>
      have hcur : s.Current x ↔ entry.term = s.currentTerm := by simp [Current, hentry]
      simp only [Option.some.injEq, exists_eq', true_and, hcur]
      by_cases hterm : entry.term = s.currentTerm
      · by_cases htwo : s.config.totalNodes / 2 = 0
        · simp [hterm, htwo]
        · by_cases hmaj : s.config.totalNodes / 2 - 1 < matchCount mi x
          · simp [hterm, htwo, hmaj, Enough]
          · simp [hterm, htwo, hmaj, Enough]
      · simp [hterm]

theorem rangeInclusive_pairwise (start last : ℤ) : (rangeInclusive start last).Pairwise (· < ·) := by
  unfold rangeInclusive
  rw [List.pairwise_map]
  exact List.pairwise_lt_range.imp fun h => by omega

/-- **The loop takes the first entry of the current term.**  No entry of the current term lies
between the commit index and the index it takes. -/
theorem not_current_of_findCommit {s : Server σ} {mi : List ℤ} {start last n : ℤ}
    (h : s.findCommit mi (rangeInclusive start last) = some (some n)) :
    ∀ m, start ≤ m → m < n → ¬ s.Current m := by
  intro m hstart hmn
  obtain ⟨hmem, -, -, hbefore⟩ := (findCommit_eq_some_some_iff (rangeInclusive_pairwise _ _)).1 h
  obtain ⟨-, hlast⟩ := mem_rangeInclusive.1 hmem
  exact (hbefore m (mem_rangeInclusive.2 ⟨hstart, by omega⟩) hmn).2

/-- What `handle_append_entries_response` makes of a leader that has noted a reply; the loop went
up to `lastIdx`. -/
inductive Settles (s : Server σ) (mi : List ℤ) (ni : List ℕ) (lastIdx : ℤ) : Server σ → Prop
  | keep : s.findCommit mi (rangeInclusive (s.commitIndex + 1) lastIdx) = some none →
      Settles s mi ni lastIdx s
  | commit {n : ℤ} {mi' : List ℤ} (sm : σ) (la : ℤ) :
      s.findCommit mi (rangeInclusive (s.commitIndex + 1) lastIdx) = some (some n) →
      (mi' = mi ∨ mi' = mi.set s.id n) →
      Settles s mi ni lastIdx { s with
        state := .leader mi' ni, stateMachine := sm, commitIndex := n, lastApplied := la }

/-- The last index of the log, where the loop ends; `0` for an empty log. -/
def lastLogIndex (s : Server σ) : Option ℤ := if s.log.isEmpty then some 0 else s.lenMinusOne

variable [StateMachine σ]

theorem advanceCommit_settles {s : Server σ} {mi : List ℤ} {ni : List ℕ} (success : Bool)
    (hst : s.state = .leader mi ni) :
    (s.advanceCommit success).Ensures
      (fun s' => ∃ lastIdx ∈ s.lastLogIndex, s.Settles mi ni lastIdx s') fun _ _ => True := by
  have hcases := s.advanceCommit_cases success
  generalize s.advanceCommit success = o at hcases
  cases hcases with
  | panic => exact .panic
  | idle hnot =>
    rw [hst] at hnot
    cases hnot
  | keep hfind =>
    obtain ⟨rfl, -⟩ := RaftState.leader.inj (hfind.leader.symm.trans hst)
    exact .done ⟨_, hfind.last, .keep hfind.found⟩
  | raise hfind =>
    obtain ⟨rfl, -⟩ := RaftState.leader.inj (hfind.leader.symm.trans hst)
    refine .done ⟨_, hfind.last, ?_⟩
    have hsettles : s.Settles _ ni _ { s with state := .leader _ ni, commitIndex := _ } :=
      .commit s.stateMachine s.lastApplied hfind.found (.inl rfl)
    rw [← hst] at hsettles
    exact hsettles
  | @commit _ _ lastIdx n hfind _ _ =>
    obtain ⟨rfl, -⟩ := RaftState.leader.inj (hfind.leader.symm.trans hst)
    refine (applyRepeatedly_ensures _ { s with commitIndex := n } _).silent_andThen ?_
    rintro _ ⟨sm, la, rfl, -⟩
    let s₁ : Server σ := { s with commitIndex := n, stateMachine := sm, lastApplied := la }
    have hst₁ : s₁.state = .leader _ ni := hst
    have hl₁ : s₁.state.isLeader = true := by rw [hst₁]; rfl
    refine (answerClient_ensures ⟨.client 0, .hello 0⟩ hl₁ hst₁).mono ?_ fun _ _ _ _ => trivial
    rintro _ rfl
    exact ⟨lastIdx, hfind.last, .commit sm n hfind.found (.inr rfl)⟩

omit [StateMachine σ] in
/-- The commit loop of a leader with this `match_index` gets to the end of the log and commits
nothing. -/
def NothingToCommit (s : Server σ) (mi : List ℤ) : Prop :=
  (checkedI32 (s.commitIndex + 1)).isSome = true ∧ ∃ lastIdx ∈ s.lastLogIndex,
    ∀ n ∈ rangeInclusive (s.commitIndex + 1) lastIdx, (∃ entry, s.log[asUsize n]? = some entry) ∧
      (s.Current n → s.config.totalNodes / 2 ≠ 0 ∧ ¬ s.Enough mi n)

theorem advanceCommit_of_nothingToCommit {s : Server σ} {mi : List ℤ} {ni : List ℕ}
    (success : Bool) (hst : s.state = .leader mi ni) (h : s.NothingToCommit mi) :
    s.advanceCommit success = .done s := by
  obtain ⟨hstart, lastIdx, hlast, hns⟩ := h
  obtain ⟨startIndex, hstart⟩ := Option.isSome_iff_exists.1 hstart
  obtain ⟨rfl, -⟩ := checkedI32_eq_some.1 hstart
  have hlast : (if s.log.isEmpty then some 0 else s.lenMinusOne) = some lastIdx := hlast
  unfold advanceCommit
  simp only [hst, hlast, hstart, findCommit_eq_some_none_iff.2 hns]

theorem nothingToCommit_of_commitIndex {s : Server σ} {mi : List ℤ} {ni : List ℕ} {success : Bool}
    (hst : s.state = .leader mi ni) (hp : (s.advanceCommit success).panicked = false)
    (hci : (s.advanceCommit success).server.commitIndex = s.commitIndex) :
    s.NothingToCommit mi := by
  obtain ⟨lastIdx, hlast, hsettles⟩ := (advanceCommit_settles success hst).server hp
  generalize (s.advanceCommit success).server = s' at hci hsettles
  cases hsettles with
  | keep hfind =>
    refine ⟨?_, lastIdx, hlast, findCommit_eq_some_none_iff.1 hfind⟩
    by_contra hstart
    rw [Bool.not_eq_true, Option.isSome_eq_false_iff, Option.isNone_iff_eq_none] at hstart
    unfold advanceCommit at hp
    simp [hst, hstart] at hp
  | @commit n mi' sm la hfind _ =>
    have hgt := (mem_rangeInclusive.1 (findCommit_spec hfind).1).1
    have hci : n = s.commitIndex := hci
    omega

/-! ### The commit index and the unused slots of a run -/

omit [StateMachine σ] in
/-- A reply counts for a node of the configuration. -/
def Known (config : ServerConfig) (incoming : Incoming) : Prop :=
  ∀ p, incoming.sender = .peer p → p ∈ config.peerAddresses

omit [StateMachine σ] in
/-- The slots of `match_index` that belong to no node are as `become_leader` leaves them. -/
def UnusedEmpty (s : Server σ) : Prop :=
  ∀ mi ni, s.state = .leader mi ni → ∀ p, p ≠ s.id → p ∉ s.config.peerAddresses →
    ∀ x ∈ mi[p]?, x = -1

omit [StateMachine σ] in
theorem unusedEmpty_becomeLeader (s : Server σ) : s.becomeLeader.UnusedEmpty := by
  rintro mi ni hst p - - x hx
  obtain ⟨rfl, -⟩ : List.replicate (s.config.totalNodes + 1) (-1) = mi ∧ _ := by
    simpa [becomeLeader] using hst
  rw [Option.mem_def, List.getElem?_replicate] at hx
  split_ifs at hx
  cases hx
  rfl

omit [StateMachine σ] in
theorem UnusedEmpty.credits {s : Server σ} {incoming : Incoming} {msg : AppendEntriesResponse}
    {mi : List ℤ} {ni : List ℕ} (h : s.UnusedEmpty) (hknown : Known s.config incoming)
    (hcredit : s.Credits incoming.sender msg mi ni) :
    UnusedEmpty { s with state := .leader mi ni } := by
  rintro _ _ ⟨⟩ p hself hp x hx
  cases hcredit with
  | @success mi₀ ni₀ peer lastSent hst hsender =>
    have hne : peer ≠ p := fun heq => hp (heq ▸ hknown peer hsender)
    rw [Option.mem_def, List.getElem?_set_ne hne] at hx
    exact h _ _ hst p hself hp x hx
  | failure hst => exact h _ _ hst p hself hp x hx

omit [StateMachine σ] in
theorem UnusedEmpty.set_self {s s' : Server σ} {mi : List ℤ} {ni : List ℕ} {n : ℤ}
    (h : UnusedEmpty { s with state := .leader mi ni }) (hid : s'.id = s.id)
    (hconfig : s'.config = s.config) {mi' : List ℤ} (hst : s'.state = .leader mi' ni)
    (hmi : mi' = mi ∨ mi' = mi.set s.id n) : s'.UnusedEmpty := by
  intro mi₁ ni₁ hst' p hself hp x hx
  obtain ⟨rfl, -⟩ := RaftState.leader.inj (hst.symm.trans hst')
  rw [hid] at hself
  rw [hconfig] at hp
  refine h mi ni rfl p hself hp x ?_
  rcases hmi with rfl | rfl
  · exact hx
  · rwa [Option.mem_def, List.getElem?_set_ne hself.symm] at hx

omit [StateMachine σ] in
theorem UnusedEmpty.handles {s s' : Server σ} {incoming : Incoming} (h : s.UnusedEmpty)
    (hknown : Known s.config incoming) (hs : s.Handles incoming s') : s'.UnusedEmpty := by
  cases hs with
  | keep => exact h
  | stepDown => rintro _ _ ⟨⟩
  | accept => exact h
  | vote => rintro _ _ ⟨⟩
  | win => exact unusedEmpty_becomeLeader s
  | push => exact h
  | response sm _ _ hcredit hraise =>
    have hnoted := h.credits hknown hcredit
    cases hraise with
    | keep => exact hnoted
    | commit _ hmi _ => exact hnoted.set_self rfl rfl rfl hmi

omit [StateMachine σ] in
theorem UnusedEmpty.goes {s s' : Server σ} (h : s.UnusedEmpty) (hs : s.Goes s') :
    s'.UnusedEmpty := by
  cases hs with
  | keep => exact h
  | apply => exact h
  | stand => rintro _ _ ⟨⟩
  | lead => exact unusedEmpty_becomeLeader _

/-- In a run all of whose messages come from clients and configured nodes, the unused slots stay
empty. -/
theorem unusedEmpty_of_mem_passed {id : NodeId} {config : ServerConfig} {stateMachine : σ}
    {evs : List Select} (hknown : ∀ ev ∈ evs, ∀ incoming ∈ ev.incoming, Known config incoming) :
    ∀ s ∈ Server.new id config stateMachine ::
      passed ((Server.new id config stateMachine).trace evs), s.UnusedEmpty := by
  suffices ∀ s ∈ Server.new id config stateMachine ::
      passed ((Server.new id config stateMachine).trace evs),
      s.config = config ∧ s.UnusedEmpty from fun s hs => (this s hs).2
  refine trace_preserved (I := fun s => s.config = config ∧ s.UnusedEmpty) hknown
    ⟨rfl, by rintro _ _ ⟨⟩⟩ ?_ ?_
  · rintro s incoming s' hin ⟨rfl, h⟩ hs
    exact ⟨by cases hs <;> rfl, h.handles hin hs⟩
  · rintro s s' ⟨rfl, h⟩ hs
    exact ⟨by cases hs <;> rfl, h.goes hs⟩

/-- In a run whose logs stay below `2 ^ 31` entries the commit index does not fall below `-1`. -/
theorem commitIndex_ge_of_mem_passed {id : NodeId} {config : ServerConfig} {stateMachine : σ}
    {evs : List Select}
    (hshort : ∀ x ∈ Server.new id config stateMachine ::
      passed ((Server.new id config stateMachine).trace evs), x.log.length < 2 ^ 31) :
    ∀ s ∈ Server.new id config stateMachine ::
      passed ((Server.new id config stateMachine).trace evs), -1 ≤ s.commitIndex := by
  refine (phased_trace _ evs).preserved_of (I := fun s => -1 ≤ s.commitIndex) (Int.le_refl _) hshort
    ?_ ?_
  · intro s incoming s' hs hlen hlen' hhandles
    cases hhandles with
    | keep => exact hs
    | stepDown => exact hs
    | @accept nodeId msg sm ci la log _ _ hmerge hcommits =>
      have hclamp : -1 ≤ s.clampCommit msg.leaderCommit := by
        unfold clampCommit
        split_ifs with h
        · have hpos : 0 < s.log.length := List.length_pos_iff.2 h.2
          omega
        · exact hs
      obtain ⟨rfl, -⟩ := hcommits hlen
      show -1 ≤ s.acceptedCommit msg
      unfold acceptedCommit
      split
      · exact hclamp
      · rename_i last hlast
        have hindex : last.index < log.length := index_lt_of_mergedLog hmerge hlast
        have hlen' : log.length < 2 ^ 31 := hlen'
        rw [asI32_of_lt (by omega)]
        split_ifs
        · omega
        · exact hclamp
    | vote => exact hs
    | win => exact hs
    | push => exact hs
    | response sm _ _ _ hraise =>
      cases hraise with
      | keep => exact hs
      | commit hc => exact Int.le_trans hs (Int.le_of_lt hc.lt)
  · intro s s' hs _ _ hgoes
    rw [hgoes.commitIndex_eq]
    exact hs

/-! ### Soundness -/

omit [StateMachine σ] in
/-- The server's own slot of `match_index` is not past the commit index. -/
def SelfBehind (s : Server σ) : Prop :=
  ∀ mi ni, s.state = .leader mi ni → ∀ x ∈ mi[s.id]?, x ≤ s.commitIndex

omit [StateMachine σ] in
/-- If the commit index has moved, then up, to an index of the log with an entry of the current term
that the leader and the configured peers whose slots have reached it hold, more than half of all
nodes. -/
def SoundlyCommits (s s' : Server σ) : Prop :=
  s'.commitIndex = s.commitIndex ∨
    (s.commitIndex < s'.commitIndex ∧ s'.commitIndex < s.log.length ∧ s.Current s'.commitIndex ∧
      ∃ mi ni, s'.state = .leader mi ni ∧
        s.config.totalNodes < 2 * ((s.peersAt mi s'.commitIndex).card + 1))

omit [StateMachine σ] in
theorem selfBehind_becomeLeader {s : Server σ} (h : -1 ≤ s.commitIndex) :
    s.becomeLeader.SelfBehind := by
  rintro mi ni hst x hx
  obtain ⟨rfl, -⟩ : List.replicate (s.config.totalNodes + 1) (-1) = mi ∧ _ := by
    simpa [becomeLeader] using hst
  rw [Option.mem_def, List.getElem?_replicate] at hx
  split_ifs at hx
  cases hx
  exact h

omit [StateMachine σ] in
theorem lastLogIndex_lt {s : Server σ} {lastIdx : ℤ} (h : s.lastLogIndex = some lastIdx) :
    lastIdx < 2 ^ 31 := by
  unfold lastLogIndex at h
  split at h
  · cases h
    omega
  · exact (checkedI32_eq_some.1 h).2.2

omit [StateMachine σ] in
theorem lt_length_of_current {s : Server σ} {n : ℤ} (h : s.Current n) (hn : n < 2 ^ 31) :
    n < s.log.length := by
  obtain ⟨entry, hentry, -⟩ := h
  have hlt := (List.getElem?_eq_some_iff.1 hentry).1
  rcases Int.lt_or_le n 0 with hneg | h₀
  · omega
  · rw [asUsize_toNat h₀ (by omega)] at hlt
    omega

omit [StateMachine σ] in
theorem SelfBehind.matchCount_le {s : Server σ} {mi : List ℤ} {ni : List ℕ} {n : ℤ}
    (h : s.SelfBehind) (hunused : s.UnusedEmpty) (hst : s.state = .leader mi ni)
    (hci : -1 ≤ s.commitIndex) (hn : s.commitIndex < n) :
    matchCount mi n ≤ (s.peersAt mi n).card := by
  refine matchCount_le_card fun p x hx hle => mem_peersAt.2 ?_
  have hself : p ≠ s.id := by
    rintro rfl
    have := h mi ni hst x hx
    omega
  refine ⟨hself, by_contra fun hp => ?_, x, hx, hle⟩
  have := hunused mi ni hst p hself hp x hx
  omega

omit [StateMachine σ] in
theorem SelfBehind.settles {s s' : Server σ} {mi : List ℤ} {ni : List ℕ} {lastIdx : ℤ}
    (h : s.SelfBehind) (hst : s.state = .leader mi ni) (hs : s.Settles mi ni lastIdx s') :
    s'.SelfBehind := by
  cases hs with
  | keep => exact h
  | @commit n mi' sm la hfind hmi =>
    have hgt := (mem_rangeInclusive.1 (findCommit_spec hfind).1).1
    rintro mi₁ ni₁ hst' x hx
    obtain ⟨rfl, -⟩ : mi' = mi₁ ∧ _ := by simpa using hst'
    rcases hmi with rfl | rfl
    · have := h _ ni hst x hx
      show x ≤ n
      omega
    · rw [Option.mem_def, List.getElem?_set_self'] at hx
      obtain ⟨-, -, rfl⟩ := Option.map_eq_some_iff.1 hx
      exact Int.le_refl _

omit [StateMachine σ] in
theorem SelfBehind.soundlyCommits {s s' : Server σ} {mi : List ℤ} {ni : List ℕ} {lastIdx : ℤ}
    (h : s.SelfBehind) (hunused : s.UnusedEmpty) (hci : -1 ≤ s.commitIndex)
    (hst : s.state = .leader mi ni) (hlast : s.lastLogIndex = some lastIdx)
    (hs : s.Settles mi ni lastIdx s') : s.SoundlyCommits s' := by
  cases hs with
  | keep => exact .inl rfl
  | @commit n mi' sm la hfind hmi =>
    obtain ⟨hmem, hcur, htwo, hmaj⟩ := findCommit_spec hfind
    obtain ⟨hgt, hle⟩ := mem_rangeInclusive.1 hmem
    have hlen : n < s.log.length := by
      have := lastLogIndex_lt hlast
      exact lt_length_of_current hcur (by omega)
    have hcount : matchCount mi n ≤ (s.peersAt mi' n).card := by
      have hpeers := h.matchCount_le hunused hst hci (n := n) (by omega)
      rcases hmi with rfl | rfl
      · exact hpeers
      · rwa [peersAt_set]
    refine .inr ⟨?_, hlen, hcur, mi', ni, rfl, ?_⟩
    · show s.commitIndex < n
      omega
    · show s.config.totalNodes < 2 * ((s.peersAt mi' n).card + 1)
      omega

/-- **Soundness of the leader's commit rule.**  `become_leader` puts the own slot behind the commit
index, which does not fall below `-1` as long as the logs of the run stay below `2 ^ 31` entries,
and empties the unused slots, which stay so in runs whose messages come from clients and configured
nodes.  The handling of a reply of anyone else keeps the own slot behind, and if a configured peer
sent it, moves the commit index only to an entry of the current term that the leader and the peers
whose slots have reached it hold, more than half of the nodes. -/
theorem leader_commit_sound :
    (∀ s : Server σ, (-1 ≤ s.commitIndex → s.becomeLeader.SelfBehind) ∧
      s.becomeLeader.UnusedEmpty) ∧
    (∀ (id : NodeId) (config : ServerConfig) (stateMachine : σ) (evs : List Select),
      let s₀ := Server.new id config stateMachine
      ((∀ x ∈ s₀ :: passed (s₀.trace evs), x.log.length < 2 ^ 31) →
        ∀ s ∈ s₀ :: passed (s₀.trace evs), -1 ≤ s.commitIndex) ∧
      ((∀ ev ∈ evs, ∀ incoming ∈ ev.incoming, Known config incoming) →
        ∀ s ∈ s₀ :: passed (s₀.trace evs), s.UnusedEmpty)) ∧
    ∀ (s : Server σ) (sender : Id) (msg : AppendEntriesResponse), s.SelfBehind →
      sender ≠ .peer s.id → (s.handleAppendEntriesResponse sender msg).Ensures
        (fun s' => s'.SelfBehind ∧
          (-1 ≤ s.commitIndex → s.UnusedEmpty →
            Known s.config ⟨sender, .appendEntriesResponse msg⟩ →
              s'.UnusedEmpty ∧ s.SoundlyCommits s')) fun _ _ => True := by
  refine ⟨fun s => ⟨selfBehind_becomeLeader, unusedEmpty_becomeLeader s⟩,
    fun id config stateMachine evs => ⟨commitIndex_ge_of_mem_passed, unusedEmpty_of_mem_passed⟩,
    fun s sender msg hs hsender => ?_⟩
  rcases s.handleAppendEntriesResponse_cases sender msg with
    ⟨-, -, heq⟩ | heq | ⟨mi, ni, peerId, hst, rfl, -, heq⟩
  · rw [heq]
    refine .done ⟨?_, fun _ _ _ => ⟨?_, .inl rfl⟩⟩
    · rintro _ _ ⟨⟩
    · rintro _ _ ⟨⟩
  · rw [heq]
    exact .done ⟨hs, fun _ hunused _ => ⟨hunused, .inl rfl⟩⟩
  · rw [heq]
    have hpeer : peerId ≠ s.id := fun h => hsender (congrArg Id.peer h)
    -- the reply is noted in the slot of a peer
    have noted : ∀ mi₁ ni₁, s.Credits (.peer peerId) msg mi₁ ni₁ →
        SelfBehind { s with state := .leader mi₁ ni₁ } := by
      rintro mi₁ ni₁ hcredit _ _ ⟨⟩ x hx
      cases hcredit with
      | success hst₁ heq =>
        cases heq
        rw [Option.mem_def, List.getElem?_set_ne hpeer] at hx
        exact hs _ _ hst₁ x hx
      | failure hst₁ => exact hs _ _ hst₁ x hx
    refine ((noted_of_reply peerId msg hst).mono (fun _ h => h) fun _ _ _ _ => trivial).andThen ?_ ?_
    · rintro _ ⟨mi₁, ni₁, hcredit, rfl⟩
      exact ⟨noted mi₁ ni₁ hcredit, fun _ hunused hknown =>
        ⟨hunused.credits hknown hcredit, .inl rfl⟩⟩
    · rintro _ ⟨mi₁, ni₁, hcredit, rfl⟩
      refine (advanceCommit_settles msg.success rfl).mono ?_ fun _ _ _ h => h
      rintro s' ⟨lastIdx, hlast, hsettles⟩
      have hbehind := noted mi₁ ni₁ hcredit
      refine ⟨hbehind.settles rfl hsettles, fun hci hunused hknown => ?_⟩
      have hunused₁ := hunused.credits hknown hcredit
      refine ⟨?_, hbehind.soundlyCommits hunused₁ hci rfl hlast hsettles⟩
      cases hsettles with
      | keep => exact hunused₁
      | commit sm la _ hmi => exact hunused₁.set_self rfl rfl rfl hmi

/-- A new leader of three nodes commits an entry that one of them acknowledges. -/
theorem leader_commit_sound_acknowledged :
    let s₀ := Server.new 1 ⟨3, [1, 2, 3]⟩ SimpleStateMachine.new
    let s := { s₀ with log := [⟨1, .set "x" "1", 0, 7, 1⟩], currentTerm := 1 }.becomeLeader
    let o := s.handleAppendEntriesResponse (.peer 2) ⟨1, true⟩
    (∀ x ∈ s₀ :: passed (s₀.trace [.timer]), -1 ≤ x.commitIndex ∧ x.UnusedEmpty) ∧
      o.server.commitIndex = 0 ∧ s.SoundlyCommits o.server := by
  intro s₀ s o
  obtain ⟨hlead, hruns, hhandle⟩ := leader_commit_sound (σ := SimpleStateMachine)
  obtain ⟨hself, hunused⟩ :=
    hlead { s₀ with log := [⟨1, .set "x" "1", 0, 7, 1⟩], currentTerm := 1 }
  obtain ⟨hci, hempty⟩ := hruns 1 ⟨3, [1, 2, 3]⟩ SimpleStateMachine.new [.timer]
  have hknown : Known s.config ⟨.peer 2, .appendEntriesResponse ⟨1, true⟩⟩ := by
    rintro p ⟨⟩
    decide
  refine ⟨fun x hx => ⟨hci (by decide) x hx, hempty (by simp [Select.incoming]) x hx⟩,
    by decide, ?_⟩
  exact (((hhandle s (.peer 2) ⟨1, true⟩ (hself (by decide)) (by decide)).server (by decide)).2
    (by decide) hunused hknown).2

/-! ### Completeness -/

omit [StateMachine σ] in
/-- An uncommitted entry of the current term that the leader and the peers that have reached it
hold, more than half of all nodes. -/
structure Overdue (s : Server σ) (mi : List ℤ) (n : ℕ) : Prop where
  lt : s.commitIndex < n
  current : ∃ entry ∈ s.log[n]?, entry.term = s.currentTerm
  majority : s.config.totalNodes < 2 * (s.peerCount mi n + 1)

omit [StateMachine σ] in
/-- A leader has no entry left to commit. -/
def CommitsAll (s : Server σ) : Prop := ∀ mi ni, s.state = .leader mi ni → ∀ n, ¬ s.Overdue mi n

omit [StateMachine σ] in
/-- With the reply counted in `match_index`, the only entry to commit is the first of the current
term, and the loop gets there; a reply of an earlier term from a client finds nothing to commit. -/
def OneToCommit (s : Server σ) (mi : List ℤ) (sender : Id) (msg : AppendEntriesResponse) : Prop :=
  msg.term ≤ s.currentTerm →
    match sender with
    | .client _ => ∀ n, ¬ s.Overdue mi n
    | .peer peerId => ∀ lastSent ∈ s.lastSentIndex[peerId]?, ∀ n,
      s.Overdue (mi.set peerId lastSent) n → (∀ lastIdx ∈ s.lenMinusOne, (n : ℤ) ≤ lastIdx) ∧
        ∀ m : ℕ, s.commitIndex < m → m < n → ∀ entry ∈ s.log[m]?, entry.term ≠ s.currentTerm

omit [StateMachine σ] in
theorem current_natCast {s : Server σ} {n : ℕ} (hn : n < 2 ^ 64) :
    s.Current n ↔ ∃ entry ∈ s.log[n]?, entry.term = s.currentTerm := by
  unfold Current
  rw [asUsize_natCast hn]

omit [StateMachine σ] in
theorem Overdue.enough {s : Server σ} {mi : List ℤ} {n : ℕ} (h : s.Overdue mi n)
    (htwo : s.config.totalNodes / 2 ≠ 0) : s.Enough mi n := by
  have hle := s.peerCount_le_matchCount mi n
  have hmaj := h.majority
  exact ⟨htwo, by omega⟩

omit [StateMachine σ] in
theorem Overdue.lt_length {s : Server σ} {mi : List ℤ} {n : ℕ} (h : s.Overdue mi n) :
    n < s.log.length := by
  obtain ⟨entry, hentry, -⟩ := h.current
  exact (List.getElem?_eq_some_iff.1 hentry).1

omit [StateMachine σ] in
theorem Overdue.lastLogIndex {s : Server σ} {mi : List ℤ} {n : ℕ} (h : s.Overdue mi n) :
    s.lastLogIndex = s.lenMinusOne := by
  have hlt := h.lt_length
  have hne : s.log.isEmpty = false := by
    cases hlog : s.log with
    | nil => simp [hlog] at hlt
    | cons _ _ => rfl
  rw [Server.lastLogIndex, hne]
  rfl

omit [StateMachine σ] in
theorem nonneg_of_findCommit {s : Server σ} {mi : List ℤ} {lastIdx n : ℤ} (hs : s.Ranged)
    (h : s.findCommit mi (rangeInclusive (s.commitIndex + 1) lastIdx) = some (some n)) : 0 ≤ n := by
  obtain ⟨hmem, ⟨entry, hentry, -⟩, -⟩ := findCommit_spec h
  have hge := (mem_rangeInclusive.1 hmem).1
  have hlt := (List.getElem?_eq_some_iff.1 hentry).1
  have hlen := hs.log
  have hci := hs.commitIndex.1
  by_contra hneg
  have := le_asUsize_of_neg (x := n) (by omega) (by omega)
  omega

omit [StateMachine σ] in
/-- After the loop nothing is overdue just if nothing but the first entry of the current term was. -/
theorem Settles.commitsAll_iff {s s' : Server σ} {mi : List ℤ} {ni : List ℕ} {lastIdx : ℤ}
    (hs : s.Ranged) (hst : s.state = .leader mi ni) (hlast : s.lastLogIndex = some lastIdx)
    (h : s.Settles mi ni lastIdx s') :
    s'.CommitsAll ↔ ∀ n, s.Overdue mi n → (∀ lastIdx ∈ s.lenMinusOne, (n : ℤ) ≤ lastIdx) ∧
      ∀ m : ℕ, s.commitIndex < m → m < n → ∀ entry ∈ s.log[m]?, entry.term ≠ s.currentTerm := by
  have hlen := hs.log
  cases h with
  | keep hfind =>
    constructor
    · intro hall n hn
      exact absurd hn (hall mi ni hst n)
    · intro hcond mi' ni' hst' n hn
      obtain ⟨rfl, -⟩ : mi = mi' ∧ _ := by simpa [hst] using hst'
      have hlt := hn.lt_length
      have hle : (n : ℤ) ≤ lastIdx := (hcond n hn).1 lastIdx (hn.lastLogIndex ▸ hlast)
      have hmem : (n : ℤ) ∈ rangeInclusive (s.commitIndex + 1) lastIdx :=
        mem_rangeInclusive.2 ⟨hn.lt, hle⟩
      have hcur : s.Current n := (current_natCast (by omega)).2 hn.current
      obtain ⟨htwo, hfew⟩ := (findCommit_eq_some_none_iff.1 hfind n hmem).2 hcur
      exact hfew (hn.enough htwo)
  | @commit c mi' sm la hfind hmi =>
    have hc := nonneg_of_findCommit hs hfind
    obtain ⟨hmem, hcur, -⟩ := findCommit_spec hfind
    obtain ⟨hgt, hle⟩ := mem_rangeInclusive.1 hmem
    have hcount : ∀ n, s.peerCount mi' n = s.peerCount mi n := by
      intro n
      rcases hmi with rfl | rfl
      · rfl
      · exact s.peerCount_set mi c n
    have hbetween := not_current_of_findCommit hfind
    constructor
    · intro hall n hn
      have hlt := hn.lt_length
      have hnc : (n : ℤ) ≤ c := by
        by_contra hcn
        refine hall mi' ni rfl n ⟨Int.not_le.1 hcn, hn.current, ?_⟩
        show s.config.totalNodes < 2 * (s.peerCount mi' n + 1)
        rw [hcount]
        exact hn.majority
      refine ⟨fun lastIdx' hlast' => ?_, fun m hm hmn entry hentry hterm => ?_⟩
      · have : some lastIdx = some lastIdx' := hlast.symm.trans (hn.lastLogIndex.trans hlast')
        cases this
        omega
      · exact hbetween m (by omega) (by omega) ((current_natCast (by omega)).2 ⟨entry, hentry, hterm⟩)
    · rintro hcond mi₁ ni₁ hst' n ⟨hlt, hentry, hmaj⟩
      obtain ⟨rfl, -⟩ : mi' = mi₁ ∧ _ := by simpa using hst'
      have hlt : c < n := hlt
      have hn : s.Overdue mi n := by
        refine ⟨by omega, hentry, ?_⟩
        rw [← hcount]
        exact hmaj
      have hnlen := hn.lt_length
      have hcnat : ((c.toNat : ℕ) : ℤ) = c := Int.toNat_of_nonneg hc
      rw [← hcnat] at hcur
      obtain ⟨entry, hentry', hterm⟩ := (current_natCast (by omega)).1 hcur
      exact (hcond n hn).2 c.toNat (by omega) (by omega) entry hentry' hterm

/-- **Completeness of the leader's commit rule.**  After a success reply a leader has nothing left
to commit just if there was at most one entry to commit, the first of its term. -/
theorem leader_commit_complete_iff {s : Server σ} {mi : List ℤ} {ni : List ℕ} {sender : Id}
    {msg : AppendEntriesResponse} (hs : s.Ranged) (hst : s.state = .leader mi ni)
    (hok : msg.success = true) (hp : (s.handleAppendEntriesResponse sender msg).panicked = false) :
    (s.handleAppendEntriesResponse sender msg).server.CommitsAll ↔
      s.OneToCommit mi sender msg := by
  unfold OneToCommit
  revert hp
  simp only [handleAppendEntriesResponse, hst, hok, ↓reduceIte]
  split_ifs with hgt
  · intro _
    refine iff_of_true ?_ fun hle => absurd hgt (by omega)
    rintro _ _ ⟨⟩
  · have hle : msg.term ≤ s.currentTerm := Nat.not_lt.1 hgt
    cases sender with
    | client _ =>
      intro _
      simp only [hle, forall_const]
      refine ⟨fun hall => hall mi ni hst, fun hnone mi' ni' hst' => ?_⟩
      obtain ⟨rfl, -⟩ : mi = mi' ∧ _ := by simpa [hst] using hst'
      exact hnone
    | peer peerId =>
      simp only [hle, forall_const, creditFollower]
      cases hlast : s.lastSentIndex[peerId]? with
      | none => simp [Outcome.andThen]
      | some lastSent =>
        simp only [Option.mem_def, Option.some.injEq, forall_eq']
        split_ifs
        · rw [Outcome.done_andThen]
          intro hp
          obtain ⟨lastIdx, hidx, hsettles⟩ :=
            (advanceCommit_settles (s := { s with
              state := .leader (mi.set peerId lastSent) (ni.set peerId (asUsize lastSent + 1)) })
              true rfl).server hp
          have hs₁ : Ranged { s with
              state := .leader (mi.set peerId lastSent) (ni.set peerId (asUsize lastSent + 1)) } :=
            ⟨hs.commitIndex, hs.lastApplied, hs.log⟩
          exact (hsettles.commitsAll_iff hs₁ rfl hidx).trans
            ⟨fun h n hn => h n ⟨hn.lt, hn.current, hn.majority⟩,
              fun h n hn => h n ⟨hn.lt, hn.current, hn.majority⟩⟩
        · simp [Outcome.andThen]

theorem leader_commit_complete_iff_older :
    let s := { Server.new 1 ⟨3, [1, 2, 3]⟩ SimpleStateMachine.new with
      log := [⟨1, .set "x" "1", 0, 7, 1⟩, ⟨2, .set "x" "2", 1, 7, 2⟩], currentTerm := 2
      state := .leader [-1, -1, -1, -1] [0, 0, 0, 0], lastSentIndex := [0, 0, 1, 1] }
    let o := s.handleAppendEntriesResponse (.peer 2) ⟨2, true⟩
    o.server.commitIndex = 1 ∧ o.server.CommitsAll := by
  intro s o
  have hs : s.Ranged := ⟨by decide, by decide, by decide⟩
  refine ⟨by decide, (leader_commit_complete_iff hs rfl rfl (by decide)).2 fun _ => ?_⟩
  rintro lastSent - n hn
  have hlt : n < 2 := hn.lt_length
  refine ⟨fun lastIdx hlast => ?_, fun m _ hmn entry hentry => ?_⟩
  · obtain rfl : 1 = lastIdx := Option.some.inj hlast
    omega
  · obtain rfl : m = 0 := by omega
    cases hentry
    decide

/-- One reply acknowledges two entries, and the first alone is committed. -/
theorem leader_commits_first_only :
    let s := { Server.new 1 ⟨3, [1, 2, 3]⟩ SimpleStateMachine.new with
      log := [⟨1, .set "x" "1", 0, 7, 1⟩, ⟨1, .set "x" "2", 1, 7, 2⟩], currentTerm := 1
      state := .leader [-1, -1, -1, -1] [0, 0, 0, 0], lastSentIndex := [0, 0, 1, 1] }
    let o := s.handleAppendEntriesResponse (.peer 2) ⟨1, true⟩
    o.panicked = false ∧ o.server.state = .leader [-1, 0, 1, -1] [0, 0, 2, 0] ∧
      o.server.commitIndex = 0 ∧ ¬ o.server.CommitsAll := by
  intro s o
  have hst : o.server.state = .leader [-1, 0, 1, -1] [0, 0, 2, 0] := by decide
  refine ⟨by decide, hst, by decide, fun hall => ?_⟩
  exact hall _ _ hst 1 ⟨by decide, ⟨⟨1, .set "x" "2", 1, 7, 2⟩, by decide, by decide⟩, by decide⟩

/-! ### Applying and answering -/

theorem applyCommitted_of_succeed {s : Server σ} (hs : s.Ranged) (h₀ : -1 ≤ s.lastApplied)
    (hle : s.lastApplied ≤ s.commitIndex) (hci : s.commitIndex < s.log.length)
    (h : succeed s.stateMachine (s.pending (s.commitIndex - s.lastApplied).toNat) = true) :
    s.applyCommitted = ⟨{ s with
        stateMachine := replay s.stateMachine (s.pending (s.commitIndex - s.lastApplied).toNat)
        lastApplied := s.commitIndex },
      (s.pending (s.commitIndex - s.lastApplied).toNat).mapIdx fun i entry =>
        .apply ((s.lastApplied + 1).toNat + i) entry.command true, false⟩ := by
  have hlen : (s.pending (s.commitIndex - s.lastApplied).toNat).length =
      (s.commitIndex - s.lastApplied).toNat := by
    rw [pending, List.length_take, List.length_drop]
    omega
  have hend : s.lastApplied + ((s.commitIndex - s.lastApplied).toNat : ℤ) = s.commitIndex := by
    omega
  rw [applyCommitted_eq hs.log h₀ hle hci, calls_of_succeed h, attempt_of_succeed h,
    succeed_iff.1 h, hlen, hend]

theorem applyRepeatedly_of_idle {s : Server σ} {ci : ℤ} (hci : s.commitIndex = ci)
    (h : s.applyCommitted = .done s) (n : ℕ) : applyRepeatedly ci n s = .done s := by
  subst hci
  induction n with
  | zero => rfl
  | succ n ih => rw [applyRepeatedly, applyLatestCommitedLogs_self, h, Outcome.done_andThen, ih]

theorem applyCommitted_of_applied {s : Server σ} (h : s.lastApplied = s.commitIndex) :
    s.applyCommitted = .done s := by
  rw [applyCommitted, h, Int.sub_self]
  rfl

theorem applyRepeatedly_of_succeed {s : Server σ} {n : ℕ} (hs : s.Ranged)
    (h₀ : -1 ≤ s.lastApplied) (hle : s.lastApplied ≤ s.commitIndex)
    (hci : s.commitIndex < s.log.length)
    (h : succeed s.stateMachine (s.pending (s.commitIndex - s.lastApplied).toNat) = true) :
    applyRepeatedly s.commitIndex (n + 1) s = s.applyCommitted := by
  have happlied := applyCommitted_of_succeed hs h₀ hle hci h
  have hrest : applyRepeatedly s.commitIndex n s.applyCommitted.server =
      .done s.applyCommitted.server := by
    rw [happlied]
    refine applyRepeatedly_of_idle ?_ (applyCommitted_of_applied ?_) n
    · rfl
    · rfl
  have hp : s.applyCommitted.panicked = false := by rw [happlied]
  rw [applyRepeatedly, applyLatestCommitedLogs_self, Outcome.andThen_of_not_panicked hp, hrest,
    Outcome.done_effects, List.append_nil, Outcome.done_panicked, ← hp, Outcome.done_server]

omit [StateMachine σ] in
/-- The entries the state machine has taken, by index and command, in order. -/
def appliedBy (o : Outcome σ) : List (ℕ × LogCommand) :=
  o.effects.filterMap fun
    | .apply index command true => some (index, command)
    | _ => none

omit [StateMachine σ] in
theorem appliedBy_calls (a : ℕ) (entries : List LogEntry) (outs : List Outgoing) (s' : Server σ)
    (panicked : Bool) :
    appliedBy ⟨s', (entries.mapIdx fun i entry => .apply (a + i) entry.command true) ++
      outs.map fun out => .send out s', panicked⟩ =
        entries.mapIdx fun i entry => (a + i, entry.command) := by
  have hsends : ∀ outs : List Outgoing,
      appliedBy ⟨s', outs.map fun out => .send out s', panicked⟩ = [] := by
    intro outs
    simp [appliedBy, List.filterMap_map]
  induction entries generalizing a with
  | nil => exact hsends outs
  | cons entry entries ih =>
    have hrest := ih (a + 1)
    simp only [Nat.add_assoc, Nat.add_comm 1] at hrest
    rw [List.mapIdx_cons, List.mapIdx_cons, List.cons_append]
    exact congrArg (List.cons (a + 0, entry.command)) hrest

theorem advanceCommit_false_lastApplied (s : Server σ) :
    (s.advanceCommit false).server.lastApplied = s.lastApplied := by
  have hcases := s.advanceCommit_cases false
  generalize s.advanceCommit false = o at hcases
  cases hcases with
  | panic => rfl
  | idle => rfl
  | keep => rfl
  | raise => rfl
  | commit _ hok => cases hok

end Server

end MiniRaft
