import MiniRaft.Cluster.WellFormed
import MiniRaft.Server.SimpleStateMachine

/-!
# The committed prefix of a log

`delete_conflicting_and_append_new_entries` truncates at the first conflict and looks at no commit
index.  That it truncates below one is the only way in which a run with short logs can break the
chain `-1 <= last_applied <= commit_index <= log.len() - 1`, decrease one of the two indices, or
lose an entry at or below `commit_index`; it happens exactly when an accepted message carries an
entry that conflicts with one that the receiver regards as committed.
-/

namespace MiniRaft

variable {σ : Type}

namespace Server

open Consensus

/-- `-1 <= last_applied <= commit_index <= log.len() - 1`. -/
structure Bounded (s : Server σ) : Prop where
  applied : -1 ≤ s.lastApplied
  le : s.lastApplied ≤ s.commitIndex
  commit : s.commitIndex < s.log.length

/-- From `s` to `s'` no index decreases and no committed entry is removed or replaced. -/
structure Extends (s s' : Server σ) : Prop where
  commit : s.commitIndex ≤ s'.commitIndex
  applied : s.lastApplied ≤ s'.lastApplied
  log : ∀ k : ℕ, (k : ℤ) ≤ s.commitIndex → s'.log[k]? = s.log[k]?

/-- No entry of the message conflicts with an entry up to the commit index that
`apply_latest_commited_logs` sets on the way. -/
def Agrees (s : Server σ) (msg : AppendEntries) : Prop :=
  ∀ entry ∈ msg.entries, (entry.index : ℤ) ≤ s.clampCommit msg.leaderCommit →
    ∀ x ∈ s.log[entry.index]?, x.term = entry.term

instance (s : Server σ) (msg : AppendEntries) : Decidable (s.Agrees msg) :=
  inferInstanceAs (Decidable (∀ entry ∈ msg.entries, _ → ∀ x ∈ s.log[entry.index]?, _))

/-- Where the entries are merged, nothing up to the commit index of that moment changes. -/
def MergeKeeps [StateMachine σ] (s : Server σ) (msg : AppendEntries) : Prop :=
  ∀ log ∈ mergedLog s.log msg.entries, ∀ k : ℕ,
    (k : ℤ) ≤ (s.applyLatestCommitedLogs msg.leaderCommit).server.commitIndex →
      log[k]? = s.log[k]?

theorem Extends.refl (s : Server σ) : s.Extends s :=
  ⟨Int.le_refl _, Int.le_refl _, fun _ _ => rfl⟩

theorem Extends.trans {s s' s'' : Server σ} (h : s.Extends s') (h' : s'.Extends s'') :
    s.Extends s'' where
  commit := Int.le_trans h.commit h'.commit
  applied := Int.le_trans h.applied h'.applied
  log k hk := (h'.log k (Int.le_trans hk h.commit)).trans (h.log k hk)

namespace Bounded

variable {s : Server σ}

theorem le_clampCommit (h : s.Bounded) (lc : ℤ) :
    s.commitIndex ≤ s.clampCommit lc ∧ s.clampCommit lc < s.log.length := by
  have hci := h.commit
  unfold clampCommit
  split_ifs with hgt
  · omega
  · exact ⟨Int.le_refl _, hci⟩

end Bounded

/-! ### Merging -/

section

variable {s snap : Server σ} {msg : AppendEntries} {a : ℕ}

theorem Agrees.grafted {log L : List LogEntry} (hb : s.Bounded) (hL : NumberedFrom 0 L)
    (hentries : msg.entries = L.drop a) (hagree : s.Agrees msg)
    (hgraft : Grafted LogEntry.term s.log L a log) :
    (∀ k : ℕ, (k : ℤ) ≤ s.clampCommit msg.leaderCommit → log[k]? = s.log[k]?) ∧
      s.clampCommit msg.leaderCommit < log.length := by
  obtain ⟨-, hclamp⟩ := hb.le_clampCommit msg.leaderCommit
  cases hgraft with
  | all => exact ⟨fun _ _ => rfl, hclamp⟩
  | @cut j haj hj hle hsame hdiffers =>
    have hlt : s.clampCommit msg.leaderCommit < j := by
      by_contra hge
      have hget : L[j]? = some L[j] := List.getElem?_eq_getElem hj
      have hidx : L[j].index = j := by
        have := hL j _ hget
        omega
      have hmem : L[j] ∈ msg.entries := by
        rw [hentries, mem_drop_iff hL, hidx]
        exact ⟨haj, hget⟩
      have hx : s.log[j]? = some s.log[j] := List.getElem?_eq_getElem (by omega)
      refine hdiffers _ _ hx hget (hagree _ hmem (by omega) _ ?_)
      rw [hidx]
      exact hx
    constructor
    · intro k hk
      rw [getElem?_take_append_drop hle, if_pos (by omega)]
    · rw [List.length_append, List.length_take, List.length_drop]
      omega

variable [StateMachine σ]

/-- **A merge keeps the committed part exactly when there is no conflict with it.** -/
theorem mergeKeeps_iff {L : List LogEntry} (hb : s.Bounded) (hlen : s.log.length < 2 ^ 31)
    (hL : NumberedFrom 0 L) (hentries : msg.entries = L.drop a) :
    s.MergeKeeps msg ↔ s.Agrees msg := by
  obtain ⟨-, hclamp⟩ := hb.le_clampCommit msg.leaderCommit
  have hci : (s.applyLatestCommitedLogs msg.leaderCommit).server.commitIndex =
      s.clampCommit msg.leaderCommit := by
    obtain ⟨⟨sm, k, -, hs⟩, -⟩ := applyLatestCommitedLogs_spec hlen msg.leaderCommit
    rw [hs]
  unfold MergeKeeps
  rw [hci, hentries]
  constructor
  · intro hkeeps entry hmem hidx x hx
    rw [hentries, mem_drop_iff hL] at hmem
    obtain ⟨hle, hget⟩ := hmem
    have hlt : entry.index < s.log.length := (List.getElem?_eq_some_iff.1 hx).1
    by_contra hne
    have hkeep := hkeeps _ (mergedLog_eq_graft (hL.drop a) (by omega))
    have hgraft := grafted_graft LogEntry.term L (show a ≤ s.log.length by omega)
    generalize s.log.take a ++ graft LogEntry.term (s.log.drop a) (L.drop a) = log at hkeep hgraft
    have agree : ∀ {n : ℕ}, (∀ k, a ≤ k → k < n →
        (s.log[k]?).map LogEntry.term = (L[k]?).map LogEntry.term) → n ≤ entry.index := by
      intro n hsame
      by_contra hgt
      have := hsame entry.index hle (by omega)
      rw [hx, hget] at this
      exact hne (Option.some.inj this)
    cases hgraft with
    | all hsame =>
      have := (List.getElem?_eq_some_iff.1 hget).1
      have := agree hsame
      omega
    | @cut j haj hj hjle hsame hdiffers =>
      -- the cut is at a committed entry, which the new one replaces
      have hjk : j ≤ entry.index := agree hsame
      have hget' : L[j]? = some L[j] := List.getElem?_eq_getElem hj
      have hkeep := hkeep j (by omega)
      rw [getElem?_take_append_drop hjle, if_neg (by omega), hget'] at hkeep
      exact hdiffers _ _ hkeep.symm hget' rfl
  · intro hagree log hlog
    exact (hagree.grafted hb hL hentries (grafted_of_mergedLog hL hlog)).1

end

/-! ### Handlers and loops -/

theorem Goes.extends {s s' : Server σ} (hb : s.Bounded) (h : s.Goes s') :
    s'.Bounded ∧ s.Extends s' := by
  have hle := hb.le
  have hap := hb.applied
  cases h with
  | keep => exact ⟨hb, .refl s⟩
  | apply sm la h₁ h₂ =>
    exact ⟨⟨by dsimp only; omega, by dsimp only; omega, hb.commit⟩, Int.le_refl _, h₁, fun _ _ => rfl⟩
  | stand => exact ⟨⟨hb.applied, hb.le, hb.commit⟩, Int.le_refl _, Int.le_refl _, fun _ _ => rfl⟩
  | lead sm la h₁ h₂ =>
    refine ⟨⟨?_, ?_, hb.commit⟩, Int.le_refl _, h₁, fun _ _ => rfl⟩
    · exact Int.le_trans hap h₁
    · dsimp only [becomeLeader]
      omega

/-- What a message in flight says about its sender's log: an end piece of it, and a commit index
within it. -/
structure PieceOf (msg : AppendEntries) (L : List LogEntry) (a : ℕ) : Prop where
  numbered : NumberedFrom 0 L
  entries : msg.entries = L.drop a
  commit : msg.leaderCommit < L.length
  length : L.length < 2 ^ 31

theorem accepted_extends {s : Server σ} {msg : AppendEntries} {log L : List LogEntry} {a : ℕ}
    {ci la : ℤ} (sm : σ) (hb : s.Bounded) (hlen : s.log.length < 2 ^ 31) (hpiece : PieceOf msg L a)
    (hagree : s.Agrees msg) (hgraft : Grafted LogEntry.term s.log L a log)
    (hcommits : s.Commits msg ci la) :
    let s' := { s with
      currentTerm := msg.term, stateMachine := sm, commitIndex := ci, lastApplied := la, log := log }
    s'.Bounded ∧ s.Extends s' := by
  have hap := hb.applied
  have hle := hb.le
  obtain ⟨hge, hclamp⟩ := hb.le_clampCommit msg.leaderCommit
  obtain ⟨hkeep, hlt⟩ := hagree.grafted hb hpiece.numbered hpiece.entries hgraft
  obtain ⟨rfl, hla₁, hla₂⟩ := hcommits hlen
  have hci : s.clampCommit msg.leaderCommit ≤ s.acceptedCommit msg ∧
      s.acceptedCommit msg < log.length := by
    unfold acceptedCommit
    split
    · exact ⟨Int.le_refl _, hlt⟩
    · rename_i last hlast
      rw [hpiece.entries] at hlast
      obtain ⟨hidx, hget⟩ := hpiece.numbered.index_getLast? hlast
      have hL := hpiece.length
      have hcommit := hpiece.commit
      have hlong : L.length ≤ log.length := by
        have ha : a < L.length := by
          have hne : L.drop a ≠ [] := fun hnil => by simp [hnil] at hlast
          simpa [List.drop_eq_nil_iff] using hne
        cases hgraft with
        | all hsame =>
          have := hsame (L.length - 1) (by omega) (by omega)
          rw [List.getElem?_eq_getElem (l := L) (by omega), Option.map_some, Option.map_eq_some_iff] at this
          obtain ⟨x, hx, -⟩ := this
          have := (List.getElem?_eq_some_iff.1 hx).1
          omega
        | cut _ hj hle =>
          rw [List.length_append, List.length_take, List.length_drop]
          omega
      split_ifs with hgt
      · rw [asI32_of_lt (by omega)]
        omega
      · exact ⟨Int.le_refl _, hlt⟩
  refine ⟨⟨by dsimp only; omega, by dsimp only; omega, hci.2⟩, by dsimp only; omega, hla₁, ?_⟩
  intro k hk
  exact hkeep k (by omega)

theorem Handles.extends {s s' : Server σ} {incoming : Incoming} (hb : s.Bounded)
    (hlen : s.log.length < 2 ^ 31)
    (hin : ∀ sender msg, incoming = ⟨sender, .appendEntries msg⟩ → s.Accepts msg →
      s.Agrees msg ∧ ∃ L a, PieceOf msg L a)
    (h : s.Handles incoming s') : s'.Bounded ∧ s.Extends s' := by
  have hap := hb.applied
  have hle := hb.le
  have hci := hb.commit
  cases h with
  | keep => exact ⟨hb, .refl s⟩
  | stepDown => exact ⟨⟨hb.applied, hb.le, hb.commit⟩, Int.le_refl _, Int.le_refl _, fun _ _ => rfl⟩
  | accept sm ci la log heq hacc hmerge hcommits =>
    obtain ⟨hagree, L, a, hpiece⟩ := hin _ _ heq hacc
    rw [hpiece.entries] at hmerge
    exact accepted_extends sm hb hlen hpiece hagree
      (grafted_of_mergedLog hpiece.numbered hmerge) hcommits
  | vote => exact ⟨⟨hb.applied, hb.le, hb.commit⟩, Int.le_refl _, Int.le_refl _, fun _ _ => rfl⟩
  | win => exact ⟨⟨hb.applied, hb.le, hb.commit⟩, Int.le_refl _, Int.le_refl _, fun _ _ => rfl⟩
  | push =>
    refine ⟨⟨hb.applied, hb.le, ?_⟩, Int.le_refl _, Int.le_refl _, fun k hk => ?_⟩
    · rw [List.length_append, List.length_singleton]
      push_cast
      omega
    · exact List.getElem?_append_left (by omega)
  | response sm _ _ _ hraise =>
    cases hraise with
    | keep =>
      exact ⟨⟨hb.applied, hb.le, hb.commit⟩, Int.le_refl _, Int.le_refl _, fun _ _ => rfl⟩
    | commit hc _ hla =>
      have hlt := hc.lt
      obtain ⟨hn, entry, hentry, -⟩ := hc.entry hlen
      have hidx := (List.getElem?_eq_some_iff.1 hentry).1
      refine ⟨⟨?_, ?_, ?_⟩, Int.le_of_lt hlt, ?_, fun _ _ => rfl⟩
      · dsimp only; omega
      · dsimp only; omega
      · dsimp only; omega
      · dsimp only; omega

end Server

namespace Cluster

open Server

variable [StateMachine σ] {ids : List NodeId} {stateMachine : NodeId → σ} {c : Cluster σ}

/-- No accepted `AppendEntries` conflicts with an entry its receiver regards as committed. -/
def NoConflict (σ : Type) : Cluster σ → Action → Prop :=
  Meets fun s _ incoming => ∀ msg ∈ incoming.msg.asAppendEntries, s.Accepts msg → s.Agrees msg

instance : ∀ (c : Cluster σ) (a : Action), Decidable (NoConflict σ c a) :=
  inferInstanceAs (∀ c a, Decidable (Meets _ c a))

/-- The step keeps the indices of every node in order and what is committed in place. -/
def KeepsCommitted (ids : List NodeId) (c : Cluster σ) (a : Action) : Prop :=
  (∀ c', next ids c a = some c' → ∀ i,
    (c'.nodes i).Bounded ∧ (c.nodes i).Extends (c'.nodes i)) ∧
  Meets (fun s _ incoming => ∀ msg ∈ incoming.msg.asAppendEntries, s.Accepts msg →
    s.MergeKeeps msg) c a

/-- The commit index in an `AppendEntries` lies within its sender's log. -/
def CommitInLog (e : Envelope σ) : Prop :=
  ∀ msg, e.msg = .appendEntries msg → msg.leaderCommit < e.snap.log.length

variable {G : Cluster σ → Action → Prop}

theorem Visited.pieceOf (hG : ∀ (c : Cluster σ) a, G c a → Short ids c a)
    (hv : Visited ids stateMachine G c) (hcommit : ∀ e ∈ c.sent, CommitInLog e) {a : Action}
    {i : NodeId} {sender : Id} {msg : AppendEntries}
    (harr : c.Arrives a i ⟨sender, .appendEntries msg⟩) : ∃ L a, PieceOf msg L a := by
  obtain ⟨e, he, -, -, hmsg⟩ := harr.appendEntries
  obtain ⟨-, hc, hlog⟩ := hv.fromLog hG he hmsg
  obtain ⟨a, -, hentries, -⟩ := hc.piece
  exact ⟨e.snap.log, a, hlog.numbered, hentries, hcommit e he msg hmsg, hc.length⟩

theorem Visited.handles_extends (hG : ∀ (c : Cluster σ) a, G c a → Short ids c a)
    (hG' : ∀ c a, G c a → NoConflict σ c a) (hv : Visited ids stateMachine G c)
    (hcommit : ∀ e ∈ c.sent, CommitInLog e) {a : Action} {i : NodeId} {incoming : Incoming}
    {s : Server σ} (hi : i ∈ ids) (hb : (c.nodes i).Bounded) (hg : G c a)
    (harr : c.Arrives a i incoming) (h : (c.nodes i).Handles incoming s) :
    s.Bounded ∧ (c.nodes i).Extends s := by
  refine h.extends hb (hG _ _ hg i hi) ?_
  rintro sender msg rfl hacc
  obtain ⟨order, hmeets⟩ := harr.meets (hG' _ _ hg)
  exact ⟨hmeets msg rfl hacc, hv.pieceOf hG hcommit harr⟩

theorem preserved_bounded (hG : ∀ (c : Cluster σ) a, G c a → Short ids c a)
    (hG' : ∀ c a, G c a → NoConflict σ c a) :
    Preserved ids stateMachine G (fun _ => Server.Bounded) CommitInLog where
  init _ := ⟨Int.le_refl _, Int.le_refl _, by simp [Server.new]⟩
  handles before hg harr h :=
    (before.visited.handles_extends hG hG' before.sent before.mem (before.nodes _) hg harr h.1).1
  emits := by
    intro c a i incoming log e before hg harr hsent hsnap msg hmsg
    obtain ⟨dest, ⟨-, hemit⟩, -⟩ := hsent.out
    rw [hmsg] at hemit
    rw [hemit.appendEntries.2.1.commit]
    exact hsnap.commit
  goes before h := (h.extends (before.nodes _)).1
  announces := by
    intro c i e before hsent hsnap msg hmsg
    obtain ⟨dest, ⟨-, hann⟩, -⟩ := hsent.out
    rw [hmsg] at hann
    cases hann with
    | heartbeat hr =>
      rw [hr.commit]
      exact hsnap.commit

theorem Visited.next_extends (hG : ∀ (c : Cluster σ) a, G c a → Short ids c a)
    (hG' : ∀ c a, G c a → NoConflict σ c a) (hv : Visited ids stateMachine G c) {c' : Cluster σ}
    {a : Action} (hg : G c a) (hn : next ids c a = some c') (i : NodeId) :
    (c'.nodes i).Bounded ∧ (c.nodes i).Extends (c'.nodes i) := by
  obtain ⟨bounded, sent⟩ := (preserved_bounded hG hG').visited hv
  -- loops respect the indices of bounded servers only
  refine rel_of_next (R := fun s s' => s.Bounded → s'.Bounded ∧ s.Extends s')
    (fun s hb => ⟨hb, .refl s⟩) ?_ (fun s s' hgoes hb => hgoes.extends hb) hn i ?_ (bounded i)
  · intro s s' s'' h h' hb
    obtain ⟨hb', hext⟩ := h hb
    obtain ⟨hb'', hext'⟩ := h' hb'
    exact ⟨hb'', hext.trans hext'⟩
  · intro incoming log s hi harr hs hb
    exact hv.handles_extends hG hG' sent hi hb hg harr hs.1

theorem Visited.noConflict_iff (hG : ∀ (c : Cluster σ) a, G c a → Short ids c a)
    (hG' : ∀ c a, G c a → NoConflict σ c a) (hv : Visited ids stateMachine G c) {c' : Cluster σ}
    {a : Action} (hshort : Short ids c a) (hn : next ids c a = some c') :
    NoConflict σ c a ↔ Meets (fun s _ incoming => ∀ msg ∈ incoming.msg.asAppendEntries,
      s.Accepts msg → s.MergeKeeps msg) c a := by
  obtain ⟨hbounded, hcommit⟩ := (preserved_bounded hG hG').visited hv
  cases a with
  | timeout => exact Iff.rfl
  | request => simp [NoConflict, Meets, Message.asAppendEntries]
  | deliver k order cut =>
    refine forall₂_congr fun e he => forall₂_congr fun msg hmsg => imp_congr_right fun _ => ?_
    have hsent : e.msg = .appendEntries msg := Message.eq_of_asAppendEntries hmsg
    have harr : c.Arrives (.deliver k order cut) e.dst ⟨.peer e.src, .appendEntries msg⟩ := by
      rw [← hsent]
      exact .deliver he
    obtain ⟨L, a, hpiece⟩ := hv.pieceOf hG hcommit harr
    exact (mergeKeeps_iff (hbounded _) (hshort _ (of_next_deliver hn he).1) hpiece.numbered
      hpiece.entries).symm

/-- **The committed prefix.**  Among the runs with short logs, those whose every step keeps
`-1 <= last_applied <= commit_index <= log.len() - 1`, decreases neither index and changes no
entry at or below `commit_index`, are exactly those in which no accepted `AppendEntries` conflicts
with an entry its receiver regards as committed. -/
theorem committed_prefix_iff {acts : List Action} :
    (machine σ ids).Run (Machine.both (Short ids) (KeepsCommitted ids))
        (init ids stateMachine) acts c ↔
      (machine σ ids).Run (Machine.both (Short ids) (NoConflict σ))
        (init ids stateMachine) acts c := by
  have hG : ∀ (c : Cluster σ) a, Machine.both (Short ids) (NoConflict σ) c a → Short ids c a :=
    fun _ _ h => h.1
  have hG' : ∀ (c : Cluster σ) a, Machine.both (Short ids) (NoConflict σ) c a →
      NoConflict σ c a := fun _ _ h => h.2
  refine (Machine.Run.congr
    (I := Visited ids stateMachine (Machine.both (Short ids) (NoConflict σ))) .init ?_ ?_).symm
  · intro c a c' hv hg hn
    exact visited_of_next hv hg hn
  · intro c a c' hv hn
    refine and_congr_right fun hshort => ?_
    have hmerge := hv.noConflict_iff hG hG' hshort hn
    constructor
    · intro hno
      exact ⟨fun c'' hn'' => hv.next_extends hG hG' ⟨hshort, hno⟩ hn'', hmerge.1 hno⟩
    · intro hkeeps
      exact hmerge.2 hkeeps.2

/-- Node 2 knows that the second entry of the leader of term 1 is committed.  Node 3, which holds
only the first, wins term 2 by two votes of node 2 and replaces the second entry there. -/
theorem committed_entry_replaced :
    ∃ c : Cluster SimpleStateMachine,
      (machine SimpleStateMachine [1, 2, 3]).Reach Orderly (init [1, 2, 3] fun _ => .new) c ∧
        c.Orderly (.receive [1, 2, 3] 34) ∧ ¬ KeepsCommitted [1, 2, 3] c (.receive [1, 2, 3] 34) := by
  have hrun : ((machine SimpleStateMachine [1, 2, 3]).exec Orderly (init [1, 2, 3] fun _ => .new)
      [.timeout 1, .receive [1, 2, 3] 0, .receive [1, 2, 3] 1, .receive [1, 2, 3] 2,
        .receive [1, 2, 3] 3, .set [1, 2, 3] 1 "x" "1", .receive [1, 2, 3] 8, .receive [1, 2, 3] 9,
        .receive [1, 2, 3] 12, .set [1, 2, 3] 1 "y" "2", .receive [1, 2, 3] 14,
        .receive [1, 2, 3] 18, .timeout 1, .receive [1, 2, 3] 19, .timeout 3,
        .receive [1, 2, 3] 22, .receive [1, 2, 3] 23, .receive [1, 2, 3] 25,
        .receive [1, 2, 3] 26, .set [1, 2, 3] 3 "z" "3", .receive [1, 2, 3] 30,
        .receive [1, 2, 3] 33]).any
      (fun c => decide (c.Orderly (.receive [1, 2, 3] 34) ∧ (c.nodes 2).commitIndex = 1 ∧
        (next [1, 2, 3] c (.receive [1, 2, 3] 34)).any
          (fun c' => decide ((c'.nodes 2).log[1]? ≠ (c.nodes 2).log[1]?)) = true)) = true := by
    decide
  obtain ⟨c, hc, horderly, hci, hnext⟩ := Machine.exists_reach_of_exec hrun
  refine ⟨c, hc, horderly, fun hkeeps => ?_⟩
  cases hn : next [1, 2, 3] c (.receive [1, 2, 3] 34) with
  | none => simp [hn] at hnext
  | some c' =>
    rw [hn, Option.any_some, decide_eq_true_eq] at hnext
    exact hnext ((hkeeps.1 c' hn 2).2.log 1 (by rw [hci]; decide))

end Cluster

end MiniRaft
