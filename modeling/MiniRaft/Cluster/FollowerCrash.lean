import MiniRaft.Cluster.WellFormed
import MiniRaft.Server.FollowerCommit
import MiniRaft.Server.SimpleStateMachine

/-!
# When an `AppendEntries` crashes its receiver

`delete_conflicting_and_append_new_entries` inserts at the position that the entry names.  While
the logs are short this is the only way in which the handler of an `AppendEntries` can panic, and
it does so exactly when the message is accepted and its first entry lies past the end of the log:
the check of the previous entry does not rule this out, as it is skipped on an empty log and looks
at `prev_log_index`, which need not be next to the entry.
-/

namespace MiniRaft

variable {σ : Type}

namespace Server

/-- The message is accepted, and its entries start past the end of the log. -/
def LeavesGap (s : Server σ) (msg : AppendEntries) : Prop :=
  s.Accepts msg ∧ ∃ first ∈ msg.entries.head?, s.log.length < first.index

instance (s : Server σ) (msg : AppendEntries) : Decidable (s.LeavesGap msg) :=
  inferInstanceAs (Decidable (_ ∧ ∃ first ∈ msg.entries.head?, _))

/-- A piece of a well-formed log can be inserted unless it leaves a gap. -/
theorem mergedLog_eq_none_iff (log : List LogEntry) {L : List LogEntry} (a : ℕ)
    (hL : NumberedFrom 0 L) :
    mergedLog log (L.drop a) = none ↔ ∃ first ∈ (L.drop a).head?, log.length < first.index := by
  have hnum : NumberedFrom a (L.drop a) := hL.drop a
  cases hd : L.drop a with
  | nil => simp [mergedLog, collectNewEntries, insertNewEntries]
  | cons first rest =>
    rw [hd] at hnum
    have hfirst : first.index = a := hnum.head
    simp only [List.head?_cons, Option.mem_def, Option.some.injEq, exists_eq_left', hfirst]
    rcases Nat.lt_or_ge log.length a with hlt | hle
    · simp only [hlt, iff_true]
      exact mergedLog_eq_none hnum (by simp) hlt
    · rw [mergedLog_eq_graft hnum hle]
      simp only [reduceCtorEq, false_iff]
      omega

end Server

namespace Cluster

open Server

variable [StateMachine σ] {ids : List NodeId} {stateMachine : NodeId → σ}

/-- The handler of an `AppendEntries` does not panic. -/
def AppendEntriesHandled (σ : Type) [StateMachine σ] : Cluster σ → Action → Prop :=
  Meets fun s order incoming => incoming.msg.asAppendEntries.isSome →
    (s.recieveRpc order incoming).panicked = false

/-- No accepted `AppendEntries` leaves a gap. -/
def NoGap (σ : Type) : Cluster σ → Action → Prop :=
  Meets fun s _ incoming => ∀ msg ∈ incoming.msg.asAppendEntries, ¬ s.LeavesGap msg

instance : ∀ (c : Cluster σ) (a : Action), Decidable (AppendEntriesHandled σ c a) :=
  inferInstanceAs (∀ c a, Decidable (Meets _ c a))

instance : ∀ (c : Cluster σ) (a : Action), Decidable (NoGap σ c a) :=
  inferInstanceAs (∀ c a, Decidable (Meets _ c a))

theorem appendEntriesHandled_iff {c c' : Cluster σ} {a : Action}
    (hv : Visited ids stateMachine (Short ids) c) (hshort : Short ids c a)
    (hn : next ids c a = some c') : AppendEntriesHandled σ c a ↔ NoGap σ c a := by
  cases a with
  | timeout => exact Iff.rfl
  | request => simp [AppendEntriesHandled, NoGap, Meets, Message.asAppendEntries]
  | deliver k order cut =>
    simp only [AppendEntriesHandled, NoGap, Meets]
    refine forall₂_congr fun e he => ?_
    cases hmsg : e.msg with
    | appendEntries msg =>
      have hdst : e.dst ∈ ids := (of_next_deliver hn he).1
      have hfrom : FromLog e msg :=
        hv.fromLog (fun _ _ h => h) (List.mem_of_getElem? he) hmsg
      obtain ⟨a, -, hentries, -⟩ := hfrom.carries.piece
      have hgap := mergedLog_eq_none_iff (c.nodes e.dst).log a hfrom.log.numbered
      rw [← hentries] at hgap
      have hpan := handleAppendEntries_panicked_iff msg e.src (hshort e.dst hdst)
      rw [hgap] at hpan
      simp only [Message.asAppendEntries, Option.isSome_some, forall_const, Option.mem_def,
        Option.some.injEq, forall_eq', recieveRpc, LeavesGap]
      rw [← Bool.not_eq_true, not_congr hpan]
      rfl
    | _ => simp [Message.asAppendEntries]

/-- **Crashes of followers.**  Among the runs with short logs, those in which no handler of an
`AppendEntries` panics are exactly those in which no accepted one leaves a gap. -/
theorem appendEntries_never_panics_iff {acts : List Action} {c : Cluster σ} :
    (machine σ ids).Run (Machine.both (Short ids) (AppendEntriesHandled σ))
        (init ids stateMachine) acts c ↔
      (machine σ ids).Run (Machine.both (Short ids) (NoGap σ)) (init ids stateMachine) acts c := by
  refine Machine.Run.congr (I := Visited ids stateMachine (Short ids)) .init ?_ ?_
  · intro c a c' hv hG hn
    exact visited_of_next hv hG.1 hn
  · intro c a c' hv hn
    exact and_congr_right fun hshort => appendEntriesHandled_iff hv hshort hn

/-- A leader of three nodes takes two commands, and the copies of the first one for node 3 are
lost: the second entry, with index 1, is accepted by an empty log. -/
theorem appendEntries_panics :
    ∃ c : Cluster SimpleStateMachine,
      (machine SimpleStateMachine [1, 2, 3]).Reach Orderly (init [1, 2, 3] fun _ => .new) c ∧
        c.Orderly (.receive [1, 2, 3] 13) ∧
        ¬ AppendEntriesHandled SimpleStateMachine c (.receive [1, 2, 3] 13) := by
  have hrun : ((machine SimpleStateMachine [1, 2, 3]).exec Orderly (init [1, 2, 3] fun _ => .new)
      [.timeout 1, .receive [1, 2, 3] 0, .receive [1, 2, 3] 1, .receive [1, 2, 3] 2,
        .receive [1, 2, 3] 3, .set [1, 2, 3] 1 "x" "1", .set [1, 2, 3] 1 "y" "2"]).any
      (fun c => decide (c.Orderly (.receive [1, 2, 3] 13) ∧
        ¬ AppendEntriesHandled SimpleStateMachine c (.receive [1, 2, 3] 13))) = true := by
    decide
  exact Machine.exists_reach_of_exec hrun

end Cluster

end MiniRaft
