import MiniRaft.Cluster.Throughout
import MiniRaft.Cluster.WellFormed
import MiniRaft.Machine.Accounting
import MiniRaft.Server.Terms

/-!
# What a run costs

Terms and logs are paid for by the environment: no term exceeds the number of timers that have
fired, and no log the number of requests that clients have made.  Runs with fewer than `2 ^ 31`
requests are therefore runs with short logs, whatever else happens in them.
-/

namespace MiniRaft

variable {σ : Type}

/-- A client's request arrives in this step. -/
def Action.requests : Action → Bool
  | .request .. => true
  | _ => false

namespace Cluster

open Server

variable [StateMachine σ] {ids : List NodeId} {stateMachine : NodeId → σ}
  {G : Cluster σ → Action → Prop} {c c' : Cluster σ} {a : Action} {ls : List Action}

/-! ### Terms -/

/-- No node has a term above `n`, and no message carries one. -/
def TermsUpTo (n : ℕ) : Cluster σ → Prop :=
  Throughout (fun _ => True) (fun _ _ s => s.currentTerm ≤ n) fun _ msg => ∀ t ∈ msg.term, t ≤ n

omit [StateMachine σ] in
theorem TermsUpTo.arrives {n : ℕ} (h : TermsUpTo n c) {i : NodeId} {incoming : Incoming}
    (harr : c.Arrives a i incoming) : ∀ t ∈ incoming.msg.term, t ≤ n := by
  cases harr with
  | deliver he => exact h.sent _ _ trivial he
  | request =>
    intro t ht
    cases ht

/-- **One step** raises terms by one if it is a timer's, and not at all otherwise. -/
theorem TermsUpTo.next {n : ℕ} (h : TermsUpTo n c) (hn : next ids c a = some c') :
    TermsUpTo (n + a.fires.toNat) c' := by
  have hle : n ≤ n + a.fires.toNat := Nat.le_add_right _ _
  refine Throughout.next h hn (fun _ _ _ hs => Nat.le_trans hs hle)
    (fun _ _ hm t ht => Nat.le_trans (hm t ht) hle) (fun _ _ hs => hs) (fun _ _ hs => hs)
    ?_ ?_ ?_
  · intro j order incoming _ harr hs
    exact recieveRpc_terms_le order hs (h.arrives harr)
  · intro j s role _ hs hrole
    exact afterRpc_terms_le (Nat.le_trans hs hle) hrole
  · intro j s role _ hf _ _ hs hl hc
    rw [hf]
    exact afterTimer_terms_le hs hl hc

theorem termsUpTo_of_run (h : (machine σ ids).Run G (init ids stateMachine) ls c) :
    TermsUpTo (ls.countP Action.fires) c := by
  have h₀ : TermsUpTo 0 (init ids stateMachine) := ⟨fun _ => Nat.le_refl 0, by simp [init]⟩
  have step : ∀ n c a c', n + a.fires.toNat ≤ ls.countP Action.fires → TermsUpTo n c → G c a →
      Cluster.next ids c a = some c' → True ∧ TermsUpTo (n + a.fires.toNat) c' :=
    fun n c a c' _ hc _ hn => ⟨trivial, hc.next hn⟩
  exact (h.within (Nat.le_refl _) h₀ step).2

/-! ### Logs -/

/-- No node has or has had a log of more than `n` entries, as far as its messages tell. -/
structure LogsUpTo (n : ℕ) (c : Cluster σ) : Prop where
  nodes : ∀ j, (c.nodes j).log.length ≤ n
  sent : ∀ e ∈ c.sent, e.snap.log.length ≤ n

omit [StateMachine σ] in
theorem LogsUpTo.mono {m n : ℕ} (h : LogsUpTo m c) (hle : m ≤ n) : LogsUpTo n c :=
  ⟨fun j => Nat.le_trans (h.nodes j) hle, fun e he => Nat.le_trans (h.sent e he) hle⟩

omit [StateMachine σ] in
/-- **One phase**, whose servers keep to the bound. -/
theorem LogsUpTo.phase {n : ℕ} (h : LogsUpTo n c) {i : NodeId} {cause : Option Message}
    {P : Server σ → Prop} {Q : Outgoing → Server σ → Prop} {A : ℕ → LogCommand → Prop}
    (hphase : c.PhaseOf ids i cause P Q A c') (hP : ∀ s, P s → s.log.length ≤ n) :
    LogsUpTo n c' := by
  obtain ⟨hnodes, hsent⟩ := hphase.local (N := fun _ s => s.log.length ≤ n)
    (E := fun e => e.snap.log.length ≤ n) h.nodes h.sent hP fun _ _ hsnap => hsnap
  exact ⟨hnodes, hsent⟩

theorem LogsUpTo.handles {n : ℕ} (h : LogsUpTo n c) (hv : Visited ids stateMachine (Short ids) c)
    {i : NodeId} {incoming : Incoming} {s : Server σ} (harr : c.Arrives a i incoming)
    (hs : (c.nodes i).Handles incoming s) : s.log.length ≤ n + a.requests.toNat := by
  have hnode := h.nodes i
  cases hs with
  | keep | stepDown | vote | win | response => exact Nat.le_trans hnode (Nat.le_add_right _ _)
  | @accept nodeId msg sm ci la log heq _ hmerge =>
    subst heq
    obtain ⟨e, he, -, -, hmsg⟩ := harr.appendEntries
    obtain ⟨-, hcarries, hlog⟩ := hv.fromLog (fun _ _ hg => hg) he hmsg
    obtain ⟨b, -, hentries, -⟩ := hcarries.piece
    rw [hentries] at hmerge
    have hlen := (grafted_of_mergedLog hlog.numbered hmerge).length_le
    have := h.sent e he
    dsimp only
    omega
  | push key value ls hmsg =>
    cases harr with
    | deliver he =>
      have hnot := (preserved_not_clientRequest.visited hv).2 _ (List.mem_of_getElem? he)
      exact absurd hmsg (hnot _)
    | request =>
      rw [List.length_append]
      exact Nat.add_le_add_right hnode 1

/-- **One step.** -/
theorem LogsUpTo.next {n : ℕ} (h : LogsUpTo n c) (hv : Visited ids stateMachine (Short ids) c)
    (hn : Cluster.next ids c a = some c') : LogsUpTo (n + a.requests.toNat) c' := by
  have before : LogsUpTo (n + a.requests.toNat) c := h.mono (Nat.le_add_right _ _)
  have handler : ∀ {c₁ : Cluster σ}, c.HandlerStep ids a c₁ →
      LogsUpTo (n + a.requests.toNat) c₁ := by
    rintro c₁ ⟨i, incoming, log, harr, -, hphase⟩
    exact before.phase hphase fun s hs => h.handles hv harr hs.1
  have loop : ∀ {c₁ : Cluster σ}, LogsUpTo (n + a.requests.toNat) c₁ → c₁.LoopStep ids c' →
      LogsUpTo (n + a.requests.toNat) c' := by
    rintro c₁ h₁ ⟨i, -, hphase⟩
    refine h₁.phase hphase fun s hs => ?_
    rw [hs.log_eq]
    exact h₁.nodes i
  cases steps_of_next hn with
  | loop hl => exact loop before hl
  | handler hh => exact handler hh
  | both hh hl => exact loop (handler hh) hl

theorem short_of_run (h : (machine σ ids).Run G (init ids stateMachine) ls c)
    (hreq : ls.countP Action.requests < 2 ^ 31) :
    (machine σ ids).Run (Machine.both G (Short ids)) (init ids stateMachine) ls c ∧
      LogsUpTo (ls.countP Action.requests) c := by
  let I : ℕ → Cluster σ → Prop := fun n c => Visited ids stateMachine (Short ids) c ∧ LogsUpTo n c
  have h₀ : I 0 (init ids stateMachine) := ⟨.init, fun _ => Nat.le_refl 0, by simp [init]⟩
  have step : ∀ n c a c', n + a.requests.toNat ≤ ls.countP Action.requests → I n c → G c a →
      Cluster.next ids c a = some c' → Machine.both G (Short ids) c a ∧
        I (n + a.requests.toNat) c' := by
    rintro n c a c' hle ⟨hv, hlogs⟩ hg hn
    have hshort : Short ids c a := fun i _ => by
      have := hlogs.nodes i
      omega
    exact ⟨⟨hg, hshort⟩, visited_of_next hv hshort hn, hlogs.next hv hn⟩
  obtain ⟨hrun, -, hlogs⟩ := h.within (Nat.le_refl _) h₀ step
  exact ⟨hrun, hlogs⟩

/-- **What a run costs.**  In a run with fewer than `2 ^ 31` client requests, under any loss,
duplication and reordering of messages and any dropping of handlers, the logs stay short: each has
at most as many entries as requests have been made; and no term exceeds the number of timers that
have fired. -/
theorem run_within_budget (h : (machine σ ids).Run G (init ids stateMachine) ls c)
    (hreq : ls.countP Action.requests < 2 ^ 31) :
    (machine σ ids).Run (Short ids) (init ids stateMachine) ls c ∧
      (∀ i, (c.nodes i).log.length ≤ ls.countP Action.requests) ∧
      ∀ i, (c.nodes i).currentTerm ≤ ls.countP Action.fires := by
  obtain ⟨hrun, hlogs⟩ := short_of_run h hreq
  exact ⟨hrun.mono fun _ _ hg => hg.2, hlogs.nodes, (termsUpTo_of_run h).nodes⟩

/-- Two requests, one of them to a node that does not lead, and two timers. -/
theorem run_within_budget_won : ∃ c : Cluster SimpleStateMachine,
    (machine SimpleStateMachine [1, 2, 3]).Run (Short [1, 2, 3]) (init [1, 2, 3] fun _ => .new)
      [.timeout 1, .receive [1, 2, 3] 0, .receive [1, 2, 3] 1, .receive [1, 2, 3] 2,
        .receive [1, 2, 3] 3, .set [1, 2, 3] 1 "x" "1", .set [1, 2, 3] 2 "x" "2", .timeout 3] c ∧
      (c.nodes 1).log.length ≤ 2 ∧ (c.nodes 3).currentTerm ≤ 2 := by
  let ls : List Action := [.timeout 1, .receive [1, 2, 3] 0, .receive [1, 2, 3] 1,
    .receive [1, 2, 3] 2, .receive [1, 2, 3] 3, .set [1, 2, 3] 1 "x" "1",
    .set [1, 2, 3] 2 "x" "2", .timeout 3]
  have hrun : ((machine SimpleStateMachine [1, 2, 3]).exec (fun _ _ => True)
      (init [1, 2, 3] fun _ => .new) ls).isSome = true := by
    decide
  obtain ⟨c, hc⟩ := Option.isSome_iff_exists.1 hrun
  obtain ⟨hshort, hlogs, hterms⟩ := run_within_budget (Machine.run_of_exec hc) (by decide)
  exact ⟨c, hshort, hlogs 1, hterms 3⟩

end Cluster

end MiniRaft
