import MiniRaft.Cluster.Journals
import MiniRaft.Cluster.Provenance
import MiniRaft.Cluster.StateMachineSafety
import MiniRaft.Consensus.Replay

/-!
# The replicated store

What the system is for: in the runs of state machine safety, with a state machine whose calls do not
fail, all running nodes are at prefixes of one sequence of commands, each of which a client has
asked a leader for; `last_applied` says how far a node has come.  For `SimpleStateMachine` a node's
store holds at every key what the last command for it in that prefix has left.
-/

namespace MiniRaft

open Consensus

variable {σ : Type}

namespace Server

/-- The log up to `last_applied`. -/
def executed (s : Server σ) : List LogEntry := s.log.take (s.lastApplied + 1).toNat

theorem Bounded.length_executed {s : Server σ} (h : s.Bounded) :
    (s.executed.length : ℤ) = s.lastApplied + 1 := by
  obtain ⟨hap, hle, hci⟩ := h
  rw [executed, List.length_take]
  omega

theorem Bounded.getElem?_executed {s : Server σ} (h : s.Bounded) {k : ℕ} {entry : LogEntry}
    (hk : s.executed[k]? = some entry) : (k : ℤ) ≤ s.commitIndex ∧ s.log[k]? = some entry := by
  have hlen := h.length_executed
  have hlt := (List.getElem?_eq_some_iff.1 hk).1
  have hle := h.le
  rw [executed, List.getElem?_take] at hk
  split_ifs at hk
  exact ⟨by omega, hk⟩

end Server

namespace Cluster

open Server

variable {ids : List NodeId} {c c' : Cluster σ} {R : Reigns LogEntry} {i : NodeId}

theorem FromLog.getElem? {e : Envelope σ} {msg : AppendEntries} (h : FromLog e msg)
    {entry : LogEntry} (hentry : entry ∈ msg.entries) : e.snap.log[entry.index]? = some entry := by
  obtain ⟨a, -, hentries, -⟩ := h.carries.piece
  rw [hentries, mem_drop_iff h.log.numbered] at hentry
  exact hentry.2

theorem Safe.agrees (h : Safe R ids c) (hR : Reigned R c) (hmem : Remembers R ids c) {a : Action}
    {sender : Id} {msg : AppendEntries} (hshare : SharesCommits c a)
    (harr : c.Arrives a i ⟨sender, .appendEntries msg⟩) (hacc : (c.nodes i).Accepts msg)
    (hpiece : ∀ e ∈ c.sent, e.msg = .appendEntries msg → ∀ entry ∈ msg.entries,
      e.snap.log[entry.index]? = some entry) : (c.nodes i).Agrees msg := by
  intro entry hentry hle x hx
  obtain ⟨e, he, -, -, hmsg⟩ := harr.appendEntries
  obtain ⟨t, ht, k, hd, hk, hheld⟩ := h.clamped hR hshare harr hacc (by omega)
  obtain ⟨r, hr, -, hpre⟩ := hR.sent e he msg hmsg
  -- the leader whose message it is has the decided entries, too
  have hleader : Holds R t ((c.nodes i).clampCommit msg.leaderCommit).toNat r.log := by
    rcases Nat.lt_or_eq_of_le ht with hlt | rfl
    · exact ((hmem.complete hR hd hr hlt).mono_log (hR.lawful.prefix_log hr)).of_le (by omega)
    · obtain ⟨r', hr', -, hlen⟩ := hd.own
      rw [hr, Option.some.injEq] at hr'
      subst hr'
      exact .of_isPrefix hr (List.prefix_refl _) (by omega)
  have hsame := hheld.getElem?_eq hleader (show entry.index ≤ _ by omega)
  rw [hx, getElem?_of_isPrefix hpre (hpiece e he hmsg entry hentry), Option.some.injEq] at hsame
  rw [hsame]

theorem Settled.getElem?_eq {T T' : ℕ} {m m' : ℤ} {l l' : List LogEntry} (hR : Reigned R c)
    (hmem : Remembers R ids c) (h : Settled R ids c T m l) (h' : Settled R ids c T' m' l') {k : ℕ}
    (hk : (k : ℤ) ≤ m) (hk' : (k : ℤ) ≤ m') : l[k]? = l'[k]? := by
  obtain ⟨t, -, n, hd, hn, hheld⟩ := h (by omega)
  obtain ⟨t', -, n', hd', hn', hheld'⟩ := h' (by omega)
  obtain ⟨r, hr, -, hlen⟩ := hd.own
  obtain ⟨r', hr', -, hlen'⟩ := hd'.own
  have hown : Holds R t m.toNat r.log := .of_isPrefix hr (List.prefix_refl _) (by omega)
  have hown' : Holds R t' m'.toNat r'.log := .of_isPrefix hr' (List.prefix_refl _) (by omega)
  have hlog : l[k]? = r.log[k]? := hheld.getElem?_eq hown (by omega)
  have hlog' : l'[k]? = r'.log[k]? := hheld'.getElem?_eq hown' (by omega)
  rw [hlog, hlog']
  -- the leader of the later term has what was decided before
  rcases Nat.lt_trichotomy t t' with hlt | rfl | hgt
  · have hlater := (hmem.complete hR hd hr' hlt).mono_log (hR.lawful.prefix_log hr')
    exact hown.getElem?_eq (hlater.of_le (by omega)) (by omega)
  · rw [hr, Option.some.injEq] at hr'
    rw [hr']
  · have hlater := (hmem.complete hR hd' hr hgt).mono_log (hR.lawful.prefix_log hr)
    exact (hlater.of_le (by omega)).getElem?_eq hown' (by omega)

variable [StateMachine σ] {stateMachine : NodeId → σ} {G : Cluster σ → Action → Prop}
  {ls : List Action}

/-- **The runs of state machine safety** keep what is committed. -/
theorem Visited.noConflict (hG : ∀ (c : Cluster σ) a, G c a → Sharing ids c a)
    (hv : Visited ids stateMachine G c) {a : Action} (hg : G c a) : NoConflict σ c a := by
  obtain ⟨R, hR, hmem, hsafe⟩ := hv.safe hG
  have hpiece : ∀ msg, ∀ e ∈ c.sent, e.msg = .appendEntries msg → ∀ entry ∈ msg.entries,
      e.snap.log[entry.index]? = some entry := by
    intro msg e he hmsg entry hentry
    exact (hv.fromLog (fun c a hg => (hG c a hg).1.1.1) he hmsg).getElem? hentry
  cases a with
  | timeout => trivial
  | request =>
    rintro _ ⟨⟩
  | deliver k order cut =>
    intro e he msg hmsg hacc
    have hsent : e.msg = .appendEntries msg := Message.eq_of_asAppendEntries hmsg
    have harr : c.Arrives (.deliver k order cut) e.dst ⟨.peer e.src, .appendEntries msg⟩ := by
      rw [← hsent]
      exact .deliver he
    exact hsafe.agrees hR hmem (hG _ _ hg).2 harr hacc (hpiece msg)

/-- The runs of state machine safety, as runs in which no accepted message conflicts. -/
theorem run_noConflict (h : (machine σ ids).Run (Sharing ids) (init ids stateMachine) ls c) :
    (machine σ ids).Run (Machine.both (Short ids) (NoConflict σ)) (init ids stateMachine) ls c :=
  h.imp (I := Visited ids stateMachine (Sharing ids)) .init
    (fun _ _ _ hv hg hn => visited_of_next hv hg hn)
    fun _ _ _ hv _ hg => ⟨hg.1.1.1, hv.noConflict (fun _ _ hg => hg) hg⟩

/-- What a node has executed comes from leaders and clients, and is no other than what another
has. -/
theorem agree_executed (h : (machine σ ids).Run (Sharing ids) (init ids stateMachine) ls c)
    {j : NodeId} {k : ℕ} {entry entry' : LogEntry} (hk : (c.nodes i).executed[k]? = some entry)
    (hk' : (c.nodes j).executed[k]? = some entry') : entry = entry' := by
  have hreach : (machine σ ids).Reach (Sharing ids) (init ids stateMachine) c := ⟨ls, h⟩
  obtain ⟨R, hR, hmem, hsafe⟩ := (visited_of_reach hreach).safe fun _ _ hg => hg
  have hv := visited_of_reach ⟨ls, run_noConflict h⟩
  have hbounded := (preserved_bounded (fun _ _ hg => hg.1) fun _ _ hg => hg.2).visited hv |>.1
  obtain ⟨hle, hentry⟩ := (hbounded i).getElem?_executed hk
  obtain ⟨hle', hentry'⟩ := (hbounded j).getElem?_executed hk'
  have hsame := (hsafe.nodes i).getElem?_eq hR hmem (hsafe.nodes j) hle hle'
  rw [hentry, hentry', Option.some.injEq] at hsame
  exact hsame

/-- **One sequence of entries**, each of which a leader has appended for a client, of which every
node has executed a prefix. -/
theorem exists_entries (h : (machine σ ids).Run (Sharing ids) (init ids stateMachine) ls c) :
    ∃ entries : List LogEntry,
      (∀ (k : ℕ) entry, entries[k]? = some entry →
        entry.index = k ∧ MintedIn ids stateMachine ls entry) ∧
      ∀ i ∈ ids, (c.nodes i).executed <+: entries ∧
        ((c.nodes i).executed.length : ℤ) = (c.nodes i).lastApplied + 1 := by
  have hbounded := (preserved_bounded (fun _ _ hg => hg.1) fun _ _ hg => hg.2).visited
    (visited_of_reach ⟨ls, run_noConflict h⟩) |>.1
  have hv := visited_occurs (h.mono fun _ _ hg => hg.1.1.1)
  obtain ⟨entries, hall, hfrom⟩ := exists_common (fun i => (c.nodes i).executed) ids
    fun i _ j _ _ _ _ hk hk' => agree_executed h hk hk'
  refine ⟨entries, fun k entry hk => ?_, fun i hi => ⟨hall i hi, (hbounded i).length_executed⟩⟩
  rcases hfrom with rfl | ⟨i, -, rfl⟩
  · cases hk
  · obtain ⟨-, hentry⟩ := (hbounded i).getElem?_executed hk
    exact ⟨(hv.sound (fun _ _ hg => hg.1) i).log.index _ _ hentry,
      (preserved_minted.visited hv).1 i entry (List.mem_of_getElem? hentry)⟩

theorem journaled_executed {sm : σ} (hok : Reliable σ)
    (h : (machine σ ids).Run (Machine.both (Short ids) (NoConflict σ)) (init ids fun _ => sm) ls c)
    (hc : c.crashed i = false) :
    journalOf i c.history = numbered 0 (c.nodes i).executed ∧ (c.nodes i).stateMachine =
      (c.nodes i).executed.foldl (fun sm entry => carryOut sm entry.command) sm := by
  have hjournaled : AllJournaled (fun _ => sm) c :=
    allJournaled_of_reach hok (fun _ _ hg => hg.1) (fun _ _ hg => hg.2) ⟨ls, h⟩
  obtain ⟨hcalls, hstore⟩ := hjournaled i hc
  rw [replay_eq_foldl] at hstore
  exact ⟨hcalls, hstore⟩

/-- **The replicated log.**  In every run of state machine safety, with a state machine whose calls
do not fail and that all nodes start with, there is one sequence of entries, each of which a leader
has appended for the `Set` of a client, such that every running node has applied the first
`last_applied + 1` of them, each once and in order, and its state machine is what they make of the
initial one. -/
theorem replicas_agree {sm : σ} (hok : Reliable σ)
    (h : (machine σ ids).Run (Sharing ids) (init ids fun _ => sm) ls c) :
    ∃ entries : List LogEntry,
      (∀ (k : ℕ) entry, entries[k]? = some entry →
        entry.index = k ∧ MintedIn ids (fun _ => sm) ls entry) ∧
      ∀ i ∈ ids, c.crashed i = false → ∃ n ≤ entries.length,
        (n : ℤ) = (c.nodes i).lastApplied + 1 ∧
        journalOf i c.history = numbered 0 (entries.take n) ∧
        (c.nodes i).stateMachine =
          (entries.take n).foldl (fun sm entry => carryOut sm entry.command) sm := by
  obtain ⟨entries, hminted, hall⟩ := exists_entries h
  refine ⟨entries, hminted, fun i hi hc => ?_⟩
  obtain ⟨hpre, hlength⟩ := hall i hi
  refine ⟨(c.nodes i).executed.length, hpre.length_le, hlength, ?_⟩
  rw [← List.prefix_iff_eq_take.1 hpre]
  exact journaled_executed hok (run_noConflict h) hc

/-- Nodes 1 and 2 have applied the one entry that client 1 has asked for. -/
theorem replicas_agree_applied : ∃ c : Cluster SimpleStateMachine, ∃ entries : List LogEntry,
    (c.nodes 1).lastApplied = 0 ∧ (c.nodes 2).lastApplied = 0 ∧
      ∀ i ∈ ([1, 2] : List NodeId), ∃ n ≤ entries.length, (n : ℤ) = (c.nodes i).lastApplied + 1 ∧
        journalOf i c.history = numbered 0 (entries.take n) := by
  have hrun : ((machine SimpleStateMachine [1, 2, 3]).exec (Sharing [1, 2, 3])
      (init [1, 2, 3] fun _ => .new)
      [.timeout 1, .receive [1, 2, 3] 0, .receive [1, 2, 3] 1, .receive [1, 2, 3] 2,
        .receive [1, 2, 3] 3, .set [1, 2, 3] 1 "x" "1", .receive [1, 2, 3] 8,
        .receive [1, 2, 3] 12, .timeout 1, .receive [1, 2, 3] 13]).any
      (fun c => decide ((c.nodes 1).lastApplied = 0 ∧ (c.nodes 2).lastApplied = 0 ∧
        ∀ i ∈ ([1, 2] : List NodeId), i ∈ ([1, 2, 3] : List NodeId) ∧ c.crashed i = false)) =
          true := by
    decide
  obtain ⟨c, hc, happlied, happlied', hruns⟩ := Machine.exists_run_of_exec hrun
  obtain ⟨entries, -, hall⟩ := replicas_agree SimpleStateMachine.reliable hc
  refine ⟨c, entries, happlied, happlied', fun i hi => ?_⟩
  obtain ⟨hmem, hrunning⟩ := hruns i hi
  obtain ⟨n, hn, hlast, hjournal, -⟩ := hall i hmem hrunning
  exact ⟨n, hn, hlast, hjournal⟩

/-- **The replicated store.**  In the runs of `SimpleStateMachine`, the stores of the running nodes
hold what the commands of one sequence of entries, appended for clients, have left: a node that has
applied `n` of them holds at every key what the last command for it among the first `n` has. -/
theorem replicated_store {c : Cluster SimpleStateMachine}
    (h : (machine SimpleStateMachine ids).Run (Sharing ids) (init ids fun _ => .new) ls c) :
    ∃ entries : List LogEntry,
      (∀ (k : ℕ) entry, entries[k]? = some entry →
        entry.index = k ∧ MintedIn ids (fun _ => SimpleStateMachine.new) ls entry) ∧
      ∀ i ∈ ids, c.crashed i = false → ∃ n ≤ entries.length,
        (n : ℤ) = (c.nodes i).lastApplied + 1 ∧ ∀ key,
          (c.nodes i).stateMachine.getValue key =
            (lastWrite LogCommand.writes ((entries.take n).map LogEntry.command) key).getD
              none := by
  obtain ⟨entries, hminted, hall⟩ := exists_entries h
  refine ⟨entries, hminted, fun i hi hc => ?_⟩
  obtain ⟨hpre, hlength⟩ := hall i hi
  refine ⟨(c.nodes i).executed.length, hpre.length_le, hlength, fun key => ?_⟩
  have hstore := (journaled_executed SimpleStateMachine.reliable (run_noConflict h) hc).2
  rw [← List.prefix_iff_eq_take.1 hpre, hstore]
  exact SimpleStateMachine.getValue_foldl _ key

/-- The store of node 2 holds what client 1 has set. -/
theorem replicated_store_applied : ∃ c : Cluster SimpleStateMachine, ∃ entries : List LogEntry,
    ∃ n ≤ entries.length, (c.nodes 2).lastApplied = 0 ∧ (n : ℤ) = (c.nodes 2).lastApplied + 1 ∧
      (c.nodes 2).stateMachine.getValue "x" = some "1" ∧ some "1" =
        (lastWrite LogCommand.writes ((entries.take n).map LogEntry.command) "x").getD none := by
  have hrun : ((machine SimpleStateMachine [1, 2, 3]).exec (Sharing [1, 2, 3])
      (init [1, 2, 3] fun _ => .new)
      [.timeout 1, .receive [1, 2, 3] 0, .receive [1, 2, 3] 1, .receive [1, 2, 3] 2,
        .receive [1, 2, 3] 3, .set [1, 2, 3] 1 "x" "1", .receive [1, 2, 3] 8,
        .receive [1, 2, 3] 12, .timeout 1, .receive [1, 2, 3] 13]).any
      (fun c => decide (c.crashed 2 = false ∧ (c.nodes 2).lastApplied = 0 ∧
        (c.nodes 2).stateMachine.getValue "x" = some "1")) = true := by
    decide
  obtain ⟨c, hc, hrunning, happlied, hvalue⟩ := Machine.exists_run_of_exec hrun
  obtain ⟨entries, -, hall⟩ := replicated_store hc
  obtain ⟨n, hn, hlast, hstore⟩ := hall 2 (by decide) hrunning
  exact ⟨c, entries, n, hn, happlied, hlast, hvalue, by rw [← hstore, hvalue]⟩

end Cluster

end MiniRaft
