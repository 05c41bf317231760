import MiniRaft.Cluster.Budget
import MiniRaft.Cluster.Durable

/-!
# A stable leader

Where no timer fires but that of one node `l`, all others follow, and every log is a prefix of the
log of `l`, under any loss, duplication and reordering of messages, any crashes, and with handlers
of `l` dropped half way: what a message carries is a piece of a log that `l` has had.

* `Cluster.Copies` : all logs are prefixes of one, which `l` has if it still runs.
* `Cluster.steady_replicas_agree` : the nodes hold and apply what `l` has appended.
* `Cluster.steady_sets_survive` : what a client has been told of stays.
-/

namespace MiniRaft

open Consensus

variable {σ : Type}

namespace Server

theorem Handles.follower {s s' : Server σ} {incoming : Incoming} (h : s.Handles incoming s')
    (hst : s.state = .follower) : s'.state = .follower := by
  cases h with
  | keep => exact hst
  | stepDown => rfl
  | accept => exact hst
  | vote _ _ _ hcandidate | win _ _ _ hcandidate =>
    rw [hst] at hcandidate
    cases hcandidate
  | push => exact hst
  | response _ _ _ hcredits =>
    have hl := hcredits.isLeader
    rw [hst] at hl
    cases hl

variable [StateMachine σ]

theorem afterRpc_of_follower {s : Server σ} (role : RaftState) (h : s.state = .follower) :
    s.afterRpc role = s.applyCommitted := by
  have hrun : s.run = s.applyCommitted := by
    rw [run, h, ← applyLatestCommitedLogs_self]
    rfl
  cases role with
  | follower => exact hrun
  | candidate => simp [afterRpc, h, RaftState.isCandidate, hrun]
  | leader => simp [afterRpc, h, RaftState.isLeader, hrun]

end Server

namespace Cluster

open Server

variable {ids : List NodeId} {l i : NodeId} {L L' : List LogEntry} {c c' : Cluster σ} {a : Action}

/-- No timer fires but that of the node `l`. -/
def Steady (l : NodeId) (c : Cluster σ) (a : Action) : Prop := a.fires = true → c.actor a = some l

instance (l : NodeId) (c : Cluster σ) (a : Action) : Decidable (Steady l c a) :=
  inferInstanceAs (Decidable (_ → _))

/-! ### Roles -/

/-- All nodes but `l` follow. -/
def OthersFollow (l : NodeId) : Cluster σ → Prop :=
  Throughout (fun _ => False) (fun j _ s => j ≠ l → s.state = .follower) fun _ _ => True

theorem OthersFollow.next [StateMachine σ] (h : OthersFollow l c) (hsteady : Steady l c a)
    (hn : next ids c a = some c') : OthersFollow l c' := by
  refine Throughout.next h hn (fun _ _ _ hs => hs) (fun _ _ hm => hm) (fun _ _ hs => hs)
    (fun _ _ hs => hs) ?_ ?_ ?_
  · intro j order incoming _ _ hs
    obtain ⟨log, hens⟩ := (c.nodes j).recieveRpc_ensures order incoming
    exact hens.mono (fun s h hj => h.1.follower (hs hj)) fun _ _ _ _ => trivial
  · intro j s role _ hs hrole
    by_cases hj : j = l
    · exact (afterRpc_ensures hrole).mono (fun _ _ hne => absurd hj hne) fun _ _ _ _ => trivial
    · rw [afterRpc_of_follower role (hs hj)]
      refine (s.applyCommitted_ensures _).mono ?_ fun _ _ _ h => h
      rintro _ ⟨sm, la, rfl, -, -⟩ -
      exact hs hj
  · intro j s role _ hf hactor _ _ hl hc
    have hj : j = l := by
      rw [hsteady hf, Option.some.injEq] at hactor
      exact hactor.symm
    exact (afterTimer_ensures hl hc).mono (fun _ _ hne => absurd hj hne) fun _ _ _ _ => trivial

/-! ### Logs -/

/-- All logs are prefixes of `L`, and `l` has `L` if it still runs. -/
structure Copies (l : NodeId) (L : List LogEntry) (c : Cluster σ) : Prop where
  nodes : ∀ j, (c.nodes j).log <+: L
  sent : ∀ e ∈ c.sent, e.snap.log <+: L
  own : c.crashed l = false → (c.nodes l).log = L

/-- **One phase**, whose servers have prefixes of `L'`; another node than `l` does not add to
`L`. -/
theorem Copies.phase (h : Copies l L c) {cause : Option Message} {P : Server σ → Prop}
    {Q : Outgoing → Server σ → Prop} {A : ℕ → LogCommand → Prop}
    (hphase : c.PhaseOf ids i cause P Q A c') (hle : L <+: L') (hP : ∀ s, P s → s.log <+: L')
    (hown : ∀ s, P s → i = l → s.log = L') (hothers : i ≠ l → L' = L) :
    Copies l L' c' ∧ (c.nodes l).log <+: (c'.nodes l).log := by
  obtain ⟨hnodes, hsent⟩ := hphase.local (N := fun _ s => s.log <+: L')
    (E := fun e => e.snap.log <+: L') (fun j => (h.nodes j).trans hle)
    (fun e he => (h.sent e he).trans hle) hP fun _ _ hsnap => hsnap
  refine ⟨⟨hnodes, hsent, fun hc => ?_⟩, ?_⟩
  · by_cases hi : i = l
    · subst hi
      exact hown _ (hphase.ran hc) rfl
    · obtain ⟨hnode, hcrashed⟩ := hphase.others l fun hl => hi hl.symm
      rw [hcrashed] at hc
      rw [hnode, h.own hc, hothers hi]
  · rcases hphase.moved l with hsame | ⟨rfl, -, hs⟩
    · rw [hsame]
    · rw [hown _ hs rfl]
      exact (h.nodes l).trans hle

variable [StateMachine σ] {stateMachine : NodeId → σ} {ls : List Action}

/-- **One handler.**  Only a client's request to `l` adds to the log. -/
theorem Copies.handles (h : Copies l L c) (hv : Visited ids stateMachine (Short ids) c)
    (hfollow : OthersFollow l c) (hc : c.crashed i = false) {incoming : Incoming} {s : Server σ}
    (harr : c.Arrives a i incoming) (hs : (c.nodes i).Handles incoming s) :
    ∃ L', L <+: L' ∧ s.log <+: L' ∧ (i = l → s.log = L') ∧ (i ≠ l → L' = L) := by
  have hown : i = l → (c.nodes i).log = L := by
    rintro rfl
    exact h.own hc
  cases hs with
  | keep | stepDown | vote | win | response =>
    exact ⟨L, List.prefix_refl L, h.nodes i, hown, fun _ => rfl⟩
  | @accept nodeId msg sm ci la log heq _ hmerge =>
    subst heq
    obtain ⟨e, he, -, -, hmsg⟩ := harr.appendEntries
    obtain ⟨-, hcarries, hlog⟩ := hv.fromLog (fun _ _ hg => hg) he hmsg
    obtain ⟨b, -, hentries, -⟩ := hcarries.piece
    rw [hentries] at hmerge
    obtain ⟨hgrown, hpre⟩ :=
      (grafted_of_mergedLog hlog.numbered hmerge).of_common (h.nodes i) (h.sent e he)
    refine ⟨L, List.prefix_refl L, hpre, fun hi => ?_, fun _ => rfl⟩
    rw [hown hi] at hgrown
    exact hpre.eq_of_length_le hgrown.length_le
  | push key value _ _ _ hleads =>
    have hi : i = l := by
      by_contra hne
      have hst := hfollow.nodes i hne
      rw [hst] at hleads
      cases hleads
    refine ⟨_, ?_, List.prefix_refl _, fun _ => rfl, fun hne => absurd hi hne⟩
    dsimp only
    rw [hown hi]
    exact List.prefix_append L _

/-- **One step.** -/
theorem Copies.next (h : Copies l L c) (hv : Visited ids stateMachine (Short ids) c)
    (hfollow : OthersFollow l c) (hn : Cluster.next ids c a = some c') :
    ∃ L', Copies l L' c' ∧ (c.nodes l).log <+: (c'.nodes l).log := by
  have handler : ∀ {c₁ : Cluster σ}, c.HandlerStep ids a c₁ →
      ∃ L', Copies l L' c₁ ∧ (c.nodes l).log <+: (c₁.nodes l).log := by
    rintro c₁ ⟨i, incoming, log, harr, -, hphase⟩
    by_cases hs : ∃ s, (c.nodes i).HandlesTo incoming log s
    · -- all servers that the handler passes through have the same log
      obtain ⟨s, hs, rfl⟩ := hs
      obtain ⟨L', hle, hpre, hown, hothers⟩ := h.handles hv hfollow hphase.alive harr hs
      refine ⟨L', h.phase hphase hle (fun s' hs' => ?_) (fun s' hs' hi => ?_) hothers⟩
      · rw [hs'.2]
        exact hpre
      · rw [hs'.2]
        exact hown hi
    · have hnone : ∀ s, ¬ (c.nodes i).HandlesTo incoming log s := not_exists.1 hs
      exact ⟨L, h.phase hphase (List.prefix_refl L) (fun s hs => absurd hs (hnone s))
        (fun s hs => absurd hs (hnone s)) fun _ => rfl⟩
  have loop : ∀ {c₁ : Cluster σ} {L : List LogEntry}, Copies l L c₁ → c₁.LoopStep ids c' →
      Copies l L c' ∧ (c₁.nodes l).log <+: (c'.nodes l).log := by
    rintro c₁ L h₁ ⟨i, -, hphase⟩
    refine h₁.phase hphase (List.prefix_refl L) (fun s hs => ?_) (fun s hs hi => ?_) fun _ => rfl
    · rw [hs.log_eq]
      exact h₁.nodes i
    · subst hi
      rw [hs.log_eq]
      exact h₁.own hphase.alive
  cases steps_of_next hn with
  | loop hl => exact ⟨L, loop h hl⟩
  | handler hh => exact handler hh
  | both hh hl =>
    obtain ⟨L', h₁, hgrown⟩ := handler hh
    obtain ⟨h', hgrown'⟩ := loop h₁ hl
    exact ⟨L', h', hgrown.trans hgrown'⟩

/-- What holds in the runs with a stable leader, with logs of at most `n` entries. -/
structure Stable (ids : List NodeId) (stateMachine : NodeId → σ) (l : NodeId) (n : ℕ)
    (c : Cluster σ) : Prop where
  visited : Visited ids stateMachine (Short ids) c
  logs : LogsUpTo n c
  follow : OthersFollow l c
  copies : ∃ L, Copies l L c

theorem Stable.init : Stable ids stateMachine l 0 (Cluster.init ids stateMachine) where
  visited := .init
  logs := ⟨fun _ => Nat.le_refl 0, fun e he => (by cases he)⟩
  follow := ⟨fun _ _ => rfl, fun _ _ h => h.elim⟩
  copies := ⟨[], fun _ => List.prefix_refl [], fun e he => (by cases he), fun _ => rfl⟩

theorem Stable.noConflict {n : ℕ} (h : Stable ids stateMachine l n c) (a : Action) :
    NoConflict σ c a := by
  obtain ⟨L, hcopies⟩ := h.copies
  cases a with
  | timeout => trivial
  | request =>
    rintro _ ⟨⟩
  | deliver k order cut =>
    intro e he msg hmsg _ entry hentry _ x hx
    have hsent : e.msg = .appendEntries msg := Message.eq_of_asAppendEntries hmsg
    have hmem := List.mem_of_getElem? he
    have hentry := (h.visited.fromLog (fun _ _ hg => hg) hmem hsent).getElem? hentry
    have hsame := getElem?_of_isPrefix (hcopies.sent e hmem) hentry
    rw [getElem?_of_isPrefix (hcopies.nodes e.dst) hx, Option.some.injEq] at hsame
    rw [hsame]

/-- **The runs with a stable leader**: no accepted message conflicts, and the log of `l` only
grows. -/
theorem Stable.run {n : ℕ} (h : Stable ids stateMachine l n c)
    (hr : (machine σ ids).Run (Steady l) c ls c')
    (hreq : n + ls.countP Action.requests < 2 ^ 31) :
    (machine σ ids).Run (Machine.both (Short ids) (NoConflict σ)) c ls c' ∧
      Stable ids stateMachine l (n + ls.countP Action.requests) c' ∧
      (c.nodes l).log <+: (c'.nodes l).log := by
  refine hr.within (I := fun m d => Stable ids stateMachine l (n + m) d ∧
    (c.nodes l).log <+: (d.nodes l).log) (Nat.le_refl _) ⟨h, List.prefix_refl _⟩ ?_
  rintro m d a d' hle ⟨hd, hgrown⟩ hsteady hn
  have hshort : Short ids d a := fun i _ => by
    have := hd.logs.nodes i
    omega
  obtain ⟨L, hcopies⟩ := hd.copies
  obtain ⟨L', hcopies', hgrown'⟩ := hcopies.next hd.visited hd.follow hn
  refine ⟨⟨hshort, hd.noConflict a⟩, ⟨visited_of_next hd.visited hshort hn, ?_,
    hd.follow.next hsteady hn, L', hcopies'⟩, hgrown.trans hgrown'⟩
  rw [← Nat.add_assoc]
  exact hd.logs.next hd.visited hn

theorem bounded_of_run
    (h : (machine σ ids).Run (Machine.both (Short ids) (NoConflict σ)) (init ids stateMachine) ls c)
    (i : NodeId) : (c.nodes i).Bounded :=
  ((preserved_bounded (fun _ _ hg => hg.1) fun _ _ hg => hg.2).visited
    (visited_of_reach ⟨ls, h⟩)).1 i

/-- **One sequence of entries**, each of which a leader has appended for a client: the log of `l`,
if it still runs, of which every node has and has executed a prefix. -/
theorem exists_copied (h : (machine σ ids).Run (Steady l) (init ids stateMachine) ls c)
    (hreq : ls.countP Action.requests < 2 ^ 31) :
    ∃ entries : List LogEntry,
      (∀ (k : ℕ) entry, entries[k]? = some entry →
        entry.index = k ∧ MintedIn ids stateMachine ls entry) ∧
      (c.nodes l).log <+: entries ∧ (c.crashed l = false → (c.nodes l).log = entries) ∧
      ∀ i ∈ ids, (c.nodes i).log <+: entries ∧ ∃ n ≤ (c.nodes i).log.length,
        (n : ℤ) = (c.nodes i).lastApplied + 1 ∧ (c.nodes i).executed = entries.take n := by
  obtain ⟨hrun, hstable, -⟩ := Stable.init.run h (by omega)
  obtain ⟨L, hcopies⟩ := hstable.copies
  have hv := visited_occurs (hrun.mono fun _ _ hg => hg.1)
  obtain ⟨entries, hall, hfrom⟩ := exists_common (fun i => (c.nodes i).log) (l :: ids)
    fun i _ j _ k x y hx hy => by
      have hsame := getElem?_of_isPrefix (hcopies.nodes i) hx
      rw [getElem?_of_isPrefix (hcopies.nodes j) hy, Option.some.injEq] at hsame
      exact hsame.symm
  have hown := hall l List.mem_cons_self
  refine ⟨entries, fun k entry hk => ?_, hown, fun hc => ?_, fun i hi => ?_⟩
  · rcases hfrom with rfl | ⟨i, -, rfl⟩
    · cases hk
    · exact ⟨(hv.sound (fun _ _ hg => hg.1) i).log.index _ _ hk,
        (preserved_minted.visited hv).1 i entry (List.mem_of_getElem? hk)⟩
  · rw [hcopies.own hc] at hown ⊢
    rcases hfrom with rfl | ⟨i, -, rfl⟩
    · exact List.prefix_nil.1 hown
    · exact hown.eq_of_length_le (hcopies.nodes i).length_le
  · have hlog := hall i (List.mem_cons_of_mem l hi)
    have hpre : (c.nodes i).executed <+: (c.nodes i).log := List.take_prefix _ _
    exact ⟨hlog, (c.nodes i).executed.length, hpre.length_le,
      (bounded_of_run hrun i).length_executed, List.prefix_iff_eq_take.1 (hpre.trans hlog)⟩

/-- **A stable leader makes a replicated log.**  In every run in which no timer fires but that of
one node and clients make fewer than `2 ^ 31` requests, with a state machine whose calls do not
fail, there is one sequence of entries, each of which a leader has appended for the `Set` of a
client, such that the log of every node is a prefix of it, and that of `l` is all of it if `l` still
runs.  Every running node has applied the first `last_applied + 1` of its entries, each once and in
order. -/
theorem steady_replicas_agree {sm : σ} (hok : Reliable σ)
    (h : (machine σ ids).Run (Steady l) (init ids fun _ => sm) ls c)
    (hreq : ls.countP Action.requests < 2 ^ 31) :
    ∃ entries : List LogEntry,
      (∀ (k : ℕ) entry, entries[k]? = some entry →
        entry.index = k ∧ MintedIn ids (fun _ => sm) ls entry) ∧
      (c.crashed l = false → (c.nodes l).log = entries) ∧
      ∀ i ∈ ids, (c.nodes i).log <+: entries ∧
        (c.crashed i = false → ∃ n ≤ (c.nodes i).log.length, (n : ℤ) = (c.nodes i).lastApplied + 1 ∧
          journalOf i c.history = numbered 0 (entries.take n) ∧
          (c.nodes i).stateMachine =
            (entries.take n).foldl (fun sm entry => carryOut sm entry.command) sm) := by
  obtain ⟨entries, hminted, -, hown, hall⟩ := exists_copied h hreq
  obtain ⟨hrun, -, -⟩ := Stable.init.run h (by omega)
  refine ⟨entries, hminted, hown, fun i hi => ?_⟩
  obtain ⟨hlog, n, hn, hlast, hexecuted⟩ := hall i hi
  refine ⟨hlog, fun hc => ⟨n, hn, hlast, ?_⟩⟩
  rw [← hexecuted]
  exact journaled_executed hok hrun hc

/-- Node 1 is elected by one vote that is delivered twice, and node 2 applies what node 1 has
appended. -/
theorem steady_replicas_agree_duplicate : ∃ c : Cluster SimpleStateMachine, ∃ entries,
    (c.nodes 1).log = entries ∧ entries.length = 1 ∧ (c.nodes 2).lastApplied = 0 ∧
      ∃ n ≤ (c.nodes 2).log.length, (n : ℤ) = (c.nodes 2).lastApplied + 1 ∧
        journalOf 2 c.history = numbered 0 (entries.take n) := by
  let ls : List Action := [.timeout 1, .receive [1, 2, 3] 0, .receive [1, 2, 3] 2,
    .receive [1, 2, 3] 2, .set [1, 2, 3] 1 "x" "1", .receive [1, 2, 3] 7, .receive [1, 2, 3] 11,
    .timeout 1, .receive [1, 2, 3] 12]
  have hrun : ((machine SimpleStateMachine [1, 2, 3]).exec (Steady 1)
      (init [1, 2, 3] fun _ => .new) ls).any
      (fun c => decide (c.crashed 1 = false ∧ c.crashed 2 = false ∧ (c.nodes 1).log.length = 1 ∧
        (c.nodes 2).lastApplied = 0)) = true := by
    decide
  obtain ⟨c, hc, hruns, hruns', hlength, happlied⟩ := Machine.exists_run_of_exec hrun
  obtain ⟨entries, -, hown, hall⟩ :=
    steady_replicas_agree SimpleStateMachine.reliable hc (by decide)
  obtain ⟨-, hnode⟩ := hall 2 (by decide)
  obtain ⟨n, hn, hlast, hjournal, -⟩ := hnode hruns'
  exact ⟨c, entries, hown hruns, hown hruns ▸ hlength, happlied, n, hn, hlast, hjournal⟩

theorem Stable.answer {n : ℕ} (h : Stable ids stateMachine l n c)
    (hrun : (machine σ ids).Run (Short ids) (Cluster.init ids stateMachine) ls c)
    (hshort : Short ids c a) (hn : next ids c a = some c') {id : ClientId}
    {response : ClientResponse} (hans : (id, response) ∈ c.answers a) :
    ∃ entry, MintedIn ids stateMachine ls entry ∧ entry.clientId = id ∧
      response = .setSuccess entry.requestId ∧ (c.nodes l).log[entry.index]? = some entry := by
  obtain ⟨i, entry, -, hminted, hfor, hresponse, -⟩ := mintedIn_of_answer hrun hshort hn hans
  have hi : i = l := by
    by_contra hne
    have hleads := hfor.leader
    rw [h.follow.nodes i hne] at hleads
    cases hleads
  subst hi
  have hheld := hfor.holds
  have hindex := ((visited_occurs hrun).sound (fun _ _ hg => hg.1) i).log.index _ _ hheld
  rw [← hindex] at hheld
  exact ⟨entry, hminted, hfor.client, hresponse, hheld⟩

theorem Stable.lasting {n : ℕ} (h : Stable ids stateMachine l n c) {entry : LogEntry}
    (hbounded : ∀ j, (c.nodes j).Bounded) (hheld : (c.nodes l).log[entry.index]? = some entry) :
    Lasting c entry := by
  intro j hj
  obtain ⟨L, hcopies⟩ := h.copies
  have hlt : entry.index < (c.nodes j).log.length := by
    have := (hbounded j).commit
    omega
  have hget := List.getElem?_eq_getElem hlt
  have hsame := getElem?_of_isPrefix (hcopies.nodes j) hget
  rw [getElem?_of_isPrefix (hcopies.nodes l) hheld, Option.some.injEq] at hsame
  exact hget.trans (congrArg some hsame.symm)

/-- **What a client has been told stays.**  Whenever a client is answered in a run with a stable
leader, it is the success of a `Set` of this client, and in whatever way the run goes on, the entry
of this `Set` is in the log of the leader, while it runs, and in that of every node that regards its
index as committed. -/
theorem steady_sets_survive (h : (machine σ ids).Run (Steady l) (init ids stateMachine) ls c)
    (hsteady : Steady l c a) (hn : next ids c a = some c') {id : ClientId}
    {response : ClientResponse} (hans : (id, response) ∈ c.answers a)
    (hreq : (ls ++ [a]).countP Action.requests < 2 ^ 31) :
    ∃ entry, MintedIn ids stateMachine ls entry ∧ entry.clientId = id ∧
      response = .setSuccess entry.requestId ∧
      ∀ ls' d, (machine σ ids).Run (Steady l) c' ls' d →
        (ls ++ [a] ++ ls').countP Action.requests < 2 ^ 31 →
          (d.crashed l = false → (d.nodes l).log[entry.index]? = some entry) ∧
            Lasting d entry := by
  have hsum : ∀ ls' : List Action, (ls ++ [a] ++ ls').countP Action.requests =
      ls.countP Action.requests + ([a] ++ ls').countP Action.requests := by
    intro ls'
    rw [List.append_assoc, List.countP_append]
  rw [List.countP_append] at hreq
  obtain ⟨hrun, hstable, -⟩ := Stable.init.run h (by omega)
  have hshort : Short ids c a := fun i _ => Nat.lt_of_le_of_lt (hstable.logs.nodes i) (by omega)
  obtain ⟨entry, hminted, hclient, hresponse, hheld⟩ :=
    hstable.answer (hrun.mono fun _ _ hg => hg.1) hshort hn hans
  refine ⟨entry, hminted, hclient, hresponse, fun ls' d hd hreq' => ?_⟩
  rw [hsum] at hreq'
  have hlater : (machine σ ids).Run (Steady l) c ([a] ++ ls') d :=
    (Machine.Run.snoc .nil hsteady hn : (machine σ ids).Run (Steady l) c ([] ++ [a]) c').append hd
  obtain ⟨hrun', hstable', hgrown⟩ := hstable.run hlater (by omega)
  have hheld' := getElem?_of_isPrefix hgrown hheld
  exact ⟨fun _ => hheld', hstable'.lasting (bounded_of_run (hrun.append hrun')) hheld'⟩

/-- Node 2 hears that the entry is committed after client 1 has been answered. -/
theorem steady_sets_survive_heartbeat : ∃ d : Cluster SimpleStateMachine, ∃ entry,
    entry.clientId = 1 ∧ (d.nodes 2).commitIndex = 0 ∧
      (d.nodes 1).log[entry.index]? = some entry ∧ Lasting d entry := by
  let ls : List Action := [.timeout 1, .receive [1, 2, 3] 0, .receive [1, 2, 3] 2,
    .receive [1, 2, 3] 2, .set [1, 2, 3] 1 "x" "1", .receive [1, 2, 3] 7]
  have hrun : ((machine SimpleStateMachine [1, 2, 3]).exec (Steady 1)
      (init [1, 2, 3] fun _ => .new) ls).any
      (fun c => decide (Steady 1 c (.receive [1, 2, 3] 11) ∧
        (1, .setSuccess 1) ∈ c.answers (.receive [1, 2, 3] 11) ∧
        (next [1, 2, 3] c (.receive [1, 2, 3] 11)).any (fun c' =>
          ((machine SimpleStateMachine [1, 2, 3]).exec (Steady 1) c'
            [.timeout 1, .receive [1, 2, 3] 12]).any
            (fun d => decide (d.crashed 1 = false ∧ (d.nodes 2).commitIndex = 0))) = true)) =
              true := by
    decide
  obtain ⟨c, hc, hsteady, hans, hlater⟩ := Machine.exists_run_of_exec hrun
  obtain ⟨c', hn, hlater⟩ := (Option.any_eq_true _ _).1 hlater
  obtain ⟨d, hd, hruns, hcommit⟩ := Machine.exists_run_of_exec hlater
  obtain ⟨entry, -, hclient, -, hlasting⟩ := steady_sets_survive hc hsteady hn hans (by decide)
  obtain ⟨hheld, hlasts⟩ := hlasting _ d hd (by decide)
  exact ⟨d, entry, hclient, hcommit, hheld hruns, hlasts⟩

end Cluster

end MiniRaft
