import MiniRaft.Cluster.LeaderCompleteness
import MiniRaft.Cluster.Throughout

/-!
# The quorum of a commit

A leader commits what a quorum has acknowledged; but who has acknowledged an entry may have crashed
since, and its log with it, while its slot of `match_index` still counts.  Where a leader counts
running nodes only, a quorum that runs has the entry at the moment of the commit.

* `Cluster.raises_of_next` : what a step does in which a leader raises its commit index.
* `Cluster.commit_durable` : the quorum of running nodes.
-/

namespace MiniRaft

open Consensus

variable {σ : Type}

/-- `match_index` of a leader. -/
def RaftState.matchIndex : RaftState → List ℤ
  | leader matchIndex _ => matchIndex
  | _ => []

namespace Cluster

open Server

/-- A leader counts nodes that run: when it is about to handle a reply, the sender of a success and
the nodes whose slots of `match_index` are past its commit index have not crashed. -/
def CountsRunning (c : Cluster σ) : Action → Prop
  | .deliver k _ _ => ∀ e ∈ c.sent[k]?, ∀ msg ∈ e.msg.asAppendEntriesResponse,
      (c.nodes e.dst).state.isLeader = true → msg.term ≤ (c.nodes e.dst).currentTerm →
        (msg.success = true → c.crashed e.src = false) ∧
        ∀ p < (c.nodes e.dst).state.matchIndex.length,
          ∀ x ∈ (c.nodes e.dst).state.matchIndex[p]?, (c.nodes e.dst).commitIndex < x →
            c.crashed p = false
  | _ => True

instance (c : Cluster σ) : (a : Action) → Decidable (CountsRunning c a)
  | .deliver k _ _ => inferInstanceAs (Decidable (∀ e ∈ c.sent[k]?,
      ∀ msg ∈ e.msg.asAppendEntriesResponse, _ → _ → (_ → _) ∧ ∀ p < _, ∀ x ∈ _, _ → _))
  | .request .. => inferInstanceAs (Decidable True)
  | .timeout _ => inferInstanceAs (Decidable True)

/-- The guard of faithful runs, and leaders count running nodes. -/
def Attested (ids : List NodeId) : Cluster σ → Action → Prop :=
  Machine.both (Faithful ids) CountsRunning

instance (ids : List NodeId) : ∀ (c : Cluster σ) (a : Action), Decidable (Attested ids c a) :=
  inferInstanceAs (∀ c a, Decidable (Machine.both _ _ c a))

variable [StateMachine σ] {ids : List NodeId} {stateMachine : NodeId → σ}
  {G : Cluster σ → Action → Prop} {c c' : Cluster σ} {a : Action} {q : NodeId}

omit [StateMachine σ] in
theorem CountsRunning.counted (h : CountsRunning c a) {incoming : Incoming}
    {msg : AppendEntriesResponse} {mi : List ℤ} {ni : List ℕ} (harr : c.Arrives a q incoming)
    (hin : incoming.msg = .appendEntriesResponse msg) (hterm : msg.term ≤ (c.nodes q).currentTerm)
    (hcredit : (c.nodes q).Credits incoming.sender msg mi ni) {v : NodeId} {x : ℤ}
    (hx : x ∈ mi[v]?) (hlt : (c.nodes q).commitIndex < x) : c.crashed v = false := by
  obtain ⟨k, order, cut, e, rfl, he, rfl, rfl⟩ := harr.envelope fun req hreq => by
    simp [hin] at hreq
  have hin : e.msg = .appendEntriesResponse msg := hin
  obtain ⟨hsender, hslots⟩ := h e he msg (by rw [hin]; rfl) hcredit.isLeader hterm
  have slot : ∀ {mi₀ : List ℤ} {ni₀ : List ℕ}, (c.nodes e.dst).state = .leader mi₀ ni₀ →
      x ∈ mi₀[v]? → c.crashed v = false := by
    intro mi₀ ni₀ hst hx
    rw [hst] at hslots
    exact hslots v (List.getElem?_eq_some_iff.1 hx).1 x hx hlt
  cases hcredit with
  | success hst heq hok =>
    cases heq
    by_cases hv : v = e.src
    · rw [hv]
      exact hsender hok
    · rw [List.getElem?_set_ne (Ne.symm hv)] at hx
      exact slot hst hx
  | failure hst => exact slot hst hx

/-- What a step does in which the leader `q` raises its commit index: it handles a reply. -/
structure Raises (ids : List NodeId) (c : Cluster σ) (a : Action) (c' : Cluster σ) (q : NodeId)
    (incoming : Incoming) (msg : AppendEntriesResponse) (mi : List ℤ) (ni : List ℕ) : Prop where
  mem : q ∈ ids
  alive : c.crashed q = false
  arrives : c.Arrives a q incoming
  reply : incoming.msg = .appendEntriesResponse msg
  term_le : msg.term ≤ (c.nodes q).currentTerm
  credits : (c.nodes q).Credits incoming.sender msg mi ni
  committable : (c.nodes q).Committable mi (c'.nodes q).commitIndex
  runs : c'.crashed q = false
  leads : (c'.nodes q).state.isLeader = true
  log : (c'.nodes q).log = (c.nodes q).log
  term : (c'.nodes q).currentTerm = (c.nodes q).currentTerm
  others : ∀ v ≠ q, c'.crashed v = c.crashed v

omit [StateMachine σ] in
theorem foldl_perform_two (ids : List NodeId) (q : NodeId) (c : Cluster σ) (cause : Option Message)
    {o : Outcome σ} (o' : Outcome σ) (hp : o.panicked = false) :
    (([⟨cause, o⟩, ⟨none, o'⟩] : List (Phase σ)).foldl (perform ids q) c).crashed q = o'.panicked ∧
      (([⟨cause, o⟩, ⟨none, o'⟩] : List (Phase σ)).foldl (perform ids q) c).nodes q =
        if o'.panicked then o.server else o'.server := by
  cases hp' : o'.panicked <;> simp [perform, hp, hp']

/-- A handler and the loop after it: where the commit index has risen, the handler has raised it,
and the loop has left the node as it was, since it still leads. -/
theorem Visited.raises_of_two (hv : Visited ids stateMachine G c)
    (hG : ∀ (c : Cluster σ) a, G c a → Faithful ids c a) (hi : q ∈ ids) (hc : c.crashed q = false)
    (hlen : (c.nodes q).log.length < 2 ^ 31) (hl : (c.nodes q).state.isLeader = true)
    {incoming : Incoming} {o o' : Outcome σ} {ds : List ℕ} (harr : c.Arrives a q incoming)
    (hp : o.panicked = false) (hs : (c.nodes q).Handles incoming o.server)
    (hens : o'.Ensures o.server.Goes o.server.Announces)
    (hloop : o.server.state.isLeader = true → o.server.log.length < 2 ^ 31 →
      o'.panicked = false ∧ o'.server = o.server)
    (hc' : c' = ([⟨some incoming.msg, o⟩, ⟨none, o'⟩] : List (Phase σ)).foldl (perform ids q)
      { c with delivered := ds })
    (hlt : (c.nodes q).commitIndex < (c'.nodes q).commitIndex) :
    ∃ msg mi ni, Raises ids c a c' q incoming msg mi ni := by
  obtain ⟨hcrash, hnode⟩ :=
    foldl_perform_two ids q { c with delivered := ds } (some incoming.msg) o' hp
  rw [← hc'] at hcrash hnode
  have hraised : (c.nodes q).commitIndex < o.server.commitIndex := by
    rw [hnode] at hlt
    cases hp' : o'.panicked with
    | true => simpa [hp'] using hlt
    | false => simpa [hp', (hens.server hp').commitIndex_eq] using hlt
  obtain ⟨msg, mi, ni, hin, hterm, hcredit, hcommit, hlog, hcur⟩ :=
    hv.raised hG harr hs hl hraised
  have hleads := (hs.leads hl (Nat.le_of_eq hcur)).1
  obtain ⟨hp', hserver⟩ := hloop hleads (by rw [hlog]; exact hlen)
  rw [hp', if_neg Bool.false_ne_true, hserver] at hnode
  have hothers : ∀ v ≠ q, c'.crashed v = c.crashed v := by
    intro v hne
    rw [hc']
    exact (foldl_perform_of_ne _ hne _).2
  refine ⟨msg, mi, ni, hi, hc, harr, hin, hterm, hcredit, ?_, hcrash.trans hp', ?_, ?_, ?_, hothers⟩
  · rwa [hnode]
  · rwa [hnode]
  · rwa [hnode]
  · rwa [hnode]

/-- **Inversion of a commit**: the leader handles a reply, and goes through its loop. -/
theorem raises_of_next (hG : ∀ (c : Cluster σ) a, G c a → Faithful ids c a)
    (hv : Visited ids stateMachine G c) (hg : G c a) (hn : next ids c a = some c')
    (hl : (c.nodes q).state.isLeader = true)
    (hlt : (c.nodes q).commitIndex < (c'.nodes q).commitIndex) :
    ∃ incoming msg mi ni, Raises ids c a c' q incoming msg mi ni := by
  obtain ⟨ds, i, incoming, phases, -, hi, hc, harr, hturn, rfl⟩ := turn_of_next hn
  obtain rfl : q = i := by
    by_contra hne
    rw [(foldl_perform_of_ne _ hne phases).1] at hlt
    exact Int.lt_irrefl _ hlt
  have hlen := (hG _ _ hg).1.1 q hi
  cases hturn with
  | timer =>
    rw [afterTimer_of_isLeader hl, List.foldl_cons, List.foldl_nil, perform] at hlt
    simp [sendHeartbeat_of_lt hlen] at hlt
  | stuck hpan => simp [perform, hpan] at hlt
  | @handled incoming order hpan =>
    obtain ⟨log, hens⟩ := (c.nodes q).recieveRpc_ensures order incoming
    have hs := (hens.server hpan).1
    refine ⟨incoming, hv.raises_of_two hG hi hc hlen hl (harr _ rfl) hpan hs
      (afterRpc_ensures hs.isCandidate) (fun hleads _ => ?_) rfl hlt⟩
    rw [afterRpc_of_isLeader hl hleads]
    exact ⟨rfl, rfl⟩
  | @dropped incoming order k o hf ho =>
    obtain ⟨⟨log, hspec⟩, hrole, hpan⟩ := cut_recieveRpc ho
    have hs := (hspec.ensures.server hpan).1
    refine ⟨incoming, hv.raises_of_two hG hi hc hlen hl (harr _ rfl) hpan hs
      (afterTimer_ensures hrole.1 hrole.2) (fun _ hlen => ?_) rfl hlt⟩
    rw [afterTimer_of_isLeader hl]
    exact sendHeartbeat_of_lt hlen

/-- **Quorum durability.**  In every faithful run in which leaders count running nodes only: when a
leader raises its commit index to `n`, it runs on and has an entry there, and so does a quorum of
nodes that run, itself included; and whatever comes then, these nodes keep the entry while they
run. -/
theorem commit_durable (h : (machine σ ids).Reach (Attested ids) (init ids stateMachine) c)
    (hg : Attested ids c a) (hn : next ids c a = some c')
    (hl : (c.nodes q).state.isLeader = true)
    (hlt : (c.nodes q).commitIndex < (c'.nodes q).commitIndex) :
    ∃ (n : ℕ) (entry : LogEntry), (c'.nodes q).commitIndex = n ∧ c'.crashed q = false ∧
      (c'.nodes q).log[n]? = some entry ∧
      Quorum ids fun v => c'.crashed v = false ∧ (c'.nodes v).log[n]? = some entry ∧
        ∀ d, (machine σ ids).Reach (Attested ids) c' d → d.crashed v = false →
          (d.nodes v).log[n]? = some entry := by
  have hG : ∀ (c : Cluster σ) a, Attested ids c a → Faithful ids c a := fun _ _ hg => hg.1
  have hv := visited_of_reach h
  obtain ⟨incoming, msg, mi, ni, hr⟩ := raises_of_next hG hv hg hn hl hlt
  obtain ⟨hpos, entry, hentry, -⟩ := hr.committable.entry (hg.1.1.1 q hr.mem)
  have hev := committed_of_next hn hl hr.leads hlt
  rw [← hr.log] at hentry
  -- who has acknowledged the index holds the leader's entry, from now on
  have held : ∀ {v : NodeId} {d : Cluster σ}, (machine σ ids).Reach (Attested ids) c' d →
      Acked c' v (c'.nodes q).currentTerm (c'.nodes q).commitIndex.toNat →
      (d.nodes v).log[(c'.nodes q).commitIndex.toNat]? = some entry := by
    intro v d hd hack
    have hlater := later_of_reach hd
    have hreach : (machine σ ids).Reach (Attested ids) (init ids stateMachine) d :=
      (h.trans ⟨_, .snoc .nil hg hn⟩).trans hd
    rw [(visited_of_reach hreach).holds_committed hG (hlater.history.subset hev)
      (hack.later hlater)]
    exact hentry
  have hself : Acked c' q (c'.nodes q).currentTerm (c'.nodes q).commitIndex.toNat :=
    .inr ⟨_, _, hev, by omega⟩
  refine ⟨(c'.nodes q).commitIndex.toNat, entry, by omega, hr.runs, hentry, ?_⟩
  refine hv.quorum hG hg hr.arrives hr.mem hr.alive hr.reply hr.term_le hr.credits hr.committable
    (fun v hne hslot hack => ?_) ⟨hr.runs, held (.refl c') hself, fun d hd _ => held hd hself⟩
  obtain ⟨x, hx, hle⟩ := hslot
  have hack : Acked c' v (c'.nodes q).currentTerm (c'.nodes q).commitIndex.toNat := by
    rw [hr.term]
    exact hack.later (later_of_next hn)
  refine ⟨?_, held (.refl c') hack, fun d hd _ => held hd hack⟩
  rw [hr.others v hne]
  exact hg.2.counted hr.arrives hr.reply hr.term_le hr.credits hx (by omega)

/-- Node 1 commits its first entry once node 2 has it. -/
theorem commit_durable_replicated : ∃ c c' : Cluster SimpleStateMachine,
    next [1, 2, 3] c (.receive [1, 2, 3] 12) = some c' ∧ (c.nodes 1).commitIndex = -1 ∧
      (c'.nodes 1).commitIndex = 0 ∧ ∃ entry, (c'.nodes 1).log[0]? = some entry ∧
        Quorum [1, 2, 3] fun v => c'.crashed v = false ∧ (c'.nodes v).log[0]? = some entry := by
  have hrun : ((machine SimpleStateMachine [1, 2, 3]).exec (Attested [1, 2, 3])
      (init [1, 2, 3] fun _ => .new)
      [.timeout 1, .receive [1, 2, 3] 0, .receive [1, 2, 3] 1, .receive [1, 2, 3] 2,
        .receive [1, 2, 3] 3, .set [1, 2, 3] 1 "x" "1", .receive [1, 2, 3] 8]).any
      (fun c => decide (Attested [1, 2, 3] c (.receive [1, 2, 3] 12) ∧
        (c.nodes 1).state.isLeader = true ∧ (c.nodes 1).commitIndex = -1 ∧
        (next [1, 2, 3] c (.receive [1, 2, 3] 12)).any
          (fun c' => decide ((c'.nodes 1).commitIndex = 0)) = true)) = true := by
    decide
  obtain ⟨c, hc, hg, hl, hold, hnext⟩ := Machine.exists_reach_of_exec hrun
  obtain ⟨c', hn, hnew⟩ := (Option.any_eq_true _ _).1 hnext
  have hnew : (c'.nodes 1).commitIndex = 0 := of_decide_eq_true hnew
  obtain ⟨n, entry, hcommit, -, hself, hquorum⟩ :=
    commit_durable (q := 1) hc hg hn hl (by rw [hold, hnew]; decide)
  obtain rfl : n = 0 := by omega
  exact ⟨c, c', hn, hold, hnew, entry, hself, hquorum.mono fun v _ h => ⟨h.1, h.2.1⟩⟩

/-- Node 1 takes two commands and sends each twice.  Node 2 answers both copies of the first, and
node 1 commits the second, which it alone holds. -/
theorem commit_held_by_one : ∃ c : Cluster SimpleStateMachine,
    (machine SimpleStateMachine [1, 2, 3]).Reach Orderly (init [1, 2, 3] fun _ => .new) c ∧
      (∃ log, .committed 1 1 1 log ∈ c.history ∧ log[1]? = (c.nodes 1).log[1]?) ∧
      (c.nodes 1).log[1]? ≠ none ∧ (c.nodes 2).log[1]? = none ∧ (c.nodes 3).log[1]? = none := by
  have hrun : ((machine SimpleStateMachine [1, 2, 3]).exec Orderly (init [1, 2, 3] fun _ => .new)
      [.timeout 1, .receive [1, 2, 3] 0, .receive [1, 2, 3] 1, .receive [1, 2, 3] 2,
        .receive [1, 2, 3] 3, .set [1, 2, 3] 1 "x" "1", .set [1, 2, 3] 1 "y" "2",
        .receive [1, 2, 3] 8, .receive [1, 2, 3] 10, .receive [1, 2, 3] 16,
        .receive [1, 2, 3] 17]).any
      (fun c => decide (.committed 1 1 1 (c.nodes 1).log ∈ c.history ∧
        (c.nodes 1).log[1]? ≠ none ∧ (c.nodes 2).log[1]? = none ∧
        (c.nodes 3).log[1]? = none)) = true := by
    decide
  obtain ⟨c, hc, hcommit, hrest⟩ := Machine.exists_reach_of_exec hrun
  exact ⟨c, hc, ⟨_, hcommit, rfl⟩, hrest⟩

end Cluster

end MiniRaft
