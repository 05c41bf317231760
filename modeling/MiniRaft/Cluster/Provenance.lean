import MiniRaft.Cluster.Throughout
import MiniRaft.Cluster.WellFormed
import MiniRaft.Machine.Accounting
import MiniRaft.Server.Answers

/-!
# Where entries come from

Nothing enters a log but what a client has asked for.  In every run with short logs, under any loss,
duplication and reordering of messages, every entry of every log was appended by a leader of its
term, at its index, for a client's `Set` (`Cluster.Mints`); what is applied, and what clients are
told is done, are such entries.
-/

namespace MiniRaft

variable {σ : Type}

theorem filterMap_of_last {α β : Type*} {f : α → Option β} {l : List α}
    (h : ∀ (j : ℕ) x y, l[j]? = some x → f x = some y → j + 1 = l.length) {y : β}
    (hy : y ∈ l.filterMap f) : l.filterMap f = [y] := by
  rcases List.eq_nil_or_concat l with rfl | ⟨l, x, rfl⟩
  · cases hy
  · rw [List.concat_eq_append] at h hy ⊢
    have hnone : l.filterMap f = [] := by
      rw [List.filterMap_eq_nil_iff]
      intro x' hx'
      rw [Option.eq_none_iff_forall_ne_some]
      intro y' hy'
      obtain ⟨j, hj⟩ := List.mem_iff_getElem?.1 hx'
      have hlt := (List.getElem?_eq_some_iff.1 hj).1
      have hlast := h j x' y' (by rw [List.getElem?_append_left hlt, hj]) hy'
      rw [List.length_append, List.length_singleton] at hlast
      omega
    rw [List.filterMap_append, hnone, List.nil_append] at hy ⊢
    cases hx : f x with
    | none =>
      rw [List.filterMap_cons_none hx] at hy
      cases hy
    | some y' =>
      rw [List.filterMap_cons_some hx, List.filterMap_nil, List.mem_singleton] at hy
      rw [List.filterMap_cons_some hx, hy, List.filterMap_nil]

/-- The answers to clients that are sent. -/
def Outcome.answers (o : Outcome σ) : List (ClientId × ClientResponse) :=
  o.sent.filterMap fun
    | ⟨.client id, .clientResponse response⟩ => some (id, response)
    | _ => none

theorem Outcome.mem_answers_iff {o : Outcome σ} {id : ClientId} {response : ClientResponse} :
    (id, response) ∈ o.answers ↔
      ∃ snap, .send ⟨.client id, .clientResponse response⟩ snap ∈ o.effects := by
  rw [← Outcome.mem_sent_iff, Outcome.answers, List.mem_filterMap]
  constructor
  · rintro ⟨out, hmem, hout⟩
    split at hout
    · cases hout
      exact hmem
    · cases hout
  · intro hmem
    exact ⟨_, hmem, rfl⟩

/-- The message is for a client. -/
def Outgoing.toClient : Outgoing → Option (ClientId × Message)
  | ⟨.client client, msg⟩ => some (client, msg)
  | _ => none

/-- The message that carries an answer. -/
def messageOf (answer : ClientId × ClientResponse) : ClientId × Message :=
  (answer.1, .clientResponse answer.2)

namespace Cluster

open Server

/-- In the step `a` of the cluster `c` a leader appends the entry: a client's `Set` reaches it. -/
inductive Mints (c : Cluster σ) : Action → LogEntry → Prop
  | set {node : NodeId} {client : ClientId} {req : ClientRequest} {order : List NodeId}
      {cut : Option ℕ} {key value : String} : (c.nodes node).state.isLeader = true →
      req.command = .set key value → Mints c (.request node client req order cut)
        ⟨(c.nodes node).currentTerm, req.command, (c.nodes node).log.length, req.clientId,
          req.requestId⟩

theorem Mints.isSet {c : Cluster σ} {a : Action} {entry : LogEntry} (h : c.Mints a entry) :
    ∃ key value, entry.command = .set key value := by
  cases h with
  | set _ hcmd => exact ⟨_, _, hcmd⟩

/-- The node that goes through a turn in the step `a`, and how its wait ends. -/
def turnOf (c : Cluster σ) : Action → Option (NodeId × Select)
  | .deliver k order cut =>
    (c.sent[k]?).map fun e => (e.dst, selectOf order ⟨.peer e.src, e.msg⟩ cut)
  | .request node client req order cut =>
    some (node, selectOf order ⟨.client client, .clientRequest req⟩ cut)
  | .timeout node => some (node, .timer)

variable [StateMachine σ]

/-- What clients are answered in the step `a`. -/
def answers (c : Cluster σ) (a : Action) : List (ClientId × ClientResponse) :=
  match c.turnOf a with
  | none => []
  | some (i, ev) => (((c.nodes i).turn ev).getD []).flatMap fun p => p.outcome.answers

/-- What is sent to clients in the step `a`, whatever it is. -/
def told (c : Cluster σ) (a : Action) : List (ClientId × Message) :=
  match c.turnOf a with
  | none => []
  | some (i, ev) =>
    ((((c.nodes i).turn ev).getD []).flatMap fun p => p.outcome.sent).filterMap Outgoing.toClient

/-- Somewhere on the run with short logs `ls` the entry was minted. -/
def MintedIn (ids : List NodeId) (stateMachine : NodeId → σ) (ls : List Action)
    (entry : LogEntry) : Prop :=
  ∃ c a, (machine σ ids).Occurs (Short ids) (init ids stateMachine) ls c a ∧ c.Mints a entry

variable {ids : List NodeId} {stateMachine : NodeId → σ} {c c' : Cluster σ} {a : Action}
  {ls : List Action}

/-! ### Logs -/

theorem preserved_minted : Preserved ids stateMachine
    (Machine.both (Short ids) ((machine σ ids).Occurs (Short ids) (init ids stateMachine) ls))
    (fun _ s => ∀ entry ∈ s.log, MintedIn ids stateMachine ls entry)
    fun e => ∀ entry ∈ e.snap.log, MintedIn ids stateMachine ls entry where
  init _ _ h := by cases h
  handles := by
    intro c a i incoming log s before hg harr h
    have hnode := before.nodes i
    have hlen := hg.1 i before.mem
    obtain ⟨h, -⟩ := h
    cases h with
    | keep | stepDown | vote | win | response => exact hnode
    | @accept nodeId msg sm ci la log heq _ hmerge =>
      subst heq
      obtain ⟨e, he, -, -, hmsg⟩ := harr.appendEntries
      obtain ⟨b, haccepted⟩ := before.visited.accepted (fun _ _ hg => hg.1) he hmsg hmerge
      intro entry hentry
      obtain ⟨k, hk⟩ := List.mem_iff_getElem?.1 hentry
      rcases haccepted.graft.getElem? hk with hk | hk
      · exact hnode entry (List.mem_of_getElem? hk)
      · exact before.sent e he entry (List.mem_of_getElem? hk)
    | @push key value req ls' hmsg hcmd hl =>
      intro entry hentry
      rcases List.mem_append.1 hentry with hentry | hentry
      · exact hnode entry hentry
      · cases harr with
        | deliver he =>
          have hnot := (preserved_not_clientRequest.visited before.visited).2 _
            (List.mem_of_getElem? he)
          exact absurd hmsg (hnot _)
        | request =>
          cases hmsg
          rw [List.mem_singleton, asU32_of_lt (by omega)] at hentry
          subst hentry
          exact ⟨c, _, hg.2, .set hl hcmd⟩
  emits _ _ _ _ hsnap := hsnap
  goes before h := by
    rw [h.log_eq]
    exact before.nodes _
  announces _ _ hsnap := hsnap

theorem visited_occurs (h : (machine σ ids).Run (Short ids) (init ids stateMachine) ls c) :
    Visited ids stateMachine (Machine.both (Short ids)
      ((machine σ ids).Occurs (Short ids) (init ids stateMachine) ls)) c :=
  visited_of_reach ⟨ls, h.occurs⟩

/-! ### What is applied -/

theorem minted_of_resumes {s : Server σ} {bound : ℤ} {index : ℕ} {command : LogCommand}
    (hs : Sound s) (hminted : ∀ entry ∈ s.log, MintedIn ids stateMachine ls entry)
    (h : s.Resumes bound index command) :
    ∃ entry, MintedIn ids stateMachine ls entry ∧ entry.index = index ∧
      entry.command = command := by
  obtain ⟨-, entry, hentry, hcmd⟩ := h
  exact ⟨entry, hminted entry (List.mem_of_getElem? hentry), hs.log.index _ _ hentry, hcmd⟩

theorem Visited.applied_minted (h : Visited ids stateMachine (Machine.both (Short ids)
      ((machine σ ids).Occurs (Short ids) (Cluster.init ids stateMachine) ls)) c) {i : NodeId}
    {index : ℕ} {command : LogCommand} (hev : .applied i index command ∈ c.history) :
    ∃ entry, MintedIn ids stateMachine ls entry ∧ entry.index = index ∧
      entry.command = command := by
  induction h with
  | init => cases hev
  | @handler c _ a hv hg hs ih =>
    obtain ⟨j, incoming, log, -, -, hphase⟩ := hs
    rcases hphase.event hev with hev | ⟨_, _, heq, hcall, -⟩ | ⟨-, hev⟩
    · exact ih hev
    · cases heq
      have hsound := hv.sound (fun _ _ hg => hg.1) i
      have hminted := (preserved_minted.visited hv).1 i
      cases hcall with
      | accept _ _ hres => exact minted_of_resumes hsound hminted (hres (hg.1 i hphase.mem))
      | response _ _ _ _ hres => exact minted_of_resumes hsound hminted hres
    · exact absurd hev notMem_changeOf_applied
  | loop hv hs ih =>
    obtain ⟨j, -, hphase⟩ := hs
    rcases hphase.event hev with hev | ⟨_, _, heq, hres⟩ | ⟨-, hev⟩
    · exact ih hev
    · cases heq
      exact minted_of_resumes (hv.sound (fun _ _ hg => hg.1) i) ((preserved_minted.visited hv).1 i)
        hres
    · exact absurd hev notMem_changeOf_applied

/-- **Nothing comes from nowhere.**  In every run with short logs, every entry of every log, every
entry of every `AppendEntries` in flight and every command that is applied was appended before, in
the term and at the index that it carries, by a leader whom a client had sent this `Set`. -/
theorem entries_minted (h : (machine σ ids).Run (Short ids) (init ids stateMachine) ls c) :
    (∀ i, ∀ entry ∈ (c.nodes i).log, MintedIn ids stateMachine ls entry) ∧
    (∀ e ∈ c.sent, ∀ msg, e.msg = .appendEntries msg → ∀ entry ∈ msg.entries,
      MintedIn ids stateMachine ls entry) ∧
    ∀ i index command, .applied i index command ∈ c.history →
      ∃ entry, MintedIn ids stateMachine ls entry ∧ entry.index = index ∧
        entry.command = command := by
  have hv := visited_occurs h
  obtain ⟨hnodes, hsent⟩ := preserved_minted.visited hv
  refine ⟨hnodes, fun e he msg hmsg entry hentry => ?_, fun i index command hev => ?_⟩
  · obtain ⟨b, -, hentries, -⟩ := (hv.fromLog (fun _ _ hg => hg.1) he hmsg).carries.piece
    rw [hentries] at hentry
    exact hsent e he entry (List.mem_of_mem_drop hentry)
  · exact hv.applied_minted hev

/-- Node 2 has taken over an entry that node 1 appended when it led. -/
theorem entries_minted_replicated : ∃ c : Cluster SimpleStateMachine, ∃ entry,
    entry ∈ (c.nodes 2).log ∧ MintedIn [1, 2, 3] (fun _ => SimpleStateMachine.new)
      [.timeout 1, .receive [1, 2, 3] 0, .receive [1, 2, 3] 1, .receive [1, 2, 3] 2,
        .receive [1, 2, 3] 3, .set [1, 2, 3] 1 "x" "1", .receive [1, 2, 3] 8] entry := by
  let ls : List Action := [.timeout 1, .receive [1, 2, 3] 0, .receive [1, 2, 3] 1,
    .receive [1, 2, 3] 2, .receive [1, 2, 3] 3, .set [1, 2, 3] 1 "x" "1", .receive [1, 2, 3] 8]
  have hrun : ((machine SimpleStateMachine [1, 2, 3]).exec (Short [1, 2, 3])
      (init [1, 2, 3] fun _ => .new) ls).any
      (fun c => decide ((⟨1, .set "x" "1", 0, 1, 1⟩ : LogEntry) ∈ (c.nodes 2).log)) = true := by
    decide
  obtain ⟨c, hc, hmem⟩ := Machine.exists_run_of_exec hrun
  exact ⟨c, _, hmem, (entries_minted hc).1 2 _ hmem⟩

/-! ### What clients are told -/

/-- A step is a turn of one node. -/
theorem act_of_next (h : next ids c a = some c') : ∃ ds i ev, c.turnOf a = some (i, ev) ∧
    c.actor a = some i ∧ act ids { c with delivered := ds } i ev = some c' := by
  cases a with
  | deliver k order cut =>
    simp only [next] at h
    split at h
    · cases h
    · rename_i e he
      exact ⟨_, _, _, by rw [turnOf, he]; rfl, by rw [actor, he]; rfl, h⟩
  | request => exact ⟨c.delivered, _, _, rfl, rfl, h⟩
  | timeout => exact ⟨c.delivered, _, _, rfl, rfl, h⟩

theorem clientResponse_of_turn {s : Server σ} {ev : Select} {phases : List (Phase σ)}
    (hturn : s.turn ev = some phases) {p : Phase σ} (hp : p ∈ phases) {id : ClientId}
    {msg : Message} (hsent : ⟨.client id, msg⟩ ∈ p.outcome.sent) :
    ∃ response, msg = .clientResponse response := by
  obtain ⟨snap, hmem⟩ := Outcome.mem_sent_iff.1 hsent
  have loop : ∀ {s' : Server σ} {o : Outcome σ}, o.Ensures s'.Goes s'.Announces →
      .send ⟨.client id, msg⟩ snap ∈ o.effects → ∃ response, msg = .clientResponse response := by
    intro s' o ho hmem
    obtain ⟨-, hann⟩ := ho.sends hmem
    cases hann
  have hphases := turnIs_of_turn hturn
  generalize ev.incoming = incoming at hphases
  cases hphases with
  | timer =>
    rw [List.mem_singleton] at hp
    subst hp
    exact loop (afterTimer_ensures rfl rfl) hmem
  | stuck =>
    rw [List.mem_singleton] at hp
    subst hp
    exact clientResponse_of_answer hmem
  | @handled incoming order hpan =>
    rcases List.mem_pair.1 hp with rfl | rfl
    · exact clientResponse_of_answer hmem
    · obtain ⟨log, hens⟩ := s.recieveRpc_ensures order incoming
      exact loop (afterRpc_ensures (hens.server hpan).1.isCandidate) hmem
  | @dropped incoming order k o _ ho =>
    rcases List.mem_pair.1 hp with rfl | rfl
    · obtain ⟨out, snap', -, rfl⟩ := Outcome.cut_eq_some_iff.1 ho
      exact clientResponse_of_answer (List.mem_of_mem_take hmem)
    · obtain ⟨-, hrole, -⟩ := cut_recieveRpc ho
      exact loop (afterTimer_ensures hrole.1 hrole.2) hmem

theorem toClient_of_turn {s : Server σ} {ev : Select} {phases : List (Phase σ)}
    (hturn : s.turn ev = some phases) :
    (phases.flatMap fun p => p.outcome.sent).filterMap Outgoing.toClient =
      (phases.flatMap fun p => p.outcome.answers).map messageOf := by
  rw [List.filterMap_flatMap, List.map_flatMap]
  refine List.flatMap_congr fun p hp => ?_
  rw [Outcome.answers, List.map_filterMap]
  refine List.filterMap_congr fun out hout => ?_
  obtain ⟨dest, msg⟩ := out
  cases dest with
  | client client =>
    obtain ⟨response, rfl⟩ := clientResponse_of_turn hturn hp hout
    rfl
  | node | broadcast => rfl

theorem told_of_next (hn : next ids c a = some c') : c.told a = (c.answers a).map messageOf := by
  obtain ⟨ds, i, ev, hturnOf, -, hact⟩ := act_of_next hn
  simp only [act] at hact
  split_ifs at hact
  obtain ⟨phases, hturn, -⟩ := Option.map_eq_some_iff.1 hact
  simp only [told, answers, hturnOf, hturn, Option.getD_some]
  exact toClient_of_turn hturn

omit [StateMachine σ] in
theorem answers_of_loop {s : Server σ} {o : Outcome σ}
    (h : o.Ensures s.Goes s.Announces) : o.answers = [] := by
  rw [List.eq_nil_iff_forall_not_mem]
  rintro ⟨id, response⟩ hmem
  obtain ⟨snap, hmem⟩ := Outcome.mem_answers_iff.1 hmem
  obtain ⟨-, hann⟩ := h.sends hmem
  cases hann

theorem answers_of_recieveRpc {s : Server σ} {order : List NodeId} {incoming : Incoming}
    {id : ClientId} {response : ClientResponse}
    (hmem : (id, response) ∈ (s.recieveRpc order incoming).answers) :
    (s.recieveRpc order incoming).answers = [(id, response)] := by
  unfold Outcome.answers Outcome.sent at hmem ⊢
  rw [List.filterMap_filterMap] at hmem ⊢
  refine filterMap_of_last (fun j ef y hj hef => ?_) hmem
  obtain ⟨out, hsent, hanswer⟩ := Option.bind_eq_some_iff.1 hef
  split at hsent
  · cases hsent
    split at hanswer
    · exact (recieveRpc_answers (List.mem_of_getElem? hj)).2.1 hj
    · cases hanswer
  · cases hsent

/-- What a turn answers, it answers for an entry of the log, and leads afterwards with this entry at
its commit index.  It gives no other answer. -/
theorem answersFor_of_turn {s : Server σ} {ev : Select} {phases : List (Phase σ)} {id : ClientId}
    {response : ClientResponse} (hturn : s.turn ev = some phases)
    (hmem : (id, response) ∈ phases.flatMap fun p => p.outcome.answers) :
    ∃ entry s', s.AnswersFor id response entry s' ∧
      (s :: Server.passed phases).getLast? = some s' ∧
      (phases.flatMap fun p => p.outcome.answers) = [(id, response)] := by
  obtain ⟨p, hp, hmem⟩ := List.mem_flatMap.1 hmem
  have hphases := turnIs_of_turn hturn
  generalize ev.incoming = incoming at hphases
  cases hphases with
  | timer =>
    rw [List.mem_singleton] at hp
    subst hp
    rw [answers_of_loop (afterTimer_ensures rfl rfl)] at hmem
    cases hmem
  | @stuck incoming order hpan =>
    rw [List.mem_singleton] at hp
    subst hp
    obtain ⟨snap, hmem⟩ := Outcome.mem_answers_iff.1 hmem
    rw [(recieveRpc_answers hmem).1] at hpan
    cases hpan
  | @handled incoming order hpan =>
    have hrole : s.state.isCandidate = false →
        (s.recieveRpc order incoming).server.state.isCandidate = false := by
      obtain ⟨log, hens⟩ := s.recieveRpc_ensures order incoming
      exact (hens.server hpan).1.isCandidate
    rcases List.mem_pair.1 hp with rfl | rfl
    · obtain ⟨snap, hsend⟩ := Outcome.mem_answers_iff.1 hmem
      obtain ⟨-, -, entry, hans⟩ := recieveRpc_answers hsend
      refine ⟨entry, _, hans, ?_, ?_⟩
      · -- a leader that still leads goes back to its `select!`
        obtain ⟨mi, ni, hst⟩ := RaftState.isLeader_iff.1 hans.leader
        have hloop : (s.recieveRpc order incoming).server.afterRpc s.state =
            .done (s.recieveRpc order incoming).server := by
          simp only [afterRpc, hst, hans.leads, ↓reduceIte]
        rw [hloop, passed_cons _ hpan, passed_cons _ rfl]
        rfl
      · rw [List.flatMap_cons, List.flatMap_singleton, answers_of_recieveRpc hmem,
          answers_of_loop (afterRpc_ensures hrole), List.append_nil]
    · rw [answers_of_loop (afterRpc_ensures hrole)] at hmem
      cases hmem
  | @dropped incoming order k o _ ho =>
    obtain ⟨-, hrole, -⟩ := cut_recieveRpc ho
    rcases List.mem_pair.1 hp with rfl | rfl
    · -- the answer is the last effect, and what is dropped at a send has not come to it
      obtain ⟨snap, hmem⟩ := Outcome.mem_answers_iff.1 hmem
      obtain ⟨out, snap', hget, rfl⟩ := Outcome.cut_eq_some_iff.1 ho
      obtain ⟨j, hj⟩ := List.mem_iff_getElem?.1 hmem
      dsimp only at hj
      have hjk := (List.getElem?_eq_some_iff.1 hj).1
      rw [List.length_take] at hjk
      rw [List.getElem?_take_of_lt (by omega)] at hj
      have hlast := (recieveRpc_answers (List.mem_of_getElem? hj)).2.1 hj
      have hlt := (List.getElem?_eq_some_iff.1 hget).1
      omega
    · rw [answers_of_loop (afterTimer_ensures hrole.1 hrole.2)] at hmem
      cases hmem

theorem answersFor_of_next (hn : next ids c a = some c') {id : ClientId} {response : ClientResponse}
    (hans : (id, response) ∈ c.answers a) : c.answers a = [(id, response)] ∧
      ∃ i entry, c.actor a = some i ∧ i ∈ ids ∧ c.crashed i = false ∧
        (c.nodes i).AnswersFor id response entry (c'.nodes i) := by
  obtain ⟨ds, i, ev, hturnOf, hactor, hact⟩ := act_of_next hn
  simp only [answers, hturnOf] at hans ⊢
  simp only [act] at hact
  split_ifs at hact with hrun
  obtain ⟨phases, hturn, rfl⟩ := Option.map_eq_some_iff.1 hact
  rw [hturn, Option.getD_some] at hans ⊢
  obtain ⟨entry, s', hfor, hlast, honly⟩ := answersFor_of_turn hturn hans
  have hnode : (c.nodes i :: Server.passed phases).getLast? =
      some ((phases.foldl (perform ids i) { c with delivered := ds }).nodes i) :=
    getLast?_foldl_perform { c with delivered := ds } i phases
  rw [hlast, Option.some.injEq] at hnode
  rw [hnode] at hfor
  exact ⟨honly, i, entry, hactor, hrun.1, hrun.2, hfor⟩

/-- What is answered in a step after a run with short logs is answered for a minted entry, at the
commit index of the node that answers. -/
theorem mintedIn_of_answer (h : (machine σ ids).Run (Short ids) (init ids stateMachine) ls c)
    (hshort : Short ids c a) (hn : next ids c a = some c') {id : ClientId}
    {response : ClientResponse} (hans : (id, response) ∈ c.answers a) :
    ∃ i entry, c.actor a = some i ∧ MintedIn ids stateMachine ls entry ∧
      (c.nodes i).AnswersFor id response entry (c'.nodes i) ∧
      response = .setSuccess entry.requestId ∧ (c'.nodes i).commitIndex = entry.index := by
  obtain ⟨-, i, entry, hactor, hi, -, hfor⟩ := answersFor_of_next hn hans
  have hv := visited_occurs h
  have hminted := (preserved_minted.visited hv).1 i entry (List.mem_of_getElem? hfor.holds)
  have hlog := (hv.sound (fun _ _ hg => hg.1) i).log
  have hlen := hshort i hi
  -- the entry is where its index says
  have hlt := (List.getElem?_eq_some_iff.1 hfor.holds).1
  have hindex : entry.index = asUsize (c'.nodes i).commitIndex :=
    hlog.index _ _ hfor.holds
  obtain ⟨hge, hbound⟩ := hfor.bounds
  have hpos : 0 ≤ (c'.nodes i).commitIndex := by
    by_contra hneg
    have := le_asUsize_of_neg (by omega) hge
    omega
  have hcommit : (c'.nodes i).commitIndex = entry.index := by
    rw [hindex, asUsize_toNat hpos (by omega)]
    omega
  have hresponse : response = .setSuccess entry.requestId := by
    obtain ⟨_, _, -, hmints⟩ := hminted
    obtain ⟨key, value, hcmd⟩ := hmints.isSet
    have hresponse := hfor.response
    generalize entry = entry' at hcmd hresponse
    obtain ⟨term, command, index, clientId, requestId⟩ := entry'
    cases hcmd
    cases hresponse
    rfl
  exact ⟨i, entry, hactor, hminted, hfor, hresponse, hcommit⟩

/-- **No success is made up.**  Whatever is sent to a client in a step after a run with short logs,
it is the `SetSuccess` for a `Set` that has been sent before under this client's id.  The node that
goes through the step leads, in the term of the entry appended for this `Set`, and has the entry at
its commit index. -/
theorem answers_minted (h : (machine σ ids).Run (Short ids) (init ids stateMachine) ls c)
    (hshort : Short ids c a) (hn : next ids c a = some c') {id : ClientId} {msg : Message}
    (htold : (id, msg) ∈ c.told a) :
    ∃ i entry, c.actor a = some i ∧ MintedIn ids stateMachine ls entry ∧ entry.clientId = id ∧
      msg = .clientResponse (.setSuccess entry.requestId) ∧ (c'.nodes i).state.isLeader = true ∧
      (c'.nodes i).currentTerm = entry.term ∧ (c'.nodes i).commitIndex = entry.index ∧
      (c'.nodes i).log[entry.index]? = some entry := by
  rw [told_of_next hn] at htold
  obtain ⟨⟨id, response⟩, hans, ⟨⟩⟩ := List.mem_map.1 htold
  obtain ⟨i, entry, hactor, hminted, hfor, rfl, hcommit⟩ := mintedIn_of_answer h hshort hn hans
  refine ⟨i, entry, hactor, hminted, hfor.client, rfl, hfor.leads, ?_, hcommit, ?_⟩
  · rw [hfor.sameTerm, hfor.term]
  · have hlog := ((visited_occurs h).sound (fun _ _ hg => hg.1) i).log
    rw [hfor.log, hlog.index _ _ hfor.holds]
    exact hfor.holds

/-- Client 1 is answered when node 1 commits its `Set`. -/
theorem answers_minted_committed : ∃ c c' : Cluster SimpleStateMachine, ∃ i entry,
    (1, .clientResponse (.setSuccess 1)) ∈ c.told (.receive [1, 2, 3] 12) ∧
    c.actor (.receive [1, 2, 3] 12) = some i ∧
    MintedIn [1, 2, 3] (fun _ => SimpleStateMachine.new)
      [.timeout 1, .receive [1, 2, 3] 0, .receive [1, 2, 3] 1, .receive [1, 2, 3] 2,
        .receive [1, 2, 3] 3, .set [1, 2, 3] 1 "x" "1", .receive [1, 2, 3] 8] entry ∧
    (c'.nodes i).commitIndex = entry.index := by
  let ls : List Action := [.timeout 1, .receive [1, 2, 3] 0, .receive [1, 2, 3] 1,
    .receive [1, 2, 3] 2, .receive [1, 2, 3] 3, .set [1, 2, 3] 1 "x" "1", .receive [1, 2, 3] 8]
  have hrun : ((machine SimpleStateMachine [1, 2, 3]).exec (Short [1, 2, 3])
      (init [1, 2, 3] fun _ => .new) ls).any
      (fun c => decide (Short [1, 2, 3] c (.receive [1, 2, 3] 12) ∧
        (1, .clientResponse (.setSuccess 1)) ∈ c.told (.receive [1, 2, 3] 12) ∧
        (next [1, 2, 3] c (.receive [1, 2, 3] 12)).isSome = true)) = true := by
    decide
  obtain ⟨c, hc, hshort, htold, hsome⟩ := Machine.exists_run_of_exec hrun
  obtain ⟨c', hc'⟩ := Option.isSome_iff_exists.1 hsome
  obtain ⟨i, entry, hactor, hminted, -, -, -, -, hcommit, -⟩ := answers_minted hc hshort hc' htold
  exact ⟨c, c', i, entry, htold, hactor, hminted, hcommit⟩

end Cluster

end MiniRaft
