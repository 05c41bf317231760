import MiniRaft.Cluster.Canvass
import Mathlib.Data.Finset.Card
import Mathlib.Data.Finset.Dedup

/-!
# The tally of votes

A candidate counts the granting replies it handles, and starts at zero; the votes it should count
are those of the nodes that have voted for it in its term, itself included.  It has no means to
leave out a repetition or a vote of an earlier term, and without one it is a vote behind.

* `Cluster.Visited.tally_iff` : the steps that keep the tally.
* `Cluster.vote_tally_iff` : the runs in which a node leads just if a majority has voted for it and
  no reply counts but the votes of new voters.
-/

namespace MiniRaft

variable {σ : Type}

/-- The counter of a candidate. -/
def RaftState.votes : RaftState → Option ℕ
  | candidate votesReceived => some votesReceived
  | _ => none

theorem RaftState.votes_eq_some {r : RaftState} {votes : ℕ} :
    r.votes = some votes ↔ r = .candidate votes := by
  cases r <;> simp [RaftState.votes]

namespace Server

/-- The server keeps its term, its role and its counter, or gets to a higher term without leading
it and without a vote counted. -/
def Quiet (s s' : Server σ) : Prop :=
  s'.currentTerm = s.currentTerm ∧ s'.state.isLeader = s.state.isLeader ∧
      s'.state.votes = s.state.votes ∨
    s.currentTerm < s'.currentTerm ∧ s'.state.isLeader = false ∧ ∀ votes ∈ s'.state.votes, votes = 0

theorem Quiet.refl (s : Server σ) : s.Quiet s := .inl ⟨rfl, rfl, rfl⟩

theorem Quiet.trans {s s' s'' : Server σ} (h : s.Quiet s') (h' : s'.Quiet s'') : s.Quiet s'' := by
  rcases h with ⟨hterm, hl, hc⟩ | ⟨hlt, hl, hc⟩
  · rcases h' with ⟨hterm', hl', hc'⟩ | ⟨hlt', hl', hc'⟩
    · exact .inl ⟨hterm'.trans hterm, hl'.trans hl, hc'.trans hc⟩
    · exact .inr ⟨by omega, hl', hc'⟩
  · rcases h' with ⟨hterm', hl', hc'⟩ | ⟨hlt', hl', hc'⟩
    · exact .inr ⟨by omega, hl'.trans hl, hc' ▸ hc⟩
    · exact .inr ⟨by omega, hl', hc'⟩

theorem Goes.quiet {s s' : Server σ} (h : s.Goes s') : s.Quiet s' := by
  cases h with
  | keep => exact .refl s
  | apply => exact .inl ⟨rfl, rfl, rfl⟩
  | stand => exact .inr ⟨Nat.lt_succ_self _, rfl, fun votes hv => (Option.some.inj hv).symm⟩
  | lead _ _ _ _ hl =>
    obtain ⟨mi, ni, hst⟩ := RaftState.isLeader_iff.1 hl
    exact .inl ⟨rfl, hl.symm, by rw [hst]; rfl⟩

theorem Goes.stays {s s' : Server σ} (h : s.Goes s') (hs : s.state ≠ .follower) :
    s'.currentTerm = s.currentTerm ∧ s'.state.isLeader = s.state.isLeader ∧
      s'.state.votes = s.state.votes := by
  cases h with
  | keep => exact ⟨rfl, rfl, rfl⟩
  | apply => exact ⟨rfl, rfl, rfl⟩
  | stand hst => exact absurd hst hs
  | lead _ _ _ _ hl =>
    obtain ⟨mi, ni, hst⟩ := RaftState.isLeader_iff.1 hl
    exact ⟨rfl, hl.symm, by rw [hst]; rfl⟩

theorem Handles.quiet {s s' : Server σ} {incoming : Incoming} (h : s.Handles incoming s')
    (hno : ∀ msg, incoming.msg = .requestVoteResponse msg → msg.voteGranted = true →
      s.state.isCandidate = false) : s.Quiet s' := by
  have hcounts : ∀ {msg votes}, incoming.msg = .requestVoteResponse msg → msg.voteGranted = true →
      s.state ≠ .candidate votes := by
    intro msg votes hin hok hst
    have hc := hno msg hin hok
    rw [hst] at hc
    cases hc
  cases h with
  | keep => exact .refl s
  | stepDown T _ hlt => exact .inr ⟨hlt, rfl, fun votes hv => by cases hv⟩
  | accept _ _ _ _ _ hacc =>
    obtain ⟨hle, -, hfollows | hterm⟩ := hacc
    · rcases Nat.eq_or_lt_of_le hle with heq | hlt
      · exact .inl ⟨heq.symm, rfl, rfl⟩
      · refine .inr ⟨hlt, ?_, fun votes hv => ?_⟩
        · show s.state.isLeader = false
          rw [hfollows]
          rfl
        · have hv : s.state.votes = some votes := hv
          rw [hfollows] at hv
          cases hv
    · exact .inl ⟨hterm, rfl, rfl⟩
  | vote hin hok _ hst => exact absurd hst (hcounts hin hok)
  | win hin hok _ hst => exact absurd hst (hcounts hin hok)
  | push => exact .inl ⟨rfl, rfl, rfl⟩
  | response _ _ _ hcredit =>
    obtain ⟨mi, ni, hst⟩ := RaftState.isLeader_iff.1 hcredit.isLeader
    exact .inl ⟨rfl, hcredit.isLeader.symm, by rw [hst]; rfl⟩

variable [StateMachine σ]

theorem reply_turn {s s' : Server σ} {ev : Select} {phases : List (Phase σ)} {sender : Id}
    {msg : RequestVoteResponse} (hin : ev.incoming = some ⟨sender, .requestVoteResponse msg⟩)
    (h : s.turn ev = some phases) (hend : (s :: passed phases).getLast? = some s') :
    (s.handleRequestVoteResponseRpc msg).Goes s' := by
  obtain ⟨order, o, ⟨-, rfl⟩ | ⟨k, -, hk⟩, hphases⟩ := turn_handler hin h
  · rcases hphases with ⟨hp, -⟩ | ⟨hp, o', hloop, rfl⟩
    · cases hp
    · exact goes_of_getLast? hp hloop hend
  · -- there is no send at which the handler could be dropped
    cases hk

omit [StateMachine σ] in
theorem counted_turn {s s' : Server σ} {msg : RequestVoteResponse} {votes : ℕ}
    (hgoes : (s.handleRequestVoteResponseRpc msg).Goes s') (hst : s.state = .candidate votes)
    (hok : msg.voteGranted = true) (hle : msg.term ≤ s.currentTerm) :
    s'.currentTerm = s.currentTerm ∧
      (s.config.totalNodes / 2 + 1 ≤ votes + 1 ∧ s'.state.isLeader = true ∨
        votes + 1 < s.config.totalNodes / 2 + 1 ∧ s'.state = .candidate (votes + 1)) := by
  have hno : ¬ msg.term > s.currentTerm := Nat.not_lt.2 hle
  by_cases hmaj : s.config.totalNodes / 2 + 1 ≤ votes + 1
  · have hh : s.handleRequestVoteResponseRpc msg =
        { s with state := .candidate (votes + 1) }.becomeLeader := by
      simp [handleRequestVoteResponseRpc, hst, hno, hok, hmaj]
    rw [hh] at hgoes
    obtain ⟨hterm, hl, -⟩ := hgoes.stays (by simp [becomeLeader])
    exact ⟨hterm, .inl ⟨hmaj, hl⟩⟩
  · have hh : s.handleRequestVoteResponseRpc msg = { s with state := .candidate (votes + 1) } := by
      simp [handleRequestVoteResponseRpc, hst, hno, hok, hmaj]
    rw [hh] at hgoes
    obtain ⟨hterm, -, hvotes⟩ := hgoes.stays (by simp)
    exact ⟨hterm, .inr ⟨Nat.lt_of_not_le hmaj, RaftState.votes_eq_some.1 hvotes⟩⟩

omit [StateMachine σ] in
theorem outdated_turn {s s' : Server σ} {msg : RequestVoteResponse}
    (hgoes : (s.handleRequestVoteResponseRpc msg).Goes s') (hc : s.state.isCandidate = true)
    (hlt : s.currentTerm < msg.term) :
    s.currentTerm < s'.currentTerm ∧ s'.state.isLeader = false ∧
      ∀ votes ∈ s'.state.votes, votes = 0 := by
  obtain ⟨votes, hst⟩ := RaftState.isCandidate_iff.1 hc
  have hh : s.handleRequestVoteResponseRpc msg = s.becomeFollower msg.term := by
    simp [handleRequestVoteResponseRpc, hst, hlt, becomeFollowerIfHigherTerm]
  rw [hh] at hgoes
  rcases hgoes.quiet with ⟨hterm, hl, hvotes⟩ | ⟨hlt', hl, hvotes⟩
  · exact ⟨hterm ▸ hlt, hl, fun votes hv => by rw [hvotes] at hv; cases hv⟩
  · exact ⟨Nat.lt_trans hlt hlt', hl, hvotes⟩

end Server

namespace Cluster

open Server

/-- The voter, if the `k`-th envelope is a vote for the node `q` in the term `T`. -/
def voteAt (c : Cluster σ) (q : NodeId) (T : ℕ) (k : ℕ) : Option NodeId :=
  (c.sent[k]?).bind fun e =>
    if e.dst = q ∧ e.grantOf.map RequestVote.term = some T then some e.src else none

/-- The nodes whose votes in the term `T` have reached the node `q`, itself included. -/
def voters (c : Cluster σ) (q : NodeId) (T : ℕ) : Finset NodeId :=
  insert q (c.delivered.filterMap (c.voteAt q T)).toFinset

theorem voteAt_eq_some {c : Cluster σ} {q v : NodeId} {T k : ℕ} :
    c.voteAt q T k = some v ↔
      ∃ e, c.sent[k]? = some e ∧ e.src = v ∧ e.dst = q ∧
        e.grantOf.map RequestVote.term = some T := by
  unfold voteAt
  constructor
  · intro h
    obtain ⟨e, he, h⟩ := Option.bind_eq_some_iff.1 h
    split_ifs at h with hvote
    exact ⟨e, he, Option.some.inj h, hvote⟩
  · rintro ⟨e, he, rfl, hvote⟩
    rw [he, Option.bind_some, if_pos hvote]

theorem mem_voters {c : Cluster σ} {q v : NodeId} {T : ℕ} :
    v ∈ c.voters q T ↔ v = q ∨ Counted c q T v := by
  simp only [voters, Finset.mem_insert, List.mem_toFinset, List.mem_filterMap, voteAt_eq_some]
  rfl

/-- As far as the node `q` stands for election or leads, it leads just if a majority has voted for
it in its term. -/
def TallyAt (ids : List NodeId) (c : Cluster σ) (q : NodeId) : Prop :=
  (c.nodes q).state ≠ .follower →
    ((c.nodes q).state.isLeader = true ↔
      ids.length / 2 + 1 ≤ (c.voters q (c.nodes q).currentTerm).card)

/-- So does every node. -/
def Tally (ids : List NodeId) (c : Cluster σ) : Prop := ∀ q ∈ ids, TallyAt ids c q

instance (ids : List NodeId) (c : Cluster σ) : Decidable (Tally ids c) :=
  inferInstanceAs (Decidable (∀ q ∈ ids, _ → _))

/-- The envelope is the vote of a node for the term its receiver stands for, and the first of that
node to get there. -/
def NewVote (c : Cluster σ) (e : Envelope σ) : Prop :=
  e.grantOf.map RequestVote.term = some (c.nodes e.dst).currentTerm ∧
    e.src ∉ c.voters e.dst (c.nodes e.dst).currentTerm

instance (c : Cluster σ) (e : Envelope σ) : Decidable (NewVote c e) :=
  inferInstanceAs (Decidable (_ ∧ _))

/-- `P` holds of the granting reply that the step brings to a candidate whose term is not lower,
and of the counter of the candidate. -/
def OfReply (P : Envelope σ → ℕ → Prop) (c : Cluster σ) : Action → Prop
  | .deliver k _ _ => ∀ e ∈ c.sent[k]?, ∀ msg ∈ e.msg.asRequestVoteResponse,
      ∀ votes ∈ (c.nodes e.dst).state.votes, msg.voteGranted = true →
        msg.term ≤ (c.nodes e.dst).currentTerm → P e votes
  | _ => True

instance (P : Envelope σ → ℕ → Prop) [∀ e votes, Decidable (P e votes)] (c : Cluster σ) :
    (a : Action) → Decidable (OfReply P c a)
  | .deliver k _ _ => inferInstanceAs (Decidable (∀ e ∈ c.sent[k]?,
      ∀ msg ∈ e.msg.asRequestVoteResponse, ∀ votes ∈ (c.nodes e.dst).state.votes, _ → _ → _))
  | .request .. => inferInstanceAs (Decidable True)
  | .timeout _ => inferInstanceAs (Decidable True)

/-- Repetitions and votes of earlier terms never count: the candidate goes on with the same
counter. -/
def NoneTwice (c : Cluster σ) (a : Action) (c' : Cluster σ) : Prop :=
  OfReply (fun e votes => ¬ NewVote c e → (c'.nodes e.dst).state = .candidate votes) c a

/-- Every granting reply that reaches a candidate is the vote of a new voter of its term, and
leaves the voters, the candidate included, short of the majority. -/
def VotesShort (ids : List NodeId) (c : Cluster σ) : Action → Prop :=
  OfReply (fun e _ => NewVote c e ∧
    (c.voters e.dst (c.nodes e.dst).currentTerm).card + 1 < ids.length / 2 + 1) c

instance (ids : List NodeId) (c : Cluster σ) (a : Action) : Decidable (VotesShort ids c a) :=
  inferInstanceAs (Decidable (OfReply _ c a))

variable [StateMachine σ] {ids : List NodeId} {stateMachine : NodeId → σ}
  {G : Cluster σ → Action → Prop} {c c' : Cluster σ} {a : Action}

/-- After the step everybody leads just if a majority has voted for it, and the step has counted
no repetition and no vote of an earlier term. -/
def TallyKept (ids : List NodeId) (c : Cluster σ) (a : Action) : Prop :=
  ∀ c', next ids c a = some c' → Tally ids c' ∧ NoneTwice c a c'

omit [StateMachine σ] in
/-- The counter of the candidate `q` is one behind its voters: it leaves out its own vote. -/
def BehindAt (c : Cluster σ) (q : NodeId) : Prop :=
  ∀ votes, (c.nodes q).state = .candidate votes →
    (c.voters q (c.nodes q).currentTerm).card = votes + 1

/-! ### Deliveries -/

omit [StateMachine σ] in
theorem delivered_foldl_perform (c : Cluster σ) (i : NodeId) (phases : List (Phase σ)) :
    (phases.foldl (perform ids i) c).delivered = c.delivered := by
  induction phases generalizing c with
  | nil => rfl
  | cons p ps ih => rw [List.foldl_cons, ih, perform]

theorem delivered_of_next (h : next ids c a = some c') : c'.delivered = c.deliveries a := by
  have of_act : ∀ (ds : List ℕ) {i : NodeId} {ev : Select},
      act ids { c with delivered := ds } i ev = some c' → c'.delivered = ds := by
    intro ds i ev h
    simp only [act] at h
    split_ifs at h
    obtain ⟨phases, -, rfl⟩ := Option.map_eq_some_iff.1 h
    exact delivered_foldl_perform _ i phases
  cases a with
  | deliver k order cut =>
    simp only [next] at h
    split at h
    · cases h
    · exact of_act _ h
  | request => exact of_act c.delivered h
  | timeout => exact of_act c.delivered h

/-! ### The voters after a step -/

theorem Timely.lt_of_mem_deliveries (h : Timely c) (hn : next ids c a = some c') :
    ∀ k ∈ c.deliveries a, k < c.sent.length := by
  cases a with
  | deliver k order cut =>
    simp only [next] at hn
    split at hn
    · cases hn
    · rename_i he
      exact List.forall_mem_cons.2 ⟨(List.getElem?_eq_some_iff.1 he).1, h.delivered⟩
  | request => exact h.delivered
  | timeout => exact h.delivered

theorem Timely.voters_of_next (h : Timely c) (hn : next ids c a = some c') (q : NodeId) (T : ℕ) :
    c'.voters q T = insert q ((c.deliveries a).filterMap (c.voteAt q T)).toFinset := by
  have hvote : ∀ k ∈ c.deliveries a, c'.voteAt q T k = c.voteAt q T k := by
    intro k hk
    obtain ⟨new, hsent⟩ := (later_of_next hn).sent
    unfold voteAt
    rw [← hsent, List.getElem?_append_left (h.lt_of_mem_deliveries hn k hk)]
  rw [voters, delivered_of_next hn, List.filterMap_congr hvote]

theorem Timely.voters_eq (h : Timely c) (hn : next ids c a = some c') {q : NodeId} {T : ℕ}
    (hno : ∀ k order cut, a = .deliver k order cut → c.voteAt q T k = none) :
    c'.voters q T = c.voters q T := by
  rw [h.voters_of_next hn]
  cases a with
  | deliver k order cut => rw [deliveries, List.filterMap_cons_none (hno k order cut rfl), voters]
  | request => rfl
  | timeout => rfl

theorem Timely.voters_insert (h : Timely c) {k : ℕ} {order : List NodeId} {cut : Option ℕ}
    (hn : next ids c (.deliver k order cut) = some c') {q v : NodeId} {T : ℕ}
    (hv : c.voteAt q T k = some v) : c'.voters q T = insert v (c.voters q T) := by
  rw [h.voters_of_next hn, deliveries, List.filterMap_cons_some hv, List.toFinset_cons, voters,
    Finset.insert_comm]

omit [StateMachine σ] in
theorem voters_subset (hl : c.Later c') (q : NodeId) (T : ℕ) : c.voters q T ⊆ c'.voters q T := by
  intro v hv
  rw [mem_voters] at hv ⊢
  exact hv.imp_right fun h => h.later hl

theorem Timely.voters_of_lt (h : Timely c) (hn : next ids c a = some c') {q : NodeId} {T : ℕ}
    (hlt : (c.nodes q).currentTerm < T) : c'.voters q T = {q} := by
  have hnone : ∀ k, c.voteAt q T k = none := by
    intro k
    rw [Option.eq_none_iff_forall_ne_some]
    intro v hv
    obtain ⟨e, he, -, rfl, hgrant⟩ := voteAt_eq_some.1 hv
    obtain ⟨msg, hmsg, rfl⟩ := Option.map_eq_some_iff.1 hgrant
    have := h.votes e (List.mem_of_getElem? he) msg hmsg
    omega
  rw [h.voters_of_next hn, List.filterMap_eq_nil_iff.2 fun k _ => hnone k, List.toFinset_nil,
    insert_empty_eq]

/-! ### One step -/

/-- The envelope is a granting reply that a candidate is about to count. -/
structure Counting (c : Cluster σ) (e : Envelope σ) (msg : RequestVoteResponse) (votes : ℕ) :
    Prop where
  msg_eq : e.msg = .requestVoteResponse msg
  state : (c.nodes e.dst).state = .candidate votes
  granted : msg.voteGranted = true
  le : msg.term ≤ (c.nodes e.dst).currentTerm

/-- The step does not make the node `q` count a reply. -/
def Uncounted (c : Cluster σ) (a : Action) (q : NodeId) : Prop :=
  ∀ k order cut e msg votes, a = .deliver k order cut → c.sent[k]? = some e → e.dst = q →
    ¬ Counting c e msg votes

theorem Uncounted.rises {q : NodeId} (h : Uncounted c a q) (hn : next ids c a = some c') {k : ℕ}
    {order : List NodeId} {cut : Option ℕ} {e : Envelope σ} {msg : RequestVoteResponse}
    (ha : a = .deliver k order cut) (he : c.sent[k]? = some e) (hdst : e.dst = q)
    (hmsg : e.msg = .requestVoteResponse msg) (hok : msg.voteGranted = true)
    (hc : (c.nodes q).state.isCandidate = true) :
    (c.nodes q).currentTerm < (c'.nodes q).currentTerm ∧ (c'.nodes q).state.isLeader = false ∧
      ∀ votes ∈ (c'.nodes q).state.votes, votes = 0 := by
  subst ha hdst
  obtain ⟨votes, hst⟩ := RaftState.isCandidate_iff.1 hc
  obtain ⟨ev, phases, hin, hturn, hend⟩ := turn_of_deliver hn he
  rw [hmsg] at hin
  refine outdated_turn (reply_turn hin hturn hend) hc (Nat.lt_of_not_le fun hle => ?_)
  exact h k order cut e msg votes rfl he rfl ⟨hmsg, hst, hok, hle⟩

theorem Uncounted.quiet {q : NodeId} (h : Uncounted c a q) (hn : next ids c a = some c') :
    (c.nodes q).Quiet (c'.nodes q) := by
  by_cases hreply : ∃ k order cut e msg, a = .deliver k order cut ∧ c.sent[k]? = some e ∧
      e.dst = q ∧ e.msg = .requestVoteResponse msg ∧ msg.voteGranted = true ∧
      (c.nodes q).state.isCandidate = true
  · -- the handler steps down, and the loop after it may stand again but not lead
    obtain ⟨k, order, cut, e, msg, ha, he, hdst, hmsg, hok, hc⟩ := hreply
    exact .inr (h.rises hn ha he hdst hmsg hok hc)
  · refine rel_of_next (R := Server.Quiet) .refl (fun _ _ _ => .trans) (fun _ _ => Goes.quiet) hn q
      ?_
    rintro incoming log s - harr ⟨hs, -⟩
    refine hs.quiet fun msg hin hok => ?_
    obtain ⟨k, order, cut, e, ha, he, hdst, rfl⟩ :=
      harr.envelope fun req hreq => by simp [hin] at hreq
    rw [← Bool.not_eq_true]
    exact fun hc => hreply ⟨k, order, cut, e, msg, ha, he, hdst, hin, hok, hc⟩

theorem Uncounted.voteAt_eq_none {q : NodeId} (h : Uncounted c a q) (hn : next ids c a = some c')
    (hc : (c.nodes q).state.isCandidate = true)
    (hterm : (c'.nodes q).currentTerm = (c.nodes q).currentTerm) {k : ℕ} {order : List NodeId}
    {cut : Option ℕ} (ha : a = .deliver k order cut) :
    c.voteAt q (c.nodes q).currentTerm k = none := by
  rw [Option.eq_none_iff_forall_ne_some]
  intro v hv
  obtain ⟨e, he, -, hdst, hgrant⟩ := voteAt_eq_some.1 hv
  obtain ⟨req, hreq, -⟩ := Option.map_eq_some_iff.1 hgrant
  obtain ⟨T, hmsg⟩ := (Envelope.grantOf_eq_some.1 hreq).1
  exact Nat.ne_of_gt (h.rises hn ha he hdst hmsg rfl hc).1 hterm

theorem Uncounted.tallyAt {q : NodeId} (h : Uncounted c a q) (htimely : Timely c)
    (hids : 2 ≤ ids.length) (hn : next ids c a = some c') (ht : TallyAt ids c q) :
    TallyAt ids c' q := by
  intro hst
  rcases h.quiet hn with ⟨hterm, hl, hvotes⟩ | ⟨hlt, hl, -⟩
  · rw [hterm, hl]
    cases hs : (c.nodes q).state with
    | follower =>
      rw [hs] at hl hvotes
      cases hs' : (c'.nodes q).state with
      | follower => exact absurd hs' hst
      | candidate => simp [hs', RaftState.votes] at hvotes
      | leader => simp [hs'] at hl
    | candidate =>
      have hcand : (c.nodes q).state.isCandidate = true := by rw [hs]; rfl
      rw [← hs, htimely.voters_eq hn fun k order cut => h.voteAt_eq_none hn hcand hterm]
      exact ht (by simp [hs])
    | leader =>
      have hlead : (c.nodes q).state.isLeader = true := by rw [hs]; rfl
      refine iff_of_true rfl (((ht (by simp [hs])).1 hlead).trans (Finset.card_le_card ?_))
      exact voters_subset (later_of_next hn) q _
  · -- a new candidacy has its own vote only, which is no majority of several nodes
    rw [htimely.voters_of_lt hn hlt, Finset.card_singleton, hl]
    refine iff_of_false Bool.false_ne_true ?_
    omega

theorem Uncounted.behindAt {q : NodeId} (h : Uncounted c a q) (htimely : Timely c)
    (hn : next ids c a = some c') (hb : BehindAt c q) : BehindAt c' q := by
  intro votes hst
  rcases h.quiet hn with ⟨hterm, -, hvotes⟩ | ⟨hlt, -, hzero⟩
  · rw [hst] at hvotes
    have hst₀ : (c.nodes q).state = .candidate votes := RaftState.votes_eq_some.1 hvotes.symm
    have hcand : (c.nodes q).state.isCandidate = true := by rw [hst₀]; rfl
    rw [hterm, htimely.voters_eq hn fun k order cut => h.voteAt_eq_none hn hcand hterm]
    exact hb votes hst₀
  · rw [htimely.voters_of_lt hn hlt, Finset.card_singleton, hzero votes (by rw [hst]; rfl)]

/-- What a step makes of a candidate whose counter is behind its voters by its own vote, when it
counts a reply. -/
theorem Counting.counts {k : ℕ} {order : List NodeId} {cut : Option ℕ} {e : Envelope σ}
    {msg : RequestVoteResponse} {votes : ℕ} (h : Counting c e msg votes)
    (hv : Visited ids stateMachine G c) (hn : next ids c (.deliver k order cut) = some c')
    (he : c.sent[k]? = some e) (hb : BehindAt c e.dst) :
    (c'.nodes e.dst).currentTerm = (c.nodes e.dst).currentTerm ∧
      (ids.length / 2 + 1 ≤ (c.voters e.dst (c.nodes e.dst).currentTerm).card ∧
          (c'.nodes e.dst).state.isLeader = true ∨
        (c.voters e.dst (c.nodes e.dst).currentTerm).card < ids.length / 2 + 1 ∧
          (c'.nodes e.dst).state = .candidate (votes + 1)) := by
  obtain ⟨ev, phases, hin, hturn, hend⟩ := turn_of_deliver hn he
  rw [h.msg_eq] at hin
  have hcounted := counted_turn (reply_turn hin hturn hend) h.state h.granted h.le
  rw [hv.config_eq] at hcounted
  rwa [hb votes h.state]

theorem NewVote.voters_eq {k : ℕ} {order : List NodeId} {cut : Option ℕ} {e : Envelope σ}
    (h : NewVote c e) (htimely : Timely c) (hn : next ids c (.deliver k order cut) = some c')
    (he : c.sent[k]? = some e) :
    (c'.voters e.dst (c.nodes e.dst).currentTerm).card =
      (c.voters e.dst (c.nodes e.dst).currentTerm).card + 1 := by
  have hvote : c.voteAt e.dst (c.nodes e.dst).currentTerm k = some e.src :=
    voteAt_eq_some.2 ⟨e, he, rfl, rfl, h.1⟩
  rw [htimely.voters_insert hn hvote, Finset.card_insert_of_notMem h.2]

/-- A reply that is counted keeps the tally just if it is a new vote short of the majority. -/
theorem Counting.tallyAt_iff {k : ℕ} {order : List NodeId} {cut : Option ℕ} {e : Envelope σ}
    {msg : RequestVoteResponse} {votes : ℕ} (h : Counting c e msg votes)
    (hv : Visited ids stateMachine G c) (hn : next ids c (.deliver k order cut) = some c')
    (he : c.sent[k]? = some e) (ht : TallyAt ids c e.dst) (hb : BehindAt c e.dst) :
    TallyAt ids c' e.dst ∧ (¬ NewVote c e → (c'.nodes e.dst).state = .candidate votes) ↔
      NewVote c e ∧
        (c.voters e.dst (c.nodes e.dst).currentTerm).card + 1 < ids.length / 2 + 1 := by
  -- before the step the node is a candidate, and so its voters are short of a majority
  have hcard : (c.voters e.dst (c.nodes e.dst).currentTerm).card < ids.length / 2 + 1 := by
    refine Nat.lt_of_not_le fun hle => ?_
    have hl := (ht (by simp [h.state])).2 hle
    rw [h.state] at hl
    cases hl
  obtain ⟨hterm, ⟨hle, -⟩ | ⟨-, hst⟩⟩ := h.counts hv hn he hb
  · omega
  rw [hst]
  constructor
  · rintro ⟨ht', hold⟩
    have hnew : NewVote c e := by
      by_contra hno
      have heq := hold hno
      simp at heq
    refine ⟨hnew, Nat.lt_of_not_le fun hle => ?_⟩
    rw [← hnew.voters_eq hv.timely hn he, ← hterm] at hle
    have hl := (ht' (by simp [hst])).2 hle
    rw [hst] at hl
    cases hl
  · rintro ⟨hnew, hlt⟩
    refine ⟨fun _ => ?_, fun hno => absurd hnew hno⟩
    rw [hterm, hnew.voters_eq hv.timely hn he, hst]
    exact iff_of_false Bool.false_ne_true (Nat.not_le.2 hlt)

theorem Counting.behindAt {k : ℕ} {order : List NodeId} {cut : Option ℕ} {e : Envelope σ}
    {msg : RequestVoteResponse} {votes : ℕ} (h : Counting c e msg votes)
    (hv : Visited ids stateMachine G c) (hn : next ids c (.deliver k order cut) = some c')
    (he : c.sent[k]? = some e) (hb : BehindAt c e.dst) (hnew : NewVote c e) :
    BehindAt c' e.dst := by
  intro votes' hst'
  obtain ⟨hterm, ⟨-, hl⟩ | ⟨-, hst⟩⟩ := h.counts hv hn he hb
  · rw [hst'] at hl
    cases hl
  · rw [hst] at hst'
    cases hst'
    rw [hterm, hnew.voters_eq hv.timely hn he, hb votes h.state]

omit [StateMachine σ] in
theorem counting_or_uncounted (c : Cluster σ) (k : ℕ) (order : List NodeId) (cut : Option ℕ)
    (q : NodeId) :
    (∃ e msg votes, c.sent[k]? = some e ∧ e.dst = q ∧ Counting c e msg votes) ∨
      Uncounted c (.deliver k order cut) q := by
  by_cases hcount : ∃ e msg votes, c.sent[k]? = some e ∧ e.dst = q ∧ Counting c e msg votes
  · exact .inl hcount
  · refine .inr fun k' _ _ e msg votes ha he hdst h => hcount ?_
    cases ha
    exact ⟨e, msg, votes, he, hdst, h⟩

omit [StateMachine σ] in
theorem ofReply_deliver {P : Envelope σ → ℕ → Prop} {k : ℕ} {order : List NodeId}
    {cut : Option ℕ} : OfReply P c (.deliver k order cut) ↔
      ∀ e msg votes, c.sent[k]? = some e → Counting c e msg votes → P e votes := by
  constructor
  · intro h e msg votes he hcount
    exact h e he msg (by rw [hcount.msg_eq]; rfl) votes (RaftState.votes_eq_some.2 hcount.state)
      hcount.granted hcount.le
  · intro h e he msg hmsg votes hvotes hok hle
    exact h e msg votes he
      ⟨Message.eq_of_asRequestVoteResponse hmsg, RaftState.votes_eq_some.1 hvotes, hok, hle⟩

/-- **One step.** -/
theorem Visited.tally_iff (hids : 2 ≤ ids.length) (hv : Visited ids stateMachine G c)
    (ht : Tally ids c) (hb : ∀ q ∈ ids, BehindAt c q) (hn : next ids c a = some c') :
    Tally ids c' ∧ NoneTwice c a c' ↔ VotesShort ids c a := by
  cases a with
  | request =>
    refine iff_of_true ⟨fun q hq => ?_, trivial⟩ trivial
    exact Uncounted.tallyAt (fun _ _ _ _ _ _ ha => by cases ha) hv.timely hids hn (ht q hq)
  | timeout =>
    refine iff_of_true ⟨fun q hq => ?_, trivial⟩ trivial
    exact Uncounted.tallyAt (fun _ _ _ _ _ _ ha => by cases ha) hv.timely hids hn (ht q hq)
  | deliver k order cut =>
    rw [NoneTwice, VotesShort, ofReply_deliver, ofReply_deliver]
    have hmem : ∀ {e}, c.sent[k]? = some e → e.dst ∈ ids := fun he => (of_next_deliver hn he).1
    constructor
    · rintro ⟨ht', honce⟩ e msg votes he hcount
      exact (hcount.tallyAt_iff hv hn he (ht _ (hmem he)) (hb _ (hmem he))).1
        ⟨ht' _ (hmem he), honce e msg votes he hcount⟩
    · intro hshort
      have hkept : ∀ e msg votes, c.sent[k]? = some e → Counting c e msg votes →
          TallyAt ids c' e.dst ∧ (¬ NewVote c e → (c'.nodes e.dst).state = .candidate votes) := by
        intro e msg votes he hcount
        exact (hcount.tallyAt_iff hv hn he (ht _ (hmem he)) (hb _ (hmem he))).2
          (hshort e msg votes he hcount)
      refine ⟨fun q hq => ?_, fun e msg votes he hcount => (hkept e msg votes he hcount).2⟩
      rcases counting_or_uncounted c k order cut q with ⟨e, msg, votes, he, rfl, hcount⟩ | hno
      · exact (hkept e msg votes he hcount).1
      · exact hno.tallyAt hv.timely hids hn (ht q hq)

theorem Visited.behind_of_next (hv : Visited ids stateMachine G c) (hb : ∀ q ∈ ids, BehindAt c q)
    (hshort : VotesShort ids c a) (hn : next ids c a = some c') : ∀ q ∈ ids, BehindAt c' q := by
  intro q hq
  cases a with
  | request => exact Uncounted.behindAt (fun _ _ _ _ _ _ ha => by cases ha) hv.timely hn (hb q hq)
  | timeout => exact Uncounted.behindAt (fun _ _ _ _ _ _ ha => by cases ha) hv.timely hn (hb q hq)
  | deliver k order cut =>
    rcases counting_or_uncounted c k order cut q with ⟨e, msg, votes, he, rfl, hcount⟩ | hno
    · exact hcount.behindAt hv hn he (hb _ hq) (ofReply_deliver.1 hshort e msg votes he hcount).1
    · exact hno.behindAt hv.timely hn (hb q hq)

omit [StateMachine σ] in
theorem not_tally_alone (hids : ids.length < 2) {q : NodeId} (hq : q ∈ ids)
    (hc : (c.nodes q).state.isCandidate = true) : ¬ Tally ids c := by
  intro ht
  have hst : (c.nodes q).state ≠ .follower := fun hf => by simp [hf] at hc
  have hpos : 0 < (c.voters q (c.nodes q).currentTerm).card :=
    Finset.card_pos.2 ⟨q, Finset.mem_insert_self _ _⟩
  have hl := (ht q hq hst).2 (by omega)
  rw [isLeader_of_isCandidate hc] at hl
  cases hl

/-- **The tally of votes.**  In a cluster of several nodes, the runs in which a node that stands
for election turns leader exactly when a majority has voted for it in its term, itself included,
and in which no repetition and no vote of an earlier term ever counts, are those in which every
granting reply that reaches a candidate is the vote of a new voter of its term and leaves the
voters short of the majority.  A single node fails to lead as soon as it stands. -/
theorem vote_tally_iff {acts : List Action} :
    (2 ≤ ids.length →
      ((machine σ ids).Run (TallyKept ids) (init ids stateMachine) acts c ↔
        (machine σ ids).Run (VotesShort ids) (init ids stateMachine) acts c)) ∧
    (ids.length < 2 → ∀ c : Cluster σ, ∀ q ∈ ids, (c.nodes q).state.isCandidate = true →
      ¬ Tally ids c) := by
  refine ⟨fun hids => ?_, fun hids c q hq hc => not_tally_alone hids hq hc⟩
  refine Machine.Run.congr
    (I := fun c => Visited ids stateMachine (fun _ _ => True) c ∧ Tally ids c ∧
      ∀ q ∈ ids, BehindAt c q)
    ⟨.init, fun q _ hst => absurd rfl hst, fun q _ votes hst => by cases hst⟩ ?_ ?_
  · rintro c a c' ⟨hv, ht, hb⟩ hkept hn
    exact ⟨visited_of_next hv trivial hn, (hkept c' hn).1,
      hv.behind_of_next hb ((hv.tally_iff hids ht hb hn).1 (hkept c' hn)) hn⟩
  · rintro c a c' ⟨hv, ht, hb⟩ hn
    rw [← hv.tally_iff hids ht hb hn]
    -- a step has one outcome
    constructor
    · intro hkept
      exact hkept c' hn
    · intro ht' c₁ hn₁
      cases Option.some.inj (hn.symm.trans hn₁)
      exact ht'

/-- Of five nodes, node 1 stands for term 1 and counts the vote of node 2; node 3 stands against
it and counts the vote of node 4.  Both go on standing, with two voters each. -/
theorem vote_tally_split :
    ∃ (acts : List Action) (c : Cluster SimpleStateMachine),
      (machine SimpleStateMachine [1, 2, 3, 4, 5]).Run (TallyKept [1, 2, 3, 4, 5])
          (init [1, 2, 3, 4, 5] fun _ => .new) acts c ∧
        ((c.nodes 1).state = .candidate 1 ∧ c.voters 1 1 = {1, 2}) ∧
        (c.nodes 3).state = .candidate 1 ∧ c.voters 3 1 = {3, 4} := by
  have hrun : ((machine SimpleStateMachine [1, 2, 3, 4, 5]).exec (VotesShort [1, 2, 3, 4, 5])
      (init [1, 2, 3, 4, 5] fun _ => .new)
      [.timeout 1, .timeout 3, .receive [1, 2, 3, 4, 5] 0, .receive [1, 2, 3, 4, 5] 6,
        .receive [1, 2, 3, 4, 5] 8, .receive [1, 2, 3, 4, 5] 9]).any
      (fun c => decide (((c.nodes 1).state = .candidate 1 ∧ c.voters 1 1 = {1, 2}) ∧
        (c.nodes 3).state = .candidate 1 ∧ c.voters 3 1 = {3, 4})) = true := by
    decide
  obtain ⟨c, ⟨acts, hshort⟩, hsplit⟩ := Machine.exists_reach_of_exec hrun
  exact ⟨acts, c, (vote_tally_iff.1 (by decide)).2 hshort, hsplit⟩

/-- Of three nodes, node 1 has its own vote and that of node 2, and is still a candidate. -/
theorem majority_not_leading :
    ∃ c : Cluster SimpleStateMachine,
      (machine SimpleStateMachine [1, 2, 3]).Reach Orderly (init [1, 2, 3] fun _ => .new) c ∧
        ((c.nodes 1).state = .candidate 1 ∧ c.voters 1 (c.nodes 1).currentTerm = {1, 2}) ∧
        ¬ Tally [1, 2, 3] c := by
  have hrun : ((machine SimpleStateMachine [1, 2, 3]).exec Orderly (init [1, 2, 3] fun _ => .new)
      [.timeout 1, .receive [1, 2, 3] 0, .receive [1, 2, 3] 2]).any
      (fun c => decide (((c.nodes 1).state = .candidate 1 ∧
        c.voters 1 (c.nodes 1).currentTerm = {1, 2}) ∧ ¬ Tally [1, 2, 3] c)) = true := by
    decide
  exact Machine.exists_reach_of_exec hrun

end Cluster

end MiniRaft
