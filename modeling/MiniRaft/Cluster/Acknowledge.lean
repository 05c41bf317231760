import MiniRaft.Cluster.Canvass
import MiniRaft.Cluster.LogMatching

/-!
# Acknowledgements

A success acknowledges the entries of the `AppendEntries` it answers, but names neither its term
nor an index; the leader credits the follower with `last_sent_index` instead.  Under the guard
`Faithful` it credits no more than what has been acknowledged, and no node acknowledges entries in
a term below one that it has voted in.  What a leader commits has then been acknowledged by a
quorum.
-/

namespace MiniRaft

open Consensus

variable {σ : Type}

/-- The term and the last index of the entries that a success answers. -/
def Envelope.ackOf (e : Envelope σ) : Option (ℕ × ℕ) :=
  match e.msg, e.cause with
  | .appendEntriesResponse ⟨_, true⟩, some (.appendEntries msg) =>
    msg.entries.getLast?.map fun last => (msg.term, last.index)
  | _, _ => none

theorem Envelope.ackOf_eq_some {e : Envelope σ} {t n : ℕ} :
    e.ackOf = some (t, n) ↔ (∃ T, e.msg = .appendEntriesResponse ⟨T, true⟩) ∧
      ∃ msg, e.cause = some (.appendEntries msg) ∧ msg.term = t ∧
        ∃ last, msg.entries.getLast? = some last ∧ last.index = n := by
  unfold ackOf
  split
  · rename_i T msg hmsg hcause
    rw [hmsg, hcause, Option.map_eq_some_iff]
    constructor
    · rintro ⟨last, hlast, heq⟩
      rw [Prod.mk.injEq] at heq
      exact ⟨⟨T, rfl⟩, msg, rfl, heq.1, last, hlast, heq.2⟩
    · rintro ⟨-, msg', heq, rfl, last, hlast, rfl⟩
      cases heq
      exact ⟨last, hlast, rfl⟩
  · rename_i hno
    constructor
    · intro h
      cases h
    · rintro ⟨⟨T, hmsg⟩, msg, hcause, -⟩
      exact absurd hcause (hno T msg hmsg)

namespace Cluster

open Server

/-- The node `i` has voted in no term above `T`. -/
def VotedUpTo (c : Cluster σ) (i : NodeId) (T : ℕ) : Prop :=
  ∀ e ∈ c.sent, e.src = i → ∀ msg ∈ e.grantOf, msg.term ≤ T

instance (c : Cluster σ) (i : NodeId) (T : ℕ) : Decidable (VotedUpTo c i T) :=
  inferInstanceAs (Decidable (∀ e ∈ c.sent, _ → ∀ msg ∈ e.grantOf, _))

/-- A node takes no entries, from a leader or from a client, in a term below one it has voted in. -/
def TermsKept (c : Cluster σ) : Action → Prop
  | .deliver k _ _ => ∀ e ∈ c.sent[k]?, ∀ msg ∈ e.msg.asAppendEntries, (c.nodes e.dst).Accepts msg →
      msg.entries ≠ [] → VotedUpTo c e.dst msg.term
  | .request node _ req _ _ => (c.nodes node).state.isLeader = true → req.command.isSet = true →
      VotedUpTo c node (c.nodes node).currentTerm
  | .timeout _ => True

/-- A leader credits a success for no more than the entries of its own term that it answers. -/
def CreditsSent (c : Cluster σ) : Action → Prop
  | .deliver k _ _ => ∀ e ∈ c.sent[k]?, ∀ msg ∈ e.msg.asAppendEntriesResponse,
      (c.nodes e.dst).state.isLeader = true → msg.success = true →
      msg.term ≤ (c.nodes e.dst).currentTerm →
      ∀ lastSent ∈ (c.nodes e.dst).lastSentIndex[e.src]?,
        ∃ ack ∈ e.ackOf, ack.1 = (c.nodes e.dst).currentTerm ∧ lastSent ≤ ack.2
  | _ => True

instance (c : Cluster σ) : (a : Action) → Decidable (TermsKept c a)
  | .deliver k _ _ => inferInstanceAs (Decidable (∀ e ∈ c.sent[k]?, ∀ msg ∈ e.msg.asAppendEntries,
      (c.nodes e.dst).Accepts msg → _ → VotedUpTo c e.dst msg.term))
  | .request node _ _ _ _ => inferInstanceAs (Decidable (_ → _ → VotedUpTo c node _))
  | .timeout _ => inferInstanceAs (Decidable True)

instance (c : Cluster σ) : (a : Action) → Decidable (CreditsSent c a)
  | .deliver k _ _ => inferInstanceAs (Decidable (∀ e ∈ c.sent[k]?,
      ∀ msg ∈ e.msg.asAppendEntriesResponse, _ → _ → _ →
      ∀ lastSent ∈ (c.nodes e.dst).lastSentIndex[e.src]?, ∃ ack ∈ e.ackOf, _ ∧ _))
  | .request .. => inferInstanceAs (Decidable True)
  | .timeout _ => inferInstanceAs (Decidable True)

/-- The guard of log matching, and votes, terms and credits as the proof of leader completeness
needs them. -/
def Faithful (ids : List NodeId) : Cluster σ → Action → Prop :=
  Machine.both (Linked ids) (Machine.both (VotesUpToDate σ) (Machine.both TermsKept CreditsSent))

instance (ids : List NodeId) : ∀ (c : Cluster σ) (a : Action), Decidable (Faithful ids c a) :=
  inferInstanceAs (∀ c a, Decidable (Machine.both _ (Machine.both _ (Machine.both _ _)) c a))

/-- The node `v` has acknowledged the index `k` to the leader of the term `t`; a leader acknowledges
what it commits. -/
def Acked (c : Cluster σ) (v : NodeId) (t k : ℕ) : Prop :=
  (∃ e ∈ c.sent, e.src = v ∧ ∃ n, e.ackOf = some (t, n) ∧ k ≤ n) ∨
    ∃ n log, .committed v t n log ∈ c.history ∧ (k : ℤ) ≤ n

variable [StateMachine σ] {ids : List NodeId} {stateMachine : NodeId → σ}
  {G : Cluster σ → Action → Prop} {c c' : Cluster σ} {i v : NodeId} {t k : ℕ}

omit [StateMachine σ] in
theorem Acked.later (h : Acked c v t k) (hl : c.Later c') : Acked c' v t k := by
  rcases h with ⟨e, he, h⟩ | ⟨n, log, hev, h⟩
  · exact .inl ⟨e, hl.sent.subset he, h⟩
  · exact .inr ⟨n, log, hl.history.subset hev, h⟩

omit [StateMachine σ] in
theorem Acked.of_le {k' : ℕ} (h : Acked c v t k) (hk : k' ≤ k) : Acked c v t k' := by
  rcases h with ⟨e, he, hsrc, n, hack, hn⟩ | ⟨n, log, hev, hn⟩
  · exact .inl ⟨e, he, hsrc, n, hack, Nat.le_trans hk hn⟩
  · exact .inr ⟨n, log, hev, by omega⟩

omit [StateMachine σ] in
theorem SentBy.acks {incoming : Incoming} {log : List LogEntry} {e : Envelope σ} {n : ℕ}
    (h : SentBy ids i (some incoming.msg) (fun out s => (c.nodes i).HandlesTo incoming log s ∧
      (c.nodes i).Emits incoming out s) e) (hack : e.ackOf = some (t, n)) :
    ∃ sender msg last, incoming = ⟨sender, .appendEntries msg⟩ ∧ (c.nodes i).Accepts msg ∧
      mergedLog (c.nodes i).log msg.entries = some e.snap.log ∧ e.snap.currentTerm = t ∧
      msg.term = t ∧ msg.entries.getLast? = some last ∧ last.index = n := by
  obtain ⟨⟨T, hmsg⟩, msg, hcause, rfl, last, hlast, rfl⟩ := Envelope.ackOf_eq_some.1 hack
  obtain ⟨dest, ⟨-, hemit⟩, -⟩ := h.out
  rw [hmsg] at hemit
  obtain ⟨nodeId, msg', -, rfl, hacc, -, hmerge, hterm⟩ := hemit.success rfl
  rw [h.cause, Option.some.injEq, Message.appendEntries.injEq] at hcause
  subst hcause
  exact ⟨_, msg', last, rfl, hacc, hmerge, hterm, rfl, hlast, rfl⟩

omit [StateMachine σ] in
theorem SentBy.loop_ackOf {e : Envelope σ}
    (h : SentBy ids i none (fun out s => (c.nodes i).Goes s ∧ (c.nodes i).Announces out s) e) :
    e.ackOf = none := by
  cases hack : e.ackOf with
  | none => rfl
  | some ack =>
    obtain ⟨-, msg, hcause, -⟩ := Envelope.ackOf_eq_some.1 hack
    rw [h.cause] at hcause
    cases hcause

/-- What is new among the acknowledgements after a handler of the node `i`. -/
inductive Fresh (c c' : Cluster σ) (i : NodeId) (incoming : Incoming) (t k : ℕ) : Prop
  | accept {sender : Id} {msg : AppendEntries} {last : LogEntry} :
      incoming = ⟨sender, .appendEntries msg⟩ → (c.nodes i).Accepts msg →
      mergedLog (c.nodes i).log msg.entries = some (c'.nodes i).log → msg.term = t →
      msg.entries.getLast? = some last → k ≤ last.index → Fresh c c' i incoming t k
  | commit : (c.nodes i).state.isLeader = true → (c'.nodes i).state.isLeader = true →
      (c.nodes i).commitIndex < (c'.nodes i).commitIndex → (k : ℤ) ≤ (c'.nodes i).commitIndex →
      Fresh c c' i incoming t k

omit [StateMachine σ] in
theorem HandlerPhase.acked {incoming : Incoming} {log : List LogEntry}
    (hphase : c.HandlerPhase ids i incoming log c') (h : Acked c' v t k) :
    Acked c v t k ∨ v = i ∧ c'.crashed i = false ∧ (c'.nodes i).currentTerm = t ∧
      Fresh c c' i incoming t k := by
  rcases h with ⟨e, he, rfl, n, hack, hk⟩ | ⟨n, log', hev, hk⟩
  · obtain ⟨⟨T, hmsg⟩, -⟩ := Envelope.ackOf_eq_some.1 hack
    rcases hphase.closes e he (by rw [hmsg]; rfl) with he' | ⟨hsrc, hc, hsnap⟩
    · exact .inl (.inl ⟨e, he', rfl, n, hack, hk⟩)
    · rcases hphase.sentBy he with he | he
      · exact .inl (.inl ⟨e, he, rfl, n, hack, hk⟩)
      · obtain ⟨sender, msg, last, hin, hacc, hmerge, hterm, hmt, hlast, rfl⟩ := he.acks hack
        rw [hsnap] at hmerge hterm
        exact .inr ⟨hsrc, hc, hterm, .accept hin hacc hmerge hmt hlast hk⟩
  · rcases hphase.event hev with hev | ⟨_, _, hev, -⟩ | ⟨hc, hev⟩
    · exact .inl (.inr ⟨n, log', hev, hk⟩)
    · cases hev
    · obtain ⟨rfl, rfl, rfl, -, hl, hl', hlt⟩ := mem_changeOf_committed.1 hev
      exact .inr ⟨rfl, hc, rfl, .commit hl hl' hlt hk⟩

omit [StateMachine σ] in
theorem LoopPhase.acked
    (hphase : c.LoopPhase ids i c') (h : Acked c' v t k) : Acked c v t k := by
  rcases h with ⟨e, he, rfl, n, hack, hk⟩ | ⟨n, log', hev, hk⟩
  · rcases hphase.sentBy he with he | he
    · exact .inl ⟨e, he, rfl, n, hack, hk⟩
    · rw [he.loop_ackOf] at hack
      cases hack
  · rcases hphase.event hev with hev | ⟨_, _, hev, -⟩ | ⟨hc, hev⟩
    · exact .inr ⟨n, log', hev, hk⟩
    · cases hev
    · obtain ⟨-, -, -, -, -, -, hlt⟩ := mem_changeOf_committed.1 hev
      have hs := hphase.ran hc
      rw [hs.commitIndex_eq] at hlt
      exact absurd hlt (Int.lt_irrefl _)

theorem Visited.acked_le (h : Visited ids stateMachine G c) (hack : Acked c v t k) :
    t ≤ (c.nodes v).currentTerm := by
  induction h generalizing v t k with
  | init =>
    rcases hack with ⟨e, he, -⟩ | ⟨n, log, hev, -⟩
    · simp [Cluster.init] at he
    · simp [Cluster.init] at hev
  | handler hv hg hs ih =>
    obtain ⟨i, incoming, log, harr, -, hphase⟩ := hs
    rcases hphase.acked hack with hack | ⟨rfl, -, rfl, -⟩
    · exact Nat.le_trans (ih hack) (hphase.currentTerm_le (fun s hs => hs.1.roleStep) v)
    · exact Nat.le_refl _
  | loop hv hs ih =>
    obtain ⟨i, -, hphase⟩ := hs
    exact Nat.le_trans (ih (hphase.acked hack))
      (hphase.currentTerm_le (fun s hs => hs.roleStep) v)

/-! ### What the guard says about a handled message -/

omit [StateMachine σ] in
theorem TermsKept.accept {a : Action} {sender : Id} {msg : AppendEntries} (h : TermsKept c a)
    (harr : c.Arrives a i ⟨sender, .appendEntries msg⟩) (hacc : (c.nodes i).Accepts msg)
    (hne : msg.entries ≠ []) : VotedUpTo c i msg.term := by
  obtain ⟨k, order, cut, e, rfl, he, rfl, heq⟩ := harr.envelope fun _ h => by cases h
  rw [Incoming.mk.injEq] at heq
  exact h e he msg (by rw [← heq.2]; rfl) hacc hne

theorem TermsKept.push {a : Action} {incoming : Incoming} {req : ClientRequest} {key value : String}
    (h : TermsKept c a) (hv : Visited ids stateMachine G c) (harr : c.Arrives a i incoming)
    (hin : incoming.msg = .clientRequest req) (hcmd : req.command = .set key value)
    (hl : (c.nodes i).state.isLeader = true) : VotedUpTo c i (c.nodes i).currentTerm := by
  cases harr with
  | deliver he =>
    exact absurd hin ((preserved_not_clientRequest.visited hv).2 _ (List.mem_of_getElem? he) req)
  | request =>
    cases hin
    exact h hl (by rw [hcmd]; rfl)

omit [StateMachine σ] in
theorem CreditsSent.apply {a : Action} {sender : Id} {peer : NodeId} {msg : AppendEntriesResponse}
    {lastSent : ℤ} (h : CreditsSent c a) (harr : c.Arrives a i ⟨sender, .appendEntriesResponse msg⟩)
    (hsender : sender = .peer peer) (hl : (c.nodes i).state.isLeader = true)
    (hok : msg.success = true) (hterm : msg.term ≤ (c.nodes i).currentTerm)
    (hlast : (c.nodes i).lastSentIndex[peer]? = some lastSent) :
    ∃ e ∈ c.sent, e.src = peer ∧ e.dst = i ∧
      ∃ n, e.ackOf = some ((c.nodes i).currentTerm, n) ∧ lastSent ≤ n := by
  subst hsender
  obtain ⟨k, order, cut, e, rfl, he, rfl, heq⟩ := harr.envelope fun _ h => by cases h
  rw [Incoming.mk.injEq, Id.peer.injEq] at heq
  obtain ⟨rfl, heq⟩ := heq
  obtain ⟨⟨t, n⟩, hack, ht, hn⟩ := h e he msg (by rw [← heq]; rfl) hl hok hterm lastSent hlast
  rw [Option.mem_def] at hack
  dsimp only at ht
  subst ht
  exact ⟨e, List.mem_of_getElem? he, rfl, rfl, n, hack, hn⟩

/-! ### Leaders -/

omit [StateMachine σ] in
theorem PhaseOf.votedUpTo {cause : Option Message} {P : Server σ → Prop}
    {Q : Outgoing → Server σ → Prop} {A : ℕ → LogCommand → Prop}
    (hphase : c.PhaseOf ids i cause P Q A c') {T : ℕ} (h : VotedUpTo c v T)
    (hgrant : v = i → ∀ e, SentBy ids i cause (fun out s => P s ∧ Q out s) e → e.grantOf = none) :
    VotedUpTo c' v T := by
  intro e he hsrc msg hmsg
  rcases hphase.sentBy he with he | he
  · exact h e he hsrc msg hmsg
  · rw [hgrant (hsrc.symm.trans he.src) e he] at hmsg
    cases hmsg

omit [StateMachine σ] in
theorem SentBy.grantOf_eq_none {incoming : Incoming} {log : List LogEntry} {e : Envelope σ}
    (h : SentBy ids i (some incoming.msg) (fun out s => (c.nodes i).HandlesTo incoming log s ∧
      (c.nodes i).Emits incoming out s) e) (hin : ∀ msg, incoming.msg ≠ .requestVote msg) :
    e.grantOf = none := by
  cases hmsg : e.grantOf with
  | none => rfl
  | some msg => exact absurd (h.grants hmsg).1 (hin msg)

theorem Visited.leader_grantOf (h : Visited ids stateMachine G c) {a : Action}
    {incoming : Incoming} {log : List LogEntry} {e : Envelope σ} (harr : c.Arrives a i incoming)
    (hl : (c.nodes i).state.isLeader = true)
    (he : SentBy ids i (some incoming.msg) (fun out s => (c.nodes i).HandlesTo incoming log s ∧
      (c.nodes i).Emits incoming out s) e) : e.grantOf = none := by
  cases hmsg : e.grantOf with
  | none => rfl
  | some msg =>
    obtain ⟨hin, hg, -⟩ := he.grants hmsg
    obtain ⟨k, order, cut, e', rfl, he', rfl, rfl⟩ := harr.envelope fun req hreq => by
      simp [hin] at hreq
    rw [h.follower_of_grants (List.mem_of_getElem? he') hin hg] at hl
    cases hl

theorem Visited.term_ne_of_wins (hG : ∀ (c : Cluster σ) a, G c a → Faithful ids c a)
    (hv : Visited ids stateMachine G c) (hv' : Visited ids stateMachine G c')
    (hlater : c.Later c') {incoming : Incoming} {log : List LogEntry}
    (hphase : c.HandlerPhase ids i incoming log c') (hc : c'.crashed i = false)
    (hcand : (c.nodes i).state.isCandidate = true) (hl : (c'.nodes i).state.isLeader = true)
    {x : LogEntry} (hx : x ∈ (c'.nodes i).log) : x.term ≠ (c'.nodes i).currentTerm := by
  have hel : Elections ids c := hv.elections fun c a hg => (hG c a hg).1.2.1
  have hel' : Elections ids c' := hv'.elections fun c a hg => (hG c a hg).1.2.1
  obtain ⟨R, hR⟩ := hv.reigned fun c a hg => (hG c a hg).1
  obtain ⟨hs, -⟩ := hphase.ran hc
  have hcur : (c'.nodes i).currentTerm = (c.nodes i).currentTerm := (hs.roleStep.leader hl).1
  have hl₀ := isLeader_of_isCandidate hcand
  have hev := hphase.change hc (mem_changeOf_elected.2 ⟨rfl, rfl, rfl, hl₀, hl⟩)
  have hnone := hR.none_of_wins hel hel' hlater hcand (by rw [← hcur]; exact hev)
  have hlog : (c'.nodes i).log = (c.nodes i).log := by
    generalize c'.nodes i = s' at hs hl
    cases hs with
    | accept => simp [hl₀] at hl
    | push => simp [hl₀] at hl
    | keep | stepDown | vote | win | response => rfl
  rw [hlog] at hx
  intro hterm
  obtain ⟨k, hk⟩ := List.mem_iff_getElem?.1 hx
  obtain ⟨r, hr, -⟩ := hR.nodes i k x hk
  rw [hterm, hcur, hnone] at hr
  cases hr

/-- **A leader that has entries of its own term has voted in no higher term.** -/
theorem Visited.quiet (hG : ∀ (c : Cluster σ) a, G c a → Faithful ids c a)
    (h : Visited ids stateMachine G c) (hl : (c.nodes i).state.isLeader = true)
    (hc : c.crashed i = false) {x : LogEntry} (hx : x ∈ (c.nodes i).log)
    (hterm : x.term = (c.nodes i).currentTerm) : VotedUpTo c i (c.nodes i).currentTerm := by
  induction h with
  | init => cases hl
  | @handler c c' a hv hg hs ih =>
    have hlater := hs.later
    have hv' : Visited ids stateMachine G c' := hv.handler hg hs
    have hel : Elections ids c := hv.elections fun c a hg => (hG c a hg).1.2.1
    obtain ⟨j, incoming, log, harr, -, hphase⟩ := hs
    by_cases hij : i = j
    · subst hij
      obtain ⟨hs, -⟩ := hphase.ran hc
      obtain ⟨hcur, hrole⟩ := hs.roleStep.leader hl
      rcases hrole with hl₀ | hcand
      · -- it led before, and votes for nobody
        have quiet : VotedUpTo c i (c.nodes i).currentTerm →
            VotedUpTo c' i (c'.nodes i).currentTerm := by
          intro hup
          rw [hcur]
          exact hphase.votedUpTo hup fun _ e he => hv.leader_grantOf harr hl₀ he
        have same : (c'.nodes i).log = (c.nodes i).log →
            VotedUpTo c' i (c'.nodes i).currentTerm := fun hlog =>
          quiet (ih hl₀ hphase.alive (by rwa [← hlog]) (hterm.trans hcur))
        generalize c'.nodes i = s' at hs same quiet
        cases hs with
        | accept sm ci la log heq hacc =>
          subst heq
          obtain ⟨e, he, rfl, -, hmsg⟩ := harr.appendEntries
          rw [hel.not_isLeader_of_accepts hv he hmsg hacc] at hl₀
          cases hl₀
        | push key value ls hin hcmd _ =>
          exact quiet ((hG _ _ hg).2.2.1.push hv harr hin hcmd hl₀)
        | keep | stepDown | vote | win | response => exact same rfl
      · -- it wins, and its log has no entry of the new term
        exact absurd hterm (hv.term_ne_of_wins hG hv' hlater hphase hc hcand hl hx)
    · obtain ⟨hnode, hcrash⟩ := hphase.others i hij
      rw [hnode] at hl hx hterm ⊢
      rw [hcrash] at hc
      exact hphase.votedUpTo (ih hl hc hx hterm) fun h => absurd h hij
  | @loop c c' hv hs ih =>
    obtain ⟨j, -, hphase⟩ := hs
    by_cases hij : i = j
    · subst hij
      have hs := hphase.ran hc
      rw [hs.log_eq] at hx
      rw [(hs.roleStep.leader hl).1] at hterm ⊢
      exact hphase.votedUpTo (ih (hs.isLeader hl) hphase.alive hx hterm) fun _ e he =>
        he.loop_grantOf
    · obtain ⟨hnode, hcrash⟩ := hphase.others i hij
      rw [hnode] at hl hx hterm ⊢
      rw [hcrash] at hc
      exact hphase.votedUpTo (ih hl hc hx hterm) fun h => absurd h hij

theorem Visited.raised (hG : ∀ (c : Cluster σ) a, G c a → Faithful ids c a)
    (h : Visited ids stateMachine G c) {a : Action} {incoming : Incoming} {s : Server σ}
    (harr : c.Arrives a i incoming) (hs : (c.nodes i).Handles incoming s)
    (hl : (c.nodes i).state.isLeader = true) (hlt : (c.nodes i).commitIndex < s.commitIndex) :
    ∃ msg mi ni, incoming.msg = .appendEntriesResponse msg ∧ msg.term ≤ (c.nodes i).currentTerm ∧
      (c.nodes i).Credits incoming.sender msg mi ni ∧ (c.nodes i).Committable mi s.commitIndex ∧
      s.log = (c.nodes i).log ∧ s.currentTerm = (c.nodes i).currentTerm := by
  have hel : Elections ids c := h.elections fun c a hg => (hG c a hg).1.2.1
  cases hs with
  | accept sm ci la log heq hacc =>
    subst heq
    obtain ⟨e, he, rfl, -, hmsg⟩ := harr.appendEntries
    rw [hel.not_isLeader_of_accepts h he hmsg hacc] at hl
    cases hl
  | response sm hin hterm hcredit hraise =>
    cases hraise with
    | keep => exact absurd hlt (Int.lt_irrefl _)
    | commit hcommit => exact ⟨_, _, _, hin, hterm, hcredit, hcommit, rfl, rfl⟩
  | keep | stepDown | vote | win | push => exact absurd hlt (Int.lt_irrefl _)

/-- **What a node acknowledges, it acknowledges before it votes in a higher term.** -/
theorem Visited.fresh_votedUpTo (hG : ∀ (c : Cluster σ) a, G c a → Faithful ids c a)
    (h : Visited ids stateMachine G c) {a : Action} {incoming : Incoming} {log : List LogEntry}
    (hg : G c a) (harr : c.Arrives a i incoming)
    (hphase : c.HandlerPhase ids i incoming log c')
    (hc : c'.crashed i = false) (hterm : (c'.nodes i).currentTerm = t)
    (hf : Fresh c c' i incoming t k) : VotedUpTo c' i t := by
  cases hf with
  | @accept sender msg last heq hacc hmerge hmt hlast =>
    subst heq hmt
    have hne : msg.entries ≠ [] := fun hnil => by
      rw [hnil] at hlast
      cases hlast
    exact hphase.votedUpTo ((hG _ _ hg).2.2.1.accept harr hacc hne) fun _ e he =>
      he.grantOf_eq_none fun msg hmsg => by cases hmsg
  | commit hl _ hlt =>
    obtain ⟨hs, -⟩ := hphase.ran hc
    obtain ⟨msg, mi, ni, hin, -, -, hcommit, -, hcur⟩ := h.raised hG harr hs hl hlt
    obtain ⟨-, entry, hentry, heq⟩ := hcommit.entry ((hG _ _ hg).1.1 i hphase.mem)
    rw [← hterm, hcur]
    refine hphase.votedUpTo (h.quiet hG hl hphase.alive (List.mem_of_getElem? hentry) heq) ?_
    intro _ e he
    exact he.grantOf_eq_none fun msg' hmsg => by
      rw [hin] at hmsg
      cases hmsg

/-! ### Match indices -/

/-- The slots of a `match_index`: its owner's own is at most the commit index `ci`, and what any
other says has been acknowledged. -/
def Matches (ids : List NodeId) (c : Cluster σ) (i : NodeId) (T : ℕ) (ci : ℤ) (mi : List ℤ) : Prop :=
  ∀ (p : ℕ) (x : ℤ), mi[p]? = some x → 0 ≤ x →
    p = i ∧ x ≤ ci ∨ p ≠ i ∧ p ∈ ids ∧ Acked c p T x.toNat

section

variable {T : ℕ} {ci : ℤ} {mi : List ℤ}

omit [StateMachine σ] in
theorem Matches.later (h : Matches ids c i T ci mi) (hl : c.Later c') : Matches ids c' i T ci mi := by
  intro p x hx hpos
  rcases h p x hx hpos with hown | ⟨hne, hmem, hack⟩
  · exact .inl hown
  · exact .inr ⟨hne, hmem, hack.later hl⟩

omit [StateMachine σ] in
theorem Matches.replicate (n : ℕ) : Matches ids c i T ci (List.replicate n (-1)) := by
  intro p x hx hpos
  rw [List.eq_of_mem_replicate (List.mem_of_getElem? hx)] at hpos
  omega

omit [StateMachine σ] in
theorem Matches.commit {n : ℤ} {mi' : List ℤ} (h : Matches ids c i T ci mi) (hn : ci < n)
    (hmi : mi' = mi ∨ mi' = mi.set i n) : Matches ids c i T n mi' := by
  have raise : Matches ids c i T n mi := by
    intro p x hx hpos
    rcases h p x hx hpos with ⟨rfl, hle⟩ | hack
    · exact .inl ⟨rfl, by omega⟩
    · exact .inr hack
  rcases hmi with rfl | rfl
  · exact raise
  · intro p x hx hpos
    by_cases hp : p = i
    · subst hp
      have hmem := (List.getElem?_eq_some_iff.1 hx).1
      rw [List.length_set] at hmem
      rw [List.getElem?_set_self hmem, Option.some.injEq] at hx
      exact .inl ⟨rfl, Int.le_of_eq hx.symm⟩
    · rw [List.getElem?_set_ne (Ne.symm hp)] at hx
      exact raise p x hx hpos

omit [StateMachine σ] in
/-- **Who has acknowledged a new commit index.** -/
theorem Matches.atLeast {n : ℤ} (h : Matches ids c i T ci mi) (hpos : 0 ≤ n) (hn : ci < n) :
    AtLeast (matchCount mi n) fun p => p ≠ i ∧ p ∈ ids ∧ (∃ x ∈ mi[p]?, n ≤ x) ∧
      Acked c p T n.toNat := by
  refine (atLeast_countP (fun m => decide (n ≤ m)) mi).mono fun p hp => ?_
  obtain ⟨x, hx, hle⟩ := hp
  have hle := of_decide_eq_true hle
  rcases h p x hx (by omega) with ⟨-, hown⟩ | ⟨hne, hmem, hack⟩
  · omega
  · exact ⟨hne, hmem, ⟨x, hx, hle⟩, hack.of_le (by omega)⟩

theorem Visited.matches_credits (hG : ∀ (c : Cluster σ) a, G c a → Faithful ids c a)
    (h : Visited ids stateMachine G c) {a : Action} {incoming : Incoming}
    {msg : AppendEntriesResponse} {ni : List ℕ} (hg : G c a) (harr : c.Arrives a i incoming)
    (hin : incoming.msg = .appendEntriesResponse msg) (hterm : msg.term ≤ (c.nodes i).currentTerm)
    (hcredit : (c.nodes i).Credits incoming.sender msg mi ni)
    (hmatches : ∀ mi ni, (c.nodes i).state = .leader mi ni →
      Matches ids c i (c.nodes i).currentTerm (c.nodes i).commitIndex mi) :
    Matches ids c i (c.nodes i).currentTerm (c.nodes i).commitIndex mi := by
  have hl := hcredit.isLeader
  obtain ⟨sender, m⟩ := incoming
  dsimp only at hin hcredit
  subst hin
  cases hcredit with
  | @success mi ni peer lastSent hst hsender hok hlast =>
    obtain ⟨e, he, rfl, rfl, n, hack, hn⟩ :=
      (hG _ _ hg).2.2.2.apply harr hsender hl hok hterm hlast
    obtain ⟨hsrc, -, hne⟩ := h.ends he
    intro p x hx hpos
    by_cases hp : p = e.src
    · subst hp
      have hmem := (List.getElem?_eq_some_iff.1 hx).1
      rw [List.length_set] at hmem
      rw [List.getElem?_set_self hmem, Option.some.injEq] at hx
      subst hx
      exact .inr ⟨hne.symm, hsrc, .inl ⟨e, he, rfl, n, hack, by omega⟩⟩
    · rw [List.getElem?_set_ne (Ne.symm hp)] at hx
      exact hmatches _ _ hst p x hx hpos
  | failure hst => exact hmatches _ _ hst

end

/-- **The match index of a leader has been acknowledged.** -/
theorem Visited.matches (hG : ∀ (c : Cluster σ) a, G c a → Faithful ids c a)
    (h : Visited ids stateMachine G c) (hc : c.crashed i = false) {mi : List ℤ} {ni : List ℕ}
    (hst : (c.nodes i).state = .leader mi ni) :
    Matches ids c i (c.nodes i).currentTerm (c.nodes i).commitIndex mi := by
  induction h generalizing mi ni with
  | init => cases hst
  | @handler c c' a hv hg hs ih =>
    have hlater := hs.later
    have hel : Elections ids c := hv.elections fun c a hg => (hG c a hg).1.2.1
    obtain ⟨j, incoming, log, harr, -, hphase⟩ := hs
    by_cases hij : i = j
    · subst hij
      obtain ⟨hs, -⟩ := hphase.ran hc
      have ih : ∀ mi ni, (c.nodes i).state = .leader mi ni →
          Matches ids c i (c.nodes i).currentTerm (c.nodes i).commitIndex mi :=
        fun mi ni hst => ih hphase.alive hst
      have hid := hv.id_eq i
      generalize c'.nodes i = s' at hs hst
      cases hs with
      | keep => exact (ih _ _ hst).later hlater
      | stepDown => cases hst
      | accept sm ci la log heq hacc =>
        subst heq
        obtain ⟨e, he, rfl, -, hmsg⟩ := harr.appendEntries
        have hl := hel.not_isLeader_of_accepts hv he hmsg hacc
        have hst : (c.nodes e.dst).state = .leader mi ni := hst
        rw [hst] at hl
        cases hl
      | vote => cases hst
      | win =>
        cases hst
        exact .replicate _
      | push => exact (ih _ _ hst).later hlater
      | response sm hin hterm hcredit hraise =>
        cases hst
        have hmatches := hv.matches_credits hG hg harr hin hterm hcredit ih
        cases hraise with
        | keep => exact hmatches.later hlater
        | commit hcommit hmi =>
          rw [hid] at hmi
          exact (hmatches.commit hcommit.lt hmi).later hlater
    · obtain ⟨hnode, hcrash⟩ := hphase.others i hij
      rw [hnode] at hst ⊢
      rw [hcrash] at hc
      exact (ih hc hst).later hlater
  | @loop c c' hv hs ih =>
    have hlater := hs.later
    obtain ⟨j, -, hphase⟩ := hs
    by_cases hij : i = j
    · subst hij
      have hs := hphase.ran hc
      have ih : ∀ mi ni, (c.nodes i).state = .leader mi ni →
          Matches ids c i (c.nodes i).currentTerm (c.nodes i).commitIndex mi :=
        fun mi ni hst => ih hphase.alive hst
      generalize c'.nodes i = s' at hs hst
      cases hs with
      | keep => exact (ih _ _ hst).later hlater
      | apply => exact (ih _ _ hst).later hlater
      | stand => cases hst
      | lead =>
        cases hst
        exact .replicate _
    · obtain ⟨hnode, hcrash⟩ := hphase.others i hij
      rw [hnode] at hst ⊢
      rw [hcrash] at hc
      exact (ih hc hst).later hlater

theorem Visited.quorum (hG : ∀ (c : Cluster σ) a, G c a → Faithful ids c a)
    (h : Visited ids stateMachine G c) {a : Action} {incoming : Incoming}
    {msg : AppendEntriesResponse} {mi : List ℤ} {ni : List ℕ} {n : ℤ} {P : NodeId → Prop}
    (hg : G c a) (harr : c.Arrives a i incoming) (hi : i ∈ ids) (hc : c.crashed i = false)
    (hin : incoming.msg = .appendEntriesResponse msg) (hterm : msg.term ≤ (c.nodes i).currentTerm)
    (hcredit : (c.nodes i).Credits incoming.sender msg mi ni) (hcommit : (c.nodes i).Committable mi n)
    (hP : ∀ v, v ≠ i → (∃ x ∈ mi[v]?, n ≤ x) → Acked c v (c.nodes i).currentTerm n.toNat → P v)
    (hself : P i) : Quorum ids P := by
  obtain ⟨hpos, -⟩ := hcommit.entry ((hG _ _ hg).1.1 i hi)
  have hmatches := h.matches_credits hG hg harr hin hterm hcredit fun mi ni hst =>
    h.matches hG hc hst
  have hmaj := hcommit.majority
  have hne := hcommit.nodes
  rw [h.config_eq i] at hmaj hne
  dsimp only at hmaj hne
  -- a majority of the slots, and the leader itself
  refine ((hmatches.atLeast hpos hcommit.lt).of_le ?_).succ (v := i) (fun v hv => ?_)
    (fun h => h.1 rfl) ⟨hi, hself⟩
  · omega
  · exact ⟨hv.2.1, hP v hv.1 hv.2.2.1 hv.2.2.2⟩

/-- **A leader commits what a quorum has acknowledged**, and an entry of its own term. -/
theorem Visited.committed (hG : ∀ (c : Cluster σ) a, G c a → Faithful ids c a)
    (h : Visited ids stateMachine G c) {q : NodeId} {n : ℤ} {log : List LogEntry}
    (hev : .committed q t n log ∈ c.history) :
    0 ≤ n ∧ (∃ x, log[n.toNat]? = some x ∧ x.term = t) ∧ Quorum ids fun v => Acked c v t n.toNat := by
  induction h with
  | init => simp [Cluster.init] at hev
  | @handler c c' a hv hg hs ih =>
    have hlater := hs.later
    obtain ⟨i, incoming, log₀, harr, -, hphase⟩ := hs
    have old : .committed q t n log ∈ c.history → 0 ≤ n ∧
        (∃ x, log[n.toNat]? = some x ∧ x.term = t) ∧ Quorum ids fun v => Acked c' v t n.toNat := by
      intro hev
      obtain ⟨hn, hx, hquorum⟩ := ih hev
      exact ⟨hn, hx, hquorum.mono fun v _ hack => hack.later hlater⟩
    have hev' := hev
    rcases hphase.event hev with hev | ⟨_, _, hev, -⟩ | ⟨hc, hev⟩
    · exact old hev
    · cases hev
    · obtain ⟨rfl, rfl, rfl, rfl, hl, -, hlt⟩ := mem_changeOf_committed.1 hev
      obtain ⟨hs, -⟩ := hphase.ran hc
      obtain ⟨msg, mi, ni, hin, hterm, hcredit, hcommit, hlog, hcur⟩ := hv.raised hG harr hs hl hlt
      obtain ⟨hpos, entry, hentry, heq⟩ := hcommit.entry ((hG _ _ hg).1.1 q hphase.mem)
      refine ⟨hpos, ⟨entry, by rw [hlog]; exact hentry, by rw [hcur]; exact heq⟩, ?_⟩
      refine hv.quorum hG hg harr hphase.mem hphase.alive hin hterm hcredit hcommit
        (fun v _ _ hack => ?_) (.inr ⟨_, _, hev', by omega⟩)
      rw [hcur]
      exact hack.later hlater
  | @loop c c' hv hs ih =>
    have hlater := hs.later
    obtain ⟨i, -, hphase⟩ := hs
    rcases hphase.event hev with hev | ⟨_, _, hev, -⟩ | ⟨hc, hev⟩
    · obtain ⟨hn, hx, hquorum⟩ := ih hev
      exact ⟨hn, hx, hquorum.mono fun v _ hack => hack.later hlater⟩
    · cases hev
    · obtain ⟨-, -, -, -, -, -, hlt⟩ := mem_changeOf_committed.1 hev
      have hs := hphase.ran hc
      rw [hs.commitIndex_eq] at hlt
      exact absurd hlt (Int.lt_irrefl _)

end Cluster

end MiniRaft
