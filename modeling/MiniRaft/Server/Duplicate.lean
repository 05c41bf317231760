import MiniRaft.Server.FollowerCommit
import MiniRaft.Server.Turns

/-!
# Messages delivered twice

`handle_set_command` broadcasts an entry once for every peer, so each follower gets it several
times.  Whether the second copy passes the check of the previous entry depends on what the first has
made of the log: an empty log accepts whatever a message says.

* `Server.duplicate_delivery_iff` : which messages of a leader are accepted again.
-/

namespace MiniRaft

variable {σ : Type} [StateMachine σ]

namespace Server

open Consensus

/-- `leader` sends `msg`, as `handle_set_command`, the retry branch or `send_heartbeat` makes it;
it stands at `snap` then. -/
def Transmits (leader snap : Server σ) (msg : AppendEntries) : Prop :=
  ∃ dest, (∃ order incoming, .send ⟨dest, .appendEntries msg⟩ snap ∈
      (leader.recieveRpc order incoming).effects) ∨
    leader.state.isLeader = true ∧ .send ⟨dest, .appendEntries msg⟩ snap ∈
      leader.sendHeartbeat.effects

theorem Transmits.carries {leader snap : Server σ} {msg : AppendEntries}
    (h : leader.Transmits snap msg) (hlen : leader.log.length < 2 ^ 31) : snap.Carries msg := by
  obtain ⟨dest, ⟨order, incoming, hsend⟩ | ⟨hl, hsend⟩⟩ := h
  · obtain ⟨log, hens⟩ := leader.recieveRpc_ensures order incoming
    exact (hens.sends hsend).2.appendEntries.2.2.1 hlen
  · have hens : leader.sendHeartbeat.Ensures (fun _ => True) leader.Announces :=
      sendHeartbeat_ensures trivial hl rfl
    cases (hens.sends hsend).2 with
    | heartbeat _ _ hc => exact hc (Nat.le_of_lt hlen)

/-- After a first delivery the message is accepted once more: no `success = false`, and the log, the
term and the role stay as they are. -/
structure AcceptedAgain (s : Server σ) (nodeId : NodeId) (msg : AppendEntries) : Prop where
  accepts : s.Accepts msg
  completes : (s.handleAppendEntries (.peer nodeId) msg).panicked = false
  replies : ∀ out ∈ (s.handleAppendEntries (.peer nodeId) msg).sent, ∀ reply,
    out.msg = .appendEntriesResponse reply → reply.success = true
  log : (s.handleAppendEntries (.peer nodeId) msg).server.log = s.log
  term : (s.handleAppendEntries (.peer nodeId) msg).server.currentTerm = s.currentTerm
  role : (s.handleAppendEntries (.peer nodeId) msg).server.state = s.state

theorem takes_of_accepts {s : Server σ} {nodeId : NodeId} {msg : AppendEntries}
    (hacc : s.Accepts msg) (hp : (s.handleAppendEntries (.peer nodeId) msg).panicked = false) :
    s.Takes msg (s.handleAppendEntries (.peer nodeId) msg).server := by
  rw [handleAppendEntries_of_accepts nodeId hacc] at hp ⊢
  exact (acceptAppendEntries_takes hacc rfl).server hp

/-- A message that is accepted and whose entries are all there is taken without a change. -/
theorem acceptedAgain_of_accepts {s : Server σ} {nodeId : NodeId} {msg : AppendEntries}
    (hacc : s.Accepts msg) (hterm : msg.term = s.currentTerm)
    (hraised : (s.raisedCommit msg.leaderCommit).isSome = true)
    (hmerged : mergedLog s.log msg.entries = some s.log) : s.AcceptedAgain nodeId msg := by
  have hp : (s.handleAppendEntries (.peer nodeId) msg).panicked = false := by
    rw [handleAppendEntries_of_accepts nodeId hacc, acceptAppendEntries_panicked]
    show ((s.raisedCommit msg.leaderCommit).isNone || (mergedLog s.log msg.entries).isNone) = false
    rw [hmerged]
    simpa using hraised
  obtain ⟨sm, ci, la, log, hmerged', -, heq⟩ := takes_of_accepts hacc hp
  obtain rfl : s.log = log := Option.some.inj (hmerged.symm.trans hmerged')
  refine ⟨hacc, hp, fun out hout reply hreply => ?_, by rw [heq], by rw [heq]; exact hterm, by rw [heq]⟩
  obtain ⟨snap, hsend⟩ := Outcome.mem_sent_iff.1 hout
  rw [handleAppendEntries_of_accepts nodeId hacc] at hsend
  obtain ⟨-, rfl⟩ := send_mem_acceptAppendEntries hsend
  cases hreply
  rfl

omit [StateMachine σ] in
/-- The check of the previous entry after the entries of a leader's message have been merged: it
fails only for a message that names no previous entry. -/
theorem prevLogIndexMatching_merged {s s' snap : Server σ} {msg : AppendEntries}
    (hsnap : NumberedFrom 0 snap.log) (hc : snap.Carries msg)
    (hmatch : s.prevLogIndexMatching msg = true)
    (hmerged : mergedLog s.log msg.entries = some s'.log)
    (hprev : ¬ (msg.prevLogIndex = -1 ∧ msg.entries ≠ [])) : s'.prevLogIndexMatching msg = true := by
  have hsame : s'.log = s.log → s'.prevLogIndexMatching msg = true := by
    intro hlog
    rw [← hmatch, prevLogIndexMatching, prevLogIndexMatching, hlog]
  obtain ⟨a, -, hentries, -⟩ := hc.piece
  have hgraft : Grafted LogEntry.term s.log snap.log a s'.log :=
    grafted_of_mergedLog hsnap (hentries ▸ hmerged)
  rcases hc.prev with ⟨hneg, -⟩ | ⟨p, entry, hp, hentry, hterm⟩
  · have hnil : msg.entries = [] := by
      by_contra hne
      exact hprev ⟨hneg, hne⟩
    rw [hnil] at hmerged
    exact hsame (Option.some.inj hmerged).symm
  · have hpl := (List.getElem?_eq_some_iff.1 hentry).1
    have hlen := hc.length
    rw [prevLogIndexMatching_iff hp (by omega)] at hmatch ⊢
    generalize hlog : s'.log = log at hgraft hsame
    cases hgraft with
    | all => exact hmatch
    | @cut j _ hj hle =>
      -- the cut leaves the previous entry, or puts the leader's own in its place
      refine .inr ?_
      rw [getElem?_take_append_drop hle]
      split_ifs with hpj
      · rcases hmatch with hnil | hx
        · simp [hnil] at hle
          omega
        · exact hx
      · exact ⟨entry, hentry, hterm⟩

/-- The second delivery subtracts from the length of a log that did not panic in the first, or of
one as long as the leader's. -/
theorem raisedCommit_of_merged {s snap : Server σ} {nodeId : NodeId} {msg : AppendEntries}
    (hsnap : NumberedFrom 0 snap.log) (hc : snap.Carries msg) (hacc : s.Accepts msg)
    (hp : (s.handleAppendEntries (.peer nodeId) msg).panicked = false) :
    ((s.handleAppendEntries (.peer nodeId) msg).server.raisedCommit
      msg.leaderCommit).isSome = true := by
  obtain ⟨sm, ci, la, log, hmerged, -, heq⟩ := takes_of_accepts hacc hp
  have hci : (s.handleAppendEntries (.peer nodeId) msg).server.commitIndex =
      ((s.raisedCommit msg.leaderCommit).map (s.settledCommit msg)).getD s.commitIndex := by
    rw [handleAppendEntries_of_accepts nodeId hacc]
    exact acceptAppendEntries_commitIndex { s with currentTerm := msg.term } msg nodeId
  rw [handleAppendEntries_of_accepts nodeId hacc, acceptAppendEntries_panicked] at hp
  have hfirst : (s.raisedCommit msg.leaderCommit).isNone = false := (Bool.or_eq_false_iff.1 hp).1
  rw [heq] at hci ⊢
  have hci : ci = _ := hci
  unfold raisedCommit
  by_cases hgt : msg.leaderCommit > s.commitIndex
  · -- the subtraction was done in the first delivery too
    have hminus : s.lenMinusOne.isSome = true := by
      unfold raisedCommit at hfirst
      rw [if_pos hgt] at hfirst
      simpa using hfirst
    split_ifs
    · rw [Option.isSome_map]
      obtain ⟨a, -, hentries, -⟩ := hc.piece
      cases grafted_of_mergedLog hsnap (hentries ▸ hmerged) with
      | all => exact hminus
      | @cut j _ hj hle =>
        have hlen : (s.log.take j ++ snap.log.drop j).length < 2 ^ 31 := by
          have := hc.length
          rw [List.length_append, List.length_take, List.length_drop]
          omega
        rw [lenMinusOne_of_lt hlen]
        rfl
    · rfl
  · have hsettled : ci = s.commitIndex := by
      rw [hci, raisedCommit, if_neg hgt]
      show s.settledCommit msg s.commitIndex = s.commitIndex
      unfold settledCommit
      split
      · rw [if_neg hgt]
      · rfl
    rw [if_neg (hsettled ▸ hgt)]
    rfl

/-- **Duplicate delivery.**  A message that a leader has sent and a node has taken is accepted again,
without a change, just if it carries no entries or names a previous one. -/
theorem duplicate_delivery_iff {leader snap s : Server σ} {nodeId : NodeId} {msg : AppendEntries}
    (hsent : leader.Transmits snap msg) (hlen : leader.log.length < 2 ^ 31)
    (hsnap : NumberedFrom 0 snap.log) (hs : s.log.length < 2 ^ 63) (hacc : s.Accepts msg)
    (hp : (s.handleAppendEntries (.peer nodeId) msg).panicked = false) :
    (s.handleAppendEntries (.peer nodeId) msg).server.AcceptedAgain nodeId msg ↔
      ¬ (msg.prevLogIndex = -1 ∧ msg.entries ≠ []) := by
  have hc := hsent.carries hlen
  have hraised := raisedCommit_of_merged hsnap hc hacc hp
  obtain ⟨sm, ci, la, log, hmerged, -, heq⟩ := takes_of_accepts hacc hp
  obtain ⟨a, -, hentries, -⟩ := hc.piece
  have hnum : NumberedFrom a msg.entries := hentries ▸ hsnap.drop a
  rw [heq] at hraised ⊢
  constructor
  · rintro hagain ⟨hneg, hne⟩
    have hfirst := hacc.2.1
    have hsecond := hagain.accepts.2.1
    have hminus : asUsize msg.prevLogIndex = 2 ^ 64 - 1 := by
      rw [hneg]
      rfl
    -- `-1` names an entry of no log, so the first copy has found an empty one
    have hempty : ∀ l : List LogEntry, l.length < 2 ^ 63 → ∀ t : Server σ, t.log = l →
        t.prevLogIndexMatching msg = true → l = [] := by
      rintro l hl t rfl ht
      have hnone : t.log[asUsize msg.prevLogIndex]? = none := by
        rw [hminus]
        exact List.getElem?_eq_none (by omega)
      rw [prevLogIndexMatching, hnone] at ht
      simpa using ht
    have hnil : s.log = [] := hempty s.log hs s rfl hfirst
    have ha : a ≤ s.log.length := by
      by_contra hgap
      rw [mergedLog_eq_none hnum hne (Nat.not_le.1 hgap)] at hmerged
      cases hmerged
    rw [mergedLog_eq_graft hnum ha, hnil, List.take_nil, List.drop_nil, graft_nil_left,
      List.nil_append] at hmerged
    obtain rfl := Option.some.inj hmerged
    have hshort : msg.entries.length < 2 ^ 63 := by
      have := hc.length
      rw [hentries, List.length_drop]
      omega
    exact hne (hempty _ hshort _ rfl hsecond)
  · intro hprev
    refine acceptedAgain_of_accepts ⟨Nat.le_refl _, ?_, .inr rfl⟩ rfl hraised
      (mergedLog_idem hnum hmerged)
    exact prevLogIndexMatching_merged hsnap hc hacc.2.1 hmerged hprev

theorem duplicate_delivery_iff_second :
    let first : LogEntry := ⟨1, .set "x" "1", 0, 7, 1⟩
    let second : LogEntry := ⟨1, .set "x" "2", 1, 7, 2⟩
    let leader := { Server.new 1 ⟨3, [1, 2, 3]⟩ SimpleStateMachine.new with
      log := [first], state := .leader [-1, -1, 0, -1] [1, 1, 1, 1], currentTerm := 1
      lastSentIndex := [0, 0, 0, 0] }
    let s := { Server.new 2 ⟨3, [1, 2, 3]⟩ SimpleStateMachine.new with
      log := [first], currentTerm := 1 }
    let msg : AppendEntries := ⟨1, 1, 0, 1, [second], -1⟩
    ∃ snap, leader.Transmits snap msg ∧
      (s.handleAppendEntries (.peer 1) msg).server.log = [first, second] ∧
      (s.handleAppendEntries (.peer 1) msg).server.AcceptedAgain 1 msg := by
  intro first second leader s msg
  have hsent : leader.Transmits
      { leader with log := [first, second], lastSentIndex := [0, 0, 1, 0] } msg :=
    ⟨.broadcast, .inl ⟨[1, 2, 3], ⟨.client 7, .clientRequest ⟨.set "x" "2", 7, 2⟩⟩,
      List.mem_cons_self⟩⟩
  refine ⟨_, hsent, by decide, ?_⟩
  exact (duplicate_delivery_iff hsent (by decide) (by decide) (by decide) (by decide)
    (by decide)).2 (by decide)

/-- A new leader broadcasts the entry of its first command twice; a new node takes the first copy and
rejects the second. -/
theorem duplicate_rejected :
    let leader := { Server.new 1 ⟨3, [1, 2, 3]⟩ SimpleStateMachine.new with
      state := .leader [-1, -1, -1, -1] [0, 0, 0, 0], currentTerm := 1 }
    let s := Server.new 2 ⟨3, [1, 2, 3]⟩ SimpleStateMachine.new
    let msg : AppendEntries := ⟨1, 1, -1, 0, [⟨1, .set "x" "1", 0, 7, 1⟩], -1⟩
    let s' := (s.handleAppendEntries (.peer 1) msg).server
    (leader.handleClientRequest [1, 2, 3] ⟨.set "x" "1", 7, 1⟩).sent =
        [⟨.broadcast, .appendEntries msg⟩, ⟨.broadcast, .appendEntries msg⟩] ∧
      s.Accepts msg ∧ (s.handleAppendEntries (.peer 1) msg).panicked = false ∧
        s'.log = msg.entries ∧ (s'.handleAppendEntries (.peer 1) msg).sent =
          [⟨.node 1, .appendEntriesResponse ⟨1, false⟩⟩] ∧ ¬ s'.AcceptedAgain 1 msg := by
  intro leader s msg s'
  refine ⟨by decide, by decide, by decide, by decide, by decide, fun hagain => ?_⟩
  exact absurd hagain.accepts (by decide)

end Server

end MiniRaft
