import MiniRaft.Server.Duplicate
import MiniRaft.Server.Panics
import MiniRaft.Server.SimpleStateMachine

/-!
# The repair of a follower's log

After each rejection the leader steps `next_index` back and sends its log from there.  The message
names the first of the entries it carries, so a retry is accepted where the two logs hold entries of
the same term, and index 0 is no exception: there is no retry that names no entry.

* `Server.repair_iff` : the logs that the exchange of rejections and retries repairs.
-/

namespace MiniRaft

variable {σ : Type}

namespace Server

open Consensus

/-! ### The commit loop after a rejection -/

/-- The commit loop does not panic: `total_nodes / 2 - 1` does not underflow, or is not reached. -/
def CommitLoopRuns (s : Server σ) : Prop :=
  s.config.totalNodes / 2 ≠ 0 ∨
    ∀ (k : ℕ) (entry : LogEntry), s.log[k]? = some entry → s.commitIndex < k →
      entry.term ≠ s.currentTerm

theorem commitLoopRuns_iff {s : Server σ} (mi : List ℤ) (hlen : s.log.length < 2 ^ 31)
    (hci : -1 ≤ s.commitIndex) : s.CommitLoopRuns ↔
      s.findCommit mi (rangeInclusive (s.commitIndex + 1) (s.log.length - 1)) ≠ none := by
  rw [ne_eq, findCommit_eq_none_iff fun n hn => asUsize_lt_of_mem_rangeInclusive hci hlen hn,
    not_and_or]
  refine or_congr Iff.rfl ⟨?_, fun h k entry hentry hk hterm => ?_⟩
  · rintro h ⟨n, hn, entry, hentry, hterm⟩
    obtain ⟨h₁, h₂⟩ := mem_rangeInclusive.1 hn
    rw [asUsize_toNat (by omega) (by omega)] at hentry
    exact h n.toNat entry hentry (by omega) hterm
  · have hkl := (List.getElem?_eq_some_iff.1 hentry).1
    refine h ⟨k, mem_rangeInclusive.2 ⟨by omega, by omega⟩, entry, ?_, hterm⟩
    rw [asUsize_natCast (by omega)]
    exact hentry

section

variable [StateMachine σ]

theorem advanceCommit_of_rejection {s : Server σ} {mi : List ℤ} {ni : List ℕ}
    (hst : s.state = .leader mi ni) (hlen : s.log.length < 2 ^ 31) (hne : s.log ≠ [])
    (hci : -1 ≤ s.commitIndex ∧ s.commitIndex + 1 < 2 ^ 31) :
    ((s.advanceCommit false).panicked = false ↔ s.CommitLoopRuns) ∧
      (s.advanceCommit false).effects = [] ∧
        ∃ ci, s.commitIndex ≤ ci ∧ ci + 1 < 2 ^ 31 ∧
          (s.advanceCommit false).server = { s with commitIndex := ci } := by
  rw [commitLoopRuns_iff mi hlen hci.1]
  unfold advanceCommit
  simp only [hst, List.isEmpty_iff, hne, ↓reduceIte, lenMinusOne_of_lt hlen,
    checkedI32_of_mem (x := s.commitIndex + 1) (by omega) (by omega)]
  split
  · rename_i hfind
    exact ⟨iff_of_false (by simp) (not_not.2 hfind), rfl, s.commitIndex, Int.le_refl _, hci.2,
      by rw [← hst]; rfl⟩
  · rename_i hfind
    exact ⟨iff_of_true rfl (by simp [hfind]), rfl, s.commitIndex, Int.le_refl _, hci.2,
      by rw [← hst]; rfl⟩
  · rename_i n hfind
    obtain ⟨h₁, h₂⟩ := mem_rangeInclusive.1 (findCommit_spec hfind).1
    exact ⟨iff_of_true rfl (by simp [hfind]), rfl, n, by omega, by omega, by rw [← hst]; rfl⟩

/-! ### One retry -/

omit [StateMachine σ] in
/-- What the retry branch sends from index `a` on. -/
structure IsRetry (leader : Server σ) (a : ℕ) (msg : AppendEntries) : Prop where
  term : msg.term = leader.currentTerm
  prev : msg.prevLogIndex = a
  prevTerm : ∃ entry, leader.log[a]? = some entry ∧ entry.term = msg.prevLogTerm
  entries : msg.entries = leader.log.drop a

/-- A rejection makes the leader send its log from the index before `next_index`, or from index 0
again. -/
theorem retry_of_rejection {s : Server σ} {mi : List ℤ} {ni : List ℕ} {peer : NodeId} {n : ℕ}
    (reply : AppendEntriesResponse) (hst : s.state = .leader mi ni) (hnext : ni[peer]? = some n)
    (hlen : s.log.length < 2 ^ 31) (hn : n - 1 < s.log.length)
    (hci : -1 ≤ s.commitIndex ∧ s.commitIndex + 1 < 2 ^ 31) (hterm : reply.term ≤ s.currentTerm)
    (hreply : reply.success = false) :
    ∃ msg, s.IsRetry (n - 1) msg ∧
      (s.handleAppendEntriesResponse (.peer peer) reply).sent =
        [⟨.node peer, .appendEntries msg⟩] ∧
      ((s.handleAppendEntriesResponse (.peer peer) reply).panicked = false ↔ s.CommitLoopRuns) ∧
      ∃ ci, s.commitIndex ≤ ci ∧ ci + 1 < 2 ^ 31 ∧
        (s.handleAppendEntriesResponse (.peer peer) reply).server =
          { s with state := .leader mi (ni.set peer (n - 1)), commitIndex := ci } := by
  have hget : s.log[n - 1]? = some s.log[n - 1] := List.getElem?_eq_getElem hn
  let s' : Server σ := { s with state := .leader mi (ni.set peer (n - 1)) }
  let msg : AppendEntries := ⟨s.currentTerm, s.id, (n - 1 : ℕ), s.log[n - 1].term,
    s.log.drop (n - 1), s.commitIndex⟩
  have hretry : s.retryFollower mi ni peer = .send s' ⟨.node peer, .appendEntries msg⟩ := by
    rw [s.retryFollower_eq mi hnext (by omega), hget]
    rfl
  have hhandle : s.handleAppendEntriesResponse (.peer peer) reply =
      (Outcome.send s' ⟨.node peer, .appendEntries msg⟩).andThen fun s => s.advanceCommit false := by
    rw [handleAppendEntriesResponse_of_leader peer hst hterm, hreply, if_neg Bool.false_ne_true,
      hretry]
  have hne : s'.log ≠ [] := List.ne_nil_of_length_pos (Nat.lt_of_le_of_lt (Nat.zero_le _) hn)
  obtain ⟨hruns, heffects, ci, hle, hlt, hserver⟩ :=
    advanceCommit_of_rejection (s := s') rfl hlen hne hci
  refine ⟨msg, ⟨rfl, rfl, ⟨_, hget, rfl⟩, rfl⟩, ?_, ?_, ci, hle, hlt, ?_⟩
  · rw [hhandle, Outcome.andThen_of_not_panicked rfl, Outcome.sent, Outcome.send_server, heffects]
    rfl
  · rw [hhandle, Outcome.andThen_panicked, Outcome.send_panicked, Bool.false_or]
    exact hruns
  · rw [hhandle, Outcome.andThen_of_not_panicked rfl]
    exact hserver

theorem acceptAppendEntries_sent (s : Server σ) {msg : AppendEntries} (nodeId : NodeId)
    (hne : msg.entries ≠ []) : (s.acceptAppendEntries msg nodeId).sent =
      if (s.acceptAppendEntries msg nodeId).panicked then []
      else [⟨.node nodeId, .appendEntriesResponse ⟨s.currentTerm, true⟩⟩] := by
  have hquiet : (s.applyLatestCommitedLogs msg.leaderCommit).sent = [] := by
    refine List.eq_nil_iff_forall_not_mem.2 fun out hout => ?_
    obtain ⟨snap, hsend⟩ := Outcome.mem_sent_iff.1 hout
    exact send_notMem_applyLatestCommitedLogs _ _ hsend
  obtain ⟨last, hlast⟩ := Option.ne_none_iff_exists'.1 (mt List.getLast?_eq_none_iff.1 hne)
  unfold acceptAppendEntries
  rw [Outcome.sent_andThen, hquiet, List.nil_append, Outcome.andThen_panicked]
  cases hp : (s.applyLatestCommitedLogs msg.leaderCommit).panicked with
  | true => rfl
  | false =>
    obtain ⟨sm, ci, la, hs, -⟩ :=
      (s.applyLatestCommitedLogs_ensures msg.leaderCommit fun _ _ => True).server hp
    rw [hs]
    simp only [List.isEmpty_iff, hne, deleteConflictingAndAppendNewEntries, Bool.false_or,
      Bool.false_eq_true, ↓reduceIte]
    split
    · rfl
    · rw [Outcome.done_andThen, commitAndReply, hlast]
      dsimp only
      split <;> rfl

omit [StateMachine σ] in
/-- The two logs hold entries of the same term at `k`, or none. -/
def SameTermAt (follower leader : Server σ) (k : ℕ) : Prop :=
  (follower.log[k]?).map LogEntry.term = (leader.log[k]?).map LogEntry.term

omit [StateMachine σ] in
instance (follower leader : Server σ) (k : ℕ) : Decidable (follower.SameTermAt leader k) :=
  inferInstanceAs (Decidable (_ = _))

omit [StateMachine σ] in
/-- A retry passes the check where the terms are the same; an empty log lets all of them pass. -/
theorem IsRetry.matching_iff {leader follower : Server σ} {a : ℕ} {msg : AppendEntries}
    (h : leader.IsRetry a msg) (hlen : leader.log.length < 2 ^ 31) :
    follower.prevLogIndexMatching msg = true ↔
      follower.log = [] ∨ follower.SameTermAt leader a := by
  obtain ⟨entry, hentry, hterm⟩ := h.prevTerm
  have ha := (List.getElem?_eq_some_iff.1 hentry).1
  rw [prevLogIndexMatching_iff h.prev (by omega), SameTermAt, hentry, ← hterm, Option.map_some,
    Option.map_eq_some_iff]

section

variable {leader follower : Server σ} {a : ℕ} {msg : AppendEntries}

theorem IsRetry.rejected (h : leader.IsRetry a msg) (hlen : leader.log.length < 2 ^ 31)
    (nodeId : NodeId) (hne : follower.log ≠ []) (hdiffers : ¬ follower.SameTermAt leader a) :
    follower.handleAppendEntries (.peer nodeId) msg =
      .send follower ⟨.node nodeId, .appendEntriesResponse ⟨follower.currentTerm, false⟩⟩ := by
  have hmatch : follower.prevLogIndexMatching msg = false := by
    rw [← Bool.not_eq_true, h.matching_iff hlen]
    exact not_or.2 ⟨hne, hdiffers⟩
  rcases follower.handleAppendEntries_cases nodeId msg with ⟨-, heq⟩ | ⟨-, hm, -⟩ | ⟨hacc, -⟩
  · exact heq
  · simp [hmatch] at hm
  · have hm := hacc.2.1
    simp [hmatch] at hm

theorem IsRetry.accepted (h : leader.IsRetry a msg) (hnum : NumberedFrom 0 leader.log)
    (hlen : leader.log.length < 2 ^ 31) (hflen : follower.log.length < 2 ^ 31)
    (hrole : follower.state = .follower) (hterm : follower.currentTerm ≤ leader.currentTerm)
    (nodeId : NodeId) (hmatch : follower.log = [] ∨ follower.SameTermAt leader a) :
    ((follower.handleAppendEntries (.peer nodeId) msg).panicked = true ↔
      follower.log.length < a) ∧
      (follower.handleAppendEntries (.peer nodeId) msg).sent =
        (if (follower.handleAppendEntries (.peer nodeId) msg).panicked then []
        else [⟨.node nodeId, .appendEntriesResponse ⟨leader.currentTerm, true⟩⟩]) ∧
      ((follower.handleAppendEntries (.peer nodeId) msg).panicked = false →
        Grafted LogEntry.term follower.log leader.log a
          (follower.handleAppendEntries (.peer nodeId) msg).server.log) := by
  have hacc : follower.Accepts msg :=
    ⟨h.term ▸ hterm, (h.matching_iff hlen).2 hmatch, .inl hrole⟩
  obtain ⟨entry, hentry, -⟩ := h.prevTerm
  have ha := (List.getElem?_eq_some_iff.1 hentry).1
  have hne : msg.entries ≠ [] := by
    rw [h.entries]
    exact fun hnil => Nat.not_le.2 ha (List.drop_eq_nil_iff.1 hnil)
  refine ⟨?_, ?_, fun hp => ?_⟩
  · rw [handleAppendEntries_panicked_iff msg nodeId hflen, and_iff_right hacc, h.entries]
    constructor
    · intro hnone
      by_contra hle
      rw [mergedLog_eq_graft (hnum.drop a) (Nat.not_lt.1 hle)] at hnone
      cases hnone
    · exact mergedLog_eq_none (hnum.drop a) (h.entries ▸ hne)
  · rw [handleAppendEntries_of_accepts nodeId hacc, acceptAppendEntries_sent _ nodeId hne, ← h.term]
  · obtain ⟨sm, ci, la, log, hmerged, -, heq⟩ := takes_of_accepts hacc hp
    rw [heq]
    exact grafted_of_mergedLog hnum (h.entries ▸ hmerged)

end

/-! ### The exchange -/

/-- The exchange that follows a rejection by `follower`, with `n` rejections at most: the leader
handles the rejection and the follower handles the retry.  The result is the follower when it has
replied `success = true`. -/
def repair (peer : NodeId) :
    ℕ → Server σ → Server σ → AppendEntriesResponse → Option (Server σ)
  | 0, _, _, _ => none
  | n + 1, leader, follower, reply =>
    let retry := leader.handleAppendEntriesResponse (.peer peer) reply
    match retry.sent.filterMap (·.msg.asAppendEntries) with
    | [msg] =>
      let answer := follower.handleAppendEntries (.peer leader.id) msg
      match answer.sent.filterMap (·.msg.asAppendEntriesResponse) with
      | [reply] =>
        if reply.success then some answer.server
        -- the retry has gone out before the panic
        else if retry.panicked then none
        else repair peer n retry.server answer.server reply
      | _ => none
    | _ => none

/-- The exchange ends with a success, and the logs then agree at every index of the leader's. -/
def Repairs (peer : NodeId) (n : ℕ) (leader follower : Server σ) (reply : AppendEntriesResponse) :
    Prop :=
  ∃ follower', repair peer n leader follower reply = some follower' ∧
    ∀ k < leader.log.length, follower'.log[k]? = leader.log[k]?

omit [StateMachine σ] in
/-- A retry from `a` that is merged makes the logs agree: the follower holds the leader's entry
wherever no term from `a` up to it differs. -/
def AgreesFrom (follower leader : Server σ) (a : ℕ) : Prop :=
  ∀ k < leader.log.length, (∀ m, a ≤ m → m ≤ k → follower.SameTermAt leader m) →
    follower.log[k]? = leader.log[k]?

omit [StateMachine σ] in
/-- The retries from `start` downwards repair the log of `follower`. -/
inductive Repairable (leader follower : Server σ) (start : ℕ) : Prop
  /-- An empty log takes the whole log of the leader, and nothing less. -/
  | empty : follower.log = [] → start = 0 → Repairable leader follower start
  /-- `a` is the last index up to `start` at which the logs hold entries of the same term. -/
  | found (a : ℕ) : a ≤ start → follower.SameTermAt leader a →
      (∀ b, a < b → b ≤ start → ¬ follower.SameTermAt leader b) →
      (a = start ∨ leader.CommitLoopRuns) → follower.AgreesFrom leader a →
      Repairable leader follower start

omit [StateMachine σ] in
/-- A leader with `n` for `next_index` of a follower, neither of a later term than the leader's; its
log carries the indices. -/
structure Exchanging (peer : NodeId) (n : ℕ) (leader follower : Server σ) : Prop where
  leads : ∃ mi ni, leader.state = .leader mi ni ∧ ni[peer]? = some n
  nonempty : leader.log ≠ []
  next : n ≤ leader.log.length
  numbered : NumberedFrom 0 leader.log
  short : leader.log.length < 2 ^ 31 ∧ follower.log.length < 2 ^ 31
  commit : -1 ≤ leader.commitIndex ∧ leader.commitIndex + 1 < 2 ^ 31
  role : follower.state = .follower
  term : follower.currentTerm ≤ leader.currentTerm

section

variable {peer : NodeId} {n : ℕ} {leader follower : Server σ}

omit [StateMachine σ] in
theorem Exchanging.lt (h : Exchanging peer n leader follower) : n - 1 < leader.log.length := by
  have := h.next
  have := List.length_pos_of_ne_nil h.nonempty
  omega

theorem repair_of_matching (h : Exchanging peer n leader follower) (k : ℕ)
    (hmatch : follower.log = [] ∨ follower.SameTermAt leader (n - 1)) :
    (follower.log.length < n - 1 ∧
      repair peer (k + 1) leader follower ⟨follower.currentTerm, false⟩ = none) ∨
    n - 1 ≤ follower.log.length ∧ ∃ follower',
      repair peer (k + 1) leader follower ⟨follower.currentTerm, false⟩ = some follower' ∧
        Grafted LogEntry.term follower.log leader.log (n - 1) follower'.log := by
  obtain ⟨mi, ni, hst, hnext⟩ := h.leads
  obtain ⟨hlen, hflen⟩ := h.short
  obtain ⟨msg, hretry, hsent, -⟩ :=
    retry_of_rejection ⟨follower.currentTerm, false⟩ hst hnext hlen h.lt h.commit h.term rfl
  obtain ⟨hgap, hreplies, hmerged⟩ :=
    hretry.accepted h.numbered hlen hflen h.role h.term leader.id hmatch
  rw [repair]
  simp only [hsent, List.filterMap_cons, List.filterMap_nil, Message.asAppendEntries, hreplies]
  cases hp : (follower.handleAppendEntries (.peer leader.id) msg).panicked with
  | true => exact .inl ⟨hgap.1 hp, rfl⟩
  | false =>
    refine .inr ⟨Nat.not_lt.1 fun hlt => ?_, _, rfl, hmerged hp⟩
    rw [hgap.2 hlt] at hp
    cases hp

theorem repair_of_rejected (h : Exchanging peer n leader follower) (k : ℕ)
    (hne : follower.log ≠ []) (hdiffers : ¬ follower.SameTermAt leader (n - 1)) :
    (¬ leader.CommitLoopRuns ∧
      repair peer (k + 1) leader follower ⟨follower.currentTerm, false⟩ = none) ∨
    leader.CommitLoopRuns ∧ ∃ leader', Exchanging peer (n - 1) leader' follower ∧
      leader'.log = leader.log ∧ leader'.CommitLoopRuns ∧
        repair peer (k + 1) leader follower ⟨follower.currentTerm, false⟩ =
          repair peer k leader' follower ⟨follower.currentTerm, false⟩ := by
  obtain ⟨mi, ni, hst, hnext⟩ := h.leads
  obtain ⟨hlen, hflen⟩ := h.short
  obtain ⟨msg, hretry, hsent, hruns, ci, hci, hci', hserver⟩ :=
    retry_of_rejection ⟨follower.currentTerm, false⟩ hst hnext hlen h.lt h.commit h.term rfl
  have hanswer := hretry.rejected hlen leader.id hne hdiffers
  rw [repair]
  simp only [hsent, List.filterMap_cons, List.filterMap_nil, Message.asAppendEntries, hanswer]
  show (_ ∧ (if _ = true then none else repair peer k _ follower _) = none) ∨ _ ∧ ∃ leader', _ ∧ _ ∧
    _ ∧ (if _ = true then none else repair peer k _ follower _) = _
  cases hp : (leader.handleAppendEntriesResponse (.peer peer)
    ⟨follower.currentTerm, false⟩).panicked with
  | true =>
    have hstops : ¬ leader.CommitLoopRuns := fun hok => by
      rw [hruns.2 hok] at hp
      cases hp
    exact .inl ⟨hstops, if_pos rfl⟩
  | false =>
    have hok := hruns.1 hp
    rw [hserver]
    let leader' : Server σ :=
      { leader with state := .leader mi (ni.set peer (n - 1)), commitIndex := ci }
    refine .inr ⟨hok, leader', ⟨⟨mi, _, rfl, ?_⟩, h.nonempty, ?_, h.numbered, h.short, ⟨?_, hci'⟩, h.role,
      h.term⟩, rfl, ?_, if_neg Bool.false_ne_true⟩
    · exact List.getElem?_set_self (List.getElem?_eq_some_iff.1 hnext).1
    · exact Nat.le_of_lt h.lt
    · exact Int.le_trans h.commit.1 hci
    · -- the commit index has only grown
      rcases hok with htwo | hquiet
      · exact .inl htwo
      · exact .inr fun k entry hentry hk => hquiet k entry hentry (Int.lt_of_le_of_lt hci hk)

omit [StateMachine σ] in
theorem repairable_iff_of_matching {start : ℕ} (hstart : start < leader.log.length)
    (hmatch : follower.log = [] ∨ follower.SameTermAt leader start) :
    Repairable leader follower start ↔
      start ≤ follower.log.length ∧ follower.AgreesFrom leader start := by
  have hreach : ∀ k < leader.log.length, follower.SameTermAt leader k →
      k < follower.log.length := by
    intro k hk hsame
    rw [SameTermAt, List.getElem?_eq_getElem hk, Option.map_some, Option.map_eq_some_iff] at hsame
    obtain ⟨entry, hentry, -⟩ := hsame
    exact (List.getElem?_eq_some_iff.1 hentry).1
  constructor
  · intro h
    cases h with
    | empty hnil hzero =>
      subst hzero
      refine ⟨Nat.zero_le _, fun k hk hsame => ?_⟩
      have := hreach 0 hstart (hsame 0 (Nat.le_refl _) (Nat.zero_le _))
      simp [hnil] at this
    | found a hle hsame hlast _ hagrees =>
      have ha := hreach a (Nat.lt_of_le_of_lt hle hstart) hsame
      have hne : follower.log ≠ [] := fun hnil => by simp [hnil] at ha
      rcases Nat.lt_or_eq_of_le hle with hlt | rfl
      · exact absurd (hmatch.resolve_left hne) (hlast start hlt (Nat.le_refl _))
      · exact ⟨Nat.le_of_lt ha, hagrees⟩
  · rintro ⟨hle, hagrees⟩
    by_cases hnil : follower.log = []
    · exact .empty hnil (by simpa [hnil] using hle)
    · exact .found start (Nat.le_refl _) (hmatch.resolve_left hnil)
        (fun b hlt hle => absurd hle (Nat.not_le.2 hlt)) (.inl rfl) hagrees

omit [StateMachine σ] in
theorem repairable_iff_of_rejected {start : ℕ} (hne : follower.log ≠ [])
    (hdiffers : ¬ follower.SameTermAt leader start) :
    Repairable leader follower start ↔
      leader.CommitLoopRuns ∧ 0 < start ∧ Repairable leader follower (start - 1) := by
  constructor
  · intro h
    cases h with
    | empty hnil => exact absurd hnil hne
    | found a hle hsame hlast hruns hagrees =>
      rcases Nat.lt_or_eq_of_le hle with hlt | rfl
      · have hruns := hruns.resolve_left (Nat.ne_of_lt hlt)
        refine ⟨hruns, by omega, .found a (by omega) hsame (fun b hab hb => ?_) (.inr hruns) hagrees⟩
        exact hlast b hab (by omega)
      · exact absurd hsame hdiffers
  · rintro ⟨hruns, hpos, h⟩
    cases h with
    | empty hnil => exact absurd hnil hne
    | found a hle hsame hlast _ hagrees =>
      refine .found a (by omega) hsame (fun b hab hb => ?_) (.inr hruns) hagrees
      rcases Nat.lt_or_eq_of_le hb with hlt | rfl
      · exact hlast b hab (by omega)
      · exact hdiffers

omit [StateMachine σ] in
theorem Repairable.congr {leader' : Server σ} {start : ℕ} (hlog : leader'.log = leader.log)
    (hruns : leader.CommitLoopRuns) (h : Repairable leader' follower start) :
    Repairable leader follower start := by
  have hsame : ∀ k, follower.SameTermAt leader' k ↔ follower.SameTermAt leader k := by
    intro k
    rw [SameTermAt, SameTermAt, hlog]
  cases h with
  | empty hnil hzero => exact .empty hnil hzero
  | found a hle hsameAt hlast _ hagrees =>
    refine .found a hle ((hsame a).1 hsameAt) (fun b hab hb => (hsame b).not.1 (hlast b hab hb))
      (.inr hruns) fun k hk hall => ?_
    rw [← hlog] at hk ⊢
    exact hagrees k hk fun m ham hmk => (hsame m).2 (hall m ham hmk)

theorem repairs_iff_of_matching (h : Exchanging peer n leader follower) (k : ℕ)
    (hmatch : follower.log = [] ∨ follower.SameTermAt leader (n - 1)) :
    Repairs peer (k + 1) leader follower ⟨follower.currentTerm, false⟩ ↔
      Repairable leader follower (n - 1) := by
  rw [repairable_iff_of_matching h.lt hmatch]
  rcases repair_of_matching h k hmatch with ⟨hgap, hnone⟩ | ⟨hle, follower', hsome, hgraft⟩
  · refine iff_of_false ?_ fun hr => Nat.not_le.2 hgap hr.1
    rintro ⟨follower', hsome, -⟩
    rw [hnone] at hsome
    cases hsome
  · constructor
    · rintro ⟨x, hx, heq⟩
      obtain rfl : follower' = x := Option.some.inj (hsome.symm.trans hx)
      exact ⟨hle, hgraft.eq_iff.1 heq⟩
    · rintro ⟨-, hagrees⟩
      exact ⟨follower', hsome, hgraft.eq_iff.2 hagrees⟩

/-- **Which logs are repaired.**  After a rejection by a follower, at most `next_index + 1` rejections
in all lead to a success and to logs that agree, just if the follower's log is repairable. -/
theorem repair_iff (h : Exchanging peer n leader follower) :
    Repairs peer (n + 1) leader follower ⟨follower.currentTerm, false⟩ ↔
      Repairable leader follower (n - 1) := by
  induction n generalizing leader with
  | zero =>
    by_cases hmatch : follower.log = [] ∨ follower.SameTermAt leader 0
    · exact repairs_iff_of_matching h 0 hmatch
    · -- the second retry would start at index 0 again
      obtain ⟨hne, hdiffers⟩ := not_or.1 hmatch
      rw [repairable_iff_of_rejected hne hdiffers]
      refine iff_of_false ?_ fun hr => Nat.lt_irrefl 0 hr.2.1
      rintro ⟨follower', hsome, -⟩
      rcases repair_of_rejected h 0 hne hdiffers with ⟨-, hnone⟩ | ⟨-, leader', -, -, -, hnone⟩
      · rw [hnone] at hsome
        cases hsome
      · rw [hnone] at hsome
        cases hsome
  | succ n ih =>
    by_cases hmatch : follower.log = [] ∨ follower.SameTermAt leader n
    · exact repairs_iff_of_matching h (n + 1) hmatch
    · obtain ⟨hne, hdiffers⟩ := not_or.1 hmatch
      show Repairs peer (n + 1 + 1) leader follower _ ↔ Repairable leader follower n
      rw [repairable_iff_of_rejected hne hdiffers]
      rcases repair_of_rejected h (n + 1) hne hdiffers with
        ⟨hstops, hnone⟩ | ⟨hruns, leader', hex, hlog, hruns', heq⟩
      · refine iff_of_false ?_ fun hr => hstops hr.1
        rintro ⟨follower', hsome, -⟩
        rw [hnone] at hsome
        cases hsome
      · have hrest : Repairs peer (n + 1 + 1) leader follower ⟨follower.currentTerm, false⟩ ↔
            Repairable leader' follower (n - 1) := by
          rw [← ih hex, Repairs, Repairs, heq, hlog]
        rw [hrest]
        constructor
        · intro hr
          have hr := hr.congr hlog hruns
          refine ⟨hruns, Nat.pos_of_ne_zero ?_, hr⟩
          rintro rfl
          exact Nat.lt_irrefl 0 ((repairable_iff_of_rejected hne hdiffers).1 hr).2.1
        · rintro ⟨-, -, hr⟩
          exact hr.congr hlog.symm hruns'

theorem not_repairs_of_first_conflict (h : Exchanging peer n leader follower) (hn : n ≤ 1)
    (hne : follower.log ≠ []) (hdiffers : ¬ follower.SameTermAt leader 0) (k : ℕ) :
    ¬ Repairs peer k leader follower ⟨follower.currentTerm, false⟩ := by
  rintro ⟨follower', hsome, hlog⟩
  induction k generalizing leader n with
  | zero => cases hsome
  | succ k ih =>
    have hzero : n - 1 = 0 := by omega
    rcases repair_of_rejected h k hne (hzero ▸ hdiffers) with
      ⟨-, hnone⟩ | ⟨-, leader', hex, hsame, -, heq⟩
    · rw [hnone] at hsome
      cases hsome
    · rw [heq] at hsome
      refine ih hex (by omega) ?_ hsome ?_
      · rwa [SameTermAt, hsame]
      · rwa [hsame]

end

end

/-- The second retry finds an entry that the follower shares with the leader. -/
theorem repair_iff_second :
    let old : LogEntry := ⟨1, .set "x" "1", 0, 7, 1⟩
    let stale : LogEntry := ⟨1, .delete "x", 1, 8, 1⟩
    let new : LogEntry := ⟨2, .set "x" "2", 1, 7, 2⟩
    let leader := { Server.new 1 ⟨3, [1, 2, 3]⟩ SimpleStateMachine.new with
      log := [old, new], state := .leader [-1, -1, -1, -1] [2, 2, 2, 2], currentTerm := 2 }
    let follower := { Server.new 2 ⟨3, [1, 2, 3]⟩ SimpleStateMachine.new with
      log := [old, stale], currentTerm := 1 }
    Repairs 2 3 leader follower ⟨1, false⟩ := by
  intro old stale new leader follower
  have h : Exchanging 2 2 leader follower :=
    ⟨⟨_, _, rfl, rfl⟩, by decide, by decide, by decide, by decide, by decide, rfl, by decide⟩
  have hconflict : ¬ follower.SameTermAt leader 1 := by decide
  refine (repair_iff h).2 (.found 0 (by decide) (by decide) ?_ (.inr (.inl (by decide))) ?_)
  · intro b hpos hle
    obtain rfl : b = 1 := by omega
    exact hconflict
  · intro k hk hsame
    cases k with
    | zero => rfl
    | succ k => exact absurd (hsame 1 (Nat.zero_le _) (by omega)) hconflict

/-- The logs differ in their only entry, and every retry is rejected. -/
theorem repair_never_succeeds :
    let stale : LogEntry := ⟨1, .delete "x", 0, 8, 1⟩
    let new : LogEntry := ⟨2, .set "x" "2", 0, 7, 2⟩
    let leader := { Server.new 1 ⟨3, [1, 2, 3]⟩ SimpleStateMachine.new with
      log := [new], state := .leader [-1, -1, -1, -1] [1, 1, 1, 1], currentTerm := 2 }
    let follower := { Server.new 2 ⟨3, [1, 2, 3]⟩ SimpleStateMachine.new with
      log := [stale], currentTerm := 1 }
    Exchanging 2 1 leader follower ∧ ∀ n, ¬ Repairs 2 n leader follower ⟨1, false⟩ := by
  intro stale new leader follower
  have h : Exchanging 2 1 leader follower :=
    ⟨⟨_, _, rfl, rfl⟩, by decide, by decide, by decide, by decide, by decide, rfl, by decide⟩
  exact ⟨h, not_repairs_of_first_conflict h (Nat.le_refl 1) (by decide) (by decide)⟩

end Server

end MiniRaft
