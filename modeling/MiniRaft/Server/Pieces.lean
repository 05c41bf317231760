import MiniRaft.Server.Merge
import MiniRaft.Server.Panics
import MiniRaft.Server.SimpleStateMachine
import MiniRaft.Server.Votes

/-!
# The pieces of its log that a leader sends

A well-formed `AppendEntries` names an entry of the sender's log, or none, and carries the entries
right after it.  A heartbeat does so from the end of the log.  A client's Set carries the newest
entry, and names the one before `next_index`, which acknowledgements move only later; the retry
branch names the first of the entries it carries.

* `Server.sends_pieces` : the runs in which every message is well formed.
-/

namespace MiniRaft

variable {σ : Type}

namespace Server

/-- The message names an entry of the log, or none, and carries a contiguous piece right after. -/
def IsPiece (log : List LogEntry) (msg : AppendEntries) : Prop :=
  PrevIn log msg.prevLogIndex msg.prevLogTerm ∧
    ∃ k, msg.entries = (log.drop (msg.prevLogIndex + 1).toNat).take k

/-- Every `AppendEntries` among the effects is a piece of the log of its sender. -/
def SendsPieces (effects : List (Effect σ)) : Prop :=
  ∀ out snap, .send out snap ∈ effects → ∀ msg, out.msg = .appendEntries msg → IsPiece snap.log msg

theorem SendsPieces.take {effects : List (Effect σ)} (h : SendsPieces effects) (k : ℕ) :
    SendsPieces (effects.take k) := fun out snap hmem => h out snap (List.mem_of_mem_take hmem)

theorem sendsPieces_nil : SendsPieces ([] : List (Effect σ)) :=
  fun _ _ hmem => absurd hmem List.not_mem_nil

theorem SendsPieces.append {effects effects' : List (Effect σ)} (h : SendsPieces effects)
    (h' : SendsPieces effects') : SendsPieces (effects ++ effects') := by
  intro out snap hmem
  rcases List.mem_append.1 hmem with hmem | hmem
  · exact h out snap hmem
  · exact h' out snap hmem

/-! ### A client's Set -/

/-- `next_index` of each of the peers is the length of the log, up to the first for which it lies
past the new entry, where the handler panics. -/
def Aligned (log : List LogEntry) (nextIndex : List ℕ) : List NodeId → Prop
  | [] => True
  | peer :: peers => ∀ next ∈ nextIndex[peer]?,
    next = log.length ∧ Aligned log nextIndex peers ∨ log.length + 1 < next ∧ next ≤ 2 ^ 31

theorem aligned_replicate (log : List LogEntry) (n : ℕ) (peers : List NodeId) :
    Aligned log (List.replicate n log.length) peers := by
  induction peers with
  | nil => trivial
  | cons peer peers ih =>
    intro next hnext
    exact .inl ⟨List.eq_of_mem_replicate (List.mem_of_getElem? hnext), ih⟩

theorem eq_of_prevLogOf {log : List LogEntry} {next prevLogTerm : ℕ} {prevLogIndex : ℤ}
    (hnext : next < 2 ^ 31) (h : prevLogOf log next = some (prevLogIndex, prevLogTerm)) :
    prevLogIndex + 1 = next := by
  unfold prevLogOf at h
  split at h
  · cases h
  · rename_i p hp
    have hindex : p = prevLogIndex := by
      split at h
      · exact congrArg Prod.fst (Option.some.inj h)
      · obtain ⟨entry, -, he⟩ := Option.map_eq_some_iff.1 h
        exact congrArg Prod.fst he
    split at hp
    · cases hp
      omega
    · have := (checkedI32_eq_some.1 hp).1
      rw [asI32_of_lt hnext] at this
      omega

theorem sendEntryFor_sendsPieces {s : Server σ} {log : List LogEntry} {logEntry : LogEntry}
    {nextIndex : List ℕ} {peer : NodeId} (hlog : s.log = log ++ [logEntry])
    (hlen : log.length < 2 ^ 31) (hnext : ∀ next ∈ nextIndex[peer]?, next = log.length) :
    SendsPieces (sendEntryFor logEntry nextIndex peer s).effects := by
  rcases s.sendEntryFor_cases logEntry nextIndex peer with
    heq | ⟨prev, lastIndex, hprev, hlast, -, heq⟩
  · rw [heq]
    exact sendsPieces_nil
  · obtain ⟨next, hget, hprev⟩ := Option.bind_eq_some_iff.1 hprev
    have hlen' : s.log.length = log.length + 1 := by rw [hlog, List.length_append]; rfl
    have hlt := (lenMinusOne_eq_some (by omega) hlast).1
    obtain rfl := hnext next hget
    rw [heq]
    intro out snap hmem msg hmsg
    cases List.mem_singleton.1 hmem
    cases hmsg
    refine ⟨prevIn_of_prevLogOf hlt hprev, 1, ?_⟩
    rw [eq_of_prevLogOf (by omega) hprev, Int.toNat_natCast]
    show [logEntry] = (s.log.drop _).take 1
    rw [hlog, List.drop_left]
    rfl

theorem not_canSendTo_of_lt {s : Server σ} {nextIndex : List ℕ} {peer : NodeId}
    (h : ∀ next ∈ nextIndex[peer]?, s.log.length < next ∧ next ≤ 2 ^ 31) :
    ¬ s.CanSendTo nextIndex peer := by
  rintro ⟨hprev, -⟩
  obtain ⟨prev, hprev⟩ := Option.isSome_iff_exists.1 hprev
  obtain ⟨next, hget, hprev⟩ := Option.bind_eq_some_iff.1 hprev
  obtain ⟨hlt, hle⟩ := h next hget
  rw [(prevLogOf_eq_none_iff (by omega) hle).2 hlt] at hprev
  cases hprev

theorem broadcastEntry_sendsPieces {s : Server σ} {log : List LogEntry} {logEntry : LogEntry}
    {nextIndex : List ℕ} (peers : List NodeId) (k : ℕ) (hlog : s.log = log ++ [logEntry])
    (hlen : log.length < 2 ^ 31)
    (h : Aligned log nextIndex ((peers.filter (· ≠ s.id)).take k)) :
    SendsPieces ((broadcastEntry logEntry nextIndex peers s).effects.take k) := by
  induction peers generalizing s k with
  | nil => exact sendsPieces_nil.take k
  | cons peer peers ih =>
    unfold broadcastEntry
    split_ifs with hid
    · rw [List.filter_cons_of_neg (by simpa using hid)] at h
      exact ih k hlog h
    · cases k with
      | zero => exact sendsPieces_nil
      | succ k =>
        rw [List.filter_cons_of_pos (by simpa using hid), List.take_succ_cons] at h
        have hlen' : s.log.length = log.length + 1 := by rw [hlog, List.length_append]; rfl
        by_cases hpast : ∀ next ∈ nextIndex[peer]?, s.log.length < next ∧ next ≤ 2 ^ 31
        · rw [sendEntryFor_of_not_canSendTo logEntry (not_canSendTo_of_lt hpast),
            Outcome.andThen_of_panicked rfl]
          exact sendsPieces_nil.take _
        · have hhere : (∀ next ∈ nextIndex[peer]?, next = log.length) ∧
              Aligned log nextIndex ((peers.filter (· ≠ s.id)).take k) := by
            cases hget : nextIndex[peer]? with
            | none => simp [hget] at hpast
            | some next =>
              rcases h next hget with ⟨heq, hrest⟩ | ⟨hlt, hle⟩
              · exact ⟨by simpa using heq, hrest⟩
              · exact absurd (by simpa [hget, hlen'] using ⟨hlt, hle⟩) hpast
          have hfirst := sendEntryFor_sendsPieces hlog hlen hhere.1
          by_cases hsend : s.CanSendTo nextIndex peer
          · obtain ⟨lastIndex, prev, -, -, heq⟩ := sendEntryFor_of_canSendTo logEntry hsend
            rw [heq] at hfirst ⊢
            rw [Outcome.andThen_of_not_panicked rfl]
            exact hfirst.append (ih (s := { s with
              lastSentIndex := s.lastSentIndex.set peer lastIndex }) k hlog hhere.2)
          · rw [sendEntryFor_of_not_canSendTo logEntry hsend, Outcome.andThen_of_panicked rfl]
            exact sendsPieces_nil.take _

/-! ### The retry branch -/

theorem retryFollower_eq_panic {s : Server σ} (mi : List ℤ) {ni : List ℕ} {peer : NodeId}
    (hlen : s.log.length < 2 ^ 31) (h : ∀ next ∈ ni[peer]?, s.log.length ≤ next - 1) :
    (s.retryFollower mi ni peer).effects = [] ∧ (s.retryFollower mi ni peer).panicked = true := by
  rcases s.retryFollower_cases mi ni peer with ⟨st, heq⟩ | ⟨next, entry, hnext, hentry, hle', -⟩
  · rw [heq]
    exact ⟨rfl, rfl⟩
  · -- within the log, `next_index` would be its length, where there is no entry
    have heq : next - 1 = s.log.length := Nat.le_antisymm hle' (h next hnext)
    have hnone : s.log[asUsize (asI32 (next - 1))]? = none := by
      rw [heq, asI32_of_lt hlen, asUsize_natCast (by omega)]
      exact List.getElem?_eq_none (Nat.le_refl _)
    rw [hnone] at hentry
    cases hentry

/-! ### Handlers that send no `AppendEntries` -/

/-- No `AppendEntries` is sent. -/
def NoAppendEntries (o : Outcome σ) : Prop :=
  o.Ensures (fun _ => True) fun out _ => ∀ msg, out.msg ≠ .appendEntries msg

theorem NoAppendEntries.sendsPieces {o : Outcome σ} (h : NoAppendEntries o) :
    SendsPieces o.effects := fun _ _ hmem msg hmsg => absurd hmsg ((h.sends hmem).2 msg)

theorem handleRequestVoteRpc_noAppendEntries (s : Server σ) (msg : RequestVote) :
    NoAppendEntries (s.handleRequestVoteRpc msg) := by
  rcases s.handleRequestVoteRpc_cases msg with ⟨-, heq⟩ | ⟨-, -, heq⟩ | ⟨-, -, heq⟩
  · rw [heq]
    exact .send trivial (by simp)
  · rw [heq]
    exact .send trivial (by simp)
  · rw [heq]
    exact .panic

variable [StateMachine σ]

theorem handleAppendEntries_noAppendEntries (s : Server σ) (sender : Id) (msg : AppendEntries) :
    NoAppendEntries (s.handleAppendEntries sender msg) := by
  cases sender with
  | client _ => exact .done trivial
  | peer nodeId =>
    rcases s.handleAppendEntries_cases nodeId msg with ⟨-, heq⟩ | ⟨-, -, -, heq⟩ | ⟨-, heq⟩
    · rw [heq]
      exact .send trivial (by simp)
    · rw [heq]
      exact .done trivial
    · rw [heq]
      refine ⟨fun _ => trivial, fun hmem => ⟨trivial, ?_⟩⟩
      rw [(send_mem_acceptAppendEntries hmem).2]
      simp

omit [StateMachine σ] in
theorem answerClient_noAppendEntries (s : Server σ) : NoAppendEntries s.answerClient := by
  obtain ⟨st, heq | heq | ⟨_, _, -, -, heq⟩⟩ := s.answerClient_cases
  · rw [heq]
    exact .panic
  · rw [heq]
    exact .done trivial
  · rw [heq]
    exact .send trivial (by simp)

theorem advanceCommit_noAppendEntries (s : Server σ) (success : Bool) :
    NoAppendEntries (s.advanceCommit success) := by
  have hcases := s.advanceCommit_cases success
  generalize s.advanceCommit success = o at hcases
  cases hcases with
  | panic => exact .panic
  | idle => exact .done trivial
  | keep => exact .done trivial
  | raise => exact .done trivial
  | @commit _ _ _ n _ _ _ =>
    exact (applyRepeatedly_ensures _ { s with commitIndex := n } _).silent_andThen
      fun s' _ => s'.answerClient_noAppendEntries

/-! ### One message -/

/-- What a leader does with `incoming` makes it send pieces of its log only, if the timer drops the
handler at its `k`-th send: a Set finds `next_index` aligned for the first `k` peers, and a rejection
is dropped before the retry or makes it panic. -/
structure Orderly (s : Server σ) (order : List NodeId) (incoming : Incoming) (k : ℕ) : Prop where
  set : ∀ mi ni, s.state = .leader mi ni → ∀ req, incoming.msg = .clientRequest req →
    req.command.isSet = true → Aligned s.log ni ((order.filter (· ≠ s.id)).take k)
  retry : ∀ mi ni, s.state = .leader mi ni → ∀ peer reply,
    incoming = ⟨.peer peer, .appendEntriesResponse reply⟩ → reply.success = false →
      reply.term ≤ s.currentTerm → k = 0 ∨ ∀ next ∈ ni[peer]?, s.log.length ≤ next - 1

theorem recieveRpc_sendsPieces {s : Server σ} {order : List NodeId} {incoming : Incoming} {k : ℕ}
    (hlen : s.log.length < 2 ^ 31) (h : s.Orderly order incoming k) :
    SendsPieces ((s.recieveRpc order incoming).effects.take k) := by
  obtain ⟨sender, m⟩ := incoming
  cases m with
  | appendEntries msg => exact (s.handleAppendEntries_noAppendEntries sender msg).sendsPieces.take k
  | appendEntriesResponse msg =>
    show SendsPieces ((s.handleAppendEntriesResponse sender msg).effects.take k)
    rcases s.handleAppendEntriesResponse_cases sender msg with
      ⟨-, -, heq⟩ | heq | ⟨mi, ni, peer, hst, rfl, hle, heq⟩
    · rw [heq]
      exact sendsPieces_nil.take k
    · rw [heq]
      exact sendsPieces_nil.take k
    · rw [heq]
      cases hok : msg.success with
      | true =>
        have hquiet : NoAppendEntries ((s.creditFollower mi ni peer).andThen
            fun s => s.advanceCommit true) :=
          (creditFollower_ensures peer _ hst hok).silent_andThen
            fun s' _ => s'.advanceCommit_noAppendEntries true
        exact hquiet.sendsPieces.take k
      | false =>
        rcases h.retry mi ni hst peer msg rfl hok hle with rfl | hpast
        · exact sendsPieces_nil
        · obtain ⟨heffects, hp⟩ := retryFollower_eq_panic mi hlen hpast
          simp only [Bool.false_eq_true, ↓reduceIte]
          rw [Outcome.andThen_of_panicked hp, heffects]
          exact sendsPieces_nil.take k
  | requestVote msg => exact (s.handleRequestVoteRpc_noAppendEntries msg).sendsPieces.take k
  | requestVoteResponse msg => exact sendsPieces_nil.take k
  | clientRequest req =>
    show SendsPieces ((s.handleClientRequest order req).effects.take k)
    unfold handleClientRequest
    split
    · rename_i mi ni hst
      split
      · rename_i key value hcmd
        simp only [handleSetCommand, hst]
        exact broadcastEntry_sendsPieces order k rfl hlen
          (h.set mi ni hst req rfl (by rw [hcmd]; rfl))
      · exact sendsPieces_nil.take k
    · exact sendsPieces_nil.take k
  | clientResponse _ => exact sendsPieces_nil.take k
  | hello _ => exact sendsPieces_nil.take k
  | helloClient _ => exact sendsPieces_nil.take k

/-! ### Runs -/

omit [StateMachine σ] in
/-- What ends a wait makes a leader send pieces of its log only. -/
def KeepsPieces (s : Server σ) : Select → Prop
  | .rpc order incoming => ∀ k, s.Orderly order incoming k
  | .timer => True
  | .cancelled order incoming k => s.Orderly order incoming k

omit [StateMachine σ] in
theorem LoopSpec.sendsPieces {s : Server σ} {o : Outcome σ} (h : s.LoopSpec o)
    (hlen : s.log.length < 2 ^ 31) : SendsPieces o.effects := by
  rintro ⟨dest, m⟩ snap hmem msg rfl
  cases (h.ensures.sends hmem).2 with
  | heartbeat _ hnil hc =>
    refine ⟨(hc (Nat.le_of_lt hlen)).prev, 0, ?_⟩
    rw [hnil, List.take_zero]

theorem handler_sendsPieces {s : Server σ} {ev : Select} {incoming : Incoming} {order : List NodeId}
    {o : Outcome σ} (hlen : s.log.length < 2 ^ 31) (hkeeps : s.KeepsPieces ev)
    (hev : (ev = .rpc order incoming ∧ o = s.recieveRpc order incoming) ∨
      ∃ k, ev = .cancelled order incoming k ∧ (s.recieveRpc order incoming).cut k = some o) :
    SendsPieces o.effects := by
  rcases hev with ⟨rfl, rfl⟩ | ⟨k, rfl, hcut⟩
  · have hall := recieveRpc_sendsPieces hlen
      (hkeeps (s.recieveRpc order incoming).effects.length)
    rwa [List.take_length] at hall
  · have hfirst := recieveRpc_sendsPieces hlen hkeeps
    obtain ⟨out, snap, -, rfl⟩ := Outcome.cut_eq_some_iff.1 hcut
    exact hfirst

theorem turn_sendsPieces {s : Server σ} {ev : Select} {phases : List (Phase σ)}
    (hturn : s.turn ev = some phases) (hshort : ∀ x ∈ s :: passed phases, x.log.length < 2 ^ 31)
    (hkeeps : s.KeepsPieces ev) : ∀ p ∈ phases, SendsPieces p.outcome.effects := by
  have hlen := hshort s List.mem_cons_self
  cases hin : ev.incoming with
  | none =>
    cases ev with
    | timer =>
      cases hturn
      intro p hp
      obtain rfl := List.mem_singleton.1 hp
      have hloop : s.LoopSpec (s.afterTimer s.state) :=
        ⟨afterTimer_ensures rfl rfl, afterTimer_calls .., afterTimer_closes ..⟩
      exact hloop.sendsPieces hlen
    | rpc => cases hin
    | cancelled => cases hin
  | some incoming =>
    obtain ⟨order, o, ho, hphases⟩ := turn_handler hin hturn
    have hhandler : SendsPieces o.effects := handler_sendsPieces hlen hkeeps ho
    rcases hphases with ⟨-, rfl⟩ | ⟨hp, o', hloop, rfl⟩
    · intro p hmem
      obtain rfl := List.mem_singleton.1 hmem
      exact hhandler
    · have hlen' : o.server.log.length < 2 ^ 31 := by
        refine hshort _ (List.mem_cons_of_mem _ ?_)
        rw [passed_cons _ hp]
        exact List.mem_cons_self
      refine List.forall_mem_cons.2 ⟨hhandler, List.forall_mem_cons.2 ⟨?_, List.forall_mem_nil _⟩⟩
      exact hloop.sendsPieces hlen'

/-- **Well-formed replication messages.**  In a run whose logs stay below `2 ^ 31` entries and whose
leaders, at each wait, find `next_index` aligned for a Set and do not retry, every `AppendEntries`
describes one contiguous piece of the log of its sender. -/
theorem sends_pieces {s : Server σ} {evs : List Select}
    (hshort : ∀ x ∈ s :: passed (s.trace evs), x.log.length < 2 ^ 31)
    (hkeeps : ∀ v ∈ s.visits evs, v.1.KeepsPieces v.2) :
    ∀ p ∈ s.trace evs, SendsPieces p.outcome.effects := by
  induction evs generalizing s with
  | nil => exact List.forall_mem_nil _
  | cons ev evs ih =>
    rw [trace] at hshort ⊢
    rw [visits] at hkeeps
    cases hturn : s.turn ev with
    | none => exact List.forall_mem_nil _
    | some phases =>
      rw [hturn] at hshort hkeeps
      dsimp only at hshort hkeeps ⊢
      rw [passed_append] at hshort
      obtain ⟨hhere, hlater⟩ := List.forall_mem_cons.1 hkeeps
      have hturns : ∀ p ∈ phases, SendsPieces p.outcome.effects := by
        refine turn_sendsPieces hturn (fun x hx => hshort x ?_) hhere
        rw [← List.cons_append]
        exact List.mem_append_left _ hx
      refine List.forall_mem_append.2 ⟨hturns, ?_⟩
      cases hend : s.endOfTurn phases with
      | none => exact List.forall_mem_nil _
      | some s' =>
        rw [hend] at hshort hlater
        have hlast : s' ∈ s :: passed phases := List.mem_of_getLast? (getLast?_of_endOfTurn hend)
        refine ih (fun x hx => hshort x ?_) hlater
        rw [← List.cons_append]
        rcases List.mem_cons.1 hx with rfl | hx
        · exact List.mem_append_left _ hlast
        · exact List.mem_append_right _ hx

/-- The first Set of a leader, whose `next_index` is still the length of its log. -/
theorem sends_pieces_first_set :
    let s : Server SimpleStateMachine :=
      { Server.new 1 ⟨3, [1, 2, 3]⟩ SimpleStateMachine.new with
        state := .leader [-1, -1, -1, -1] [0, 0, 0, 0], currentTerm := 1 }
    ∀ p ∈ s.trace [.rpc [1, 2, 3] ⟨.client 7, .clientRequest ⟨.set "x" "1", 7, 1⟩⟩, .timer],
      SendsPieces p.outcome.effects := by
  intro s
  refine sends_pieces (by decide) (List.forall_mem_cons.2 ⟨fun k => ⟨?_, ?_⟩,
    List.forall_mem_singleton.2 trivial⟩)
  · rintro mi ni hst req - -
    cases hst
    exact aligned_replicate [] 4 _
  · rintro mi ni - peer reply hincoming
    cases hincoming

/-- Two Sets in a row: the second is sent right after the entry of the first, but its message still
names no entry. -/
theorem pipelined_set_no_piece :
    let s₀ := Server.new 1 ⟨3, [1, 2, 3]⟩ SimpleStateMachine.new
    let vote (peer : NodeId) : Select :=
      .rpc [1, 2, 3] ⟨.peer peer, .requestVoteResponse ⟨1, true⟩⟩
    let set (value : String) (requestId : ℕ) : Select :=
      .rpc [1, 2, 3] ⟨.client 7, .clientRequest ⟨.set "x" value, 7, requestId⟩⟩
    let first : LogEntry := ⟨1, .set "x" "1", 0, 7, 1⟩
    let second : LogEntry := ⟨1, .set "x" "2", 1, 7, 2⟩
    ∃ p ∈ s₀.trace [.timer, vote 2, vote 3, set "1" 1, set "2" 2], ∃ snap,
      .send ⟨.broadcast, .appendEntries ⟨1, 1, -1, 0, [second], -1⟩⟩ snap ∈ p.outcome.effects ∧
        snap.log = [first, second] ∧ ¬ SendsPieces p.outcome.effects := by
  dsimp only
  -- the phase of the second Set, after those of the timer, the votes and the first Set
  refine ⟨_, List.mem_of_getElem? (i := 7) rfl, ?_⟩
  refine ⟨_, .head _, rfl, fun hpieces => ?_⟩
  obtain ⟨-, k, hk⟩ := hpieces _ _ (.head _) _ rfl
  have hk : [_] = [_, _].take k := hk
  cases k with
  | zero => cases hk
  | succ k => exact absurd (List.cons.inj hk).1 (by decide)

end Server

end MiniRaft
