import MiniRaft.Cluster.WellFormed
import MiniRaft.Server.Panics
import MiniRaft.Server.SimpleStateMachine

/-!
# When a reply or a command crashes a leader

With short logs and the configuration of `ServerState::new`, every access of
`handle_append_entries_response` and `handle_set_command` to `match_index`, `next_index` and
`last_sent_index` is in bounds, and so is every access to the log but two: the retry after a
rejection reads `log[next_index[i]]`, and a new command reads `log[next_index[i] - 1]` for each
peer.  `next_index` starts from `last_applied` and may lie past the end of the log.
-/

namespace MiniRaft

variable {σ : Type}

namespace RaftState

/-- `next_index` of a leader. -/
def nextIndex : RaftState → List ℕ
  | leader _ nextIndex => nextIndex
  | _ => []

end RaftState

namespace Server

/-- The entry that the retry for a rejection of `sender` starts from is in the log. -/
def CanRetry (s : Server σ) (sender : Id) : Prop :=
  ∀ peer, sender = .peer peer → ∀ next ∈ s.state.nextIndex[peer]?, next - 1 < s.log.length

/-- The new entry does not fill the log, and the entry before `next_index[i]` will be in it for
every other node `i`. -/
def CanBroadcast (s : Server σ) : Prop :=
  ∀ peer ∈ s.config.peerAddresses, peer ≠ s.id → s.log.length + 1 < 2 ^ 31 ∧
    ∀ next ∈ s.state.nextIndex[peer]?, next ≤ s.log.length + 1

/-- The bookkeeping of the node `i` of the cluster `ids`. -/
structure Books (ids : List NodeId) (i : NodeId) (s : Server σ) : Prop where
  id : s.id = i
  config : s.config = ⟨ids.length, ids⟩
  lastSentLength : s.lastSentIndex.length = ids.length + 1
  lastSent : ∀ x ∈ s.lastSentIndex, 0 ≤ x ∧ x < 2 ^ 31
  commit : -1 ≤ s.commitIndex ∧ s.commitIndex + 1 < 2 ^ 31
  applied : -1 ≤ s.lastApplied ∧ s.lastApplied + 1 < 2 ^ 31
  indices : ∀ mi ni, s.state = .leader mi ni →
    mi.length = ids.length + 1 ∧ ni.length = ids.length + 1 ∧ ∀ x ∈ ni, x ≤ 2 ^ 31

/-! ### The bookkeeping of every node -/

theorem clampCommit_bounds {s : Server σ} (lc : ℤ) (hlen : s.log.length < 2 ^ 31)
    (hci : -1 ≤ s.commitIndex ∧ s.commitIndex + 1 < 2 ^ 31) :
    -1 ≤ s.clampCommit lc ∧ s.clampCommit lc + 1 < 2 ^ 31 := by
  unfold clampCommit
  split_ifs with h
  · have hpos : 0 < s.log.length := List.length_pos_iff.2 h.2
    omega
  · exact hci

theorem acceptedCommit_bounds {s : Server σ} {msg : AppendEntries} (hlen : s.log.length < 2 ^ 31)
    (hci : -1 ≤ s.commitIndex ∧ s.commitIndex + 1 < 2 ^ 31)
    (hlast : ∀ last ∈ msg.entries.getLast?, last.index + 1 < 2 ^ 31) :
    -1 ≤ s.acceptedCommit msg ∧ s.acceptedCommit msg + 1 < 2 ^ 31 := by
  have hclamp := clampCommit_bounds msg.leaderCommit hlen hci
  unfold acceptedCommit
  split
  · exact hclamp
  · rename_i last hl
    have hidx := hlast last hl
    split_ifs with hgt
    · rw [asI32_of_lt (by omega)]
      omega
    · exact hclamp

namespace Books

variable {ids : List NodeId} {i : NodeId} {s s' : Server σ}

theorem new (ids : List NodeId) (i : NodeId) (stateMachine : σ) :
    Books ids i (Server.new i ⟨ids.length, ids⟩ stateMachine) where
  id := rfl
  config := rfl
  lastSentLength := by simp [Server.new]
  lastSent := by
    intro x hx
    have := List.eq_of_mem_replicate hx
    omega
  commit := ⟨Int.le_refl _, by simp [Server.new]⟩
  applied := ⟨Int.le_refl _, by simp [Server.new]⟩
  indices _ _ h := by cases h

theorem becomeLeader (h : Books ids i s) : Books ids i s.becomeLeader := by
  refine ⟨h.id, h.config, h.lastSentLength, h.lastSent, h.commit, h.applied, fun mi ni hst => ?_⟩
  have hla := h.applied
  cases hst
  simp only [h.config, List.length_replicate, true_and]
  intro x hx
  rw [List.eq_of_mem_replicate hx]
  split_ifs with hneg
  · omega
  · rw [asUsize_toNat (by omega) (by omega)]
    omega

theorem goes (h : Books ids i s) (hg : s.Goes s') : Books ids i s' := by
  have hci := h.commit
  have hla := h.applied
  have applied : ∀ (sm : σ) (la : ℤ), s.lastApplied ≤ la → la ≤ max s.lastApplied s.commitIndex →
      Books ids i { s with stateMachine := sm, lastApplied := la } := fun sm la h₁ h₂ =>
    ⟨h.id, h.config, h.lastSentLength, h.lastSent, h.commit, by dsimp only; omega, h.indices⟩
  cases hg with
  | keep => exact h
  | apply sm la h₁ h₂ => exact applied sm la h₁ h₂
  | stand =>
    exact ⟨h.id, h.config, h.lastSentLength, h.lastSent, h.commit, h.applied,
      fun _ _ hst => by cases hst⟩
  | lead sm la h₁ h₂ => exact (applied sm la h₁ h₂).becomeLeader

theorem credits {sender : Id} {msg : AppendEntriesResponse} {mi : List ℤ} {ni : List ℕ}
    (h : Books ids i s) (hc : s.Credits sender msg mi ni) :
    mi.length = ids.length + 1 ∧ ni.length = ids.length + 1 ∧ ∀ x ∈ ni, x ≤ 2 ^ 31 := by
  cases hc with
  | success hst _ _ hlast =>
    obtain ⟨hmi, hni, hle⟩ := h.indices _ _ hst
    refine ⟨by rw [List.length_set, hmi], by rw [List.length_set, hni], fun x hx => ?_⟩
    rcases List.mem_or_eq_of_mem_set hx with hx | rfl
    · exact hle x hx
    · have := h.lastSent _ (List.mem_of_getElem? hlast)
      rw [asUsize_toNat this.1 (by omega)]
      omega
  | failure hst _ _ hnext =>
    obtain ⟨hmi, hni, hle⟩ := h.indices _ _ hst
    refine ⟨hmi, by rw [List.length_set, hni], fun x hx => ?_⟩
    rcases List.mem_or_eq_of_mem_set hx with hx | rfl
    · exact hle x hx
    · have := hle _ (List.mem_of_getElem? hnext)
      omega

theorem handles {incoming : Incoming} (h : Books ids i s) (hlen : s.log.length < 2 ^ 31)
    (hin : ∀ sender msg, incoming = ⟨sender, .appendEntries msg⟩ →
      ∀ last ∈ msg.entries.getLast?, last.index + 1 < 2 ^ 31)
    (hs : s.Handles incoming s') : Books ids i s' := by
  have hla := h.applied
  cases hs with
  | keep => exact h
  | stepDown =>
    exact ⟨h.id, h.config, h.lastSentLength, h.lastSent, h.commit, h.applied,
      fun _ _ hst => by cases hst⟩
  | @accept nodeId msg sm ci la log heq _ _ hcommits =>
    obtain ⟨rfl, hge, hle⟩ := hcommits hlen
    have hclamp := clampCommit_bounds msg.leaderCommit hlen h.commit
    exact ⟨h.id, h.config, h.lastSentLength, h.lastSent,
      acceptedCommit_bounds hlen h.commit (hin _ _ heq), by dsimp only; omega, h.indices⟩
  | vote =>
    exact ⟨h.id, h.config, h.lastSentLength, h.lastSent, h.commit, h.applied,
      fun _ _ hst => by cases hst⟩
  | win => exact h.becomeLeader
  | push key value ls _ _ _ hls hmem =>
    refine ⟨h.id, h.config, hls.trans h.lastSentLength, fun x hx => ?_, h.commit, h.applied,
      h.indices⟩
    rcases hmem hlen x hx with hx | rfl
    · exact h.lastSent x hx
    · omega
  | @response msg mi mi' ni sm n la _ _ hcredit hraise =>
    obtain ⟨hmi, hni, hle⟩ := h.credits hcredit
    cases hraise with
    | keep =>
      exact ⟨h.id, h.config, h.lastSentLength, h.lastSent, h.commit, h.applied,
        fun _ _ hst => by cases hst; exact ⟨hmi, hni, hle⟩⟩
    | commit hc hmi' hla' =>
      obtain ⟨hn, entry, hentry, -⟩ := hc.entry hlen
      have hlt := (List.getElem?_eq_some_iff.1 hentry).1
      have hlen' : mi'.length = ids.length + 1 := by
        rcases hmi' with rfl | rfl
        · exact hmi
        · rw [List.length_set, hmi]
      refine ⟨h.id, h.config, h.lastSentLength, h.lastSent, by dsimp only; omega,
        by dsimp only; omega, fun _ _ hst => ?_⟩
      cases hst
      exact ⟨hlen', hni, hle⟩

end Books

/-! ### The two handlers of a leader -/

section

variable [StateMachine σ] {ids : List NodeId} {i : NodeId} {s : Server σ}

/-- A reply panics only in the retry of a rejection. -/
theorem handleAppendEntriesResponse_panicked_iff {peer : NodeId} {msg : AppendEntriesResponse}
    (h : Books ids i s) (hlead : s.state.isLeader = true) (hlen : s.log.length < 2 ^ 31)
    (hi : i ≤ ids.length) (hpeer : peer ≤ ids.length) (htwo : 2 ≤ ids.length)
    (hgrown : msg.success = true → s.log ≠ []) :
    (s.handleAppendEntriesResponse (.peer peer) msg).panicked = true ↔
      msg.term ≤ s.currentTerm ∧ msg.success = false ∧ ¬ s.CanRetry (.peer peer) := by
  obtain ⟨mi, ni, hst⟩ := RaftState.isLeader_iff.1 hlead
  obtain ⟨hmi, hni, hle⟩ := h.indices mi ni hst
  have hnodes : s.config.totalNodes / 2 ≠ 0 := by
    rw [h.config]
    dsimp only
    omega
  have commitLoop : ∀ s', s.Noted (.peer peer) msg s' → s.log ≠ [] →
      (s'.advanceCommit msg.success).panicked = false := by
    rintro _ ⟨mi', ni', hcredit, rfl⟩ hne
    have hlen' : mi'.length = ids.length + 1 := (h.credits hcredit).1
    refine advanceCommit_not_panicked _ rfl hlen hne h.commit h.applied hnodes ?_
    rw [hlen', h.id]
    exact Nat.lt_succ_of_le hi
  have hslot : ∀ {n : ℕ}, n = ids.length + 1 → peer < n := by
    rintro _ rfl
    exact Nat.lt_succ_of_le hpeer
  have hnoted := noted_of_reply peer msg hst
  unfold handleAppendEntriesResponse
  simp only [hst]
  by_cases hgt : msg.term > s.currentTerm
  · have hnot : ¬ msg.term ≤ s.currentTerm := by omega
    simp [hgt, hnot]
  · have hterm : msg.term ≤ s.currentTerm := by omega
    simp only [hgt, ↓reduceIte, hterm, true_and, Outcome.andThen_panicked]
    cases hok : msg.success with
    | true =>
      rw [hok] at hnoted commitLoop
      have hp : (s.creditFollower mi ni peer).panicked = false :=
        creditFollower_not_panicked h.lastSent (hslot h.lastSentLength) (hslot hmi) (hslot hni)
      simp only [↓reduceIte] at hnoted ⊢
      rw [hp, commitLoop _ (hnoted.server hp) (hgrown hok)]
      simp
    | false =>
      rw [hok] at hnoted commitLoop
      have hlt : peer < ni.length := hslot hni
      have hget : ni[peer]? = some ni[peer] := List.getElem?_eq_getElem hlt
      have hretry := retryFollower_panicked_iff s mi hget (hle _ (List.getElem_mem _))
      have hcan : s.CanRetry (.peer peer) ↔ ni[peer] - 1 < s.log.length := by
        simp [CanRetry, hst, RaftState.nextIndex, hget]
      rw [hcan]
      simp only [Bool.false_eq_true, ↓reduceIte, true_and] at hnoted ⊢
      cases hp : (s.retryFollower mi ni peer).panicked with
      | true => simpa using hretry.1 hp
      | false =>
        have hlt : ni[peer] - 1 < s.log.length := by
          by_contra hbad
          rw [hretry.2 hbad] at hp
          cases hp
        have hne : s.log ≠ [] := fun hnil => by simp [hnil] at hlt
        rw [commitLoop _ (hnoted.server hp) hne]
        simpa using hlt

omit [StateMachine σ] in
/-- A client's request panics only in the broadcast of a `Set`. -/
theorem handleClientRequest_panicked_iff {order : List NodeId} (req : ClientRequest)
    (h : Books ids i s) (hlead : s.state.isLeader = true) (hlen : s.log.length < 2 ^ 31)
    (hids : ∀ j ∈ ids, j ≤ ids.length) (horder : order.Perm s.config.peerAddresses) :
    (s.handleClientRequest order req).panicked = true ↔
      req.command.isSet = true ∧ ¬ s.CanBroadcast := by
  obtain ⟨mi, ni, hst⟩ := RaftState.isLeader_iff.1 hlead
  obtain ⟨-, hni, hle⟩ := h.indices mi ni hst
  unfold handleClientRequest
  simp only [hst]
  cases hcmd : req.command with
  | get => simp [LogCommand.isSet]
  | delete => simp [LogCommand.isSet]
  | set key value =>
    simp only [handleSetCommand, hst, LogCommand.isSet, true_and]
    have hmem : ∀ peer ∈ order, peer ∈ ids := fun peer hp => by
      have := horder.mem_iff.1 hp
      rwa [h.config] at this
    have hsend : ∀ entry, ∀ peer ∈ order, CanSendTo { s with log := s.log ++ [entry] } ni peer ↔
        s.log.length + 1 < 2 ^ 31 ∧ ∀ next ∈ ni[peer]?, next ≤ s.log.length + 1 := by
      intro entry peer hp
      have hslot : peer < ids.length + 1 := Nat.lt_succ_of_le (hids peer (hmem peer hp))
      have hlen' : (s.log ++ [entry]).length = s.log.length + 1 := by
        rw [List.length_append, List.length_singleton]
      rw [canSendTo_iff (hlen'.trans_le hlen) (by rwa [h.lastSentLength]) (by rwa [hni]) hle, hlen']
    rw [broadcastEntry_panicked_iff]
    unfold CanBroadcast
    rw [hst]
    constructor
    · rintro ⟨peer, hp, hne, hbad⟩ hall
      exact hbad ((hsend _ peer hp).2 (hall peer (horder.mem_iff.1 hp) hne))
    · intro hbad
      by_contra hnone
      refine hbad fun peer hp hne => ?_
      have hp := horder.mem_iff.2 hp
      by_contra hbad'
      exact hnone ⟨peer, hp, hne, (hsend _ peer hp).not.2 hbad'⟩

end

end Server

namespace Cluster

open Server

variable [StateMachine σ] {ids : List NodeId} {stateMachine : NodeId → σ}
  {G : Cluster σ → Action → Prop} {c : Cluster σ}

theorem preserved_books (hG : ∀ (c : Cluster σ) a, G c a → Short ids c a) :
    Preserved ids stateMachine G (Books ids) fun _ => True where
  init i := .new ids i _
  handles := by
    intro c a i incoming log s before hg harr h
    refine (before.nodes i).handles (hG _ _ hg i before.mem) ?_ h.1
    rintro sender msg rfl last hlast
    obtain ⟨e, he, -, -, hmsg⟩ := harr.appendEntries
    obtain ⟨-, hc, hlog⟩ := before.visited.fromLog hG he hmsg
    obtain ⟨a, -, hentries, -⟩ := hc.piece
    rw [Option.mem_def, hentries] at hlast
    have := (hlog.numbered.index_getLast? hlast).1
    have := hc.length
    omega
  emits _ _ _ _ _ := trivial
  goes before h := (before.nodes _).goes h
  announces _ _ _ := trivial

/-- Who has sent entries, or has been told that they were accepted, has a non-empty log. -/
structure Grown (c : Cluster σ) (e : Envelope σ) : Prop where
  sender : ∀ msg, e.msg = .appendEntries msg → msg.entries ≠ [] → c.crashed e.src = false →
    (c.nodes e.src).log ≠ []
  receiver : ∀ msg, e.msg = .appendEntriesResponse msg → msg.success = true →
    c.crashed e.dst = false → (c.nodes e.dst).log ≠ []

omit [StateMachine σ] in
theorem Grown.step {c c' : Cluster σ} {e : Envelope σ} (h : Grown c e)
    (hlog : ∀ j, c'.crashed j = false → c.crashed j = false ∧
      ((c.nodes j).log ≠ [] → (c'.nodes j).log ≠ [])) : Grown c' e where
  sender msg hmsg hne hc := (hlog _ hc).2 (h.sender msg hmsg hne (hlog _ hc).1)
  receiver msg hmsg hok hc := (hlog _ hc).2 (h.receiver msg hmsg hok (hlog _ hc).1)

omit [StateMachine σ] in
theorem PhaseOf.log_ne_nil {c' : Cluster σ} {i : NodeId} {cause : Option Message}
    {P : Server σ → Prop} {Q : Outgoing → Server σ → Prop} {A : ℕ → LogCommand → Prop}
    (h : c.PhaseOf ids i cause P Q A c') (hP : ∀ s, P s → (c.nodes i).log ≠ [] → s.log ≠ [])
    (j : NodeId) (hc : c'.crashed j = false) :
    c.crashed j = false ∧ ((c.nodes j).log ≠ [] → (c'.nodes j).log ≠ []) := by
  by_cases hj : j = i
  · subst hj
    exact ⟨h.alive, hP _ (h.ran hc)⟩
  · obtain ⟨hnode, hcrash⟩ := h.others j hj
    rw [hnode, ← hcrash]
    exact ⟨hc, id⟩

theorem Visited.handles_ne_nil (hv : Visited ids stateMachine G c)
    (hG : ∀ (c : Cluster σ) a, G c a → Short ids c a) {a : Action} {i : NodeId}
    {incoming : Incoming} {s : Server σ} (harr : c.Arrives a i incoming)
    (hs : (c.nodes i).Handles incoming s) (hne : (c.nodes i).log ≠ []) : s.log ≠ [] := by
  cases hs with
  | accept sm ci la log heq _ hmerge =>
    subst heq
    obtain ⟨e, he, -, -, hmsg⟩ := harr.appendEntries
    obtain ⟨a, hacc⟩ := hv.accepted hG he hmsg hmerge
    exact hacc.graft.ne_nil hne
  | push => exact List.append_ne_nil_of_left_ne_nil hne _
  | keep | stepDown | vote | win | response => exact hne

omit [StateMachine σ] in
/-- What a handler sends: entries come out of its log, and a success goes to a node that has sent
entries. -/
theorem HandlerPhase.grown {c' : Cluster σ} {a : Action} {i : NodeId} {incoming : Incoming}
    {log : List LogEntry} {e : Envelope σ} (hphase : c.HandlerPhase ids i incoming log c')
    (hshort : Short ids c a) (harr : c.Arrives a i incoming) (ih : ∀ e ∈ c.sent, Grown c e)
    (hby : SentBy ids i (some incoming.msg) (fun out s => (c.nodes i).HandlesTo incoming log s ∧
      (c.nodes i).Emits incoming out s) e) : Grown c' e := by
  obtain ⟨dest, ⟨⟨-, hsnap⟩, hemit⟩, hdest⟩ := hby.out
  constructor
  · intro msg hmsg hne hc
    rw [hmsg] at hemit
    rw [hby.src] at hc ⊢
    obtain ⟨-, -, hcarries, -⟩ := hemit.appendEntries
    obtain ⟨a, -, hentries, -⟩ := (hcarries (hshort i hphase.mem)).piece
    obtain ⟨-, hnode⟩ := hphase.ran hc
    rw [hnode, ← hsnap]
    intro hnil
    rw [hentries, hnil, List.drop_nil] at hne
    exact hne rfl
  · intro msg hmsg hok hc
    obtain ⟨hnode, hcrash⟩ := hphase.others e.dst hby.ne
    rw [hmsg] at hemit
    rw [hnode]
    rw [hcrash] at hc
    -- the reply goes back to the sender of the entries
    obtain ⟨nodeId, msg', rfl, rfl, -, hne, -⟩ := hemit.success hok
    obtain ⟨e', he', -, hsender, hmsg'⟩ := harr.appendEntries
    have hdst : e'.src = e.dst := by
      rcases hdest with h | h
      · cases h
      · rw [Destination.node.injEq] at h
        rw [Id.peer.injEq] at hsender
        exact hsender.symm.trans h
    rw [← hdst] at hc ⊢
    exact (ih e' he').sender _ hmsg' hne hc

omit [StateMachine σ] in
theorem SentBy.grown {c' : Cluster σ} {i : NodeId} {e : Envelope σ}
    (hby : SentBy ids i none (fun out s => (c.nodes i).Goes s ∧ (c.nodes i).Announces out s) e) :
    Grown c' e := by
  obtain ⟨dest, ⟨-, hann⟩, -⟩ := hby.out
  constructor
  · intro msg hmsg hne
    rw [hmsg] at hann
    cases hann with
    | heartbeat _ hnil => exact absurd hnil hne
  · intro msg hmsg
    rw [hmsg] at hann
    cases hann

theorem Visited.grown (hG : ∀ (c : Cluster σ) a, G c a → Short ids c a)
    (h : Visited ids stateMachine G c) : ∀ e ∈ c.sent, Grown c e := by
  induction h with
  | init => simp [Cluster.init]
  | handler hv hg hs ih =>
    obtain ⟨i, incoming, log, harr, -, hphase⟩ := hs
    intro e he
    rcases hphase.sentBy he with he | he
    · exact (ih e he).step (hphase.log_ne_nil fun s hs => hv.handles_ne_nil hG harr hs.1)
    · exact hphase.grown (hG _ _ hg) harr ih he
  | loop hv hs ih =>
    obtain ⟨i, -, hphase⟩ := hs
    intro e he
    rcases hphase.sentBy he with he | he
    · refine (ih e he).step (hphase.log_ne_nil fun s hs hne => ?_)
      rwa [hs.log_eq]
    · exact he.grown

/-- No reply and no command panics at a leader that handles it to the end. -/
def LeaderHandled (σ : Type) [StateMachine σ] (c : Cluster σ) (a : Action) : Prop :=
  a.cut = none → Meets (fun s order incoming => s.state.isLeader = true →
    incoming.msg.asAppendEntriesResponse.isSome ∨ incoming.msg.asClientRequest.isSome →
      (s.recieveRpc order incoming).panicked = false) c a

/-- A leader finds the entries that a retry and a broadcast start from. -/
def LeaderSafe (σ : Type) (c : Cluster σ) (a : Action) : Prop :=
  a.cut = none → Meets (fun s _ incoming => s.state.isLeader = true →
    (∀ msg ∈ incoming.msg.asAppendEntriesResponse, msg.term ≤ s.currentTerm →
      msg.success = false → s.CanRetry incoming.sender) ∧
    ∀ req ∈ incoming.msg.asClientRequest, req.command.isSet = true → s.CanBroadcast) c a

instance : ∀ (c : Cluster σ) (a : Action), Decidable (LeaderHandled σ c a) :=
  fun _ a => inferInstanceAs (Decidable (a.cut = none → Meets _ _ _))

theorem of_act (ds : List ℕ) {i : NodeId} {order : List NodeId} {incoming : Incoming} {c' : Cluster σ}
    (h : act ids { c with delivered := ds } i (.rpc order incoming) = some c') :
    i ∈ ids ∧ c.crashed i = false ∧ order.Perm (c.nodes i).config.peerAddresses := by
  simp only [act, turn] at h
  split_ifs at h with hrun hperm
  · exact ⟨hrun.1, hrun.2, hperm⟩
  · exact ⟨hrun.1, hrun.2, hperm⟩
  · cases h

theorem leaderHandled_iff (hids : ∀ i ∈ ids, i ≤ ids.length) (htwo : 2 ≤ ids.length)
    {c' : Cluster σ} {a : Action} (hv : Visited ids stateMachine (Short ids) c)
    (hshort : Short ids c a) (hn : next ids c a = some c') :
    LeaderHandled σ c a ↔ LeaderSafe σ c a := by
  have hbooks := ((preserved_books (G := Short ids) fun _ _ h => h).visited hv).1
  refine imp_congr_right fun hcut => ?_
  have request : ∀ {i : NodeId} {order : List NodeId} (req : ClientRequest) (sender : Id),
      i ∈ ids → order.Perm (c.nodes i).config.peerAddresses → ((c.nodes i).state.isLeader = true →
        (((c.nodes i).recieveRpc order ⟨sender, .clientRequest req⟩).panicked = false ↔
          (req.command.isSet = true → (c.nodes i).CanBroadcast))) := by
    intro i order req sender hi hperm hlead
    have hpan := handleClientRequest_panicked_iff req (hbooks i) hlead (hshort i hi) hids hperm
    rw [← Bool.not_eq_true]
    exact (not_congr hpan).trans (by rw [not_and, not_not])
  cases a with
  | timeout => exact Iff.rfl
  | request node client req order cut =>
    cases hcut
    obtain ⟨hi, -, hperm⟩ := of_act c.delivered hn
    have := request req (.client client) hi hperm
    simp only [Meets, Message.asAppendEntriesResponse, Message.asClientRequest]
    refine forall_congr' fun hlead => ?_
    simpa using this hlead
  | deliver k order cut =>
    cases hcut
    refine forall₂_congr fun e he => forall_congr' fun hlead => ?_
    rw [Option.mem_def] at he
    simp only [next, he] at hn
    obtain ⟨hi, hc, hperm⟩ := of_act _ hn
    have hmem : e ∈ c.sent := List.mem_of_getElem? he
    have hsrc : e.src ≤ ids.length :=
      hids _ (hv.ends hmem).1
    cases hmsg : e.msg with
    | appendEntriesResponse msg =>
      have hgrown : msg.success = true → (c.nodes e.dst).log ≠ [] := fun hok =>
        (hv.grown (fun _ _ h => h) e hmem).receiver msg hmsg hok hc
      have hpan := handleAppendEntriesResponse_panicked_iff (hbooks e.dst) hlead (hshort _ hi)
        (hids _ hi) hsrc htwo hgrown
      simp only [Message.asAppendEntriesResponse, Message.asClientRequest, recieveRpc,
        Option.isSome_some, true_or, forall_const, Option.mem_def, Option.some.injEq, forall_eq',
        reduceCtorEq, false_implies, implies_true, and_true]
      rw [← Bool.not_eq_true]
      exact (not_congr hpan).trans (by rw [not_and, not_and, not_not])
    | clientRequest req =>
      have := request req (.peer e.src) hi hperm hlead
      simpa [Message.asAppendEntriesResponse, Message.asClientRequest] using this
    | _ => simp [Message.asAppendEntriesResponse, Message.asClientRequest]

/-- **Crashes of leaders.**  Among the runs with short logs, those in which no reply and no command
panics at a leader are exactly those in which every retry and every broadcast finds the entry it
starts from. -/
theorem leader_never_panics_iff (hids : ∀ i ∈ ids, i ≤ ids.length) (htwo : 2 ≤ ids.length)
    {acts : List Action} :
    (machine σ ids).Run (Machine.both (Short ids) (LeaderHandled σ))
        (init ids stateMachine) acts c ↔
      (machine σ ids).Run (Machine.both (Short ids) (LeaderSafe σ))
        (init ids stateMachine) acts c := by
  refine Machine.Run.congr (I := Visited ids stateMachine (Short ids)) .init ?_ ?_
  · intro c a c' hv hG hn
    exact visited_of_next hv hG.1 hn
  · intro c a c' hv hn
    exact and_congr_right fun hshort => leaderHandled_iff hids htwo hv hshort hn

/-- A run of three nodes: one leads, takes a command, and commits it with another. -/
theorem leader_never_panics_iff_committed :
    ∃ c, (machine SimpleStateMachine [1, 2, 3]).Run
      (Machine.both (Short [1, 2, 3]) (LeaderSafe SimpleStateMachine))
      (init [1, 2, 3] fun _ => .new)
      [.timeout 1, .receive [1, 2, 3] 0, .receive [1, 2, 3] 1, .receive [1, 2, 3] 2,
        .receive [1, 2, 3] 3, .set [1, 2, 3] 1 "x" "1", .receive [1, 2, 3] 8,
        .receive [1, 2, 3] 12] c := by
  have hrun : ((machine SimpleStateMachine [1, 2, 3]).exec
      (Machine.both (Short [1, 2, 3]) (LeaderHandled SimpleStateMachine))
      (init [1, 2, 3] fun _ => .new)
      [.timeout 1, .receive [1, 2, 3] 0, .receive [1, 2, 3] 1, .receive [1, 2, 3] 2,
        .receive [1, 2, 3] 3, .set [1, 2, 3] 1 "x" "1", .receive [1, 2, 3] 8,
        .receive [1, 2, 3] 12]).isSome = true := by
    decide
  obtain ⟨c, hc⟩ := Option.isSome_iff_exists.1 hrun
  exact ⟨c, (leader_never_panics_iff (by decide) (by decide)).1 (Machine.run_of_exec hc)⟩

/-- Node 3, without entries, wins term 1 by two votes of node 2, which holds one; its heartbeat is
rejected, and the retry reads `log[0]`. -/
theorem leader_panics :
    ∃ c : Cluster SimpleStateMachine,
      (machine SimpleStateMachine [1, 2, 3]).Reach Orderly (init [1, 2, 3] fun _ => .new) c ∧
        c.Orderly (.receive [1, 2, 3] 21) ∧
        ¬ LeaderHandled SimpleStateMachine c (.receive [1, 2, 3] 21) := by
  have hrun : ((machine SimpleStateMachine [1, 2, 3]).exec Orderly (init [1, 2, 3] fun _ => .new)
      [.timeout 1, .receive [1, 2, 3] 0, .receive [1, 2, 3] 1, .receive [1, 2, 3] 2,
        .receive [1, 2, 3] 3, .set [1, 2, 3] 1 "x" "1", .receive [1, 2, 3] 8, .timeout 3,
        .receive [1, 2, 3] 14, .receive [1, 2, 3] 15, .receive [1, 2, 3] 17,
        .receive [1, 2, 3] 18, .receive [1, 2, 3] 20]).any
      (fun c => decide (c.Orderly (.receive [1, 2, 3] 21) ∧
        ¬ LeaderHandled SimpleStateMachine c (.receive [1, 2, 3] 21))) = true := by
    decide
  exact Machine.exists_reach_of_exec hrun

end Cluster

end MiniRaft
