import MiniRaft.Cluster.LeaderCompleteness
import MiniRaft.Cluster.LeaderCrash

/-!
# State machine safety

A node applies what lies within its commit index, and a follower takes that from the leader's
messages.  `apply_latest_commited_logs` cuts `leader_commit` to the length of the log before the
entries of the message are merged, and so may take old entries for committed ones; the guard
`SharesCommits` rules this out.  What is committed is then decided, and decided entries are in the
log of every later leader.
-/

namespace MiniRaft

open Consensus

variable {σ : Type}

namespace Cluster

open Server

/-- Where an accepted `AppendEntries` raises the commit index before its entries are merged, sender
and receiver have the same entry. -/
def SharesCommits (c : Cluster σ) : Action → Prop
  | .deliver k _ _ => ∀ e ∈ c.sent[k]?, ∀ msg ∈ e.msg.asAppendEntries, (c.nodes e.dst).Accepts msg →
      (c.nodes e.dst).commitIndex < (c.nodes e.dst).clampCommit msg.leaderCommit →
      ∀ x ∈ (c.nodes e.dst).log[((c.nodes e.dst).clampCommit msg.leaderCommit).toNat]?,
        ∀ y ∈ e.snap.log[((c.nodes e.dst).clampCommit msg.leaderCommit).toNat]?, x.term = y.term
  | _ => True

instance (c : Cluster σ) : (a : Action) → Decidable (SharesCommits c a)
  | .deliver k _ _ => inferInstanceAs (Decidable (∀ e ∈ c.sent[k]?, ∀ msg ∈ e.msg.asAppendEntries,
      (c.nodes e.dst).Accepts msg → _ < _ → ∀ x ∈ (c.nodes e.dst).log[_]?, ∀ y ∈ e.snap.log[_]?, _))
  | .request .. => inferInstanceAs (Decidable True)
  | .timeout _ => inferInstanceAs (Decidable True)

/-- The guard of leader completeness, and that followers commit what their leader has committed. -/
def Sharing (ids : List NodeId) : Cluster σ → Action → Prop :=
  Machine.both (Faithful ids) SharesCommits

instance (ids : List NodeId) : ∀ (c : Cluster σ) (a : Action), Decidable (Sharing ids c a) :=
  inferInstanceAs (∀ c a, Decidable (Machine.both _ _ c a))

/-- Up to the index `m` the log is decided, in terms up to `T`. -/
def Settled (R : Reigns LogEntry) (ids : List NodeId) (c : Cluster σ) (T : ℕ) (m : ℤ)
    (l : List LogEntry) : Prop :=
  0 ≤ m → ∃ t ≤ T, ∃ k : ℕ, Decided R ids c t k ∧ m ≤ k ∧ Holds R t m.toNat l

/-- The command is that of a decided entry at the index. -/
def Chosen (R : Reigns LogEntry) (ids : List NodeId) (c : Cluster σ) (index : ℕ)
    (command : LogCommand) : Prop :=
  ∃ t k, Decided R ids c t k ∧ index ≤ k ∧
    ∃ r, R t = some r ∧ ∃ entry, r.log[index]? = some entry ∧ entry.command = command

variable {ids : List NodeId} {c c' : Cluster σ} {R R' : Reigns LogEntry} {i v : NodeId}
  {t k T : ℕ} {m : ℤ} {l l' : List LogEntry}

/-! ### What is decided stays decided -/

theorem Silent.later {cause : Option Message} {P : Server σ → Prop} {Q : Outgoing → Server σ → Prop}
    {A : ℕ → LogCommand → Prop} (hphase : c.PhaseOf ids i cause P Q A c') (h : Silent c v t) :
    Silent c' v t := by
  obtain ⟨hc, hup⟩ := h
  have hne : v ≠ i := by
    rintro rfl
    rw [hphase.alive] at hc
    cases hc
  exact ⟨by rw [(hphase.others v hne).2]; exact hc, hphase.votedUpTo hup fun h => absurd h hne⟩

theorem Decided.later {cause : Option Message} {P : Server σ → Prop}
    {Q : Outgoing → Server σ → Prop} {A : ℕ → LogCommand → Prop} (h : Decided R ids c t k)
    (hgrow : Grows R R') (hlater : c.Later c') (hphase : c.PhaseOf ids i cause P Q A c') :
    Decided R' ids c' t k where
  quorum := h.quorum.mono fun v _ hv => hv.imp (fun hack => hack.later hlater) fun hs => hs.later hphase
  own := by
    obtain ⟨r, hr, hbase, hlt⟩ := h.own
    obtain ⟨r', hr', hbase', hlog⟩ := hgrow t r hr
    exact ⟨r', hr', by rwa [hbase'], Nat.lt_of_lt_of_le hlt hlog.length_le⟩

theorem Chosen.later {cause : Option Message} {P : Server σ → Prop} {Q : Outgoing → Server σ → Prop}
    {A : ℕ → LogCommand → Prop} {index : ℕ} {command : LogCommand}
    (h : Chosen R ids c index command) (hgrow : Grows R R') (hlater : c.Later c')
    (hphase : c.PhaseOf ids i cause P Q A c') : Chosen R' ids c' index command := by
  obtain ⟨t, k, hd, hk, r, hr, entry, hentry, hcmd⟩ := h
  obtain ⟨r', hr', -, hlog⟩ := hgrow t r hr
  exact ⟨t, k, hd.later hgrow hlater hphase, hk, r', hr', entry, getElem?_of_isPrefix hlog hentry, hcmd⟩

namespace Settled

theorem later {cause : Option Message} {P : Server σ → Prop} {Q : Outgoing → Server σ → Prop}
    {A : ℕ → LogCommand → Prop} (h : Settled R ids c T m l) (hgrow : Grows R R')
    (hlater : c.Later c') (hphase : c.PhaseOf ids i cause P Q A c') : Settled R' ids c' T m l := by
  intro hm
  obtain ⟨t, ht, k, hd, hk, hheld⟩ := h hm
  exact ⟨t, ht, k, hd.later hgrow hlater hphase, hk, hheld.mono hgrow⟩

theorem raise {T' : ℕ} (h : Settled R ids c T m l) (hT : T ≤ T') : Settled R ids c T' m l := by
  intro hm
  obtain ⟨t, ht, hrest⟩ := h hm
  exact ⟨t, Nat.le_trans ht hT, hrest⟩

theorem of_le {m' : ℤ} (h : Settled R ids c T m l) (hm : m' ≤ m) : Settled R ids c T m' l := by
  intro hm'
  obtain ⟨t, ht, k, hd, hk, hheld⟩ := h (by omega)
  exact ⟨t, ht, k, hd, by omega, hheld.of_le (by omega)⟩

theorem mono_log (h : Settled R ids c T m l) (hl : l <+: l') : Settled R ids c T m l' := by
  intro hm
  obtain ⟨t, ht, k, hd, hk, hheld⟩ := h hm
  exact ⟨t, ht, k, hd, hk, hheld.mono_log hl⟩

theorem adopt {r : Reign LogEntry} (h : Settled R ids c T m l) (hR : Reigned R c)
    (hmem : Remembers R ids c) (hr : R T = some r) (hbase : r.base <+: l') (hlog : l' <+: r.log)
    (hnot : ¬ l' <+: l) : Settled R ids c T m l' := by
  intro hm
  obtain ⟨t, ht, k, hd, hk, hheld⟩ := h hm
  refine ⟨t, ht, k, hd, hk, ?_⟩
  rcases Nat.lt_or_eq_of_le ht with hlt | rfl
  · exact ((hmem.complete hR hd hr hlt).mono_log hbase).of_le (by omega)
  · exact hheld.adopt hr hlog hnot

theorem chosen {index : ℕ} {entry : LogEntry} (h : Settled R ids c T m l) (hi : (index : ℤ) ≤ m)
    (hentry : l[index]? = some entry) : Chosen R ids c index entry.command := by
  obtain ⟨t, -, k, hd, hk, hheld⟩ := h (by omega)
  obtain ⟨r, hr, hlt, hpre⟩ := hheld
  refine ⟨t, k, hd, by omega, r, hr, entry, ?_, rfl⟩
  rw [← hentry]
  exact (Holds.of_isPrefix hr (List.prefix_refl _) hlt).getElem?_eq ⟨r, hr, hlt, hpre⟩ (by omega)

end Settled

/-- What every node regards as committed, what every `AppendEntries` says is committed and what has
been applied are all decided. -/
structure Safe (R : Reigns LogEntry) (ids : List NodeId) (c : Cluster σ) : Prop where
  nodes : ∀ i, Settled R ids c (c.nodes i).currentTerm (c.nodes i).commitIndex (c.nodes i).log
  sent : ∀ e ∈ c.sent, ∀ msg, e.msg = .appendEntries msg →
    Settled R ids c msg.term msg.leaderCommit e.snap.log
  applied : ∀ {i index command}, .applied i index command ∈ c.history → Chosen R ids c index command

/-- **One phase**, whose server, messages and applied commands are all right. -/
theorem Safe.phase {cause : Option Message} {P : Server σ → Prop} {Q : Outgoing → Server σ → Prop}
    {A : ℕ → LogCommand → Prop} (h : Safe R ids c) (hgrow : Grows R R') (hlater : c.Later c')
    (hphase : c.PhaseOf ids i cause P Q A c')
    (hnode : c'.crashed i = false →
      Settled R' ids c' (c'.nodes i).currentTerm (c'.nodes i).commitIndex (c'.nodes i).log)
    (hsend : ∀ e, SentBy ids i cause (fun out s => P s ∧ Q out s) e → ∀ msg,
      e.msg = .appendEntries msg → Settled R' ids c' msg.term msg.leaderCommit e.snap.log)
    (hcalls : ∀ index command, A index command → Chosen R' ids c' index command) :
    Safe R' ids c' where
  nodes := by
    intro j
    rcases hphase.moved j with hsame | ⟨rfl, hc, -⟩
    · rw [hsame]
      exact (h.nodes j).later hgrow hlater hphase
    · exact hnode hc
  sent := by
    intro e he msg hmsg
    rcases hphase.sentBy he with he | he
    · exact (h.sent e he msg hmsg).later hgrow hlater hphase
    · exact hsend e he msg hmsg
  applied := by
    intro j index command hev
    rcases hphase.event hev with hev | ⟨_, _, heq, hcall⟩ | ⟨-, hev⟩
    · exact (h.applied hev).later hgrow hlater hphase
    · cases heq
      exact hcalls index command hcall
    · exact absurd hev notMem_changeOf_applied

/-! ### What a follower takes for committed -/

theorem clampCommit_le (s : Server σ) (lc : ℤ) :
    s.clampCommit lc ≤ s.commitIndex ∨
      s.commitIndex < s.clampCommit lc ∧ s.clampCommit lc ≤ lc ∧ s.clampCommit lc < s.log.length := by
  unfold clampCommit
  split_ifs with h
  · by_cases hle : min lc ((s.log.length : ℤ) - 1) ≤ s.commitIndex
    · exact .inl hle
    · exact .inr ⟨by omega, by omega, by omega⟩
  · exact .inl (Int.le_refl _)

theorem acceptedCommit_le (s : Server σ) (msg : AppendEntries) :
    s.acceptedCommit msg ≤ s.clampCommit msg.leaderCommit ∨
      msg.entries ≠ [] ∧ s.acceptedCommit msg ≤ msg.leaderCommit := by
  unfold acceptedCommit
  split
  · exact .inl (Int.le_refl _)
  · rename_i last hlast
    split_ifs with hgt
    · refine .inr ⟨fun hnil => ?_, min_le_left _ _⟩
      rw [hnil] at hlast
      cases hlast
    · exact .inl (Int.le_refl _)

theorem SharesCommits.apply {a : Action} {sender : Id} {msg : AppendEntries} (h : SharesCommits c a)
    (harr : c.Arrives a i ⟨sender, .appendEntries msg⟩) (hacc : (c.nodes i).Accepts msg) :
    ∃ e ∈ c.sent, e.msg = .appendEntries msg ∧
      ((c.nodes i).commitIndex < (c.nodes i).clampCommit msg.leaderCommit →
        ∀ x ∈ (c.nodes i).log[((c.nodes i).clampCommit msg.leaderCommit).toNat]?,
          ∀ y ∈ e.snap.log[((c.nodes i).clampCommit msg.leaderCommit).toNat]?, x.term = y.term) := by
  obtain ⟨k, order, cut, e, rfl, he, rfl, heq⟩ := harr.envelope fun _ h => by cases h
  rw [Incoming.mk.injEq] at heq
  refine ⟨e, List.mem_of_getElem? he, heq.2.symm, ?_⟩
  exact h e he msg (by rw [← heq.2]; rfl) hacc

/-- Before the entries of an accepted message are merged, what the receiver takes for committed is
decided. -/
theorem Safe.clamped (h : Safe R ids c) (hR : Reigned R c) {a : Action} {sender : Id}
    {msg : AppendEntries} (hshare : SharesCommits c a)
    (harr : c.Arrives a i ⟨sender, .appendEntries msg⟩) (hacc : (c.nodes i).Accepts msg) :
    Settled R ids c msg.term ((c.nodes i).clampCommit msg.leaderCommit) (c.nodes i).log := by
  rcases clampCommit_le (c.nodes i) msg.leaderCommit with hle | ⟨hlt, hlc, hlen⟩
  · exact ((h.nodes i).of_le hle).raise hacc.1
  · -- the sender has the same log up to there
    obtain ⟨e, he, hmsg, hsame⟩ := hshare.apply harr hacc
    intro hpos
    obtain ⟨t, ht, k, hd, hk, hheld⟩ := (h.sent e he msg hmsg).of_le hlc hpos
    refine ⟨t, ht, k, hd, hk, hheld.of_take_eq ?_⟩
    obtain ⟨r, hr, -, hpre⟩ := hR.sent e he msg hmsg
    have hy := List.getElem?_eq_getElem hheld.lt_length
    have hx : (c.nodes i).log[((c.nodes i).clampCommit msg.leaderCommit).toNat]? = some _ :=
      List.getElem?_eq_getElem (by omega)
    exact ((hR.lawful.rooted_log hr).of_isPrefix hpre).matching (hR.nodes i) hy hx
      (hsame hlt _ hx _ hy).symm

variable [StateMachine σ] {stateMachine : NodeId → σ} {G : Cluster σ → Action → Prop}

section

variable (hG : ∀ (c : Cluster σ) a, G c a → Sharing ids c a)
include hG

theorem Safe.accepted (h : Safe R ids c) (hR : Reigned R c) (hmem : Remembers R ids c)
    (hv : Visited ids stateMachine G c) {a : Action} {sender : Id} {msg : AppendEntries}
    {log : List LogEntry} {ci la : ℤ} (hg : G c a)
    (harr : c.Arrives a i ⟨sender, .appendEntries msg⟩) (hacc : (c.nodes i).Accepts msg)
    (hmerge : mergedLog (c.nodes i).log msg.entries = some log)
    (hcommits : (c.nodes i).Commits msg ci la) (hlen : (c.nodes i).log.length < 2 ^ 31) :
    Settled R ids c msg.term ci log := by
  have hclamped := h.clamped hR (hG _ _ hg).2 harr hacc
  obtain ⟨e, he, -, -, hmsg, hlog⟩ :=
    hR.merge (fun c a hg => (hG c a hg).1.1) hv hg harr hacc hmerge
  obtain ⟨r, hr, hbase, hpre⟩ := hR.sent e he msg hmsg
  rw [(hcommits hlen).1]
  rcases acceptedCommit_le (c.nodes i) msg with hle | ⟨hne, hle⟩
  · -- the receiver's own log, unless it gives it up
    rcases hlog with ⟨rfl, -⟩ | ⟨rfl, hnot⟩
    · exact hclamped.of_le hle
    · exact (hclamped.adopt hR hmem hr hbase hpre hnot).of_le hle
  · -- the sender's log, which is a part of the new one
    have hsnap : e.snap.log <+: log := by
      rcases hlog with ⟨rfl, hall⟩ | ⟨rfl, -⟩
      · exact hall hne
      · exact List.prefix_refl _
    exact ((h.sent e he msg hmsg).of_le hle).mono_log hsnap

/-! ### What is applied -/

omit hG [StateMachine σ] in
theorem index_le_of_resumes {s : Server σ} {bound : ℤ} {index : ℕ} {command : LogCommand}
    (h : s.Resumes bound index command) (hs : Books ids i s) (hbound : bound + 1 < 2 ^ 31) :
    (index : ℤ) ≤ bound := by
  obtain ⟨⟨x, hlt, hle, rfl⟩, -⟩ := h
  have hpos := hs.applied.1
  rw [asUsize_toNat (by omega) (by omega)]
  omega

omit hG [StateMachine σ] in
theorem Settled.resumes {s : Server σ} {bound : ℤ} {index : ℕ} {command : LogCommand}
    (h : Settled R ids c T bound l) (hl : s.log <+: l) (hres : s.Resumes bound index command)
    (hs : Books ids i s) (hbound : bound + 1 < 2 ^ 31) : Chosen R ids c index command := by
  have hle := index_le_of_resumes hres hs hbound
  obtain ⟨-, entry, hentry, rfl⟩ := hres
  exact h.chosen hle (getElem?_of_isPrefix hl hentry)

theorem Visited.books (hv : Visited ids stateMachine G c) (i : NodeId) : Books ids i (c.nodes i) :=
  ((preserved_books fun c a hg => (hG c a hg).1.1.1).visited hv).1 i

theorem Reigned.leader_prefix (h : Reigned R c) (hv : Visited ids stateMachine G c) {a : Action}
    {incoming : Incoming} {log : List LogEntry} {s : Server σ} (hg : G c a)
    (harr : c.Arrives a i incoming) (hs : (c.nodes i).HandlesTo incoming log s)
    (hl : (c.nodes i).state.isLeader = true) : (c.nodes i).log <+: log := by
  have hel : Elections ids c := hv.elections fun c a hg => (hG c a hg).1.1.2.1
  rcases h.handles (fun c a hg => (hG c a hg).1.1) hel hv hg harr hs with ⟨-, x, hlog, -⟩ | ⟨-, hlog⟩
  · rw [hlog]
    exact List.prefix_append _ _
  · rw [hlog hl]

theorem Remembers.settled (h : Remembers R ids c) (hR : Reigned R c)
    (hv : Visited ids stateMachine G c) {q : NodeId} {n : ℤ} {log : List LogEntry}
    (hev : .committed q t n log ∈ c.history) : Settled R ids c t n log := by
  intro hn
  have hfaithful : ∀ (c : Cluster σ) a, G c a → Faithful ids c a := fun c a hg => (hG c a hg).1
  obtain ⟨r, hr, hpre, -, hlen⟩ := h.own hfaithful hv hR hev
  exact ⟨t, Nat.le_refl t, n.toNat, h.decided hfaithful hv hR hev, by omega,
    .of_isPrefix hr hpre hlen⟩

/-- A leader that panics after it has raised its commit index has applied what a quorum has
acknowledged. -/
theorem Visited.chosen_of_crash (hv : Visited ids stateMachine G c) (hR : Reigned R c)
    (hgrow : Grows R R') (hlater : c.Later c') {a : Action} {incoming : Incoming}
    {log : List LogEntry} {msg : AppendEntriesResponse} {mi : List ℤ} {ni : List ℕ} {n : ℤ}
    {index : ℕ} {command : LogCommand} (hg : G c a) (harr : c.Arrives a i incoming)
    (hphase : c.HandlerPhase ids i incoming log c') (hc : c'.crashed i = true)
    (hin : incoming.msg = .appendEntriesResponse msg) (hterm : msg.term ≤ (c.nodes i).currentTerm)
    (hcredit : (c.nodes i).Credits incoming.sender msg mi ni)
    (hcommit : (c.nodes i).Committable mi n) (hres : (c.nodes i).Resumes n index command) :
    Chosen R' ids c' index command := by
  have hfaithful : ∀ (c : Cluster σ) a, G c a → Faithful ids c a := fun c a hg => (hG c a hg).1
  have hlen := (hG _ _ hg).1.1.1 i hphase.mem
  obtain ⟨hn, entry, hentry, hown⟩ := hcommit.entry hlen
  obtain ⟨r, hr, hreign⟩ := hR.leader i hcredit.isLeader hphase.alive
  rw [hreign] at hentry
  have hlt := (List.getElem?_eq_some_iff.1 hentry).1
  -- it has voted in no higher term, and will not vote any more
  have hsilent : Silent c' i (c.nodes i).currentTerm := by
    refine ⟨hc, hphase.votedUpTo (hv.quiet hfaithful hcredit.isLeader hphase.alive
      (List.mem_of_getElem? (by rw [hreign]; exact hentry)) hown) fun _ e he => ?_⟩
    exact he.grantOf_eq_none fun msg' hmsg => by
      rw [hin] at hmsg
      cases hmsg
  have hdecided : Decided R' ids c' (c.nodes i).currentTerm n.toNat := by
    refine ⟨?_, ?_⟩
    · exact hv.quorum hfaithful hg harr hphase.mem hphase.alive hin hterm hcredit hcommit
        (fun v _ _ hack => .inl (hack.later hlater)) (.inr hsilent)
    · obtain ⟨r', hr', hbase, hlog⟩ := hgrow _ r hr
      exact ⟨r', hr', by rw [hbase]; exact hR.base_le hr hentry hown,
        Nat.lt_of_lt_of_le hlt hlog.length_le⟩
  have hsettled : Settled R' ids c' (c.nodes i).currentTerm n r.log := fun _ =>
    ⟨_, Nat.le_refl _, n.toNat, hdecided, by omega,
      (Holds.of_isPrefix hr (List.prefix_refl _) hlt).mono hgrow⟩
  refine hsettled.resumes (by rw [hreign]) hres (hv.books hG i) ?_
  rw [hreign] at hlen
  omega

/-- **A handler.** -/
theorem Safe.handler (h : Safe R ids c) (hR : Reigned R c) (hR' : Reigned R' c')
    (hmem : Remembers R ids c) (hmem' : Remembers R' ids c') (hgrow : Grows R R')
    (hv : Visited ids stateMachine G c) {a : Action} (hg : G c a) (hs : c.HandlerStep ids a c') :
    Safe R' ids c' := by
  have hv' := hv.handler hg hs
  have hlater := hs.later
  obtain ⟨i, incoming, log, harr, -, hphase⟩ := hs
  have hlen := (hG _ _ hg).1.1.1 i hphase.mem
  have later : ∀ {T m l}, Settled R ids c T m l → Settled R' ids c' T m l :=
    fun h => h.later hgrow hlater hphase
  have hnode : c'.crashed i = false →
      Settled R' ids c' (c'.nodes i).currentTerm (c'.nodes i).commitIndex (c'.nodes i).log := by
    intro hc
    obtain ⟨hs, -⟩ := hphase.ran hc
    have raised : (c.nodes i).state.isLeader = true → (c'.nodes i).state.isLeader = true →
        (c.nodes i).commitIndex < (c'.nodes i).commitIndex → Settled R' ids c'
          (c'.nodes i).currentTerm (c'.nodes i).commitIndex (c'.nodes i).log := by
      intro hl hl' hlt
      exact hmem'.settled hG hR' hv' (q := i)
        (hphase.change hc (mem_changeOf_committed.2 ⟨rfl, rfl, rfl, rfl, hl, hl', hlt⟩))
    generalize c'.nodes i = s' at hs raised ⊢
    cases hs with
    | keep | vote | win => exact later (h.nodes i)
    | stepDown T _ hlt => exact (later (h.nodes i)).raise (Nat.le_of_lt hlt)
    | accept sm ci la log heq hacc hmerge hcommits =>
      subst heq
      exact later (h.accepted hG hR hmem hv hg harr hacc hmerge hcommits hlen)
    | push => exact (later (h.nodes i)).mono_log (List.prefix_append _ _)
    | response sm _ _ hcredit hraise =>
      cases hraise with
      | keep => exact later (h.nodes i)
      | commit hcommit => exact raised hcredit.isLeader rfl hcommit.lt
  refine h.phase hgrow hlater hphase hnode (fun e he msg hmsg => ?_) fun index command hcall => ?_
  · -- a leader tells of its own commit index
    obtain ⟨hl, hterm, hlog⟩ := he.handler_appendEntries hmsg
    obtain ⟨dest, ⟨hs, hemit⟩, -⟩ := he.out
    rw [hmsg] at hemit
    obtain ⟨-, hr, -, hci⟩ := hemit.appendEntries
    rw [hterm, hlog, hr.commit, hci]
    exact (later (h.nodes i)).mono_log (hR.leader_prefix hG hv hg harr hs hl)
  · obtain ⟨happlies, hreply⟩ := hcall
    cases happlies with
    | accept heq hacc hres =>
      subst heq
      exact (later (h.clamped hR (hG _ _ hg).2 harr hacc)).resumes (List.prefix_refl _) (hres hlen)
        (hv.books hG i) (clampCommit_bounds _ hlen (hv.books hG i).commit).2
    | response hin hterm hcredit hcommit hres =>
      cases hc : c'.crashed i with
      | true =>
        exact hv.chosen_of_crash hG hR hgrow hlater hg harr hphase hc hin hterm hcredit hcommit hres
      | false =>
        have hs := hphase.ran hc
        refine (hnode hc).resumes ?_ (hreply _ hin hc) (hv.books hG i) (hv'.books hG i).commit.2
        rw [hs.2]
        exact hR.leader_prefix hG hv hg harr hs hcredit.isLeader

/-- **A role loop.** -/
theorem Safe.loop (h : Safe R ids c) (hv : Visited ids stateMachine G c) (hs : c.LoopStep ids c') :
    Safe R ids c' := by
  have hlater := hs.later
  obtain ⟨i, -, hphase⟩ := hs
  have hnode := (h.nodes i).later (.refl R) hlater hphase
  refine h.phase (.refl R) hlater hphase (fun hc => ?_) (fun e he msg hmsg => ?_)
    fun index command hres => ?_
  · have hs := hphase.ran hc
    rw [hs.log_eq, hs.commitIndex_eq]
    exact hnode.raise hs.roleStep.disciplined.mono
  · obtain ⟨-, hterm, hlog⟩ := he.loop_appendEntries hmsg
    obtain ⟨dest, ⟨hs, hann⟩, -⟩ := he.out
    rw [hmsg] at hann
    cases hann with
    | heartbeat hr =>
      rw [hterm, hlog, hr.commit, hs.commitIndex_eq]
      exact hnode
  · exact hnode.resumes (List.prefix_refl _) hres (hv.books hG i) (hv.books hG i).commit.2

omit hG [StateMachine σ] in
theorem safe_init : Safe (fun _ => none) ids (init ids stateMachine) where
  nodes _ h := by cases h
  sent := by simp [Cluster.init]
  applied h := by simp [Cluster.init] at h

/-- **Every cluster that a run within the guard passes through is safe.** -/
theorem Visited.safe (h : Visited ids stateMachine G c) :
    ∃ R, Reigned R c ∧ Remembers R ids c ∧ Safe R ids c := by
  have hfaithful : ∀ (c : Cluster σ) a, G c a → Faithful ids c a := fun c a hg => (hG c a hg).1
  have hlinked : ∀ (c : Cluster σ) a, G c a → Linked ids c a := fun c a hg => (hG c a hg).1.1
  induction h with
  | init => exact ⟨_, reigned_init, remembers_init, safe_init⟩
  | handler hv hg hs ih =>
    obtain ⟨R, hR, hmem, hsafe⟩ := ih
    obtain ⟨R', hgrow, hR'⟩ := hR.handler hlinked hv hg hs
    have hmem' := hmem.handler hfaithful hR hR' hgrow hv hg hs
    exact ⟨R', hR', hmem', hsafe.handler hG hR hR' hmem hmem' hgrow hv hg hs⟩
  | loop hv hs ih =>
    obtain ⟨R, hR, hmem, hsafe⟩ := ih
    have hR' := hR.loop hlinked hv hs
    exact ⟨R, hR', hmem.loop hfaithful hR hR' hv hs, hsafe.loop hG hv hs⟩

end

omit [StateMachine σ] in
theorem Chosen.unique (hR : Reigned R c) (hmem : Remembers R ids c) {index : ℕ}
    {command command' : LogCommand} (h : Chosen R ids c index command)
    (h' : Chosen R ids c index command') : command = command' := by
  obtain ⟨t, k, hd, hk, r, hr, entry, hentry, rfl⟩ := h
  obtain ⟨t', k', hd', hk', r', hr', entry', hentry', rfl⟩ := h'
  -- the leader of the later term has what was decided before
  have agree : ∀ {t t' k : ℕ} {r r' : Reign LogEntry}, Decided R ids c t k → index ≤ k →
      R t = some r → R t' = some r' → t < t' → r.log[index]? = r'.log[index]? := by
    intro t t' k r r' hd hk hr hr' hlt
    obtain ⟨r₀, hr₀, -, hlen⟩ := hd.own
    rw [hr, Option.some.injEq] at hr₀
    subst hr₀
    have hheld := (hmem.complete hR hd hr' hlt).mono_log (hR.lawful.prefix_log hr')
    exact (Holds.of_isPrefix hr (List.prefix_refl _) hlen).getElem?_eq hheld hk
  have heq : r.log[index]? = r'.log[index]? := by
    rcases Nat.lt_trichotomy t t' with hlt | rfl | hgt
    · exact agree hd hk hr hr' hlt
    · rw [hr, Option.some.injEq] at hr'
      rw [hr']
    · exact (agree hd' hk' hr' hr hgt).symm
  rw [hentry, hentry', Option.some.injEq] at heq
  rw [heq]

/-- **State machine safety.**  In every run within the guard, whatever is applied at one index, by
whichever nodes and whenever, is the same command. -/
theorem state_machine_safety
    (h : (machine σ ids).Reach (Sharing ids) (init ids stateMachine) c) {i j : NodeId} {index : ℕ}
    {command command' : LogCommand} (hi : .applied i index command ∈ c.history)
    (hj : .applied j index command' ∈ c.history) : command = command' := by
  obtain ⟨R, hR, hmem, hsafe⟩ := (visited_of_reach h).safe fun _ _ h => h
  exact (hsafe.applied hi).unique hR hmem (hsafe.applied hj)

/-- Node 1 commits and applies its first entry, and node 2 applies it after the next heartbeat. -/
theorem state_machine_safety_applied : ∃ c : Cluster SimpleStateMachine,
    (machine SimpleStateMachine [1, 2, 3]).Reach (Sharing [1, 2, 3])
      (init [1, 2, 3] fun _ => .new) c ∧ ∃ command command', .applied 1 0 command ∈ c.history ∧
        .applied 2 0 command' ∈ c.history ∧ command = command' := by
  have hrun : ((machine SimpleStateMachine [1, 2, 3]).exec (Sharing [1, 2, 3])
      (init [1, 2, 3] fun _ => .new)
      [.timeout 1, .receive [1, 2, 3] 0, .receive [1, 2, 3] 1, .receive [1, 2, 3] 2,
        .receive [1, 2, 3] 3, .set [1, 2, 3] 1 "x" "1", .receive [1, 2, 3] 8,
        .receive [1, 2, 3] 12, .timeout 1, .receive [1, 2, 3] 13]).any
      (fun c => decide (.applied 1 0 (.set "x" "1") ∈ c.history ∧
        .applied 2 0 (.set "x" "1") ∈ c.history)) = true := by
    decide
  obtain ⟨c, hc, h₁, h₂⟩ := Machine.exists_reach_of_exec hrun
  exact ⟨c, hc, _, _, h₁, h₂, state_machine_safety hc h₁ h₂⟩

/-- Nodes 1 and 2 both lead term 1 and take a command each.  Node 3 takes over that of node 1; when
node 2 tries again from index 0, node 3 finds an entry of the same term there and answers with a
success.  Both leaders commit and apply their own. -/
theorem applied_commands_differ : ∃ c : Cluster SimpleStateMachine,
    (machine SimpleStateMachine [1, 2, 3]).Reach Orderly (init [1, 2, 3] fun _ => .new) c ∧
      .applied 1 0 (.set "x" "1") ∈ c.history ∧ .applied 2 0 (.set "x" "2") ∈ c.history := by
  have hrun : ((machine SimpleStateMachine [1, 2, 3]).exec Orderly (init [1, 2, 3] fun _ => .new)
      [.timeout 1, .timeout 2, .receive [1, 2, 3] 1, .receive [1, 2, 3] 4, .receive [1, 2, 3] 6,
        .receive [1, 2, 3] 7, .receive [1, 2, 3] 3, .receive [1, 2, 3] 10, .receive [1, 2, 3] 12,
        .receive [1, 2, 3] 13, .set [1, 2, 3] 1 "x" "1", .set [1, 2, 3] 2 "x" "2",
        .receive [1, 2, 3] 17, .receive [1, 2, 3] 24, .receive [1, 2, 3] 21,
        .receive [1, 2, 3] 25, .receive [1, 2, 3] 26, .receive [1, 2, 3] 27]).any
      (fun c => decide (.applied 1 0 (.set "x" "1") ∈ c.history ∧
        .applied 2 0 (.set "x" "2") ∈ c.history)) = true := by
    decide
  exact Machine.exists_reach_of_exec hrun

end Cluster

end MiniRaft
