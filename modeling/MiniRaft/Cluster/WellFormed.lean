import MiniRaft.Cluster.Steps
import MiniRaft.Server.Log
import MiniRaft.Server.SimpleStateMachine

/-!
# Well-formed logs

In every run of a cluster whose logs stay below `2 ^ 31` entries, under any loss, duplication and
reordering of messages, the logs are well formed: positions, ascending terms, no term above the
node's own.  The proof needs as much of every `AppendEntries` in flight: it carries an end piece of
the well-formed log its sender had, and says which.
-/

namespace MiniRaft

namespace Cluster

open Server

variable {σ : Type}

/-- No log has reached `2 ^ 31` entries, where `self.log.len() as i32 - 1` overflows. -/
def Short (ids : List NodeId) (c : Cluster σ) (_ : Action) : Prop :=
  ∀ i ∈ ids, (c.nodes i).log.length < 2 ^ 31

instance (ids : List NodeId) (c : Cluster σ) (a : Action) : Decidable (Short ids c a) :=
  inferInstanceAs (Decidable (∀ i ∈ ids, _))

/-- What the logs of servers keep: `2 ^ 31` entries are reached only by the step that ends a run of
short logs. -/
structure Sound (s : Server σ) : Prop where
  log : LogOk s.log s.currentTerm
  length : s.log.length ≤ 2 ^ 31

/-- What the `AppendEntries` in flight keep. -/
structure FromLog (e : Envelope σ) (msg : AppendEntries) : Prop where
  replicates : e.snap.Replicates msg
  carries : e.snap.Carries msg
  log : LogOk e.snap.log msg.term

def Sent (e : Envelope σ) : Prop := ∀ msg, e.msg = .appendEntries msg → FromLog e msg

variable [StateMachine σ] {ids : List NodeId} {stateMachine : NodeId → σ}
  {G : Cluster σ → Action → Prop} {c : Cluster σ}

omit [StateMachine σ] in
theorem Sound.handles {s s' : Server σ} {incoming : Incoming} (hs : Sound s)
    (hshort : s.log.length < 2 ^ 31)
    (hin : ∀ sender msg, incoming = ⟨sender, .appendEntries msg⟩ → ∃ e, e.msg = .appendEntries msg ∧
      Sent (σ := σ) e)
    (h : s.Handles incoming s') : Sound s' := by
  cases h with
  | keep => exact hs
  | stepDown T _ hlt => exact ⟨hs.log.mono (Nat.le_of_lt hlt), hs.length⟩
  | accept sm ci la log heq hacc hmerge =>
    obtain ⟨e, he, hsent⟩ := hin _ _ heq
    obtain ⟨hr, hc, hlog⟩ := hsent _ he
    refine ⟨hs.log.merge hlog hacc hr hc hmerge, ?_⟩
    obtain ⟨a, -, hentries, -⟩ := hc.piece
    rw [hentries] at hmerge
    have hlen := (grafted_of_mergedLog hlog.numbered hmerge).length_le
    have := hc.length
    dsimp only
    omega
  | vote => exact ⟨hs.log, hs.length⟩
  | win => exact ⟨hs.log, hs.length⟩
  | push key value ls =>
    refine ⟨hs.log.push ?_ rfl, ?_⟩
    · exact asU32_of_lt (by omega)
    · rw [List.length_append, List.length_singleton]
      omega
  | response => exact ⟨hs.log, hs.length⟩

omit [StateMachine σ] in
theorem Sound.goes {s s' : Server σ} (hs : Sound s) (h : s.Goes s') : Sound s' := by
  cases h with
  | keep => exact hs
  | apply => exact ⟨hs.log, hs.length⟩
  | stand => exact ⟨hs.log.mono (Nat.le_succ _), hs.length⟩
  | lead => exact ⟨hs.log, hs.length⟩

theorem preserved_sound (hG : ∀ (c : Cluster σ) a, G c a → Short ids c a) :
    Preserved ids stateMachine G (fun _ => Sound) Sent where
  init _ := ⟨.nil, by simp [Server.new]⟩
  handles := by
    intro c a i incoming log s before hg harr h
    refine (before.nodes i).handles (hG _ _ hg i before.mem) ?_ h.1
    rintro sender msg rfl
    obtain ⟨e, he, -, -, hmsg⟩ := harr.appendEntries
    exact ⟨e, hmsg, before.sent e he⟩
  emits := by
    intro c a i incoming log e before hg harr hsent hsnap msg hmsg
    obtain ⟨dest, ⟨-, hemit⟩, -⟩ := hsent.out
    rw [hmsg] at hemit
    cases hemit with
    | replicate hl hr hc =>
      have hlog := hsnap.log
      rw [← hr.term] at hlog
      exact ⟨hr, hc (hG _ _ hg i before.mem), hlog⟩
  goes before h := (before.nodes _).goes h
  announces := by
    intro c i e before hsent hsnap msg hmsg
    obtain ⟨dest, ⟨-, hann⟩, -⟩ := hsent.out
    rw [hmsg] at hann
    cases hann with
    | heartbeat hr _ hc =>
      have hlog := hsnap.log
      rw [← hr.term] at hlog
      exact ⟨hr, hc (before.nodes i).length, hlog⟩

theorem Visited.sound (hG : ∀ (c : Cluster σ) a, G c a → Short ids c a)
    (h : Visited ids stateMachine G c) : ∀ i, Sound (c.nodes i) :=
  ((preserved_sound hG).visited h).1

theorem Visited.fromLog (hG : ∀ (c : Cluster σ) a, G c a → Short ids c a)
    (h : Visited ids stateMachine G c) {e : Envelope σ} {msg : AppendEntries} (he : e ∈ c.sent)
    (hmsg : e.msg = .appendEntries msg) : FromLog e msg :=
  ((preserved_sound hG).visited h).2 e he msg hmsg

/-- What the log of a server becomes by the entries of the envelope `e`: the piece of the sender's
log from `a` on is grafted onto it. -/
structure Accepted (s : Server σ) (e : Envelope σ) (msg : AppendEntries) (a : ℕ)
    (log : List LogEntry) : Prop where
  fromLog : FromLog e msg
  le : a ≤ e.snap.log.length
  entries : msg.entries = e.snap.log.drop a
  piece : ∀ entry, e.snap.log[a]? = some entry →
    (a + 1 = e.snap.log.length ∧ entry.term = e.snap.currentTerm) ∨
      (msg.prevLogIndex = (a : ℤ) ∧ msg.prevLogTerm = entry.term)
  graft : Consensus.Grafted LogEntry.term s.log e.snap.log a log

theorem Visited.accepted (hG : ∀ (c : Cluster σ) a, G c a → Short ids c a)
    (h : Visited ids stateMachine G c) {s : Server σ} {e : Envelope σ} {msg : AppendEntries}
    {log : List LogEntry} (he : e ∈ c.sent) (hmsg : e.msg = .appendEntries msg)
    (hmerge : mergedLog s.log msg.entries = some log) : ∃ a, Accepted s e msg a log := by
  have hfrom : FromLog e msg := h.fromLog hG he hmsg
  obtain ⟨a, hle, hentries, hpiece⟩ := hfrom.carries.piece
  rw [hentries] at hmerge
  exact ⟨a, hfrom, hle, hentries, hpiece, grafted_of_mergedLog hfrom.log.numbered hmerge⟩

/-- **Well-formed logs.**  In every state that a run with short logs reaches, on every node:
`log[i].index = i`, the terms do not decrease along the log, and none exceeds `current_term`. -/
theorem well_formed_logs (h : (machine σ ids).Reach (Short ids) (init ids stateMachine) c) (i : NodeId) :
    (∀ (k : ℕ) (entry : LogEntry), (c.nodes i).log[k]? = some entry → entry.index = k) ∧
    (∀ (k l : ℕ) (entry entry' : LogEntry), k ≤ l → (c.nodes i).log[k]? = some entry →
      (c.nodes i).log[l]? = some entry' → entry.term ≤ entry'.term) ∧
    ∀ entry ∈ (c.nodes i).log, entry.term ≤ (c.nodes i).currentTerm := by
  have hs : Sound (c.nodes i) := (visited_of_reach h).sound (fun _ _ h => h) i
  refine ⟨hs.log.index, fun k l _ _ hkl hx hy => hs.log.ascending hkl hx hy, fun entry he => ?_⟩
  obtain ⟨k, hk⟩ := List.mem_iff_getElem?.1 he
  exact hs.log.bound k entry hk

/-- Node 1 leads, and node 2 takes over its first entry. -/
theorem well_formed_logs_replicated : ∃ c : Cluster SimpleStateMachine,
    (machine SimpleStateMachine [1, 2, 3]).Reach (Short [1, 2, 3]) (init [1, 2, 3] fun _ => .new) c ∧
      (c.nodes 2).log ≠ [] ∧
      ∀ (k : ℕ) (entry : LogEntry), (c.nodes 2).log[k]? = some entry → entry.index = k := by
  have hrun : ((machine SimpleStateMachine [1, 2, 3]).exec (Short [1, 2, 3])
      (init [1, 2, 3] fun _ => .new)
      [.timeout 1, .receive [1, 2, 3] 0, .receive [1, 2, 3] 1, .receive [1, 2, 3] 2,
        .receive [1, 2, 3] 3, .set [1, 2, 3] 1 "x" "1", .receive [1, 2, 3] 8]).any
      (fun c => decide ((c.nodes 2).log ≠ [])) = true := by
    decide
  obtain ⟨c, hc, hne⟩ := Machine.exists_reach_of_exec hrun
  exact ⟨c, hc, hne, (well_formed_logs hc 2).1⟩

end Cluster

end MiniRaft
