import Mathlib.Algebra.Group.Int.Defs
import Mathlib.Algebra.Group.Nat.Defs
import Mathlib.Logic.Function.Basic
import Mathlib.Tactic.SplitIfs

/-!
# Messages, log entries and the server record

The data types of `codec.rs`, `state_machine.rs` and `server.rs`, under the names of the source.

* Unsigned integers (`u32`, `u64`, `usize`) are `ℕ` and signed ones (`i32`) are `ℤ`; the casts
  between them (`asI32`, `asUsize`, `asU32`) wrap as Rust's `as` does, and `checkedI32` is an
  `i32` operation of a debug build, which panics on overflow.
* `Vec` is `List`; an index out of range is a panic.
* `StateMachine` is the trait: any type with its two mutating calls, each of which may fail.

Real time (`last_heartbeat`, the timeout durations) and the addresses of the configuration are
left out: no modelled function reads them.
-/

namespace MiniRaft

/-- `NodeId(u64)`; `as_usize` is the identity on a 64-bit target. -/
abbrev NodeId := ℕ

/-- `ClientId(u32)`. -/
abbrev ClientId := ℕ

/-! ### Integer casts -/

/-- `x as i32` for an unsigned `x`: the low 32 bits read as a signed number. -/
def asI32 (x : ℕ) : ℤ :=
  if x % 2 ^ 32 < 2 ^ 31 then (x % 2 ^ 32 : ℕ) else (x % 2 ^ 32 : ℕ) - 2 ^ 32

/-- `x as usize` (or `as u64`) for an `i32` `x`: sign extension to 64 bits. -/
def asUsize : ℤ → ℕ
  | .ofNat n => n % 2 ^ 64
  | .negSucc n => 2 ^ 64 - 1 - n % 2 ^ 64

/-- `x as u32` for a `usize` `x`. -/
def asU32 (x : ℕ) : ℕ := x % 2 ^ 32

/-- The result of an `i32` operation, or `none` where a debug build panics on overflow. -/
def checkedI32 : ℤ → Option ℤ
  | .ofNat n => if n < 2 ^ 31 then some n else none
  | .negSucc n => if n < 2 ^ 31 then some (.negSucc n) else none

/-- `u32::MAX`. -/
def u32Max : ℕ := 2 ^ 32 - 1

/-! ### Casts that stay in range -/

theorem asI32_of_lt {x : ℕ} (h : x < 2 ^ 31) : asI32 x = x := by
  have hmod : x % 2 ^ 32 = x := Nat.mod_eq_of_lt (by omega)
  unfold asI32
  rw [hmod, if_pos h]

/-- Sign extension is the remainder modulo `2 ^ 64`. -/
theorem natCast_asUsize (x : ℤ) : (asUsize x : ℤ) = x % 2 ^ 64 := by
  cases x with
  | ofNat n =>
    show ((n % 2 ^ 64 : ℕ) : ℤ) = (n : ℤ) % 2 ^ 64
    omega
  | negSucc n =>
    show ((2 ^ 64 - 1 - n % 2 ^ 64 : ℕ) : ℤ) = _
    omega

theorem asUsize_natCast {x : ℕ} (h : x < 2 ^ 64) : asUsize x = x := Nat.mod_eq_of_lt h

theorem asUsize_toNat {x : ℤ} (h₀ : 0 ≤ x) (h : x < 2 ^ 64) : asUsize x = x.toNat := by
  have := natCast_asUsize x
  omega

/-- A negative `i32` is a `usize` no vector is long enough for. -/
theorem le_asUsize_of_neg {x : ℤ} (h₀ : x < 0) (h : -2 ^ 31 ≤ x) : 2 ^ 63 ≤ asUsize x := by
  have := natCast_asUsize x
  omega

theorem asUsize_inj {x y : ℤ} (hx : -2 ^ 31 ≤ x) (hx' : x < 2 ^ 31) (hy : -2 ^ 31 ≤ y)
    (hy' : y < 2 ^ 31) (h : asUsize x = asUsize y) : x = y := by
  have := natCast_asUsize x
  have := natCast_asUsize y
  omega

theorem asU32_of_lt {x : ℕ} (h : x < 2 ^ 32) : asU32 x = x := Nat.mod_eq_of_lt h

theorem checkedI32_eq_some {x y : ℤ} :
    checkedI32 x = some y ↔ x = y ∧ -2 ^ 31 ≤ y ∧ y < 2 ^ 31 := by
  cases x with
  | ofNat n =>
    simp only [checkedI32]
    split_ifs with h
    · simp only [Option.some.injEq, Int.ofNat_eq_natCast]
      exact ⟨fun e => ⟨e, by omega, by omega⟩, fun e => e.1⟩
    · simp only [false_iff, Int.ofNat_eq_natCast]
      omega
  | negSucc n =>
    simp only [checkedI32]
    split_ifs with h
    · simp only [Option.some.injEq]
      exact ⟨fun e => ⟨e, by omega, by omega⟩, fun e => e.1⟩
    · simp only [false_iff]
      omega

theorem checkedI32_of_mem {x : ℤ} (h₀ : -2 ^ 31 ≤ x) (h : x < 2 ^ 31) :
    checkedI32 x = some x := checkedI32_eq_some.2 ⟨rfl, h₀, h⟩

/-! ### Commands and messages -/

/-- A command of the replicated log. -/
inductive LogCommand
  | set (key value : String)
  | get (key : String)
  | delete (key : String)
  deriving DecidableEq, Repr

def LogCommand.isSet : LogCommand → Bool
  | set _ _ => true
  | _ => false

/-- An entry of the replicated log. -/
structure LogEntry where
  term : ℕ
  command : LogCommand
  index : ℕ
  clientId : ℕ
  requestId : ℕ
  deriving DecidableEq, Repr

structure AppendEntries where
  term : ℕ
  leaderId : NodeId
  prevLogIndex : ℤ
  prevLogTerm : ℕ
  /-- Empty for a heartbeat. -/
  entries : List LogEntry
  leaderCommit : ℤ
  deriving DecidableEq, Repr

structure AppendEntriesResponse where
  term : ℕ
  success : Bool
  deriving DecidableEq, Repr

structure RequestVote where
  term : ℕ
  candidateId : NodeId
  lastLogIndex : ℤ
  lastLogTerm : ℕ
  deriving DecidableEq, Repr

structure RequestVoteResponse where
  term : ℕ
  voteGranted : Bool
  deriving DecidableEq, Repr

structure ClientRequest where
  command : LogCommand
  clientId : ℕ
  requestId : ℕ
  deriving DecidableEq, Repr

inductive ClientResponse
  | getSuccess (requestId : ℕ) (value : Option String)
  | setSuccess (requestId : ℕ)
  | deleteSuccess (requestId : ℕ) (existed : Bool)
  | keyNotFound (requestId : ℕ)
  | notLeader (requestId : ℕ) (leaderHint : Option NodeId)
  | internalError (requestId : ℕ) (reason : String)
  deriving DecidableEq, Repr

inductive Message
  | appendEntries (msg : AppendEntries)
  | appendEntriesResponse (msg : AppendEntriesResponse)
  | requestVote (msg : RequestVote)
  | requestVoteResponse (msg : RequestVoteResponse)
  | clientRequest (msg : ClientRequest)
  | clientResponse (msg : ClientResponse)
  | hello (id : NodeId)
  | helloClient (id : ClientId)
  deriving DecidableEq, Repr

namespace Message

def asAppendEntries : Message → Option AppendEntries
  | appendEntries msg => some msg
  | _ => none

def asAppendEntriesResponse : Message → Option AppendEntriesResponse
  | appendEntriesResponse msg => some msg
  | _ => none

def asRequestVote : Message → Option RequestVote
  | requestVote msg => some msg
  | _ => none

def asRequestVoteResponse : Message → Option RequestVoteResponse
  | requestVoteResponse msg => some msg
  | _ => none

def asClientRequest : Message → Option ClientRequest
  | clientRequest msg => some msg
  | _ => none

theorem eq_of_asAppendEntries {m : Message} {msg : AppendEntries} (h : msg ∈ m.asAppendEntries) :
    m = .appendEntries msg := by
  cases m with
  | appendEntries msg' =>
    cases h
    rfl
  | _ => cases h

theorem eq_of_asRequestVoteResponse {m : Message} {msg : RequestVoteResponse}
    (h : msg ∈ m.asRequestVoteResponse) : m = .requestVoteResponse msg := by
  cases m with
  | requestVoteResponse msg' =>
    cases h
    rfl
  | _ => cases h

end Message

/-- Who a message comes from. -/
inductive Id
  | client (id : ClientId)
  | peer (id : NodeId)
  deriving DecidableEq, Repr

/-- Where a message goes. -/
inductive Destination
  | client (id : ClientId)
  | node (id : NodeId)
  | broadcast
  deriving DecidableEq, Repr

structure Outgoing where
  dest : Destination
  msg : Message
  deriving DecidableEq, Repr

structure Incoming where
  /-- The field `from` of the source. -/
  sender : Id
  msg : Message
  deriving DecidableEq, Repr

/-! ### The server -/

/-- The trait `StateMachine`: the calls the server makes, each with the state it leaves and
whether it returned `Ok`. -/
class StateMachine (σ : Type) where
  applyLog : σ → String → String → σ × Bool
  deleteKey : σ → String → σ × Bool

inductive RaftState
  | follower
  | candidate (votesReceived : ℕ)
  | leader (matchIndex : List ℤ) (nextIndex : List ℕ)
  deriving DecidableEq, Repr

/-- The fields of `ServerConfig` the core reads; `peerAddresses` holds the ids of the map. -/
structure ServerConfig where
  totalNodes : ℕ
  peerAddresses : List NodeId
  deriving DecidableEq, Repr

/-- `Server` together with its `ServerState`. -/
structure Server (σ : Type) where
  id : NodeId
  config : ServerConfig
  log : List LogEntry
  state : RaftState
  stateMachine : σ
  votedFor : Option NodeId
  currentTerm : ℕ
  /-- `-1` when nothing is committed. -/
  commitIndex : ℤ
  /-- `-1` when nothing is applied. -/
  lastApplied : ℤ
  /-- The highest log index sent to each node by the last client command. -/
  lastSentIndex : List ℤ

namespace RaftState

/-- The node leads. -/
def isLeader : RaftState → Bool
  | leader _ _ => true
  | _ => false

/-- The node stands for election. -/
def isCandidate : RaftState → Bool
  | candidate _ => true
  | _ => false

end RaftState

variable {σ : Type}

/-- `Server::new` with `ServerState::new`: one extra slot, so that ids `1..=total_nodes` index
safely. -/
def Server.new (id : NodeId) (config : ServerConfig) (stateMachine : σ) : Server σ where
  id := id
  config := config
  log := []
  state := .follower
  stateMachine := stateMachine
  votedFor := none
  currentTerm := 0
  commitIndex := -1
  lastApplied := -1
  lastSentIndex := List.replicate (config.totalNodes + 1) 0

/-! ### What a handler leaves behind -/

/-- What a handler does on its way: a message handed to `to_network`, with the server as it
stands while that send is awaited, or a call of the state machine for the log entry at `index`
and whether it returned `Ok`. -/
inductive Effect (σ : Type)
  | send (out : Outgoing) (awaiting : Server σ)
  | apply (index : ℕ) (command : LogCommand) (ok : Bool)

/-- The end of a handler: the server it leaves, its effects in order, and whether it panicked. -/
structure Outcome (σ : Type) where
  server : Server σ
  effects : List (Effect σ)
  panicked : Bool

namespace Outcome

/-- Return with nothing more done. -/
def done (s : Server σ) : Outcome σ := ⟨s, [], false⟩

/-- Stop in a panic. -/
def panic (s : Server σ) : Outcome σ := ⟨s, [], true⟩

/-- Hand one message to `to_network` and return. -/
def send (s : Server σ) (out : Outgoing) : Outcome σ := ⟨s, [.send out s], false⟩

/-- Run `f` after `o`, unless `o` panicked. -/
def andThen (o : Outcome σ) (f : Server σ → Outcome σ) : Outcome σ :=
  if o.panicked then o
  else ⟨(f o.server).server, o.effects ++ (f o.server).effects, (f o.server).panicked⟩

/-- The handler dropped while it awaits the send at position `k` of its effects: what comes
before has happened, that send and what follows it have not. -/
def cut (o : Outcome σ) (k : ℕ) : Option (Outcome σ) :=
  match o.effects[k]? with
  | some (.send _ s) => some ⟨s, o.effects.take k, false⟩
  | _ => none

/-- The messages sent, in order. -/
def sent (o : Outcome σ) : List Outgoing :=
  o.effects.filterMap fun
    | .send out _ => some out
    | .apply .. => none

end Outcome

end MiniRaft
