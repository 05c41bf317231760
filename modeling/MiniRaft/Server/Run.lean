import MiniRaft.Server.Handlers

/-!
# The role loops

`Server::run` calls `follower`, `candidate` or `leader` by the current role, and each of them
waits in a `tokio::select!` between `recieve_rpc` and a timer.  A *turn* is what a server does
from one such wait to the next.  Three things can end a wait:

* `recieve_rpc` completes (`Select.rpc`);
* the timer fires while no message is being handled (`Select.timer`);
* the timer fires while `recieve_rpc` awaits a send, which drops the handler there
  (`Select.cancelled`).

A turn is a list of *phases*, the handler and what the loop does after it; each phase carries
the message it handles, if any.
-/

namespace MiniRaft

/-- What ends a `tokio::select!`; `order` is the iteration order of the peer map, should the
handler loop over it. -/
inductive Select
  | rpc (order : List NodeId) (incoming : Incoming)
  | timer
  | cancelled (order : List NodeId) (incoming : Incoming) (k : ℕ)

/-- The message a wait ends with, if it does. -/
def Select.incoming : Select → Option Incoming
  | .rpc _ incoming => some incoming
  | .timer => none
  | .cancelled _ incoming _ => some incoming

variable {σ : Type}

/-- One part of a turn: the message it handles, if it is a handler, and what it does. -/
structure Phase (σ : Type) where
  cause : Option Message
  outcome : Outcome σ

namespace Server

variable [StateMachine σ]

/-- `follower` up to its `select!`. -/
def follower (s : Server σ) : Outcome σ := s.applyLatestCommitedLogs s.commitIndex

/-- `candidate` up to its first `select!`. -/
def candidate (s : Server σ) : Outcome σ :=
  s.becomeCandidate.andThen sendRequestVoteRpcToPeers

/-- `leader` up to its first `select!`; `handle_commit_index` does nothing. -/
def leader (s : Server σ) : Outcome σ :=
  -- `become_leader` runs a second time here, after the one that won the election
  ((s.applyLatestCommitedLogs s.commitIndex).andThen sendHeartbeat).andThen fun s =>
    .done s.becomeLeader

/-- One round of `run`. -/
def run (s : Server σ) : Outcome σ :=
  match s.state with
  | .follower => s.follower
  | .candidate _ => s.candidate
  | .leader _ _ => s.leader

/-- After `recieve_rpc` has completed in the loop of the role `role`. -/
def afterRpc (role : RaftState) (s : Server σ) : Outcome σ :=
  match role with
  | .follower => s.run
  -- the loop goes on without `become_candidate`: same term, same votes
  | .candidate _ => if s.state.isCandidate then s.sendRequestVoteRpcToPeers else s.run
  | .leader _ _ => if s.state.isLeader then .done s else s.run

/-- After the timer has fired in the loop of the role `role`. -/
def afterTimer (role : RaftState) (s : Server σ) : Outcome σ :=
  match role with
  | .follower => { s with state := .candidate 0 }.run
  | .candidate _ => s.sendRequestVoteRpcToPeers
  | .leader _ _ => s.sendHeartbeat

/-- The phases of a turn; `none` if it cannot happen (no send is awaited at `k`, or `order` is
no order of the peers). -/
def turn (s : Server σ) : Select → Option (List (Phase σ))
  | .rpc order incoming =>
    if order.Perm s.config.peerAddresses then
      let handler := s.recieveRpc order incoming
      if handler.panicked then some [⟨some incoming.msg, handler⟩]
      else some [⟨some incoming.msg, handler⟩, ⟨none, handler.server.afterRpc s.state⟩]
    else none
  | .timer => some [⟨none, s.afterTimer s.state⟩]
  | .cancelled order incoming k =>
    if order.Perm s.config.peerAddresses then
      ((s.recieveRpc order incoming).cut k).map fun handler =>
        [⟨some incoming.msg, handler⟩, ⟨none, handler.server.afterTimer s.state⟩]
    else none

/-- The server at the end of its phases, unless one of them panicked. -/
def endOfTurn (s : Server σ) (phases : List (Phase σ)) : Option (Server σ) :=
  if phases.any (·.outcome.panicked) then none
  else some ((phases.getLast?.map (·.outcome.server)).getD s)

/-- The phases a server goes through when its waits end as `evs` says, one after the other, up to
the first panic. -/
def trace : Server σ → List Select → List (Phase σ)
  | _, [] => []
  | s, ev :: evs =>
    match s.turn ev with
    | none => []
    | some phases =>
      phases ++
        match s.endOfTurn phases with
        | none => []
        | some s' => s'.trace evs

end Server

end MiniRaft
