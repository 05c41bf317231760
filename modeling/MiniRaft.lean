import MiniRaft.Server.Basic
import MiniRaft.Server.Handlers
import MiniRaft.Machine.Basic
import MiniRaft.Machine.Consumer
import MiniRaft.Server.Run
import MiniRaft.Cluster.Basic
import MiniRaft.Server.SimpleStateMachine
import MiniRaft.Server.Frame
import MiniRaft.Server.Inversion
import MiniRaft.Server.Panics
import MiniRaft.Server.Discipline
import MiniRaft.Server.Turns
import MiniRaft.Cluster.Steps
import MiniRaft.Server.Applied
import MiniRaft.Consensus.Graft
import MiniRaft.Server.Log
import MiniRaft.Server.Merge
import MiniRaft.Server.Apply
import MiniRaft.Server.FollowerCommit
import MiniRaft.Server.LeaderCommit
import MiniRaft.Server.Duplicate
import MiniRaft.Server.Pieces
import MiniRaft.Server.Repair
import MiniRaft.Server.Cancellation
import MiniRaft.Server.StaleAck
import MiniRaft.Server.InOrder
import MiniRaft.Cluster.WellFormed
import MiniRaft.Cluster.FollowerCrash
import MiniRaft.Cluster.LeaderCrash
import MiniRaft.Cluster.CommittedPrefix
import MiniRaft.Cluster.Election
import MiniRaft.Consensus.Completeness
import MiniRaft.Cluster.LogMatching
import MiniRaft.Cluster.Canvass
import MiniRaft.Cluster.Acknowledge
import MiniRaft.Cluster.LeaderCompleteness
import MiniRaft.Cluster.StateMachineSafety
import MiniRaft.Stream.Incremental
import MiniRaft.Codec.Frames
import MiniRaft.Server.Votes
import MiniRaft.Server.Checks
import MiniRaft.Server.Isolation
import MiniRaft.Cluster.AppendOnly
import MiniRaft.Cluster.VoteTally
import MiniRaft.Network.Dispatch
import MiniRaft.Server.Skipped
import MiniRaft.Cluster.Throughout
import MiniRaft.Machine.Accounting
import MiniRaft.Server.Terms
import MiniRaft.Cluster.Budget
import MiniRaft.Cluster.Provenance
import MiniRaft.Cluster.CommitOrigin
import MiniRaft.Cluster.SplitVote
import MiniRaft.Cluster.Journals
import MiniRaft.Cluster.Replicas
import MiniRaft.Cluster.Durable
import MiniRaft.Machine.Simulation
import MiniRaft.Network.Deployment
import MiniRaft.Network.Refinement
import MiniRaft.Network.EndToEnd
import MiniRaft.Network.Channels
import MiniRaft.Network.Mesh
import MiniRaft.Network.Handshake
import MiniRaft.Network.Client
import MiniRaft.Cluster.Steady
import MiniRaft.Cluster.Tenure
import MiniRaft.Network.Store
import MiniRaft.Cluster.Receipts
import MiniRaft.Network.Replies
import MiniRaft.Cluster.CommitQuorum
