import Cyclone.Theory.Majority
import Cyclone.Theory.Prefix
import Cyclone.Theory.TermChain
import Cyclone.Theory.TermChainSteps
import Cyclone.Theory.Run
import Cyclone.Theory.Keyed
import Cyclone.Theory.Framing
import Cyclone.Theory.Ring
import Cyclone.Theory.Traces
import Cyclone.Theory.Heap
import Cyclone.Theory.Slots
import Cyclone.Raft.Log
import Cyclone.Raft.Server
import Cyclone.Raft.Handlers
import Cyclone.Raft.Machine
import Cyclone.Raft.Effects
import Cyclone.Raft.Writes
import Cyclone.Raft.Actions
import Cyclone.Raft.IndexChain
import Cyclone.Raft.Journal
import Cyclone.Raft.Membership
import Cyclone.Raft.VotingChange
import Cyclone.Raft.Answers
import Cyclone.Raft.Progress
import Cyclone.Raft.Custody
import Cyclone.Cluster.Model
import Cyclone.Cluster.Seats
import Cyclone.Cluster.Relation
import Cyclone.Cluster.Moves
import Cyclone.Cluster.Elections
import Cyclone.Cluster.Replication
import Cyclone.Cluster.Acceptance
import Cyclone.Cluster.Runs
import Cyclone.Cluster.Safety
import Cyclone.Cluster.Completeness
import Cyclone.Cluster.Asserts
import Cyclone.Cluster.Restart
import Cyclone.Cluster.Ballots
import Cyclone.Cluster.ElectionSafety
import Cyclone.Cluster.Resending
import Cyclone.Core.Executor
import Cyclone.Core.Reads
import Cyclone.Core.Agreement
import Cyclone.Core.Chain
import Cyclone.Core.CircularLog
import Cyclone.Core.RingLog
import Cyclone.Core.Scheduler
import Cyclone.Core.Checkpoint
import Cyclone.Core.Rendezvous
import Cyclone.Core.RendezvousRuns
import Cyclone.Core.AsyncClient
import Cyclone.Core.Ownership
import Cyclone.Pmemds.PriorityQueue
import Cyclone.Pmemds.KeyMap
import Cyclone.Pmemds.TopK
import Cyclone.Pmemds.AdjVector
import Cyclone.Pmemds.BTree.Leaf
import Cyclone.Theory.Commuting
import Cyclone.Pmemds.Rpc
import Cyclone.Pmemds.Lib
import Cyclone.Pmemds.Isolation
import Cyclone.Pmemds.Servers
import Cyclone.Pmemds.KeyValue
import Cyclone.Pmemds.Returns
import Cyclone.Pmemds.Answers
import Cyclone.Raft.Batch
import Cyclone.Raft.Committed
import Cyclone.Raft.Promotion
import Cyclone.Raft.Learner
import Cyclone.Theory.CacheLine
import Cyclone.Core.Flush
import Cyclone.Theory.Traversal
import Cyclone.Core.Walk
import Cyclone.Core.Inflight
import Cyclone.Core.Merging
import Cyclone.Core.Publication
import Cyclone.Core.Completion
import Cyclone.Theory.Linked
import Cyclone.Core.DispatchList
import Cyclone.Core.Batching
import Cyclone.Core.Bursts
import Cyclone.Core.Placement
