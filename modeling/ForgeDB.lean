import ForgeDB.Consensus.Majority
import ForgeDB.Consensus.History
import ForgeDB.Consensus.Updates
import ForgeDB.Consensus.Participant
import ForgeDB.Consensus.Commitment
import ForgeDB.Data.SortedMap
import ForgeDB.Data.Encoding
import ForgeDB.Data.Cursor
import ForgeDB.Data.Bisect
import ForgeDB.Data.KWayMerge
import ForgeDB.Data.Linked
import ForgeDB.Data.Checked
import ForgeDB.Data.Text
import ForgeDB.Data.URL
import ForgeDB.Data.Exploration
import ForgeDB.Data.Greedy
import ForgeDB.Data.Reassembly
import ForgeDB.Data.Reclamation
import ForgeDB.Storage.WAL
import ForgeDB.Storage.MemStore
import ForgeDB.Storage.MemTable.SkipList
import ForgeDB.Storage.MemTable.Table
import ForgeDB.Storage.Manifest
import ForgeDB.Storage.SSTable.Format
import ForgeDB.Storage.SSTable.Bloom
import ForgeDB.Storage.SSTable.Table
import ForgeDB.Storage.SSTable.Layout
import ForgeDB.Storage.SSTable.RoundTrip
import ForgeDB.Storage.SSTable.Reading
import ForgeDB.Storage.Compaction.Compact
import ForgeDB.Storage.Compaction.Merging
import ForgeDB.Storage.Compaction.Births
import ForgeDB.Storage.Compaction.Steps
import ForgeDB.Storage.Compaction.Runs
import ForgeDB.Storage.Compaction.View
import ForgeDB.Storage.Compaction.Preservation
import ForgeDB.Storage.Compaction.Tracker
import ForgeDB.Raft.Log
import ForgeDB.Raft.Words
import ForgeDB.Raft.Contiguous
import ForgeDB.Raft.Words.RawLog
import ForgeDB.Raft.Words.Node
import ForgeDB.Raft.Words.Invariant
import ForgeDB.Raft.Words.NoPanic
import ForgeDB.Raft.Words.Numbers
import ForgeDB.Raft.Words.Durability
import ForgeDB.Raft.Message
import ForgeDB.Raft.Format
import ForgeDB.Raft.Node
import ForgeDB.Raft.Snapshot
import ForgeDB.Raft.Chunks
import ForgeDB.Raft.Cluster
import ForgeDB.Raft.Invariant
import ForgeDB.Raft.Elections
import ForgeDB.Raft.Replication
import ForgeDB.Raft.Methods
import ForgeDB.Raft.Safety
import ForgeDB.Raft.Progress
import ForgeDB.Raft.Agreement
import ForgeDB.Raft.Outgoing
import ForgeDB.Raft.Matching
import ForgeDB.Raft.Traffic
import ForgeDB.Raft.ReadBarrier
import ForgeDB.Raft.Payload
import ForgeDB.Raft.Handover
import ForgeDB.Raft.Completeness
import ForgeDB.Raft.Ordering
import ForgeDB.Raft.Partition
import ForgeDB.Raft.Indexes
import ForgeDB.Raft.Leadership
import ForgeDB.Raft.Integrity
import ForgeDB.Raft.Healthy
import ForgeDB.Raft.Attempts
import ForgeDB.Raft.Backoff
import ForgeDB.Transport.Limits
import ForgeDB.StateMachine.Command
import ForgeDB.StateMachine.Machine
import ForgeDB.StateMachine.Snapshot
import ForgeDB.StateMachine.Restore
import ForgeDB.StateMachine.Sizes
import ForgeDB.StateMachine.Requests
import ForgeDB.StateMachine.Replay
import ForgeDB.StateMachine.Applier
import ForgeDB.StateMachine.Alignment
import ForgeDB.DBNode.Cluster
import ForgeDB.DBNode.Positions
import ForgeDB.DBNode.Contents
import ForgeDB.DBNode.Acknowledged
import ForgeDB.DBNode.WaitApplied
import ForgeDB.DBNode.Reads
import ForgeDB.API.Server
import ForgeDB.API.Numbering
import ForgeDB.Gateway.Proxy
import ForgeDB.Gateway.Executions
import ForgeDB.Gateway.GivingUp
import ForgeDB.Gateway.Concurrent
import ForgeDB.Gateway.Keys
import ForgeDB.Correctness.Operation
import ForgeDB.Correctness.Checker
import ForgeDB.Correctness.Orderings
import ForgeDB.Correctness.Verdict
import ForgeDB.Correctness.Reducer
