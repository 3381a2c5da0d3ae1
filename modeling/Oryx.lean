import Oryx.Library.LastWriter
import Oryx.Library.XorSum
import Oryx.Library.OrderedMap
import Oryx.Library.Framing
import Oryx.Library.Interleave
import Oryx.Library.Runs
import Oryx.Library.Assign
import Oryx.Library.Linearizable
import Oryx.Library.Clockwise
import Oryx.Library.Search
import Oryx.Library.Circular
import Oryx.Library.Faulty
import Oryx.Library.Mixing
import Oryx.Library.Threads
import Oryx.Library.Gossip
import Oryx.Library.Binary64
import Oryx.Library.Custody
import Oryx.Kv
import Oryx.Security.Reference
import Oryx.Wal.Log
import Oryx.Wal.Replay
import Oryx.Wal.Format
import Oryx.Wal.TornTail
import Oryx.Wal.Protobuf
import Oryx.Hashmap.ShardedMap
import Oryx.Hashmap.Invariant
import Oryx.Hashmap.Refinement
import Oryx.Hashmap.Digests
import Oryx.Hashmap.Readers
import Oryx.Hashmap.PlainMap
import Oryx.Hashmap.Counts
import Oryx.Hashmap.BlindSpot
import Oryx.Clock.Clock
import Oryx.Clock.Interleaving
import Oryx.Clock.System
import Oryx.Clock.Drift
import Oryx.Clock.Returns
import Oryx.Clock.Skew
import Oryx.Snap.Snapshot
import Oryx.Writer.StorageWriter
import Oryx.Writer.Convergence
import Oryx.Writer.Faults
import Oryx.Mesh.HashRing
import Oryx.Mesh.Ownership
import Oryx.Mesh.Movement
import Oryx.Mesh.Owners
import Oryx.Mesh.Membership
import Oryx.Mesh.VnodePool
import Oryx.Cluster.Read
import Oryx.Entropy.Sync
import Oryx.Entropy.Response
import Oryx.Entropy.Round
import Oryx.Entropy.Pull
import Oryx.Entropy.Pools
import Oryx.Engine.Engine
import Oryx.Engine.RoundTrip
import Oryx.Engine.Writers
import Oryx.Engine.Restart
import Oryx.Snap.Create
import Oryx.Snap.Ranging
import Oryx.Snap.CreateSafety
import Oryx.Snap.Service
import Oryx.Snap.Files
import Oryx.Snap.CrashSafe
import Oryx.Snap.ClearFaults
import Oryx.Engine.CrashRecovery
import Oryx.Engine.Operations
import Oryx.Engine.Session
import Oryx.Engine.Calls
import Oryx.Engine.Linearizable
import Oryx.Engine.Eviction
import Oryx.Engine.EvictionReplay
import Oryx.Engine.Reconfigured
import Oryx.Evict.Shard
import Oryx.Evict.LateWrites
import Oryx.Evict.Blocking
import Oryx.Evict.Linked
import Oryx.Evict.Refinement
import Oryx.Evict.Recency
import Oryx.Evict.Lru
import Oryx.Evict.Occupancy
import Oryx.Stats.Monitor
import Oryx.Evict.Panics
import Oryx.Evict.Window
import Oryx.Evict.Notifications
import Oryx.Cluster.Eviction
import Oryx.Cluster.Causality
import Oryx.Cluster.Knowledge
import Oryx.Cluster.Gateway
import Oryx.Cluster.Tombstones
import Oryx.Cluster.ClientCache
import Oryx.Cluster.Connections
import Oryx.Server.Resp
import Oryx.Server.Grammar
import Oryx.Server.Split
import Oryx.Server.Accepted
import Oryx.Server.Replies
