import LsmGraph.BaseGraph.Builder
import LsmGraph.BaseGraph.Csr
import LsmGraph.BaseGraph.Derived
import LsmGraph.BaseGraph.Relations
import LsmGraph.BaseGraph.Roots
import LsmGraph.BaseGraph.Rows
import LsmGraph.Concurrent.Barrier
import LsmGraph.Concurrent.Books
import LsmGraph.Concurrent.IndexLag
import LsmGraph.Concurrent.Listed
import LsmGraph.Concurrent.LiveFiles
import LsmGraph.Concurrent.Machine
import LsmGraph.Concurrent.Reached
import LsmGraph.Concurrent.Repeatable
import LsmGraph.Concurrent.Sound
import LsmGraph.Concurrent.Steps
import LsmGraph.Csr.Bytes
import LsmGraph.Csr.Cache
import LsmGraph.Csr.CacheQueue
import LsmGraph.Csr.Filter
import LsmGraph.Csr.Format
import LsmGraph.Csr.Manifest
import LsmGraph.Csr.ManifestText
import LsmGraph.Csr.Reader
import LsmGraph.Csr.RoundTrip
import LsmGraph.Csr.Search
import LsmGraph.Csr.Writer
import LsmGraph.DynamicView
import LsmGraph.EdgeMap
import LsmGraph.Engine
import LsmGraph.Engine.Files
import LsmGraph.Engine.History
import LsmGraph.Engine.Invariant
import LsmGraph.Engine.Maintenance
import LsmGraph.IndexFaults
import LsmGraph.Io
import LsmGraph.Io.Write
import LsmGraph.Library.Bfs
import LsmGraph.Library.Binary64
import LsmGraph.Library.BinarySearch
import LsmGraph.Library.ByteLayout
import LsmGraph.Library.Chains
import LsmGraph.Library.Column
import LsmGraph.Library.ErrorState
import LsmGraph.Library.FirstMatch
import LsmGraph.Library.Gregorian
import LsmGraph.Library.Histogram
import LsmGraph.Library.KeyedSort
import LsmGraph.Library.MachineOrder
import LsmGraph.Library.Memo
import LsmGraph.Library.Recency
import LsmGraph.Library.Separated
import LsmGraph.Library.ShortestPaths
import LsmGraph.Library.Tally
import LsmGraph.Library.TopK
import LsmGraph.Library.Transition
import LsmGraph.Library.Versioned
import LsmGraph.Library.Worklist
import LsmGraph.Loader.FieldEdges
import LsmGraph.Loader.Topology
import LsmGraph.Loader.UpdateLine
import LsmGraph.Loader.UpdateStream
import LsmGraph.Loader.Validate
import LsmGraph.Loader.VertexFiles
import LsmGraph.MemGraph
import LsmGraph.Merge
import LsmGraph.Metrics.Latency
import LsmGraph.Metrics.Recorders
import LsmGraph.Read
import LsmGraph.Segments
import LsmGraph.Session
import LsmGraph.Session.FlushCrash
import LsmGraph.Session.OneVersion
import LsmGraph.Session.Probes
import LsmGraph.Session.Refinement
import LsmGraph.Session.ScoreCompaction
import LsmGraph.Session.Snapshots
import LsmGraph.Snb.Adjacency
import LsmGraph.Snb.AdjacencyCache
import LsmGraph.Snb.AllShortestPaths
import LsmGraph.Snb.Calendar
import LsmGraph.Snb.EdgeProps
import LsmGraph.Snb.FriendScores
import LsmGraph.Snb.FriendSets
import LsmGraph.Snb.Graph
import LsmGraph.Snb.Http
import LsmGraph.Snb.HttpUpdates
import LsmGraph.Snb.Import
import LsmGraph.Snb.ImportStream
import LsmGraph.Snb.Likes
import LsmGraph.Snb.MessageRoots
import LsmGraph.Snb.Mirror
import LsmGraph.Snb.NamedFriends
import LsmGraph.Snb.ParentDag
import LsmGraph.Snb.PostCounts
import LsmGraph.Snb.RecentMessages
import LsmGraph.Snb.ReplyWeight
import LsmGraph.Snb.ShortReads
import LsmGraph.Snb.ShortestPath
import LsmGraph.Snb.Stored
import LsmGraph.Snb.TagCounts
import LsmGraph.Snb.UpdateCache
import LsmGraph.Snb.Validation
import LsmGraph.Snb.Vertices
import LsmGraph.Types
import LsmGraph.Version
