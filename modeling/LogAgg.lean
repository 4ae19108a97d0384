import LogAgg.CString.Basic
import LogAgg.CString.Text
import LogAgg.CString.Stdio
import LogAgg.CString.Quoted
import LogAgg.CString.Nested
import LogAgg.CString.Cursor
import LogAgg.CString.Trailing
import LogAgg.CString.Growth
import LogAgg.CString.Scanf
import LogAgg.Causality.EventOrder
import LogAgg.Causality.Consistent
import LogAgg.Sorting.Arrangement
import LogAgg.Sorting.Merge
import LogAgg.Dedup.KeepFirst
import LogAgg.Dedup.Grouping
import LogAgg.Loop.Trail
import LogAgg.Loop.Assign
import LogAgg.Memory.Object
import LogAgg.Memory.Area
import LogAgg.Lz77.CopyBack
import LogAgg.Lz77.Repeat
import LogAgg.Lz4.Words
import LogAgg.Lz4.Format
import LogAgg.Lz4.Emit
import LogAgg.Lz4.Search
import LogAgg.Lz4.Compress
import LogAgg.Lz4.Copy
import LogAgg.Lz4.Parse
import LogAgg.Lz4.Decompress
import LogAgg.Lz4.Decoding
import LogAgg.Lz4.Codec
import LogAgg.Json.Grammar
import LogAgg.Json.Brackets
import LogAgg.Dot.Strings
import LogAgg.VectorClock.Basic
import LogAgg.VectorClock.Order
import LogAgg.VectorClock.Json
import LogAgg.VectorClock.Placement
import LogAgg.VectorClock.Meaning
import LogAgg.VectorClock.Accepted
import LogAgg.VectorClock.Numbers
import LogAgg.VectorClock.Memory
import LogAgg.VectorClock.Protocol
import LogAgg.LogEntry.Basic
import LogAgg.LogEntry.Json
import LogAgg.LogEntry.RoundTrip
import LogAgg.LogEntry.Members
import LogAgg.LogEntry.Rendering
import LogAgg.LogEntry.Numbers
import LogAgg.LogEntry.TrailingBlank
import LogAgg.LogEntry.Memory
import LogAgg.LogEntry.Fields
import LogAgg.LogEntry.Truncated
import LogAgg.LogEntry.NestedClock
import LogAgg.LogEntry.Metadata
import LogAgg.LogEntry.Unknown
import LogAgg.Server.Basic
import LogAgg.Server.Fixpoint
import LogAgg.Server.Attempts
import LogAgg.Server.SingleStep
import LogAgg.Server.Waiting
import LogAgg.Server.Safety
import LogAgg.Server.Discard
import LogAgg.Server.Delivery
import LogAgg.Server.Unforced
import LogAgg.Server.Conservation
import LogAgg.Server.BufferOrder
import LogAgg.Server.Coverage
import LogAgg.Server.Shutdown
import LogAgg.Agent.Line
import LogAgg.Agent.Basic
import LogAgg.Agent.Advance
import LogAgg.Agent.Tags
import LogAgg.Agent.Polling
import LogAgg.Agent.FreeText
import LogAgg.Agent.Timestamped
import LogAgg.Agent.SignedTags
import LogAgg.Server.Datagram
import LogAgg.Store.Basic
import LogAgg.Store.Dedup
import LogAgg.Store.Failure
import LogAgg.Store.Sort
import LogAgg.Store.Index
import LogAgg.Store.Words
import LogAgg.Store.QueryTool
import LogAgg.Store.Filters
import LogAgg.Store.Dot
import LogAgg.Store.Clusters
import LogAgg.Store.Labels
import LogAgg.Store.Readable
import LogAgg.Store.Stats
import LogAgg.Store.Load
import LogAgg.Store.Lines
import LogAgg.Store.LoadCount
import LogAgg.Store.Compressed
import LogAgg.Store.SizeLimits
import LogAgg.Store.Codec
import LogAgg.Network.Lossy
import LogAgg.Pipeline.Directory
import LogAgg.Pipeline.Basic
import LogAgg.Pipeline.Hosts
import LogAgg.Pipeline.Causal
import LogAgg.Pipeline.GenLog
