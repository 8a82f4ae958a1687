import Cockroach.Hlc.Clock
import Cockroach.GC.Preserved
import Cockroach.SpanLatch.Runs
import Cockroach.Storage.UncertainScan
import Cockroach.TsCache.Reads
import Cockroach.KvCoord.Savepoints
import Cockroach.KvCoord.Truncate
import Cockroach.RangeFeed.Stream
import Cockroach.Opt.SetAlgebra
import Cockroach.Opt.OrderedRows
import Cockroach.Inverted.Expression
import Cockroach.Storage.ResolveLog
import Cockroach.Storage.ResolveStats
import Cockroach.Encoding.BitArrayText
import Cockroach.Encoding.PeekExact
import Cockroach.Encoding.ValueRoundTrip
import Cockroach.KvServer.IndeterminateCommit
import Cockroach.Roachpb.BatchParts
import Cockroach.Roachpb.SubtractSpans
import Cockroach.Enum.ByteStrings
