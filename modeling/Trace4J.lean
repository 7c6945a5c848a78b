import Trace4J.Library.Run
import Trace4J.Library.NestedCount
import Trace4J.Library.Halting
import Trace4J.Library.BucketSet
import Trace4J.Profiler.Machine
import Trace4J.Profiler.Metrics
import Trace4J.Profiler.ContextTree
import Trace4J.Profiler.Watchpoint
import Trace4J.Profiler.Tracer
import Trace4J.Profiler.Decoder
import Trace4J.Profiler.Steps
import Trace4J.Profiler.StackSync
import Trace4J.Profiler.InclusiveCount
import Trace4J.Profiler.CounterBaseline
import Trace4J.Library.Timeline
import Trace4J.Profiler.Intervals
import Trace4J.Offline.PftraceFlatten
import Trace4J.Offline.PftraceSlices
import Trace4J.Offline.ResumedSlices
import Trace4J.Perf.RecordLoop
import Trace4J.Profiler.CodeCache
import Trace4J.Profiler.CodeCacheCoupling
import Trace4J.Profiler.CodeCacheUnload
import Trace4J.Profiler.ContextTreeShape
import Trace4J.Profiler.ContextHeap
import Trace4J.Profiler.ContextTrie
import Trace4J.Offline.MethodManager
import Trace4J.Profiler.ThreadEnd
import Trace4J.Profiler.MethodResolution
import Trace4J.Offline.ContextManager
import Trace4J.Profiler.ContextXml
import Trace4J.Profiler.ContextElements
import Trace4J.Profiler.Xml
import Trace4J.Offline.Xml
import Trace4J.Library.RunningVariance
import Trace4J.Profiler.MetricsHistory
import Trace4J.Profiler.RuntimeCall
import Trace4J.Profiler.StackBounds
import Trace4J.Profiler.BlockCache
import Trace4J.Profiler.DecoderHalting
import Trace4J.Profiler.BranchTargets
import Trace4J.Profiler.Sessions
import Trace4J.Profiler.ContextLayers
import Trace4J.Offline.HomoXmlParser
import Trace4J.Offline.OutputToFile
import Trace4J.Profiler.ContextPaths
import Trace4J.Profiler.TraceOutput
import Trace4J.Profiler.TraceFile
import Trace4J.Offline.MergedDumps
import Trace4J.Profiler.SharedThreadId
import Trace4J.Offline.XmlSegments
import Trace4J.Profiler.XmlOpenTag
import Trace4J.Profiler.XmlRoundTrip
import Trace4J.Profiler.BufferedOutput
import Trace4J.Profiler.LineTable
import Trace4J.Offline.BciLines
import Trace4J.Offline.HomoXmlFailures
import Trace4J.Offline.HomoXmlProgress
import Trace4J.Library.SignificantDigits
import Trace4J.Library.RoundedMean
import Trace4J.Profiler.Doubles
import Trace4J.Offline.Floats
import Trace4J.Profiler.MetricsReadBack
import Trace4J.Profiler.AddressMap
import Trace4J.Offline.RangeTree
import Trace4J.Offline.AddressLines
import Trace4J.Perf.StreamRead
import Trace4J.Perf.LoopProgress
import Trace4J.Profiler.EventList
import Trace4J.Profiler.EventArgument
import Trace4J.Offline.SrcPosition
import Trace4J.Profiler.SafeSampling
import Trace4J.Profiler.SplayTree
import Trace4J.Offline.SplitMethod
import Trace4J.Profiler.PreviousInstruction
import Trace4J.Library.SpinLock
import Trace4J.Profiler.CodeCacheLock
import Trace4J.Profiler.HandlerLock
import Trace4J.Profiler.WatchpointSlots
import Trace4J.Profiler.WatchpointRanges
import Trace4J.Profiler.SlotRefinement
import Trace4J.Profiler.WatchpointBuffer
import Trace4J.Profiler.OutbufFaults
