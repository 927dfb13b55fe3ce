import Ubpftrace.Runs
import Ubpftrace.Bytes
import Ubpftrace.EpochLedger
import Ubpftrace.EventRecord
import Ubpftrace.ShmBuffer
import Ubpftrace.ShmControl
import Ubpftrace.ShmLedger
import Ubpftrace.ShmSchedules
import Ubpftrace.ShmSafety
import Ubpftrace.ShortWrites
import Ubpftrace.ContainerFormat
import Ubpftrace.ContainerWriter
import Ubpftrace.ContainerReader
import Ubpftrace.ContainerRoundTrip
import Ubpftrace.ShiftRegister
import Ubpftrace.CrcBursts
import Ubpftrace.RecordCounts
import Ubpftrace.ChunkDecode
import Ubpftrace.AgentManager
import Ubpftrace.KWayMerge
import Ubpftrace.ShmAttach
import Ubpftrace.TraceMerge
import Ubpftrace.LustreLayout
import Ubpftrace.MicroStreamer
import Ubpftrace.BoundedMap
import Ubpftrace.Probing
import Ubpftrace.BpftimeHashMap
import Ubpftrace.HashMapVariants
import Ubpftrace.KeyWalks
import Ubpftrace.HashMapKeys
import Ubpftrace.LinkedLists
import Ubpftrace.LruCache
import Ubpftrace.LruVarHashMap
import Ubpftrace.PrefixTrie
import Ubpftrace.LpmTrie
import Ubpftrace.TrieNodes
import Ubpftrace.LpmTrieNodes
import Ubpftrace.Ringbuf
import Ubpftrace.RingbufSafety
import Ubpftrace.HandlerTable
import Ubpftrace.HandlerLinks
import Ubpftrace.MapSharing
import Ubpftrace.SessionScan
import Ubpftrace.AttachCtx
import Ubpftrace.AttachRecords
import Ubpftrace.Snapshots
import Ubpftrace.PerCpuMaps
import Ubpftrace.PerCpuHash
import Ubpftrace.BoundedLists
import Ubpftrace.QueueStack
import Ubpftrace.SlotAddresses
import Ubpftrace.StackTraces
import Ubpftrace.BloomFilter
import Ubpftrace.ByteCopies
import Ubpftrace.ProbeReadStr
import Ubpftrace.NumberStrings
import Ubpftrace.KeyedMaps
import Ubpftrace.UbtTop
import Ubpftrace.JsonValue
import Ubpftrace.ShmJson
import Ubpftrace.ShmItems
import Ubpftrace.ShmRoundTrip
import Ubpftrace.ReserveAccounting
import Ubpftrace.ChunkOrder
import Ubpftrace.IndexIntegrity
import Ubpftrace.RecordSplitting
import Ubpftrace.LoggedEvents
import Ubpftrace.TruncatedFiles
import Ubpftrace.MachineWords
import Ubpftrace.FoldLiterals
import Ubpftrace.FoldRanges
import Ubpftrace.FoldExact
import Ubpftrace.FoldLogical
import Ubpftrace.BinopCodegen
import Ubpftrace.StructuredFlow
import Ubpftrace.Scripts
import Ubpftrace.LoopReturn
import Ubpftrace.ControlFlow
import Ubpftrace.DeadCode
import Ubpftrace.Bisection
import Ubpftrace.UnwindMappings
import Ubpftrace.UnwindCodec
import Ubpftrace.UnwindSearch
import Ubpftrace.UnwindTable
import Ubpftrace.UnwindBuild
import Ubpftrace.UnwindLookup
import Ubpftrace.Histograms
import Ubpftrace.LinearHistogram
import Ubpftrace.HistogramCounts
import Ubpftrace.KeyedSort
import Ubpftrace.StreamerBytes
import Ubpftrace.MapPrinting
import Ubpftrace.TimeSeries
import Ubpftrace.ByteRings
import Ubpftrace.PerfBuffer
import Ubpftrace.MapCreation
import Ubpftrace.DoubleQuotients
import Ubpftrace.DwarfExpr
import Ubpftrace.UnwindStep
import Ubpftrace.TypePromotion
import Ubpftrace.PromotionOrder
import Ubpftrace.StringLiterals
import Ubpftrace.BinaryPath
import Ubpftrace.ProbeMatcher
import Ubpftrace.AttachPointLexer
import Ubpftrace.SimilarStrings
import Ubpftrace.PidFilter
