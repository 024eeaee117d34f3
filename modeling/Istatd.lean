import Istatd.Lib.Deal
import Istatd.Lib.Decimal
import Istatd.Lib.Escapes
import Istatd.Lib.Executor
import Istatd.Lib.FileTree
import Istatd.Lib.FirstFit
import Istatd.Lib.Glob
import Istatd.Lib.Grid
import Istatd.Lib.Groups
import Istatd.Lib.Handles
import Istatd.Lib.JsonText
import Istatd.Lib.Lines
import Istatd.Lib.LinkedList
import Istatd.Lib.LittleEndian
import Istatd.Lib.Paths
import Istatd.Lib.Percent
import Istatd.Lib.Ring
import Istatd.Lib.Run
import Istatd.Lib.Scan
import Istatd.Lib.SortedMap
import Istatd.Lib.Varint
import Istatd.Lib.WriteBack
import Istatd.Bucket
import Istatd.Header
import Istatd.PageCache
import Istatd.StatFile
import Istatd.RingFile
import Istatd.ReadBuckets
import Istatd.RingInvariant
import Istatd.HeadTime
import Istatd.Coherence
import Istatd.Mappings
import Istatd.History
import Istatd.SlotTimes
import Istatd.Traced
import Istatd.Trailing
import Istatd.TrailingAverage
import Istatd.Retention
import Istatd.StatCounter
import Istatd.NewCounter
import Istatd.Collation
import Istatd.CoarseFile
import Istatd.Conservation
import Istatd.Sessions
import Istatd.Select
import Istatd.GaugeSelect
import Istatd.CollatedSelect
import Istatd.OpenFile
import Istatd.Purge
import Istatd.RefreshQueue
import Istatd.KeyList
import Istatd.StrFunc
import Istatd.AllKeys
import Istatd.Listing
import Istatd.Framing
import Istatd.UdpFraming
import Istatd.UdpBlacklist
import Istatd.SettingsFile
import Istatd.CounterPaths
import Istatd.FileKinds
import Istatd.Cumulative
import Istatd.Bucketizer
import Istatd.Forwarding
import Istatd.AgentInterval
import Istatd.Outgoing
import Istatd.AgentSync
import Istatd.TransplantOffer
import Istatd.TransplantWalk
import Istatd.PduReader
import Istatd.ShardedMap
import Istatd.KeyTree
import Istatd.SettingsFactory
import Istatd.TransplantServer
import Istatd.FileQuanta
import Istatd.TransplantExchange
import Istatd.TransplantSteps
import Istatd.TransplantSync
import Istatd.NormalizeRange
import Istatd.RangeQuery
import Istatd.AdminFraming
import Istatd.ReplicaHandlers
import Istatd.JsonListing
import Istatd.Multiget
import Istatd.CounterCommand
import Istatd.PromExporter
import Istatd.PromCounters
import Istatd.BucketWindow
import Istatd.MetaRecords
import Istatd.ExtractCtrs
import Istatd.PatMatch
import Istatd.DeletePattern
import Istatd.Reduce
import Istatd.PickFile
import Istatd.HttpHeaders
import Istatd.HttpBody
import Istatd.CounterFields
import Istatd.PromTags
import Istatd.Intervals
import Istatd.IntervalText
import Istatd.Quoting
import Istatd.SplitN
import Istatd.UrlDecode
import Istatd.BucketStats
import Istatd.PduMake
import Istatd.FileGeometry
import Istatd.StatStore
import Istatd.StoreInvariant
import Istatd.StoreRuns
import Istatd.StoreDeletions
import Istatd.StoreParents
import Istatd.StoreFlush
import Istatd.StoreEnds
import Istatd.StoreDisk
import Istatd.LoopbackCounter
import Istatd.Argument
import Istatd.Ingest
import Istatd.TransplantSession
