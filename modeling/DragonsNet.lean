import DragonsNet.Lib.Runs
import DragonsNet.Models.Wake
import DragonsNet.Dataplane.Standing
import DragonsNet.Dataplane.Cache
import DragonsNet.Lib.Progress
import DragonsNet.Native.Accounts
import DragonsNet.Native.AccountsProgress
import DragonsNet.Lib.Position
import DragonsNet.Models.Ring
import DragonsNet.Models.RingFifo
import DragonsNet.Dataplane.Shard
import DragonsNet.Dataplane.ShardHandlers
import DragonsNet.Dataplane.StaticLane
import DragonsNet.Models.RingWakes
import DragonsNet.Dataplane.ShardOwners
import DragonsNet.Native.NntpRing
import DragonsNet.Native.NntpRingCounts
import DragonsNet.Native.FileJobs
import DragonsNet.News.PostStore
import DragonsNet.Native.FileScripts
import DragonsNet.Native.FileAgreement
import DragonsNet.Native.FileWorkers
import DragonsNet.News.StoreClients
import DragonsNet.News.StorePlans
import DragonsNet.News.StoreCompletes
import DragonsNet.News.StoreHost
import DragonsNet.Runtime.SlabMap
import DragonsNet.Dataplane.Chunked
import DragonsNet.Dataplane.ResponseHeads
import DragonsNet.Dataplane.UpstreamPumps
import DragonsNet.Dataplane.UpstreamBoundaries
import DragonsNet.Dataplane.NativeReply
import DragonsNet.Dataplane.L4Reactor
import DragonsNet.Dataplane.L4Flows
import DragonsNet.Dataplane.L4Endings
import DragonsNet.Dataplane.Tunnel
import DragonsNet.Dataplane.StaticPlans
import DragonsNet.Dataplane.StaticDrive
import DragonsNet.Dataplane.StaticAlone
import DragonsNet.Dataplane.StaticAgreement
import DragonsNet.Dataplane.WsEngine
import DragonsNet.Dataplane.WsCuts
import DragonsNet.Dataplane.WsBounds
import DragonsNet.Lib.Windows
import DragonsNet.Dataplane.Arrivals
import DragonsNet.Dataplane.Config
import DragonsNet.Dataplane.Bursts
import DragonsNet.Dataplane.Workers
import DragonsNet.Lib.FileSystem
import DragonsNet.Dataplane.DiskCache
import DragonsNet.Dataplane.CacheSeam
import DragonsNet.Dataplane.EffectServe
import DragonsNet.Dataplane.Purges
import DragonsNet.Lib.Fairness
import DragonsNet.Dataplane.LeafFiles
import DragonsNet.Dataplane.LeafRuns
import DragonsNet.Dataplane.LeafLocks
import DragonsNet.Dataplane.OnDemand
import DragonsNet.Lib.Mixing
import DragonsNet.Dataplane.TraceIds
import DragonsNet.Dataplane.Breakers
import DragonsNet.Lib.Cells
import DragonsNet.Lib.Pages
import DragonsNet.Native.Listings
import DragonsNet.Lib.Json
import DragonsNet.Dataplane.Spans
import DragonsNet.Dataplane.Socks
import DragonsNet.Lib.MaskRing
import DragonsNet.Native.Uring
import DragonsNet.Native.EchoKernel
import DragonsNet.Native.EchoUring
import DragonsNet.Native.EchoSlots
import DragonsNet.Native.EchoAdmission
import DragonsNet.Native.EchoStop
import DragonsNet.Dataplane.BufferLeases
import DragonsNet.Native.StoreMark
