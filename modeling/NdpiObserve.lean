import NdpiObserve.Daemon.FlowTableMap
import NdpiObserve.Daemon.PacketAccounting
import NdpiObserve.Daemon.FlowMachine
import NdpiObserve.Daemon.MlRescue
import NdpiObserve.Daemon.FlowLives
import NdpiObserve.Daemon.DnsHook
import NdpiObserve.Daemon.PageOverrun
import NdpiObserve.Daemon.PageContent
import NdpiObserve.Kernel.FlowCredits
import NdpiObserve.Kernel.FrontEnds
import NdpiObserve.Pipeline.GiveUp
import NdpiObserve.Pipeline.Verdicts
import NdpiObserve.Pipeline.MlVerdicts
import NdpiObserve.Pipeline.ActiveFlows
import NdpiObserve.Pipeline.AppNames
import NdpiObserve.Daemon.DnsHistory
import NdpiObserve.Daemon.CategoryTotals
import NdpiObserve.Daemon.PacketPatch
import NdpiObserve.Daemon.PatchedRecord
import NdpiObserve.Daemon.NdpiFlows
import NdpiObserve.Daemon.HostnameSources
import NdpiObserve.Daemon.ServiceDomains
import NdpiObserve.Daemon.FeatureDump
import NdpiObserve.Daemon.DnsTruncation
import NdpiObserve.Daemon.DnsPackets
import NdpiObserve.Daemon.DnsNameBuffer
import NdpiObserve.Daemon.CpuCounters
import NdpiObserve.Pipeline.MergedFlows
import NdpiObserve.Pipeline.Mirror
import NdpiObserve.Pipeline.ByteTotals
import NdpiObserve.Daemon.ControlSocket
import NdpiObserve.Daemon.MetricsResponse
import NdpiObserve.Kernel.Frames
import NdpiObserve.Kernel.TrackedFlows
import NdpiObserve.Kernel.Interleavings
import NdpiObserve.Pipeline.PacketLedger
import NdpiObserve.Pipeline.SweepTimer
import NdpiObserve.Pipeline.DnsNames
import NdpiObserve.Pipeline.Scrapes
import NdpiObserve.Pipeline.RingRecords
