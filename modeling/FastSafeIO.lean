import FastSafeIO.CallTree
import FastSafeIO.AgentPool
import FastSafeIO.RxQueue
import FastSafeIO.DriverProtection
import FastSafeIO.IovaOwnership
import FastSafeIO.SlotFields
import FastSafeIO.SharedDomain
import FastSafeIO.OwnershipRuns
import FastSafeIO.FailedAllocation
import FastSafeIO.BatchReturn
import FastSafeIO.PostedAddresses
import FastSafeIO.IovaReuse
import FastSafeIO.BatchReuse
import FastSafeIO.MapSync
import FastSafeIO.OldRxDriver
import FastSafeIO.SinglePages
import FastSafeIO.DriverInvisible
import FastSafeIO.Tiling
import FastSafeIO.HeldPages
import FastSafeIO.UnmapTrace
import FastSafeIO.RouteAgreement
import FastSafeIO.RadixWalk
import FastSafeIO.WalkCache
import FastSafeIO.WalkCoherence
import FastSafeIO.HintedUnmaps
import FastSafeIO.TracingUtils
import FastSafeIO.GuestTracer
import FastSafeIO.TracerMaps
import FastSafeIO.CallTotals
import FastSafeIO.HostTracer
import FastSafeIO.GuestLoader
import FastSafeIO.HistogramRanges
import FastSafeIO.StatsReaders
import FastSafeIO.StatsRoundTrip
import FastSafeIO.PeriodReport
import FastSafeIO.CompressReports
import FastSafeIO.ReportsKept
import FastSafeIO.FailedMapping
import FastSafeIO.BatchIdentity
import FastSafeIO.RangesApart
import FastSafeIO.SampleSums
import FastSafeIO.VarianceSign
import FastSafeIO.RingLog
import FastSafeIO.LatencyLog
import FastSafeIO.OccupancySampler
import FastSafeIO.SmoothedOccupancy
import FastSafeIO.OccupancyLog
import FastSafeIO.ByteWords
import FastSafeIO.StackFile
import FastSafeIO.RetxReport
import FastSafeIO.RetxSnapshots
import FastSafeIO.LostRetransmits
import FastSafeIO.Grep
import FastSafeIO.PeriodCounts
import FastSafeIO.PcieLists
import FastSafeIO.Regex
import FastSafeIO.WordSearch
import FastSafeIO.CommandLine
import FastSafeIO.UnicodeText
import FastSafeIO.PerfReport
import FastSafeIO.PerfColumns
import FastSafeIO.PerfReadBack
import FastSafeIO.PythonInts
import FastSafeIO.TcpTrace
import FastSafeIO.TcpTokens
import FastSafeIO.TcpTable
import FastSafeIO.QueueReleases
import FastSafeIO.LocalViews
import FastSafeIO.Custody
import FastSafeIO.UserViews
import FastSafeIO.UserMapping
import FastSafeIO.PageAccounts
import FastSafeIO.QueueAccounts
import FastSafeIO.ClientRanges
import FastSafeIO.OldDomain
import FastSafeIO.AccountRuns
import FastSafeIO.AtomicJobs
import FastSafeIO.ViewFrames
import FastSafeIO.BatchTable
import FastSafeIO.BatchedJobs
import FastSafeIO.AtomicRuns
import FastSafeIO.StalePages
import FastSafeIO.TlbCoherence
import FastSafeIO.DeviceReach
import FastSafeIO.ServerTracer
import FastSafeIO.LoaderMain
import FastSafeIO.LoaderCleanup
import FastSafeIO.CallCredits
import FastSafeIO.CallCosts
import FastSafeIO.BatchEconomy
import FastSafeIO.EventFile
import FastSafeIO.EventReport
import FastSafeIO.NearestFloat
import FastSafeIO.PcieReport
import FastSafeIO.PcieMeans
import FastSafeIO.HostReport
