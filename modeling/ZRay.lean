import ZRay.ByteStream
import ZRay.ControlFlow.Dominance
import ZRay.ControlFlow.Loops
import ZRay.ControlFlow.Reducible
import ZRay.ControlFlow.Stretch
import ZRay.ControlFlow.Walk
import ZRay.Csv
import ZRay.DecimalText
import ZRay.DepthFirst
import ZRay.Erasure
import ZRay.Forest
import ZRay.Labelling
import ZRay.Log.CsvReport
import ZRay.Log.CsvRows
import ZRay.Log.DamagedLog
import ZRay.Log.EpochTotals
import ZRay.Log.HostFile
import ZRay.Log.HostLog
import ZRay.Log.ProfileData
import ZRay.Log.ReadPdSets
import ZRay.Log.Readers
import ZRay.Log.RegionLog
import ZRay.Log.RegionTotals
import ZRay.Log.RunTotals
import ZRay.Log.StatisticsFile
import ZRay.Nesting
import ZRay.Pass.BlockLists
import ZRay.Pass.BlockSizes
import ZRay.Pass.CloneCoverage
import ZRay.Pass.CloneWorklist
import ZRay.Pass.ClonedCalls
import ZRay.Pass.Clones
import ZRay.Pass.ControlClasses
import ZRay.Pass.ControlEquivalence
import ZRay.Pass.CounterIds
import ZRay.Pass.CounterValues
import ZRay.Pass.Coverage
import ZRay.Pass.EarlyClones
import ZRay.Pass.Emission
import ZRay.Pass.EmissionErasure
import ZRay.Pass.EmissionRecords
import ZRay.Pass.EmittedCalls
import ZRay.Pass.EmittedIds
import ZRay.Pass.ForkCalls
import ZRay.Pass.FullScan
import ZRay.Pass.HoistedCounts
import ZRay.Pass.HoistedTops
import ZRay.Pass.HoistedTrips
import ZRay.Pass.Instrument
import ZRay.Pass.LargeConstants
import ZRay.Pass.LoopLevels
import ZRay.Pass.LoopTree
import ZRay.Pass.Markers
import ZRay.Pass.MemoryClasses
import ZRay.Pass.Numbering
import ZRay.Pass.NumberingRuns
import ZRay.Pass.OpenRegions
import ZRay.Pass.PostDomSets
import ZRay.Pass.RecordBlocks
import ZRay.Pass.RecordInst
import ZRay.Pass.Reduce
import ZRay.Pass.RegionBounds
import ZRay.Pass.RegionCode
import ZRay.Pass.RegionEvents
import ZRay.Pass.RegionMembership
import ZRay.Pass.RegionRecords
import ZRay.Pass.Regions
import ZRay.Pass.ScaleFactorSets
import ZRay.Pass.SetRounds
import ZRay.Pass.SplitBlocks
import ZRay.Pass.StackAddresses
import ZRay.Pass.TagBlocks
import ZRay.Pass.TimingOnly
import ZRay.Pass.ToolFlag
import ZRay.Pass.TripCount
import ZRay.Pass.UpperBound
import ZRay.Positions
import ZRay.Runtime.HostMonitor
import ZRay.Runtime.InnermostRow
import ZRay.Runtime.InvocationTimes
import ZRay.Runtime.NestedRuns
import ZRay.Runtime.PollFiles
import ZRay.Runtime.RowSelection
import ZRay.Runtime.Sampling
import ZRay.Runtime.SaveStack
import ZRay.Runtime.State
import ZRay.Substring
import ZRay.System.CellBounds
import ZRay.System.ForkRegions
import ZRay.System.HostFiles
import ZRay.System.HostReport
import ZRay.System.HostTraffic
import ZRay.System.NestedRegions
import ZRay.System.OpenMP
import ZRay.System.ReportedTraffic
import ZRay.System.ThreadCells
import ZRay.System.ThreadIdentity
import ZRay.Worklist
