import MpiBindings.Core.CommutingSteps
import MpiBindings.Core.MessagePassing
import MpiBindings.Core.Choreography
import MpiBindings.Core.ProcessResults
import MpiBindings.Core.OrderedMap
import MpiBindings.Core.KeyedItems
import MpiBindings.Core.CountingSort
import MpiBindings.Core.CountingSortExactness
import MpiBindings.Core.WeakOrder
import MpiBindings.Core.RoseTree
import MpiBindings.Core.ReductionTree
import MpiBindings.Core.CollectiveProgram
import MpiBindings.Core.FaultingState
import MpiBindings.Core.Json
import MpiBindings.Core.HandleLedger
import MpiBindings.Core.TypeMaps
import MpiBindings.Core.MatchQueue
import MpiBindings.Collectives.Communicator
import MpiBindings.Collectives.Alltoall
import MpiBindings.Collectives.Layouts
import MpiBindings.Collectives.Gather
import MpiBindings.Collectives.Scatter
import MpiBindings.Collectives.ComputedCounts
import MpiBindings.Collectives.Flatten
import MpiBindings.Collectives.Scan
import MpiBindings.GridAlltoall.Grid
import MpiBindings.GridAlltoall.Exchange
import MpiBindings.GridAlltoall.ReceiveBuffer
import MpiBindings.GridAlltoall.Routing
import MpiBindings.GridAlltoall.Returns
import MpiBindings.GridAlltoall.Correctness
import MpiBindings.GridAlltoall.Surplus
import MpiBindings.GridAlltoall.Dispatch
import MpiBindings.ReproducibleReduce.Distribution
import MpiBindings.ReproducibleReduce.MessageBuffer
import MpiBindings.ReproducibleReduce.BufferAudit
import MpiBindings.ReproducibleReduce.Batching
import MpiBindings.ReproducibleReduce.InboxContents
import MpiBindings.ReproducibleReduce.Sending
import MpiBindings.ReproducibleReduce.Receiving
import MpiBindings.ReproducibleReduce.Reduction
import MpiBindings.ReproducibleReduce.RelatedEffects
import MpiBindings.ReproducibleReduce.TreeReduction
import MpiBindings.ReproducibleReduce.TransferLog
import MpiBindings.ReproducibleReduce.PassSpecs
import MpiBindings.ReproducibleReduce.RankSpec
import MpiBindings.ReproducibleReduce.Schedule
import MpiBindings.ReproducibleReduce.Matching
import MpiBindings.ReproducibleReduce.Correctness
import MpiBindings.ReproducibleReduce.LocalReduction
import MpiBindings.ReproducibleReduce.TransferSchedule
import MpiBindings.ReproducibleReduce.MachineIndices
import MpiBindings.ReproducibleReduce.MachineHeights
import MpiBindings.ReproducibleReduce.Acceptance
import MpiBindings.SparseAlltoall.Exchange
import MpiBindings.SparseAlltoall.Correctness
import MpiBindings.SparseAlltoall.Completion
import MpiBindings.SampleSort.Sort
import MpiBindings.SampleSort.Correctness
import MpiBindings.SampleSort.Splitters
import MpiBindings.Measurements.TimerTree
import MpiBindings.Measurements.TimerLog
import MpiBindings.Measurements.TimerPaths
import MpiBindings.Measurements.TimerRefinement
import MpiBindings.Measurements.TimerReset
import MpiBindings.Measurements.Aggregation
import MpiBindings.Measurements.TimerTraversal
import MpiBindings.Measurements.AggregationCorrectness
import MpiBindings.Measurements.Printers
import MpiBindings.Measurements.FlatPrinter
import MpiBindings.Measurements.SimpleJsonPrinter
import MpiBindings.Operations.CustomOperations
import MpiBindings.Operations.SameOnAllRanks
import MpiBindings.Operations.BuiltinOperations
import MpiBindings.Parameters.Result
import MpiBindings.Parameters.ResultCorrectness
import MpiBindings.Integers.Conversions
import MpiBindings.Integers.CheckingCasts
import MpiBindings.Communicators.RankRanges
import MpiBindings.Communicators.CommunicatorHandles
import MpiBindings.Communicators.GroupHandles
import MpiBindings.Datatypes.CppTypes
import MpiBindings.Datatypes.DataType
import MpiBindings.PointToPoint.Recv
import MpiBindings.PointToPoint.RecvCorrectness
import MpiBindings.Requests.RequestPool
import MpiBindings.Requests.PoolCorrectness
import MpiBindings.PointToPoint.TryRecv
import MpiBindings.PointToPoint.TryRecvCorrectness
import MpiBindings.PointToPoint.Irecv
import MpiBindings.PointToPoint.IrecvCorrectness
import MpiBindings.Core.LeastElements
import MpiBindings.Core.CollectiveOutcome
import MpiBindings.Collectives.MpiCalls
import MpiBindings.Collectives.Bcast
import MpiBindings.Collectives.Reduce
import MpiBindings.Collectives.Contents
import MpiBindings.Collectives.RoundTrips
import MpiBindings.Applications.TopK
import MpiBindings.Applications.SampleSort
import MpiBindings.Core.SessionTrace
import MpiBindings.Environment.Lifecycle
import MpiBindings.Environment.LifecycleCorrectness
import MpiBindings.Communicators.NumaNodes
import MpiBindings.Collectives.UniformBlocks
import MpiBindings.Communicators.ShiftedRanks
