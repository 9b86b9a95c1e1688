import GenMC.Support.SAddr
import GenMC.Support.SAddrAllocator
import GenMC.Runtime.StaticAddresses
import GenMC.ADT.Trie
import GenMC.ADT.TrieMap
import GenMC.ADT.TrieLookup
import GenMC.Lib.LowerBound
import GenMC.Lib.PartialRun
import GenMC.Lib.Mirror
import GenMC.Lib.KeyedList
import GenMC.Lib.Renumber
import GenMC.ADT.VectorClock
import GenMC.ADT.AdjList
import GenMC.ADT.DepView
import GenMC.ADT.TransClosure
import GenMC.ExecutionGraph.EventLabel
import GenMC.ExecutionGraph.ExecutionGraph
import GenMC.ExecutionGraph.Copy
import GenMC.ExecutionGraph.Relinks
import GenMC.ExecutionGraph.Effects
import GenMC.ExecutionGraph.Readers
import GenMC.ExecutionGraph.ReaderRuns
import GenMC.ExecutionGraph.CopyLabels
import GenMC.ExecutionGraph.WellFormed
import GenMC.ExecutionGraph.CopyLinks
import GenMC.ExecutionGraph.CopyMaps
import GenMC.ExecutionGraph.CopySpec
import GenMC.ExecutionGraph.Restriction
import GenMC.ExecutionGraph.SubGraph
import GenMC.ExecutionGraph.Stamps
import GenMC.ExecutionGraph.StampRuns
import GenMC.ExecutionGraph.DepExecutionGraph
import GenMC.Lib.SortedMap
import GenMC.Lib.PriorityStack
import GenMC.Verification.Worklist
import GenMC.Verification.Result
import GenMC.Support.SVal
import GenMC.Support.SExpr
import GenMC.Support.SExprEvaluator
import GenMC.Support.PartialEvaluation
import GenMC.Support.SExprArithmetic
import GenMC.Support.SExprRewriting
import GenMC.Runtime.AtomicRMW
import GenMC.Verification.RevisitedRMW
import GenMC.Verification.RMWValues
import GenMC.Support.ThreadPool
import GenMC.Lib.Precedence
import GenMC.ExecutionGraph.GraphIterators
import GenMC.Verification.Consistency.SCOrder
import GenMC.Verification.Consistency.RoundBoundDecider
import GenMC.Verification.Consistency.RoundSchedule
import GenMC.Verification.Consistency.RoundOrder
import GenMC.Lib.BoundedSearch
import GenMC.Verification.Consistency.ContextBoundDecider
import GenMC.Verification.Consistency.ContextViews
import GenMC.Verification.Consistency.ContextBound
import GenMC.Verification.Consistency.ContextSchedules
import GenMC.Verification.Consistency.Unfolding
import GenMC.Lib.Process
import GenMC.Verification.InstructionCache
import GenMC.Verification.CachedGraph
import GenMC.Verification.CachedLabels
import GenMC.Verification.CachedGraphSteps
import GenMC.Verification.CachingRuns
import GenMC.Verification.CacheReplay
import GenMC.Verification.CachingTransparency
import GenMC.Verification.FuzzingStats
import GenMC.Verification.ChoiceMap
import GenMC.Lib.WeightedDraws
import GenMC.Verification.Mutation
import GenMC.Verification.RevisitCopy
import GenMC.ExecutionGraph.Linked
import GenMC.ExecutionGraph.LinkedSteps
import GenMC.Verification.GenMCDriver
import GenMC.ExecutionGraph.PendingRMW
import GenMC.Lib.Matching
import GenMC.ExecutionGraph.GraphUtils
import GenMC.Verification.HelpingCas
import GenMC.Verification.FinalAnnotations
import GenMC.ExecutionGraph.IsPrefixOf
import GenMC.Lib.DepthFirst
import GenMC.Static.IRFunction
import GenMC.Runtime.Execution
import GenMC.Static.Transforms.InstAnnotator
import GenMC.Static.Transforms.AnnotationSoundness
import GenMC.Verification.PrefixViews
import GenMC.Verification.DriverInvariant
import GenMC.Verification.DriverCalls
import GenMC.Verification.DanglingReads
import GenMC.Verification.DriverRuns
import GenMC.Lib.SimplePaths
import GenMC.Runtime.InterpreterEnumAPI
import GenMC.Static.LLVMUtils
import GenMC.Static.Transforms.CallInfoCollection
import GenMC.Lib.Dominance
import GenMC.Static.SSAFunction
import GenMC.Static.OperandReplacement
import GenMC.Static.Transforms.EliminateRedundantInst
import GenMC.Static.Transforms.EliminateCASPHIs
import GenMC.Lib.ByteMemory
import GenMC.Static.MemType
import GenMC.Static.Transforms.PromoteMemIntrinsic
import GenMC.Static.BackPaths
import GenMC.Static.Transforms.SpinAssume
import GenMC.Lib.Inlining
import GenMC.Static.BlockSuffix
import GenMC.Static.Transforms.BisimilarityChecker
import GenMC.Static.Transforms.LoopJumpThreading
import GenMC.Static.Transforms.BackedgeCond
import GenMC.Static.Transforms.FailedCASes
import GenMC.Lib.Exploration
import GenMC.Static.PointerFlow
import GenMC.Static.Transforms.EscapeChecker
import GenMC.Lib.ParentChain
import GenMC.Verification.SymmetryReduction
import GenMC.Static.Transforms.EliminateCasts
import GenMC.Lib.RunningMoments
import GenMC.Verification.Estimation
import GenMC.Verification.HandlerProgress
import GenMC.Verification.FreeHandler
import GenMC.Verification.JoinProtocol
import GenMC.Lib.Stuttering
import GenMC.Static.Transforms.PropagateAssumes
import GenMC.Static.Dominators
import GenMC.Static.Transforms.EliminateAnnotations
import GenMC.Static.Transforms.AnnotationRegions
import GenMC.Support.NameInfo
import GenMC.Static.VarType
import GenMC.Static.Transforms.MDataCollection
import GenMC.Lib.Warren
import GenMC.ADT.Matrix2D
import GenMC.ADT.VSet
import GenMC.Lib.LinearExtension
import GenMC.ADT.TopologicalSort
import GenMC.Lib.CycleSearch
import GenMC.ExecutionGraph.Neighbours
import GenMC.Verification.Consistency.Visitor
import GenMC.Verification.Consistency.SCChecker
import GenMC.Verification.Consistency.TSOChecker
import GenMC.Lib.SharedMemory
import GenMC.Verification.Consistency.Interleavings
import GenMC.Lib.FeedbackSet
import GenMC.Verification.ThreadLinks
import GenMC.Verification.ThreadCreation
import GenMC.Verification.GraphChanges
import GenMC.Verification.NavigationSteps
import GenMC.Verification.NavigationCalls
import GenMC.Verification.NavigationRuns
import GenMC.Verification.Consistency.RevisitCycles
import GenMC.Verification.Consistency.SCSafety
