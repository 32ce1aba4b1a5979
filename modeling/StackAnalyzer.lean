import StackAnalyzer.Graph.Reach
import StackAnalyzer.Graph.Tarjan
import StackAnalyzer.Graph.TarjanInv
import StackAnalyzer.Graph.MemoDfs
import StackAnalyzer.Stack.CallGraph
import StackAnalyzer.Stack.Totals
import StackAnalyzer.Stack.Acyclic
import StackAnalyzer.Stack.Cyclic
import StackAnalyzer.Stack.Soundness
import StackAnalyzer.Stack.Recursion
import StackAnalyzer.Llvm.Value
import StackAnalyzer.Smt.ConstraintIR
import StackAnalyzer.Smt.Encoder
import StackAnalyzer.Smt.Nodes
import StackAnalyzer.Smt.Overflow
import StackAnalyzer.Smt.Denotation
import StackAnalyzer.Smt.Soundness
import StackAnalyzer.Smt.Edges
import StackAnalyzer.Smt.Exactness
import StackAnalyzer.Smt.Fuel
import StackAnalyzer.Ranges.RangeList
import StackAnalyzer.Dataflow.MustAnalysis
import StackAnalyzer.Graph.Worklist
import StackAnalyzer.Graph.Levels
import StackAnalyzer.Uninit.InitAnalysis
import StackAnalyzer.Uninit.ByteStates
import StackAnalyzer.Uninit.Convergence
import StackAnalyzer.CrossTU.Scheduling
import StackAnalyzer.Maps.EntryMap
import StackAnalyzer.CrossTU.ResourceIndex
import StackAnalyzer.CrossTU.ResourceMerge
import StackAnalyzer.Dataflow.FactRounds
import StackAnalyzer.Dataflow.RoundRobin
import StackAnalyzer.Names.Mangle
import StackAnalyzer.Resource.FunctionSummaries
import StackAnalyzer.Resource.SummaryRounds
import StackAnalyzer.Dataflow.DirtyRounds
import StackAnalyzer.Uninit.FunctionSummaries
import StackAnalyzer.CrossTU.ModuleGraph
import StackAnalyzer.CrossTU.SccLoop
import StackAnalyzer.CrossTU.ResourcePipeline
import StackAnalyzer.CrossTU.DeltaIteration
import StackAnalyzer.Uninit.SummaryIndex
import StackAnalyzer.Uninit.SummaryMerge
import StackAnalyzer.Escape.EscapeSummaries
import StackAnalyzer.Smt.Meaning
import StackAnalyzer.Smt.SolverOrchestrator
import StackAnalyzer.Smt.Z3Expr
import StackAnalyzer.Smt.Z3Backend
import StackAnalyzer.Smt.Z3Soundness
import StackAnalyzer.Smt.Z3QueryClass
import StackAnalyzer.Smt.IntervalAnswers
import StackAnalyzer.Stack.Results
import StackAnalyzer.Formats.Json
import StackAnalyzer.CrossTU.SummaryCache
import StackAnalyzer.Lists.Enumerations
import StackAnalyzer.Passes.InstructionCache
import StackAnalyzer.Passes.PerFunctionPasses
import StackAnalyzer.Passes.CachedPasses
import StackAnalyzer.Graph.Cfg
import StackAnalyzer.Globals.ReadBeforeWrite
import StackAnalyzer.Globals.Recorded
import StackAnalyzer.Globals.Reports
import StackAnalyzer.Passes.DiagnosticOrder
import StackAnalyzer.Resource.Lifetime
import StackAnalyzer.Resource.Tracking
import StackAnalyzer.Resource.Reported
import StackAnalyzer.Resource.PathMeaning
import StackAnalyzer.Refinement.Consult
import StackAnalyzer.Llvm.Ir
import StackAnalyzer.Bounds.IntRanges
import StackAnalyzer.Smt.Refinement
import StackAnalyzer.Bounds.PointerOrigins
import StackAnalyzer.Bounds.StackBuffers
import StackAnalyzer.Bounds.SizeOperands
import StackAnalyzer.Bounds.IntegerOverflows
import StackAnalyzer.Bounds.SinkPropagation
import StackAnalyzer.Bounds.SizeMinusK
import StackAnalyzer.Bounds.SmtRemoval
import StackAnalyzer.Bounds.Profiles
import StackAnalyzer.Globals.Interference
import StackAnalyzer.Formats.JsonLexer
import StackAnalyzer.Formats.JsonParser
import StackAnalyzer.App.Config
import StackAnalyzer.App.Results
import StackAnalyzer.App.Filters
import StackAnalyzer.App.JsonReport
import StackAnalyzer.App.SarifReport
import StackAnalyzer.App.Emitters
import StackAnalyzer.Escape.IndirectTargets
import StackAnalyzer.Escape.UnknownTargets
import StackAnalyzer.Graph.SlotSearch
import StackAnalyzer.Graph.FirstFound
import StackAnalyzer.Escape.PointerValues
import StackAnalyzer.Escape.UseOrder
import StackAnalyzer.Maps.KeepBest
import StackAnalyzer.CompileCommands.CommandLine
import StackAnalyzer.CompileCommands.Database
import StackAnalyzer.CompileCommands.SuffixLookup
import StackAnalyzer.Maps.FieldChanges
import StackAnalyzer.Cli.Values
import StackAnalyzer.Cli.Settings
import StackAnalyzer.Cli.ConfigFile
import StackAnalyzer.Cli.Arguments
import StackAnalyzer.Cli.Override
import StackAnalyzer.Cli.PreScan
import StackAnalyzer.Stack.CallPaths
import StackAnalyzer.Bounds.PredicateRanges
import StackAnalyzer.Formats.MarkedFields
import StackAnalyzer.Loader.CacheKey
import StackAnalyzer.Loader.CompileArgs
import StackAnalyzer.Loader.CacheEntry
import StackAnalyzer.Loader.LoadModule
import StackAnalyzer.Loader.JobsIndependence
import StackAnalyzer.Loader.CacheHits
import StackAnalyzer.Llvm.ConstantOffsets
import StackAnalyzer.Bounds.ConstantIndices
import StackAnalyzer.Bounds.OobReads
import StackAnalyzer.Bounds.HeapIndices
import StackAnalyzer.Llvm.Executions
import StackAnalyzer.Bounds.HeapRanges
import StackAnalyzer.Resource.ClassSummaries
import StackAnalyzer.Pipeline.StepDiagnostics
import StackAnalyzer.Bounds.ReportedAccesses
import StackAnalyzer.Pipeline.SkippedSteps
import StackAnalyzer.Ranges.Gaps
import StackAnalyzer.Uninit.RangeCover
import StackAnalyzer.Llvm.Machine
import StackAnalyzer.Values.RecoveredConstants
import StackAnalyzer.Arith.RoundUp
import StackAnalyzer.Stack.LocalStack
import StackAnalyzer.Stack.FrameSizes
import StackAnalyzer.Stack.AllocaSizes
import StackAnalyzer.Bounds.Unreachability
import StackAnalyzer.Graph.Dominators
import StackAnalyzer.Stack.DominatedReturns
import StackAnalyzer.Bounds.LoopCounters
import StackAnalyzer.Bounds.CountingLoops
import StackAnalyzer.Arith.Corners
import StackAnalyzer.Bounds.ProvenRanges
import StackAnalyzer.NullDeref.NullDereferences
import StackAnalyzer.NullDeref.DefiniteNulls
import StackAnalyzer.Passes.BoundedWrites
import StackAnalyzer.Words.Globs
import StackAnalyzer.Passes.GlobMatching
import StackAnalyzer.Graph.EarlyDfs
import StackAnalyzer.Conditions.Determinism
import StackAnalyzer.Passes.CheckedPaths
import StackAnalyzer.Bounds.CollectedRanges
import StackAnalyzer.Stack.DynamicBounds
import StackAnalyzer.Escape.ReturnedAliases
import StackAnalyzer.Uninit.CallEffects
import StackAnalyzer.Uninit.CallTransfer
import StackAnalyzer.Graph.Gathering
import StackAnalyzer.ConstParams.WriteStates
import StackAnalyzer.ConstParams.DerivedPointers
import StackAnalyzer.Conditions.ConditionKeys
import StackAnalyzer.Conditions.DuplicateConditions
import StackAnalyzer.Conditions.ConditionRuns
import StackAnalyzer.Conditions.ConditionValues
import StackAnalyzer.Conditions.ConditionTruth
import StackAnalyzer.Cli.SplitCommands
import StackAnalyzer.Lists.Trimming
import StackAnalyzer.Cli.StackLimits
import StackAnalyzer.Names.CanonicalNames
import StackAnalyzer.Graph.Paths
import StackAnalyzer.Resource.ReleaseReach
import StackAnalyzer.App.ParallelWork
import StackAnalyzer.Loader.DependencyFiles
import StackAnalyzer.Lists.Searching
import StackAnalyzer.Frontend.DiagnosticLines
import StackAnalyzer.Layouts.Subobjects
import StackAnalyzer.InvalidBase.ProjectionBounds
import StackAnalyzer.Lists.EditDistance
import StackAnalyzer.Cli.OptionSuggestions
import StackAnalyzer.Formats.RuleFiles
import StackAnalyzer.Passes.ModelFiles
import StackAnalyzer.Uninit.ModuleSummaries
import StackAnalyzer.CrossTU.LevelPass
import StackAnalyzer.CrossTU.LevelFixpoint
import StackAnalyzer.CrossTU.UninitPipeline
import StackAnalyzer.Graph.BoundedSearch
import StackAnalyzer.Stack.ReturnPaths
import StackAnalyzer.Stack.RecursionReports
import StackAnalyzer.Stack.Preparation
