import Assure.Library.Loop
import Assure.Library.Digraph
import Assure.Library.Tarjan
import Assure.Library.TarjanInvariant
import Assure.Library.TarjanRun
import Assure.Library.Collections
import Assure.Library.Regex
import Assure.Library.GraphMatching
import Assure.Library.RoseTree
import Assure.Library.Numbering
import Assure.Library.Numerals
import Assure.Library.Worklist
import Assure.Library.Kahn
import Assure.Library.Condensation
import Assure.Library.GreedyOrder
import Assure.Functions.FuncMap
import Assure.Functions.Components
import Assure.Functions.TopoQueue
import Assure.Functions.Schedule
import Assure.Functions.DependFunctions
import Assure.Types.TypeGraph
import Assure.Types.TarjanScc
import Assure.Types.TopoBatches
import Assure.Comparison.MatchNodes
import Assure.Comparison.ArgumentMap
import Assure.Comparison.KeyPairing
import Assure.Comparison.Kquery
import Assure.Comparison.Distance
import Assure.Comparison.CanonicalForm
import Assure.Comparison.Canonicalize
import Assure.Comparison.KqueryGrammar
import Assure.Comparison.KqueryGrapher
import Assure.Comparison.KqueryOutline
import Assure.Comparison.Buildable
import Assure.Comparison.KqueryReturns
import Assure.Comparison.KqueryInline
import Assure.Comparison.DrawnTree
import Assure.Comparison.Sharing
import Assure.Comparison.Shareable
import Assure.Types.Closure
import Assure.Agent.Session
import Assure.Agent.Units
import Assure.Agent.SessionEnds
import Assure.Agent.RunSafety
import Assure.Agent.TypeRun
import Assure.Pipeline.TranslateLoop
import Assure.Pipeline.GroupStep
import Assure.Pipeline.CallClosure
import Assure.Pipeline.Outputs
import Assure.Pipeline.Split
import Assure.Types.CascadeDelete
import Assure.Types.FieldLines
import Assure.Types.AnonymousUnions
import Assure.Types.UnionLifting
import Assure.Types.UnionsLifted
import Assure.Pipeline.BraceDepth
import Assure.Pipeline.BlockEnd
import Assure.Pipeline.DeadHelpers
import Assure.Pipeline.SignaturesOnly
import Assure.Pipeline.FunctionDefinition
import Assure.Harness.Termination
import Assure.Pipeline.ForwardDeclarations
import Assure.Library.Prototypes
import Assure.Pipeline.DependencyPrototypes
import Assure.Types.ByteCursor
import Assure.Library.Tail
import Assure.Types.ByteBufferTags
import Assure.Library.BinaryFormat
import Assure.Harness.SaturatingCast
import Assure.Harness.VisitedStructs
import Assure.Harness.FunctionCalls
import Assure.Library.MaxMin
import Assure.Comparison.Hausdorff
import Assure.Comparison.Mirrored
import Assure.Comparison.IrArguments
import Assure.Comparison.MappingChecks
import Assure.Library.PostOrder
import Assure.Pipeline.ClosureOrder
import Assure.Testcases.Suite
import Assure.Testcases.Score
import Assure.Comparison.SymValues
import Assure.Library.Blanks
import Assure.Library.RustUses
import Assure.Library.Taking
import Assure.Pipeline.DedupeTopLevel
import Assure.Library.CTokens
import Assure.Pipeline.ExternSemicolons
import Assure.Library.Brackets
import Assure.Comparison.StripWrappers
import Assure.Library.Tally
import Assure.Reports.TokenUsage
import Assure.Reports.SemanticScore
import Assure.Library.EditDistance
import Assure.Functions.FetchTarget
import Assure.Pipeline.UncollideStaticSyms
import Assure.Functions.FunctionRanges
import Assure.Functions.Attribution
import Assure.Types.SplitTagDeclarations
import Assure.Library.Cutting
import Assure.Performance.Sanitize
import Assure.Cost.StructComplexity
import Assure.Cost.StructNames
import Assure.Cost.FunctionCost
import Assure.Cost.Flags
import Assure.Cost.RustifyCost
import Assure.Pipeline.BlankedText
import Assure.Pipeline.TypeAliases
import Assure.Pipeline.LibcImports
import Assure.Library.OrderedGraph
import Assure.Library.Forest
import Assure.Library.StackSearch
import Assure.Comparison.PostProcess
import Assure.Library.TreeGraph
import Assure.Library.Unfolding
import Assure.Comparison.Relabel
import Assure.Comparison.UpdateOffsets
import Assure.Comparison.PostProcessRun
import Assure.Performance.CheckRun
import Assure.Pipeline.UseStatements
