import Cminusf.LightIR.Type
import Cminusf.LightIR.Module
import Cminusf.LightIR.Update
import Cminusf.LightIR.Rewrite
import Cminusf.LightIR.Address
import Cminusf.Ast
import Cminusf.Grammar.Derivation
import Cminusf.Parser.SyntaxTree
import Cminusf.CminusfBuilder
import Cminusf.Exec
import Cminusf.Settles
import Cminusf.LightIR.UseGraph
import Cminusf.LightIR.Replacement
import Cminusf.LightIR.Names
import Cminusf.Cache.Interning
import Cminusf.LightIR.Constants
import Cminusf.LightIR.TypeCache
import Cminusf.Parser.NodeName
import Cminusf.Parser.Transform
import Cminusf.Parser.Unparse
import Cminusf.Parser.Yield
import Cminusf.Graph.Dominance
import Cminusf.Graph.IdomTree
import Cminusf.Graph.Preorder
import Cminusf.Builder.Sketch
import Cminusf.Builder.Invariant
import Cminusf.Builder.Visit
import Cminusf.Builder.Ledger
import Cminusf.Builder.Expressions
import Cminusf.Builder.Statements
import Cminusf.Builder.Order
import Cminusf.Builder.Scoping
import Cminusf.Succeeds
import Cminusf.Builder.Legal
import Cminusf.Builder.WellTyped
import Cminusf.Builder.Typing
import Cminusf.Builder.TypedExpressions
import Cminusf.Builder.TypedStatements
import Cminusf.Builder.TypedProgram
import Cminusf.Optimization.Dominators
import Cminusf.Optimization.PostOrder
import Cminusf.Optimization.Idom
import Cminusf.Optimization.Frontier
import Cminusf.Optimization.DominatorsRun
import Cminusf.Builder.Cfg
import Cminusf.Builder.Blocks
import Cminusf.Optimization.Mem2Reg
import Cminusf.Optimization.GeneratePhi
import Cminusf.Optimization.Renaming
import Cminusf.Optimization.ReName
import Cminusf.Optimization.Walk
import Cminusf.Builder.Variables
import Cminusf.Optimization.DominatorTree
import Cminusf.Optimization.Placement
import Cminusf.Optimization.Promote
import Cminusf.Optimization.Mem2RegRun
import Cminusf.Optimization.Abort
import Cminusf.Optimization.WellFormed
import Cminusf.Optimization.Ssa
import Cminusf.Optimization.DeadCode
import Cminusf.Optimization.Gvn
import Cminusf.Optimization.Join
import Cminusf.Optimization.Addresses
import Cminusf.Optimization.Copies
import Cminusf.Optimization.Tidy
import Cminusf.Optimization.Transfer
import Cminusf.Optimization.Known
import Cminusf.Optimization.Regular
import Cminusf.Flow.Execution
import Cminusf.Optimization.Execution
import Cminusf.Optimization.ConstFolder
import Cminusf.Optimization.SsaFunction
import Cminusf.Optimization.Replace
import Cminusf.Optimization.Denotation
import Cminusf.Optimization.PhiFunc
import Cminusf.Optimization.Redundancy
import Cminusf.Optimization.MarkSweep
import Cminusf.Optimization.FuncInfo
import Cminusf.Optimization.Partitions
import Cminusf.Optimization.IdomSteps
import Cminusf.Optimization.Balance
import Cminusf.Optimization.Machine
import Cminusf.Optimization.Trace
import Cminusf.Optimization.Purity
import Cminusf.Optimization.Thinned
import Cminusf.Optimization.DeadCodeRun
import Cminusf.Simulation
import Cminusf.Emulation
import Cminusf.Builder.Stored
import Cminusf.Optimization.ReachingValue
import Cminusf.Optimization.Registers
import Cminusf.Optimization.RegisterRun
import Cminusf.Flex.Regex
import Cminusf.Parser.LexicalAnalyzer
import Cminusf.Parser.Scan
import Cminusf.Parser.Positions
import Cminusf.Parser.Outcome
import Cminusf.Parser.Delimited
import Cminusf.Parser.FrontEnd
import Cminusf.Source.Semantics
import Cminusf.Builder.Rules
import Cminusf.Builder.Continues
import Cminusf.Builder.Vacancy
import Cminusf.Builder.Flags
import Cminusf.Builder.Confined
import Cminusf.Source.Layout
import Cminusf.Source.Frames
import Cminusf.Source.Implements
import Cminusf.Source.Operators
import Cminusf.Source.Access
import Cminusf.Source.Branches
import Cminusf.Source.Variables
import Cminusf.Source.Expressions
import Cminusf.Source.Declarations
import Cminusf.Source.Statements
import Cminusf.Source.Globals
import Cminusf.Source.Calls
import Cminusf.Source.Fuel
import Cminusf.Source.Correct
