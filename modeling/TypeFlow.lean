import TypeFlow.Text.Blank
import TypeFlow.Ty
import TypeFlow.Number
import TypeFlow.Operator
import TypeFlow.Expr
import TypeFlow.Expr.Stack
import TypeFlow.Stmt
import TypeFlow.Usage
import TypeFlow.Visitor
import TypeFlow.Block
import TypeFlow.Error
import TypeFlow.Infer
import TypeFlow.TypeTable
import TypeFlow.Editor
import TypeFlow.Editor.Catalogue
import TypeFlow.Graph
import TypeFlow.Graph.Builder
import TypeFlow.Graph.Order
import TypeFlow.Graph.Transform
import TypeFlow.Typing.Config
import TypeFlow.Typing.Pass
import TypeFlow.Typing.Growth
import TypeFlow.Typing.Run
import TypeFlow.Json
import TypeFlow.Json.Depth
import TypeFlow.Json.Scan
import TypeFlow.Json.Parser
import TypeFlow.Wire
import TypeFlow.Wire.Syntax
import TypeFlow.Wire.Graph
import TypeFlow.Wire.Config
import TypeFlow.Proofs.Strictness
import TypeFlow.Proofs.Traversal
import TypeFlow.Proofs.InOrder
import TypeFlow.Proofs.Visiting
import TypeFlow.Proofs.Annotation
import TypeFlow.Proofs.Sweep
import TypeFlow.Proofs.Settling
import TypeFlow.Proofs.Erasure
import TypeFlow.Proofs.Seeding
import TypeFlow.Proofs.SecondWrite
import TypeFlow.Proofs.Exclusive
import TypeFlow.Proofs.Failure
import TypeFlow.Proofs.PassBound
import TypeFlow.Proofs.Determined
import TypeFlow.Proofs.Reordering
import TypeFlow.Proofs.Rerun
import TypeFlow.Proofs.FixedPoint
import TypeFlow.Proofs.CutOff
import TypeFlow.Proofs.Bookkeeping
import TypeFlow.Proofs.Reannotation
import TypeFlow.Proofs.MoreHints
import TypeFlow.Proofs.History
import TypeFlow.Proofs.DepthFirst
import TypeFlow.Proofs.Postorder
import TypeFlow.Proofs.Rendered
import TypeFlow.Proofs.RoundTrip
import TypeFlow.Proofs.FreshIds
import TypeFlow.Proofs.Unreachable
import TypeFlow.Proofs.FirstReads
import TypeFlow.Proofs.Additions
import TypeFlow.Proofs.Flagwise
import TypeFlow.Proofs.Faults
import TypeFlow.Proofs.Unmixed
import TypeFlow.Proofs.Rebuilding
import TypeFlow.Proofs.Isolation
import TypeFlow.Proofs.ExactText
import TypeFlow.Proofs.WrittenTypes
import TypeFlow.Proofs.Brackets
import TypeFlow.Proofs.Expansion
