import FeatherGo.Answer
import FeatherGo.Env
import FeatherGo.Text.Quoted
import FeatherGo.Number.Decimal
import FeatherGo.Ty.Subst
import FeatherGo.Ty.Render
import FeatherGo.Literal.Operator
import FeatherGo.Expr.Subst
import FeatherGo.Program
import FeatherGo.Typing.Diagnostic
import FeatherGo.Table
import FeatherGo.Typing.MethodSet
import FeatherGo.Typing.WellFormed
import FeatherGo.Typing.Expression
import FeatherGo.Typing.Acyclic
import FeatherGo.Typing.Declaration
import FeatherGo.Inference.VarSubst
import FeatherGo.Inference.Constraint
import FeatherGo.Inference.Elaborate
import FeatherGo.Json.Print
import FeatherGo.Json.Parse
import FeatherGo.Document.Encode
import FeatherGo.Document.Decode
import FeatherGo.Reduction.Run
import FeatherGo.Instance.Nesting
import FeatherGo.Ground.Lockstep
import FeatherGo.Main
import FeatherGo.Proofs.Discovery.Coverage
import FeatherGo.Proofs.Discovery.Proper
import FeatherGo.Proofs.Discovery.Termination
import FeatherGo.Proofs.Discovery.Monomorphic
import FeatherGo.Proofs.Ground.Apart
import FeatherGo.Proofs.Typing.Inference
import FeatherGo.Proofs.Typing.Runs
import FeatherGo.Proofs.Methods.Instantiation
import FeatherGo.Proofs.Inference.Unification
import FeatherGo.Proofs.Typing.Order
import FeatherGo.Proofs.Discovery.Nesting
import FeatherGo.Proofs.Inference.Settling
import FeatherGo.Proofs.Inference.Bounds
import FeatherGo.Proofs.Inference.Soundness
import FeatherGo.Proofs.Declarations.Cycles
import FeatherGo.Proofs.Methods.Preorder
import FeatherGo.Proofs.Ground.Digests
import FeatherGo.Proofs.Typing.Operators
import FeatherGo.Proofs.Ground.Formatting
import FeatherGo.Proofs.Typing.Regularity
import FeatherGo.Proofs.Ground.Grounded
import FeatherGo.Proofs.Typing.Constants
import FeatherGo.Proofs.Inference.Idempotence
import FeatherGo.Proofs.Inference.Composition
import FeatherGo.Proofs.Diagnostics.Programs
import FeatherGo.Proofs.Ground.Preservation
