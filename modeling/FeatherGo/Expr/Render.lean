import FeatherGo.Expr.Basic
import FeatherGo.Ty.Render

/-!
# The text of expressions

Expressions as they are written in programs. Operands that are themselves operations stand in
parentheses; type arguments are written only where there are any.
-/

namespace FeatherGo

/-- An operand, in parentheses if it is an operation. -/
def Expr.operand (e : Expr) (text : String) : String :=
  match e with
  | .binary .. => "(" ++ text ++ ")"
  | _ => text

mutual

/-- The text of an expression. -/
def Expr.render : Expr → String
  | .var x => x
  | .structLit c ts es =>
    (Ty.named c ts).render ++ "\x7b" ++ ", ".intercalate (Expr.renderAll es) ++ "\x7d"
  | .select e f => e.render ++ "." ++ f
  | .call e m ts es =>
    e.render ++ "." ++ m ++ parenthesised (Ty.renderAll ts)
      ++ "(" ++ ", ".intercalate (Expr.renderAll es) ++ ")"
  | .assert e t => e.render ++ ".(" ++ t.render ++ ")"
  | .sprintf s es => "fmt.Sprintf(" ++ ", ".intercalate (Text.quote s :: Expr.renderAll es) ++ ")"
  | .lit l => l.render
  | .binary op l r =>
    l.operand l.render ++ " " ++ op.symbol ++ " " ++ r.operand r.render
  | .convert k e => k.name ++ "(" ++ e.render ++ ")"

/-- The texts of some expressions. -/
def Expr.renderAll : List Expr → List String
  | [] => []
  | e :: es => e.render :: Expr.renderAll es

end

end FeatherGo
