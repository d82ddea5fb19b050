import FeatherGo.Expr.Basic
import FeatherGo.Ty.Subst

/-!
# Substitution in expressions

Type parameters are replaced in every type that an expression writes, variables wherever they
stand: expressions bind no names, so neither can capture.
-/

namespace FeatherGo

mutual

/-- Replace type parameters in every written type. -/
def Expr.substTypes (η : Env Ty) : Expr → Expr
  | .var x => .var x
  | .lit l => .lit l
  | .structLit c ts es => .structLit c (ts.map (Ty.subst η)) (Expr.substTypesAll η es)
  | .select e f => .select (e.substTypes η) f
  | .call e m ts es =>
    .call (e.substTypes η) m (ts.map (Ty.subst η)) (Expr.substTypesAll η es)
  | .assert e t => .assert (e.substTypes η) (t.subst η)
  | .sprintf s es => .sprintf s (Expr.substTypesAll η es)
  | .binary op l r => .binary op (l.substTypes η) (r.substTypes η)
  | .convert k e => .convert k (e.substTypes η)

/-- Replace type parameters in the types of some expressions. -/
def Expr.substTypesAll (η : Env Ty) : List Expr → List Expr
  | [] => []
  | e :: es => e.substTypes η :: Expr.substTypesAll η es

end

mutual

/-- Replace variables, all at once; variables without an entry stay. -/
def Expr.substVars (env : Env Expr) : Expr → Expr
  | .var x => (env.find? x).getD (.var x)
  | .lit l => .lit l
  | .structLit c ts es => .structLit c ts (Expr.substVarsAll env es)
  | .select e f => .select (e.substVars env) f
  | .call e m ts es => .call (e.substVars env) m ts (Expr.substVarsAll env es)
  | .assert e t => .assert (e.substVars env) t
  | .sprintf s es => .sprintf s (Expr.substVarsAll env es)
  | .binary op l r => .binary op (l.substVars env) (r.substVars env)
  | .convert k e => .convert k (e.substVars env)

/-- Replace variables in some expressions. -/
def Expr.substVarsAll (env : Env Expr) : List Expr → List Expr
  | [] => []
  | e :: es => e.substVars env :: Expr.substVarsAll env es

end

end FeatherGo
