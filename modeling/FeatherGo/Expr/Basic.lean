import FeatherGo.Literal.Operator

/-!
# Expressions

The expressions of the calculus. Values are literals and struct literals of values.
-/

namespace FeatherGo

/-- An expression. -/
inductive Expr where
  /-- A variable. -/
  | var (name : String)
  /-- `T(args){e1, ..., en}`; the arguments may be left out where inference is used. -/
  | structLit (name : String) (targs : List Ty) (elems : List Expr)
  /-- `e.f` -/
  | select (e : Expr) (field : String)
  /-- `e.m(targs)(args)` -/
  | call (recv : Expr) (meth : String) (targs : List Ty) (args : List Expr)
  /-- `e.(T)` -/
  | assert (e : Expr) (ty : Ty)
  /-- `fmt.Sprintf(format, args...)` -/
  | sprintf (format : String) (args : List Expr)
  /-- A constant. -/
  | lit (l : Literal)
  /-- `lhs op rhs` -/
  | binary (op : Operator) (lhs rhs : Expr)
  /-- `prim(e)`: a conversion, written or inserted. -/
  | convert (k : Kind) (e : Expr)

mutual

/-- Equality as programs compare: constants by value, all else structurally. -/
def Expr.beq : Expr → Expr → Bool
  | .var x, .var y => x == y
  | .structLit c ts es, .structLit d us fs => c == d && ts == us && Expr.beqAll es fs
  | .select e f, .select e' f' => e.beq e' && f == f'
  | .call e m ts es, .call e' m' us fs => e.beq e' && m == m' && ts == us && Expr.beqAll es fs
  | .assert e t, .assert e' u => e.beq e' && t == u
  | .sprintf s es, .sprintf s' fs => s == s' && Expr.beqAll es fs
  | .lit l, .lit l' => l == l'
  | .binary op l r, .binary op' l' r' => op == op' && l.beq l' && r.beq r'
  | .convert k e, .convert k' e' => k == k' && e.beq e'
  | _, _ => false

/-- Equality of lists of expressions. -/
def Expr.beqAll : List Expr → List Expr → Bool
  | [], [] => true
  | e :: es, f :: fs => e.beq f && Expr.beqAll es fs
  | _, _ => false

end

instance : BEq Expr := ⟨Expr.beq⟩

mutual

/-- Whether an expression is a value. -/
def Expr.isValue : Expr → Bool
  | .lit _ => true
  | .structLit _ _ es => Expr.areValues es
  | _ => false

/-- Whether all of some expressions are values. -/
def Expr.areValues : List Expr → Bool
  | [] => true
  | e :: es => e.isValue && Expr.areValues es

end

mutual

/-- The types written in an expression, from left to right. -/
def Expr.types : Expr → List Ty
  | .var _ | .lit _ => []
  | .structLit c ts es => .named c ts :: Expr.typesAll es
  | .select e _ => e.types
  | .call e _ ts es => e.types ++ ts ++ Expr.typesAll es
  | .assert e t => e.types ++ [t]
  | .sprintf _ es => Expr.typesAll es
  | .binary _ l r => l.types ++ r.types
  | .convert _ e => e.types

/-- The types written in some expressions. -/
def Expr.typesAll : List Expr → List Ty
  | [] => []
  | e :: es => e.types ++ Expr.typesAll es

end

/-- The exact type of a value; an expression that is none has the empty interface. -/
def Expr.runtimeType : Expr → Ty
  | .structLit c ts _ => .named c ts
  | .lit l => .prim l.prim.settled
  | _ => .anything

end FeatherGo
