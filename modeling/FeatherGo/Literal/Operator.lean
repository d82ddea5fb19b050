import FeatherGo.Literal.Basic

/-!
# Operators

The binary operators over primitives and their effect on literals. Two untyped operands take the
type of higher rank, a typed operand imposes its type on the other. Integer arithmetic wraps at the
width of the common type.
-/

namespace FeatherGo

/-- The binary operators. -/
inductive Operator where
  | add
  | sub
  | mul
  | div
  | eq
  | ne
  | lt
  | le
  | gt
  | ge
  | and
  | or
deriving DecidableEq

/-- Why an operator has no result. -/
inductive OperatorFault where
  /-- An integer was divided by zero. -/
  | divisionByZero
  /-- The divisor is not zero, but what it keeps in 32 bits is. -/
  | divisorLost
  /-- The operator is not defined on the common type of the operands. -/
  | unsupported (p : Prim)
deriving DecidableEq

namespace Operator

/-- The symbol of an operator in programs. -/
def symbol : Operator → String
  | .add => "+"
  | .sub => "-"
  | .mul => "*"
  | .div => "/"
  | .eq => "=="
  | .ne => "!="
  | .lt => "<"
  | .le => "<="
  | .gt => ">"
  | .ge => ">="
  | .and => "&&"
  | .or => "||"

/-- Sum, difference, product and quotient. -/
def isArithmetic : Operator → Bool
  | .add | .sub | .mul | .div => true
  | _ => false

/-- Equality and its negation. -/
def isEquality : Operator → Bool
  | .eq | .ne => true
  | _ => false

/-- The order comparisons. -/
def isOrdering : Operator → Bool
  | .lt | .le | .gt | .ge => true
  | _ => false

/-- Conjunction and disjunction. -/
def isLogical : Operator → Bool
  | .and | .or => true
  | _ => false

/-- Whether operands of a kind may be joined by the operator. -/
def definedOn (op : Operator) (k : Kind) : Bool :=
  if op.isArithmetic then k.isNumeric || (op == .add && k == .string)
  else if op.isOrdering then k.isNumeric || k == .string
  else if op.isLogical then k == .bool
  else true

/-- The type of the result on operands of a common type: theirs for arithmetic, else `bool`. -/
def resultType (op : Operator) (p : Prim) : Option Ty :=
  if op.definedOn p.kind then
    some (if op.isArithmetic then .prim p else .ofKind .bool)
  else
    none

/-- The common type of two operands. -/
def commonPrim (l r : Prim) : Prim :=
  if !l.untyped then l
  else if !r.untyped then r
  else if r.kind.rank ≤ l.kind.rank then l else r

/-- Bring an operand to the common type. -/
def adapt (l : Literal) (p : Prim) : Except OperatorFault Literal :=
  if l.prim = p then .ok l
  else
    match l.convert p.kind with
    | some l => .ok ⟨l.payload, p⟩
    | none => .error (.unsupported p)

/-- The verdict of an order comparison; incomparable operands satisfy none. -/
def holds (op : Operator) : Option Ordering → Bool
  | none => false
  | some o =>
    match op with
    | .lt => o.isLT
    | .le => o.isLE
    | .gt => o.isGT
    | _ => o.isGE

/-- The order of two floats, if either is a number comparable with the other. -/
def compareFloat (x y : Float) : Option Ordering :=
  if x < y then some .lt else if x > y then some .gt else if x == y then some .eq else none

/-- Integer arithmetic at the width of a kind. -/
def applyInt (op : Operator) (k : Kind) (a b : Int64) : Except OperatorFault Int64 :=
  if op = .div ∧ b = 0 then .error .divisionByZero
  else if k = .int32 then
    let a := a.toInt32
    let b := b.toInt32
    match op with
    | .add => .ok (a + b).toInt64
    | .sub => .ok (a - b).toInt64
    | .mul => .ok (a * b).toInt64
    | _ => if b = 0 then .error .divisorLost else .ok (a / b).toInt64
  else
    match op with
    | .add => .ok (a + b)
    | .sub => .ok (a - b)
    | .mul => .ok (a * b)
    | _ => .ok (a / b)

/-- Floating-point arithmetic, rounded to the precision of a kind. -/
def applyFloat (op : Operator) (k : Kind) (x y : Float) : Float :=
  let z :=
    match op with
    | .add => x + y
    | .sub => x - y
    | .mul => x * y
    | _ => x / y
  if k = .float32 then Binary64.toSingle z else z

/-- Apply an operator to operands of a common type. -/
def applyCommon (op : Operator) (p : Prim) (l r : Payload) : Except OperatorFault Literal :=
  if op.isEquality then
    .ok (.ofBool (if op = .eq then l == r else !(l == r)))
  else if op.isLogical then
    match l, r with
    | .bool a, .bool b => .ok (.ofBool (if op = .and then a && b else a || b))
    | _, _ => .error (.unsupported p)
  else if op.isOrdering then
    match l, r with
    | .int a, .int b => .ok (.ofBool (op.holds (some (compare a.toInt b.toInt))))
    | .float x, .float y => .ok (.ofBool (op.holds (compareFloat x y)))
    | .string s, .string t => .ok (.ofBool (op.holds (some (compare s t))))
    | _, _ => .error (.unsupported p)
  else
    match l, r with
    | .int a, .int b => do return ⟨.int (← op.applyInt p.kind a b), p⟩
    | .float x, .float y => .ok ⟨.float (op.applyFloat p.kind x y), p⟩
    | .string s, .string t =>
      if op = .add then .ok ⟨.string (s ++ t), p⟩ else .error (.unsupported p)
    | _, _ => .error (.unsupported p)

/-- Apply an operator to two literals. -/
def apply (op : Operator) (l r : Literal) : Except OperatorFault Literal := do
  let p := commonPrim l.prim r.prim
  let l ← adapt l p
  let r ← adapt r p
  op.applyCommon p l.payload r.payload

end Operator

end FeatherGo
