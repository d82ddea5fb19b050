import FeatherGo.Expr.Subst
import FeatherGo.Reduction.Error
import FeatherGo.Reduction.Format
import FeatherGo.Typing.MethodSet

/-!
# One step of reduction

Evaluation is by value and from left to right: an expression first reduces its leftmost part that is
no value, and its own rule applies once all parts are values. A call takes the method of the
receiver's struct type.
-/

namespace FeatherGo

/-- The rule that a step applies. -/
inductive Rule where
  | select
  | call
  | assert
  | sprintf
  | binary
  | convert
deriving DecidableEq

/-- The name of a rule. -/
def Rule.name : Rule → String
  | .select => "Select"
  | .call => "Call"
  | .assert => "Assert"
  | .sprintf => "Sprintf"
  | .binary => "BinaryOp"
  | .convert => "Convert"

/-- The declarations that steps look up, and fuel for method sets. -/
structure Machine where
  table : Table
  fuel : Nat

namespace Machine

/-- The element of a struct value under a field; `whole` is the selection. -/
def project (M : Machine) (field : String) (whole : Expr) : Expr → Except TypeError Expr
  | .structLit c targs elems => do
    let t := Ty.named c targs
    match ← M.table.structFields t with
    | none => throw (.notAStruct t whole)
    | some fields =>
      match (fields.findIdx? fun f => f.name = field).bind (elems[·]?) with
      | some e => return e
      | none => throw (.unknownField t field)
  | value => .error (.notAStruct value.runtimeType whole)

/-- The body of a method, with the receiver, its type arguments and those of the call put in. -/
def invoke (M : Machine) (recv : Expr) (meth : String) (targs : List Ty) (args : List Expr) :
    Except TypeError Expr :=
  match recv with
  | .structLit c recvArgs _ =>
    match M.table.method? c meth with
    | none => .error (.unknownMethod (.named c recvArgs) meth)
    | some md =>
      if md.sig.params.length = args.length then
        let η : Env Ty :=
          instantiation md.recvFormals recvArgs ++ instantiation md.sig.formals targs
        let env : Env Expr := (md.recv, recv) :: (md.sig.params.map (·.name)).zip args
        .ok ((md.body.substTypes η).substVars env)
      else
        .error (.argumentCount meth md.sig.params.length args.length recv)
  | value => .error (.unknownMethod value.runtimeType meth)

/-- The left operand that decides a conjunction or a disjunction alone. -/
def decided? (op : Operator) (lhs : Expr) : Option Bool :=
  match op, lhs with
  | .and, .lit ⟨.bool false, _⟩ => some false
  | .or, .lit ⟨.bool true, _⟩ => some true
  | _, _ => none

/-- The result of an operator on values; `whole` is the operation. -/
def operate (op : Operator) (lhs rhs whole : Expr) : Except EvalError Expr :=
  match lhs, rhs with
  | .lit l, .lit r =>
    match op.apply l r with
    | .ok l => .ok (.lit l)
    | .error .divisionByZero => .error (.stuck (.divisionByZero whole))
    | .error .divisorLost => .error .divisorLost
    | .error (.unsupported p) => .error (.type (.invalidOperand op (.prim p) whole))
  | _, _ => .error (.type (.invalidOperand op lhs.runtimeType whole))

/-- A value brought to a kind; `whole` is the conversion. -/
def convertValue (k : Kind) (value whole : Expr) : Except EvalError Expr :=
  let refused : EvalError := .type (.invalidConversion value.runtimeType k whole)
  match value with
  | .lit l =>
    match l.convert k with
    | some l => .ok (.lit l)
    | none => .error refused
  | _ => .error refused

/-- A value asserted to have a type, which its own type has to implement. -/
def assertValue (M : Machine) (value : Expr) (target : Ty) : Answer EvalError Expr := do
  let t := value.runtimeType
  if ← (M.table.implements M.fuel [] t target).mapError .type then
    return value
  else
    throw (.stuck (.failedAssertion t target (.assert value target)))

mutual

/-- Reduce an expression by one step; the rule is that of the innermost reduction. -/
def step (M : Machine) : Expr → Answer EvalError (Expr × Rule)
  | .var x => .error (.freeVariable x)
  | .lit l => .error (.notReducible (.lit l))
  | .structLit c targs elems => do
    let (elems', rule) ← stepFirst M (.structLit c targs elems) elems
    return (.structLit c targs elems', rule)
  | .select e field =>
    if e.isValue then do
      return (← (Answer.ofExcept (M.project field (.select e field) e)).mapError .type, .select)
    else do
      let (e, rule) ← step M e
      return (.select e field, rule)
  | .call recv meth targs args =>
    if !recv.isValue then do
      let (recv, rule) ← step M recv
      return (.call recv meth targs args, rule)
    else if !Expr.areValues args then do
      let (args', rule) ← stepFirst M (.call recv meth targs args) args
      return (.call recv meth targs args', rule)
    else do
      return (← (Answer.ofExcept (M.invoke recv meth targs args)).mapError .type, .call)
  | .assert e ty =>
    if e.isValue then do
      return (← M.assertValue e ty, .assert)
    else do
      let (e, rule) ← step M e
      return (.assert e ty, rule)
  | .sprintf format args =>
    if Expr.areValues args then
      .ok (.lit (.ofString (FeatherGo.sprintf format args)), .sprintf)
    else do
      let (args', rule) ← stepFirst M (.sprintf format args) args
      return (.sprintf format args', rule)
  | .binary op lhs rhs =>
    if !lhs.isValue then do
      let (lhs, rule) ← step M lhs
      return (.binary op lhs rhs, rule)
    else
      match decided? op lhs with
      | some b => .ok (.lit (.ofBool b), .binary)
      | none =>
        if !rhs.isValue then do
          let (rhs, rule) ← step M rhs
          return (.binary op lhs rhs, rule)
        else do
          return (← operate op lhs rhs (.binary op lhs rhs), .binary)
  | .convert k e =>
    if e.isValue then do
      return (← convertValue k e (.convert k e), .convert)
    else do
      let (e, rule) ← step M e
      return (.convert k e, rule)

/-- Reduce the leftmost expression that is no value; `whole` is what they are parts of. -/
def stepFirst (M : Machine) (whole : Expr) : List Expr → Answer EvalError (List Expr × Rule)
  | [] => .error (.notReducible whole)
  | e :: es =>
    if e.isValue then do
      let (es, rule) ← stepFirst M whole es
      return (e :: es, rule)
    else do
      let (e, rule) ← step M e
      return (e :: es, rule)

end

end Machine

end FeatherGo
