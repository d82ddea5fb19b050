import FeatherGo.Expr.Subst
import FeatherGo.Typing.WellFormed

/-!
# Typing of expressions

`Checker.check` gives an expression its type and elaborates it: an untyped constant that flows into
a typed place takes the place's representation, and any other untyped expression is wrapped in a
conversion.
-/

namespace FeatherGo

/-- A value context: variables with their types. -/
abbrev Scope := Env Ty

/-- What typing depends on: the declarations, whether assertions on types that are no interfaces
are let through, and fuel for method sets. -/
structure Checker where
  table : Table
  lenient : Bool
  fuel : Nat

namespace Checker

/-- Give an untyped expression the representation of a kind. -/
def represent (e : Expr) (k : Kind) : Expr :=
  match e with
  | .lit l =>
    match l.convert k with
    | some l => .lit l
    | none => .convert k (.lit l)
  | e => .convert k e

/-- Whether an expression is a literal. -/
def isLiteral : Expr → Bool
  | .lit _ => true
  | _ => false

/-- An untyped literal that a kind does not hold. -/
def unfit (e : Expr) (k : Kind) : Option TypeError :=
  match e with
  | .lit l => if l.fits k then none else some (.notRepresentable l.payload (.ofKind k))
  | _ => none

/-- Whether an untyped expression of one kind may take another: literals may among numbers, other
expressions not from a float to an integer. -/
def mayBecome (e : Expr) (source target : Kind) : Bool :=
  source == target
    || (source.isNumeric && target.isNumeric
      && (source.isIntegral || target.isFloat || isLiteral e))

/-- Let an expression of type `t` flow into `target`, and settle its type where it is untyped. -/
def coerce (C : Checker) (Δ : Bounds) (t : Ty) (e : Expr) (target : Ty) (dest : Destination) :
    Answer TypeError Expr :=
  let refused (found : Ty) : TypeError := .notAssignable found target dest e
  match target, t with
  | .param p, t => do
    -- Only the parameter itself flows into a type parameter.
    if t = .param p then
      if ← C.table.implements C.fuel Δ t (.param p) then
        return e
      else
        throw (refused t)
    else
      throw (refused t)
  | .prim want, .prim ⟨k, true⟩ =>
    if want.untyped then .ok e
    else if mayBecome e k want.kind then
      match unfit e want.kind with
      | some fault => .error fault
      | none => .ok (represent e want.kind)
    else .error (refused t)
  | target, .prim ⟨k, true⟩ => do
    match unfit e k with
    | some fault => throw fault
    | none =>
      if ← C.table.implements C.fuel Δ (.ofKind k) target then
        return represent e k
      else
        throw (refused (.ofKind k))
  | target, t => do
    if ← C.table.implements C.fuel Δ t target then
      return e
    else
      throw (refused t)

/-- Type a binary operation from its typed operands; `whole` is the operation as written. -/
def binary (C : Checker) (Δ : Bounds) (op : Operator) (lhsTy : Ty) (lhs : Expr) (rhsTy : Ty)
    (rhs : Expr) (whole : Expr) : Answer TypeError (Ty × Expr) :=
  match lhsTy, rhsTy with
  | .prim lp, .prim rp => do
    let (p, lhs, rhs) ← show Answer TypeError (Prim × Expr × Expr) from
      match lp.untyped, rp.untyped with
      | true, true =>
        .ok (.constant (if rp.kind.rank ≤ lp.kind.rank then lp.kind else rp.kind), lhs, rhs)
      | false, true => do
        return (lp, lhs, ← C.coerce Δ rhsTy rhs lhsTy (.operand op))
      | true, false => do
        return (rp, ← C.coerce Δ lhsTy lhs rhsTy (.operand op), rhs)
      | false, false =>
        if lp = rp then .ok (lp, lhs, rhs)
        else .error (.operandMismatch op lhsTy rhsTy whole)
    match op.resultType p with
    | some t => return (t, .binary op lhs rhs)
    | none => throw (.invalidOperand op (.prim p) whole)
  | .prim _, _ => .error (.invalidOperand op rhsTy whole)
  | _, _ => .error (.invalidOperand op lhsTy whole)

/-- The literal that a conversion may not take: an untyped one that the kind does not hold. -/
def unconvertible (e : Expr) (k : Kind) : Option TypeError :=
  match e with
  | .lit l => if l.prim.untyped then unfit e k else none
  | _ => none

/-- The type that an assertion looks at: a type parameter stands for its bound. -/
def assertedOn (Δ : Bounds) : Ty → Except TypeError Ty
  | .param p => Δ.boundOf p
  | t => .ok t

/-- Whether a type is a type parameter. -/
def isParam : Ty → Bool
  | .param _ => true
  | _ => false

/-- An assertion of type `target` on an expression of type `t` makes sense. -/
def assertable (C : Checker) (Δ : Bounds) (t target : Ty) (whole : Expr) :
    Answer TypeError Unit := do
  let static ← assertedOn Δ t
  if ← C.table.isInterface static then
    if (← C.table.isInterface target) || isParam target then
      return ()
    else if ← C.table.implements C.fuel Δ target static then
      return ()
    else
      throw (.impossibleAssertion static target whole)
  else if C.lenient then
    return ()
  else
    throw (.assertOnConcrete t whole)

mutual

/-- The type of an expression, and the expression elaborated. -/
def check (C : Checker) (Δ : Bounds) (Γ : Scope) : Expr → Answer TypeError (Ty × Expr)
  | .var x =>
    match Γ.find? x with
    | some t => .ok (t, .var x)
    | none => .error (.unknownVariable x)
  | .structLit c targs elems => do
    let t := Ty.named c targs
    let whole := Expr.structLit c targs elems
    C.table.okType C.fuel Δ t
    match ← C.table.structFields t with
    | none => throw (.notAStruct t whole)
    | some fields =>
      if fields.length = elems.length then
        let elems ← checkAll C Δ Γ (fields.map fun f => (f.ty, .field f.name)) elems
        return (t, .structLit c targs elems)
      else
        throw (.fieldCount t fields.length elems.length whole)
  | .select e field => do
    let (t, inner) ← check C Δ Γ e
    match ← C.table.structFields t with
    | none => throw (.notAStruct t (.select e field))
    | some fields =>
      match fields.find? fun f => f.name = field with
      | some f => return (f.ty, .select inner field)
      | none => throw (.unknownField t field)
  | .call recv meth targs args => do
    let whole := Expr.call recv meth targs args
    let (recvTy, recv) ← check C Δ Γ recv
    match (← C.table.methods Δ C.fuel recvTy).find? meth with
    | none => throw (.unknownMethod recvTy meth)
    | some sig =>
      if sig.formals.length = targs.length then
        C.table.okTypes C.fuel Δ targs
        let η := instantiation sig.formals targs
        C.table.argumentsWithin C.fuel Δ (.term whole) η sig.formals targs
        if sig.params.length = args.length then
          let args ← checkAll C Δ Γ
            (sig.params.zipIdx.map fun (p, i) => (p.ty.subst η, .argument meth i)) args
          return (sig.result.subst η, .call recv meth targs args)
        else
          throw (.argumentCount meth sig.params.length args.length whole)
      else
        throw (.typeArgumentCount meth sig.formals.length targs.length whole)
  | .assert e ty => do
    C.table.okType C.fuel Δ ty
    let (t, inner) ← check C Δ Γ e
    C.assertable Δ t ty (.assert e ty)
    return (ty, .assert inner ty)
  | .sprintf format args => do
    let args ← checkAll C Δ Γ
      ((List.range args.length).map fun i => (.anything, .argument "fmt.Sprintf" (i + 1))) args
    return (.ofKind .string, .sprintf format args)
  | .lit l =>
    if l.prim.untyped || l.fits l.prim.kind then .ok (.prim l.prim, .lit l)
    else .error (.notRepresentable l.payload (.prim l.prim))
  | .binary op lhs rhs => do
    let (lhsTy, lhs') ← check C Δ Γ lhs
    let (rhsTy, rhs') ← check C Δ Γ rhs
    C.binary Δ op lhsTy lhs' rhsTy rhs' (.binary op lhs rhs)
  | .convert k e => do
    let (t, inner) ← check C Δ Γ e
    match t with
    | .prim p =>
      if p.kind = k ∨ (p.kind.isNumeric && k.isNumeric) then
        match unconvertible inner k with
        | some fault => throw fault
        | none => return (.ofKind k, .convert k inner)
      else
        throw (.invalidConversion t k (.convert k e))
    | _ => throw (.invalidConversion t k (.convert k e))

/-- Type expressions one by one and let each flow into its target. -/
def checkAll (C : Checker) (Δ : Bounds) (Γ : Scope) :
    List (Ty × Destination) → List Expr → Answer TypeError (List Expr)
  | (target, dest) :: targets, e :: es => do
    let (t, e) ← check C Δ Γ e
    let e ← C.coerce Δ t e target dest
    return e :: (← checkAll C Δ Γ targets es)
  | _, _ => .ok []

end

/-- The type of an expression alone. -/
def typeOf (C : Checker) (Δ : Bounds) (Γ : Scope) (e : Expr) : Answer TypeError Ty := do
  return (← C.check Δ Γ e).1

end Checker

end FeatherGo
