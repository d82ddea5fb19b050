import FeatherGo.Inference.Constraint
import FeatherGo.Typing.Declaration

/-!
# Inference of omitted type arguments

A call of a generic method and a literal of a generic struct type may omit their type arguments.
`Checker.infer` puts a fresh variable for each formal, lets the types of the arguments implement
those of the parameters, and writes the solution into the expression, which then is typed as usual.
The count of variables taken so far is kept through a whole program, and past errors.
-/

namespace FeatherGo

namespace Checker

/-- The type an argument has for inference: an untyped constant has the type it falls back to. -/
def actualType : Ty → Ty
  | .prim p => .prim p.settled
  | t => t

/-- The types of variables in a solution, which must leave no variable open. -/
def solvedVars (σ : VarSubst) : List Nat → Except UnifyError (List Ty)
  | [] => .ok []
  | v :: vs =>
    let t := (Ty.var v).assign σ
    if t.hasVars then .error (.unresolved v)
    else do
      return t :: (← solvedVars σ vs)

/-- The types found for variables implement the bounds of their formals. -/
def solutionsWithin (C : Checker) (Δ : Bounds) (whole : Expr) :
    List (Nat × Ty × Ty) → Answer TypeError Unit
  | [] => .ok ()
  | (v, t, bound) :: rest => do
    if ← C.table.implements C.fuel Δ t bound then
      C.solutionsWithin Δ whole rest
    else
      throw (.cannotInfer whole (.bound v t bound))

/-- Find arguments for formals, with variables numbered from `first` on, such that each actual type
implements its target. -/
def solveFormals (C : Checker) (Δ : Bounds) (first : Nat) (formals : List Slot)
    (actuals targets : List Ty) (whole : Expr) : Answer TypeError (List Ty) := do
  let vars := (List.range formals.length).map (first + ·)
  let fresh := instantiation formals (vars.map .var)
  let constraints := List.zipWith (fun actual (target : Ty) =>
    Constraint.subtype (actualType actual) (target.subst fresh)) actuals targets
  let U : Unifier := ⟨C.table, Δ, C.fuel⟩
  let σ ← (U.solve C.fuel constraints).mapError (.cannotInfer whole)
  let solved ← (Answer.ofExcept (solvedVars σ vars)).mapError (.cannotInfer whole)
  let closed := instantiation formals solved
  let bounds := formals.map fun f => ((f.ty.subst fresh).assign σ).subst closed
  C.solutionsWithin Δ whole (vars.zip (solved.zip bounds))
  return solved

/-- The types that a literal's elements flow into, under the formals of its declaration. -/
def literalTargets (C : Checker) (td : TypeDecl) (count : Nat) (whole : Expr) :
    Except TypeError (List Ty) := do
  match ← C.table.structFields td.selfType with
  | none => throw (.notAStruct td.selfType whole)
  | some fields =>
    if fields.length = count then
      return fields.map (·.ty)
    else
      throw (.fieldCount td.selfType fields.length count whole)

/-- The types that a call's arguments flow into, under the formals of its signature. -/
def callTargets (sig : Signature) (count : Nat) (whole : Expr) : Except TypeError (List Ty) :=
  if sig.params.length = count then .ok (sig.params.map (·.ty))
  else .error (.argumentCount sig.name sig.params.length count whole)

/-- Find arguments for formals, with variables that no one else takes. -/
def solveFresh (C : Checker) (Δ : Bounds) (formals : List Slot) (actuals targets : List Ty)
    (whole : Expr) : Track Nat TypeError (List Ty) := do
  let first ← Track.state
  Track.update (· + formals.length)
  C.solveFormals Δ first formals actuals targets whole

/-- Whether type arguments were left out. -/
def omitted (targs : List Ty) (formals : List Slot) : Bool := targs.isEmpty && !formals.isEmpty

mutual

/-- Fill in omitted type arguments, and type the expression. -/
def infer (C : Checker) (Δ : Bounds) (Γ : Scope) : Expr → Track Nat TypeError (Ty × Expr)
  | .var x => C.check Δ Γ (.var x)
  | .lit l => C.check Δ Γ (.lit l)
  | .structLit c targs elems => do
    let typed ← inferAll C Δ Γ elems
    let td ← C.table.typeDecl c
    let targs ←
      if omitted targs td.formals then
        let targets ← C.literalTargets td typed.length (.structLit c targs elems)
        C.solveFresh Δ td.formals (typed.map (·.1)) targets (.structLit c targs elems)
      else
        pure targs
    C.check Δ Γ (.structLit c targs (typed.map (·.2)))
  | .select e field => do
    let (_, e) ← infer C Δ Γ e
    C.check Δ Γ (.select e field)
  | .call recv meth targs args => do
    let (recvTy, recv') ← infer C Δ Γ recv
    let typed ← inferAll C Δ Γ args
    match (← C.table.methods Δ C.fuel recvTy).find? meth with
    | none => Track.fail (.unknownMethod recvTy meth)
    | some sig =>
      let targs ←
        if omitted targs sig.formals then
          let targets ← callTargets sig typed.length (.call recv meth targs args)
          C.solveFresh Δ sig.formals (typed.map (·.1)) targets (.call recv meth targs args)
        else
          pure targs
      C.check Δ Γ (.call recv' meth targs (typed.map (·.2)))
  | .assert e ty => do
    let (_, e) ← infer C Δ Γ e
    C.check Δ Γ (.assert e ty)
  | .sprintf format args => do
    let typed ← inferAll C Δ Γ args
    C.check Δ Γ (.sprintf format (typed.map (·.2)))
  | .binary op lhs rhs => do
    let (_, lhs) ← infer C Δ Γ lhs
    let (_, rhs) ← infer C Δ Γ rhs
    C.check Δ Γ (.binary op lhs rhs)
  | .convert k e => do
    let (_, e) ← infer C Δ Γ e
    C.check Δ Γ (.convert k e)

/-- Fill in omitted type arguments in some expressions, and type them. -/
def inferAll (C : Checker) (Δ : Bounds) (Γ : Scope) :
    List Expr → Track Nat TypeError (List (Ty × Expr))
  | [] => pure []
  | e :: es => do
    let typed ← infer C Δ Γ e
    return typed :: (← inferAll C Δ Γ es)

end

/-- Fill in omitted type arguments in the bodies of methods. -/
def elaborateDecls (C : Checker) : List Decl → Track Nat TypeError (List Decl)
  | [] => pure []
  | .type td :: decls => do
    return .type td :: (← C.elaborateDecls decls)
  | .method md :: decls => do
    let (_, body) ← C.infer md.bounds md.scope md.body
    return .method { md with body } :: (← C.elaborateDecls decls)

/-- Fill in omitted type arguments throughout a program. -/
def elaborate (C : Checker) (p : Program) : Track Nat TypeError Program := do
  let decls ← C.elaborateDecls p.decls
  let (_, main) ← C.infer [] [] p.main
  return { p with decls, main }

end Checker

/-- Fill in omitted type arguments and check the program that results. -/
def inferProgram (fuel : Nat) (p : Program) : Answer TypeError (Ty × Program) := do
  let C : Checker := ⟨← Table.ofDecls p.decls, false, fuel⟩
  C.table.checkAcyclic
  checkProgram fuel false (← (C.elaborate p 0).1)

end FeatherGo
