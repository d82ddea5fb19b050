import FeatherGo.Inference.VarSubst
import FeatherGo.Ty.Render
import FeatherGo.Typing.MethodSet

/-!
# Solving type constraints

A constraint asks one type to implement another, or two types to be equal. Constraints are solved
one at a time: the solution of the first is applied to the others, theirs is found, and the two are
composed. Of two types for one variable the more general one stays, if one of them implements the
other.

Without variables a subtype constraint is the implements relation. With variables it asks for equal
arguments of one declared name, or, below an interface, for signatures that agree method by method.
Solving runs on fuel, one unit for each constraint in sequence and for each level of nesting.
-/

namespace FeatherGo

/-- What inference asks of two types. -/
inductive Constraint where
  /-- The left type implements the right one. -/
  | subtype (sub sup : Ty)
  | equality (left right : Ty)

namespace Constraint

/-- The two types, left and right. -/
def sides : Constraint → Ty × Ty
  | .subtype a b => (a, b)
  | .equality a b => (a, b)

/-- Whether the left type need only implement the right one. -/
def isSubtype : Constraint → Bool
  | .subtype .. => true
  | .equality .. => false

/-- Replace inference variables on both sides. -/
def assign (σ : VarSubst) : Constraint → Constraint
  | .subtype a b => .subtype (a.assign σ) (b.assign σ)
  | .equality a b => .equality (a.assign σ) (b.assign σ)

/-- The text of a constraint. -/
def render : Constraint → String
  | .subtype a b => a.render ++ " <: " ++ b.render
  | .equality a b => a.render ++ " = " ++ b.render

end Constraint

/-- Bind a variable to a type that does not contain it. -/
def bindVar (v : Nat) (t : Ty) : Except UnifyError VarSubst :=
  if t.occurs v then .error (.occurs v t) else .ok [(v, t)]

/-- The pieces of two signatures, renamed canonically, are equal: bounds, parameter types and
results. -/
def signatureConstraints (sub sup : Signature) : Except UnifyError (List Constraint) :=
  if sub.formals.length = sup.formals.length ∧ sub.params.length = sup.params.length then
    let pieces (s : Signature) : List Ty :=
      s.canonical.formals.map (·.ty) ++ s.canonical.params.map (·.ty) ++ [s.canonical.result]
    .ok (List.zipWith .equality (pieces sub) (pieces sup))
  else
    .error (.signatureShape sup.name)

/-- Every wanted signature has one of its name among the offered ones, and their pieces agree. -/
def methodConstraints (sub : Ty) (offered : MethodSet) :
    MethodSet → Except UnifyError (List Constraint)
  | [] => .ok []
  | s :: wanted =>
    match offered.find? s.name with
    | none => .error (.missingMethod sub s.name)
    | some o => do
      let here ← signatureConstraints o s
      return here ++ (← methodConstraints sub offered wanted)

/-- What solving depends on: declarations, the bounds of type parameters, and fuel for method
sets. -/
structure Unifier where
  table : Table
  bounds : Bounds
  fuel : Nat

namespace Unifier

/-- The implements relation, as a question of unification. -/
def implements (U : Unifier) (sub sup : Ty) : Answer UnifyError Bool :=
  (U.table.implements U.fuel U.bounds sub sup).mapError .type

/-- Merge the bindings of `outer` into `σ`: a variable bound by both keeps the type that the other
one implements. -/
def merge (U : Unifier) (σ : VarSubst) : VarSubst → Answer UnifyError VarSubst
  | [] => .ok σ
  | (v, t) :: outer =>
    match σ.find? v with
    | none => U.merge (σ.insert v t) outer
    | some u =>
      if u = t then U.merge σ outer
      else do
        if ← U.implements u t then
          U.merge (σ.insert v t) outer
        else if ← U.implements t u then
          U.merge σ outer
        else
          throw (.conflict v u t)

/-- The solution that applies `inner` first and `outer` after it. -/
def compose (U : Unifier) (outer inner : VarSubst) : Answer UnifyError VarSubst :=
  U.merge (inner.map fun (v, t) => (v, t.assign outer)) outer

/-- Equations between the arguments of one declared name. Under a subtype constraint, arguments
without variables need only implement each other. -/
def argumentConstraints (U : Unifier) (c : Constraint) :
    List Ty → List Ty → Answer UnifyError (List Constraint)
  | l :: ls, r :: rs =>
    if c.isSubtype && !l.hasVars && !r.hasVars then do
      if ← U.implements l r then
        U.argumentConstraints c ls rs
      else
        throw (.mismatch c.sides.1 c.sides.2)
    else do
      return .equality l r :: (← U.argumentConstraints c ls rs)
  | _, _ => .ok []

/-- Solve one constraint between different types of which at least one has variables, given how to
solve those that it comes down to. -/
def decompose (U : Unifier) (again : List Constraint → Answer UnifyError VarSubst)
    (c : Constraint) : Answer UnifyError VarSubst :=
  let mismatch : UnifyError := .mismatch c.sides.1 c.sides.2
  match c.sides with
  | (.var v, t) => bindVar v t
  | (t, .var v) => bindVar v t
  | (.struct fs, .struct gs) =>
    if fs.map (·.name) = gs.map (·.name) then
      again (List.zipWith .equality (fs.map (·.ty)) (gs.map (·.ty)))
    else
      .error mismatch
  | (sub, sup) =>
    if sub.head?.isSome ∧ sub.head? = sup.head? then
      if sub.arguments.length = sup.arguments.length then do
        again (← U.argumentConstraints c sub.arguments sup.arguments)
      else
        .error mismatch
    else if c.isSubtype then do
      if ← (Answer.ofExcept (U.table.isInterface sup)).mapError .type then
        let wanted ← (U.table.methods U.bounds U.fuel sup).mapError .type
        let offered ← (U.table.methods U.bounds U.fuel sub).mapError .type
        again (← methodConstraints sub offered wanted)
      else
        throw mismatch
    else
      .error mismatch

/-- Solve one constraint, given how to solve those that it comes down to. -/
def solveOne (U : Unifier) (again : List Constraint → Answer UnifyError VarSubst)
    (c : Constraint) : Answer UnifyError VarSubst :=
  let (a, b) := c.sides
  if a = b then .ok []
  else if a.hasVars || b.hasVars then U.decompose again c
  else if c.isSubtype then do
    if ← U.implements a b then
      return []
    else
      throw (.mismatch a b)
  else
    .error (.mismatch a b)

/-- Solve constraints in order. -/
def solve (U : Unifier) : Nat → List Constraint → Answer UnifyError VarSubst
  | _, [] => .ok []
  | 0, _ :: _ => .unfinished
  | n + 1, c :: cs => do
    let first ← U.solveOne (U.solve n) c
    let later ← U.solve n (cs.map (·.assign first))
    U.compose later first

end Unifier

end FeatherGo
