import FeatherGo.Instance.Collect
import FeatherGo.Instance.Error

/-!
# Closing a set of instances

A set of instances is closed by passes. Each pass applies every rule to the instances that were
there when it began and adds what they demand; the first pass that adds nothing ends the run.

* A struct type demands the types of its fields, a defined type its source, an interface what it
  embeds.
* A call on an interface demands the same call on the types that implement it and on the interfaces
  that it embeds.
* A call demands the parameter types and the result of its signature, and what the body of the
  method holds, once its receiver type is among the types.

Ground instances must not mention type parameters, and each body is visited once for each instance.
Open ones may, up to a depth; there each body is visited once for all.
-/

namespace FeatherGo

/-- Which instances are let in. -/
inductive Admission where
  /-- Those without type parameters. -/
  | ground
  /-- Those whose types nest no deeper than a bound. -/
  | within (depth : Nat)

/-- What closing depends on. -/
structure Closure where
  table : Table
  bounds : Bounds
  admission : Admission
  fuel : Nat

/-- A set of instances on its way to being closed, with the bodies visited so far: at an instance,
and of a declaration. -/
structure Frontier where
  found : Instances
  visited : List MethodInstance
  visitedDecls : List (String × String)

/-- Nothing found, nothing visited. -/
def Frontier.empty : Frontier := ⟨.empty, [], []⟩

namespace Closure

/-- A computation on a frontier. -/
abbrev Visit (α : Type) := Track Frontier MonoError α

/-- An answer of typing within a visit. -/
def typing {α : Type} (x : Answer TypeError α) : Visit α :=
  monadLift (x.mapError MonoError.type : Answer MonoError α)

/-- Closing ground instances. -/
def ground (T : Table) (fuel : Nat) : Closure := ⟨T, [], .ground, fuel⟩

/-- The checker of bodies. Assertions on types that are no interfaces come up in instances of
generic code and are let through. -/
def checker (K : Closure) : Checker := ⟨K.table, true, K.fuel⟩

/-- Why a type may not be let in, if it may not. -/
def refusal? (K : Closure) (t : Ty) : Option MonoError :=
  match K.admission with
  | .ground => if t.isGround then none else some (.notGround t)
  | .within depth =>
    if depth < t.depth then some (.notMonomorphisable (.tooDeep t depth)) else none

/-- Let types in. -/
def permit (K : Closure) (ts : List Ty) : Visit Unit :=
  match ts.findSome? K.refusal? with
  | some e => Track.fail e
  | none => pure ()

/-- Add a type; the answer is whether it is new. -/
def addType (K : Closure) (t : Ty) : Visit Bool := do
  K.permit [t]
  let s ← Track.state
  Track.update fun s => { s with found := { s.found with types := insertNew t s.found.types } }
  return decide (t ∉ s.found.types)

/-- Add a method instance; the answer is whether it is new. -/
def addMethod (K : Closure) (m : MethodInstance) : Visit Bool := do
  K.permit (m.recv :: m.targs)
  let s ← Track.state
  Track.update fun s => { s with found := { s.found with meths := insertNew m s.found.meths } }
  return decide (m ∉ s.found.meths)

/-- Add some types. -/
def addTypes (K : Closure) : List Ty → Visit Unit
  | [] => pure ()
  | t :: ts => do
    let _ ← K.addType t
    K.addTypes ts

/-- Add some method instances. -/
def addMethods (K : Closure) : List MethodInstance → Visit Unit
  | [] => pure ()
  | m :: ms => do
    let _ ← K.addMethod m
    K.addMethods ms

/-- Add the instances in an expression, unless it has a fault. -/
def addFrom (K : Closure) (Γ : Scope) (e : Expr) : Visit Unit := do
  let (outcome, found) := K.checker.collect K.bounds Γ e Instances.empty
  typing outcome
  K.addTypes found.types
  K.addMethods found.meths

/-- Count the body of a declared method as visited. -/
def markVisited (recvType meth : String) : Visit Unit :=
  Track.update fun s => { s with visitedDecls := insertNew (recvType, meth) s.visitedDecls }

/-- The interfaces that a type embeds, by its definition chain. -/
def embeddedIn (T : Table) (t : Ty) : Except TypeError (List Ty) := do
  match ← T.resolve t with
  | .interface ms =>
    return ms.filterMap fun
      | .embed c args => some (.named c args)
      | .method _ => none
  | _ => return []

/-- The types that a type demands: those of its fields, its source, and what it embeds. -/
def demanded (T : Table) (t : Ty) : Except TypeError (List Ty) := do
  let fields := ((← T.structFields t).getD []).map (·.ty)
  match t with
  | .named .. =>
    let source ← T.underlying t
    return fields ++ [source].filter Ty.isNamed ++ (← embeddedIn T t)
  | _ => return fields

/-- Add what some types demand. -/
def growTypes (K : Closure) : List Ty → Visit Unit
  | [] => pure ()
  | t :: ts => do
    K.addTypes (← typing (.ofExcept (demanded K.table t)))
    K.growTypes ts

/-- Add a call on an interface as a call on each of some types that implements it. -/
def implementers (K : Closure) (m : MethodInstance) : List Ty → Visit Unit
  | [] => pure ()
  | t :: ts => do
    if t.isNamed && t ≠ m.recv then
      if ← typing (K.table.implements K.fuel K.bounds t m.recv) then
        let _ ← K.addMethod ⟨t, m.meth, m.targs⟩
    K.implementers m ts

/-- Add a call on an interface as a call on each of some embedded interfaces that has the method. -/
def embeddings (K : Closure) (m : MethodInstance) : List Ty → Visit Unit
  | [] => pure ()
  | t :: ts => do
    if ((← typing (K.table.methods K.bounds K.fuel t)).find? m.meth).isSome then
      let _ ← K.addMethod ⟨t, m.meth, m.targs⟩
    K.embeddings m ts

/-- Add the parameter types and the result of a call's signature. -/
def signatureTypes (K : Closure) (m : MethodInstance) : Visit Unit := do
  match (← typing (K.table.methods K.bounds K.fuel m.recv)).find? m.meth with
  | none => pure ()
  | some sig =>
    if sig.formals.length = m.targs.length then
      let η := instantiation sig.formals m.targs
      K.addTypes (sig.params.map (·.ty.subst η) ++ [sig.result.subst η])
    else
      pure ()

/-- Whether a body has been visited; it counts as visited from now on. -/
def visit (K : Closure) (c : String) (m : MethodInstance) : Visit Bool := do
  let s ← Track.state
  match K.admission with
  | .ground =>
    Track.update fun s => { s with visited := insertNew m s.visited }
    return decide (m ∈ s.visited)
  | .within _ =>
    markVisited c m.meth
    return decide ((c, m.meth) ∈ s.visitedDecls)

/-- Add what the body of a method holds at an instance. -/
def body (K : Closure) (m : MethodInstance) (args : List Ty) (md : MethodDecl) : Visit Unit :=
  if md.recvFormals.length = args.length ∧ md.sig.formals.length = m.targs.length then
    let η : Env Ty := instantiation md.recvFormals args ++ instantiation md.sig.formals m.targs
    let Γ : Scope := (md.recv, m.recv) :: md.sig.params.map fun p => (p.name, p.ty.subst η)
    K.addFrom Γ (md.body.substTypes η)
  else
    pure ()

/-- Visit the body of a call on a declared type that is no interface and is among the types. -/
def bodies (K : Closure) (m : MethodInstance) : Visit Unit := do
  match m.recv with
  | .named c args =>
    if ← typing (.ofExcept (K.table.isInterface m.recv)) then
      pure ()
    else
      let s ← Track.state
      match K.table.method? c m.meth with
      | some md =>
        if m.recv ∈ s.found.types then
          if !(← K.visit c m) then
            K.body m args md
        else
          pure ()
      | none => pure ()
  | _ => pure ()

/-- Add what a method instance demands. -/
def growMethod (K : Closure) (types : List Ty) (m : MethodInstance) : Visit Unit := do
  if ← typing (.ofExcept (K.table.isInterface m.recv)) then
    K.implementers m types
    K.embeddings m (← typing (.ofExcept (embeddedIn K.table m.recv)))
  K.signatureTypes m
  K.bodies m

/-- Add what some method instances demand. -/
def growMethods (K : Closure) (types : List Ty) : List MethodInstance → Visit Unit
  | [] => pure ()
  | m :: ms => do
    K.growMethod types m
    K.growMethods types ms

/-- Apply every rule to the instances that are there. -/
def pass (K : Closure) : Visit Unit := do
  let s ← Track.state
  K.growTypes s.found.types
  K.growMethods s.found.types s.found.meths

/-- Make passes, after a number of them, until one adds nothing or the limit is reached; the answer
is their number. The first argument bounds the passes that are still made. -/
def runFrom (K : Closure) (limit : Option Nat) : Nat → Nat → Visit Nat
  | 0, _ => fun s => (.unfinished, s)
  | rounds + 1, passes => do
    let before ← Track.state
    K.pass
    let after ← Track.state
    if after.found.size = before.found.size then
      return passes + 1
    else if limit.any fun most => most ≤ passes + 1 then
      Track.fail (.passLimit (passes + 1))
    else
      K.runFrom limit rounds (passes + 1)

/-- Make passes until one adds nothing or the limit is reached; one pass is always made. A limit
bounds the passes by itself; without one the fuel does. -/
def run (K : Closure) (limit : Option Nat) : Visit Nat :=
  K.runFrom limit (max 1 (limit.getD K.fuel)) 0

end Closure

/-- The ground instances that a main expression reaches, in order of discovery. -/
def discover (fuel : Nat) (T : Table) (main : Expr) (limit : Option Nat) :
    Answer MonoError Instances :=
  let K := Closure.ground T fuel
  match (do K.addFrom [] main; let _ ← K.run limit : Closure.Visit Unit) Frontier.empty with
  | (outcome, s) => do
    outcome
    return s.found

end FeatherGo
