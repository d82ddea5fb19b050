import FeatherGo.Typing.MethodSet

/-!
# Well-formed types

A type is well formed under a bounding context if its type parameters are in scope, its names are
declared and applied to as many arguments as they take, each within its bound, and its literal
parts repeat no name. The checks run from left to right and report the first fault.
-/

namespace FeatherGo

/-- The first formal that repeats an earlier one or a parameter in scope. -/
def clashingFormal? (Δ : Bounds) : List String → List Slot → Option String
  | _, [] => none
  | seen, f :: fs =>
    if f.name ∈ seen ∨ (Δ.find? f.name).isSome then some f.name
    else clashingFormal? Δ (f.name :: seen) fs

namespace Table

/-- Whether a type may bound a type formal: typed primitives and interfaces may. -/
def isBound (T : Table) : Ty → Except TypeError Bool
  | .prim p => .ok (!p.untyped)
  | .interface _ => .ok true
  | .named c args => T.isInterface (.named c args)
  | _ => .ok false

/-- Every argument implements the bound of its formal at the substitution. -/
def argumentsWithin (T : Table) (fuel : Nat) (Δ : Bounds) (place : Place) (η : Env Ty) :
    List Slot → List Ty → Answer TypeError Unit
  | f :: fs, t :: ts => do
    if ← T.implements fuel Δ t (f.ty.subst η) then
      argumentsWithin T fuel Δ place η fs ts
    else
      throw (.boundViolation t (f.ty.subst η) place)
  | _, _ => .ok ()

/-- Add method names to those an interface has, refusing one it has already. -/
def newMembers (whole : Ty) : List String → List String → Except TypeError (List String)
  | [], seen => .ok seen
  | m :: ms, seen =>
    if m ∈ seen then .error (.duplicateMember m whole) else newMembers whole ms (m :: seen)

mutual

/-- The type is well formed. -/
def okType (T : Table) (fuel : Nat) (Δ : Bounds) : Ty → Answer TypeError Unit
  | .param p => do
    let _ ← Δ.boundOf p
  | .prim _ | .var _ => .ok ()
  | .named c args => do
    let td ← T.applied c args
    okTypes T fuel Δ args
    T.argumentsWithin fuel Δ (.type (.named c args)) (instantiation td.formals args) td.formals args
  | .struct fs => okFields T fuel Δ (.struct fs) [] fs
  | .interface ms => okMembers T fuel Δ (.interface ms) [] ms

/-- All of the types are well formed. -/
def okTypes (T : Table) (fuel : Nat) (Δ : Bounds) : List Ty → Answer TypeError Unit
  | [] => .ok ()
  | t :: ts => do
    okType T fuel Δ t
    okTypes T fuel Δ ts

/-- The fields, beyond those seen, have distinct names and well-formed types. -/
def okFields (T : Table) (fuel : Nat) (Δ : Bounds) (whole : Ty) (seen : List String) :
    List Slot → Answer TypeError Unit
  | [] => .ok ()
  | ⟨x, t⟩ :: fs => do
    if x ∈ seen then
      throw (.duplicateField x whole)
    else
      okType T fuel Δ t
      okFields T fuel Δ whole (x :: seen) fs

/-- The members are well formed and bring method names beyond those seen, each once. -/
def okMembers (T : Table) (fuel : Nat) (Δ : Bounds) (whole : Ty) (seen : List String) :
    List Member → Answer TypeError Unit
  | [] => .ok ()
  | .method s :: ms => do
    okSignature T fuel Δ s
    okMembers T fuel Δ whole (← newMembers whole [s.name] seen) ms
  | .embed c args :: ms => do
    let td ← T.applied c args
    okTypes T fuel Δ args
    T.argumentsWithin fuel Δ (.type (.named c args)) (instantiation td.formals args) td.formals args
    if ← T.isInterface (.named c args) then
      let offered ← T.methods Δ fuel (.named c args)
      okMembers T fuel Δ whole (← newMembers whole offered.names seen) ms
    else
      throw (.embedNotInterface (.named c args) whole)

/-- The formals are new and their bounds well formed under them; the parameters have distinct
names; their types and the result are well formed. -/
def okSignature (T : Table) (fuel : Nat) (Δ : Bounds) : Signature → Answer TypeError Unit
  | ⟨m, fs, ps, r⟩ => do
    match clashingFormal? Δ [] fs with
    | some f => throw (.duplicateFormal f m)
    | none =>
      okBounds T fuel (Δ.extend fs) fs
      okParams T fuel (Δ.extend fs) m [] ps
      okType T fuel (Δ.extend fs) r

/-- The bounds of formals are well formed and may bound. -/
def okBounds (T : Table) (fuel : Nat) (Δ : Bounds) : List Slot → Answer TypeError Unit
  | [] => .ok ()
  | ⟨f, t⟩ :: fs => do
    okType T fuel Δ t
    if ← T.isBound t then
      okBounds T fuel Δ fs
    else
      throw (.badBound f t)

/-- The value parameters, beyond those seen, have distinct names and well-formed types. -/
def okParams (T : Table) (fuel : Nat) (Δ : Bounds) (meth : String) (seen : List String) :
    List Slot → Answer TypeError Unit
  | [] => .ok ()
  | ⟨x, t⟩ :: ps => do
    if x ∈ seen then
      throw (.duplicateParam x meth)
    else
      okType T fuel Δ t
      okParams T fuel Δ meth (x :: seen) ps

end

/-- Check the type formals of a declaration and extend the context by them. -/
def okFormals (T : Table) (fuel : Nat) (Δ : Bounds) (decl : String) (formals : List Slot) :
    Answer TypeError Bounds := do
  match clashingFormal? Δ [] formals with
  | some f => throw (.duplicateFormal f decl)
  | none =>
    T.okBounds fuel (Δ.extend formals) formals
    return Δ.extend formals

end Table

end FeatherGo
