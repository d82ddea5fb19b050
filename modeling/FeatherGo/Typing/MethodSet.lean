import FeatherGo.Answer
import FeatherGo.Table
import FeatherGo.Ty.Subst

/-!
# Underlying types, method sets and the implements relation

`Table.resolve` unfolds definition chains. `Table.methods` gathers the signatures that a type
offers under a bounding context, and `Table.implements` compares method sets up to the names of
formals and parameters.

Gathering methods recurs through bounds of type parameters, embedded interfaces and the bounds of
receivers, which need not end in ill-formed declarations: it runs on fuel, one unit for each nested
method set. The steps that do not recur take the method set of a nested type as an argument.
-/

namespace FeatherGo

/-- A bounding context: type parameters with their upper bounds. -/
abbrev Bounds := Env Ty

/-- Extend a bounding context with type formals. -/
def Bounds.extend (Δ : Bounds) (formals : List Slot) : Bounds :=
  Δ ++ formals.map fun f => (f.name, f.ty)

/-- The bound of a type parameter that must be in scope. -/
def Bounds.boundOf (Δ : Bounds) (p : String) : Except TypeError Ty :=
  match Δ.find? p with
  | some t => .ok t
  | none => .error (.unboundParam p)

/-- A method set: signatures in ascending order of name, one for each name. -/
abbrev MethodSet := List Signature

namespace MethodSet

/-- The signature of a name. -/
def find? (ms : MethodSet) (name : String) : Option Signature := List.find? (·.name = name) ms

/-- Add a signature unless its name is present. -/
def add (s : Signature) : MethodSet → MethodSet
  | [] => [s]
  | t :: ts =>
    if s.name < t.name then s :: t :: ts
    else if s.name = t.name then t :: ts
    else t :: add s ts

/-- Add the signatures of another set whose names are not present. -/
def union (ms added : MethodSet) : MethodSet := added.foldl (fun acc s => add s acc) ms

/-- The names, ascending. -/
def names (ms : MethodSet) : List String := ms.map (·.name)

end MethodSet

namespace Table

/-- The declaration of a type name that must take as many arguments as are given. -/
def applied (T : Table) (c : String) (args : List Ty) : Except TypeError TypeDecl := do
  let td ← T.typeDecl c
  if td.formals.length = args.length then
    return td
  else
    throw (.typeArity (.named c args) td.formals.length args.length)

/-- Unfold one level: a named type becomes its source at the actual arguments, others stay. -/
def underlying (T : Table) : Ty → Except TypeError Ty
  | .named c args => do
    let td ← T.applied c args
    return td.source.subst (instantiation td.formals args)
  | t => .ok t

/-- Unfold until the type is not named, at most the given number of times. -/
def resolveIn (T : Table) : Nat → Ty → Except TypeError Ty
  | 0, .named c _ => .error (.cyclicDecl c)
  | n + 1, .named c args => do resolveIn T n (← T.underlying (.named c args))
  | _, t => .ok t

/-- Unfold definition chains; a chain longer than the table can only be a cycle. -/
def resolve (T : Table) (t : Ty) : Except TypeError Ty := T.resolveIn (T.typeDecls.length + 1) t

/-- Whether a type is an interface, by its definition chain. -/
def isInterface (T : Table) : Ty → Except TypeError Bool
  | .interface _ => .ok true
  | .named c args => do
    match ← T.resolve (.named c args) with
    | .interface _ => return true
    | _ => return false
  | _ => .ok false

/-- The fields of a struct type, by its definition chain; other types have none. -/
def structFields (T : Table) : Ty → Except TypeError (Option (List Slot))
  | .struct fs => .ok (some fs)
  | .named c args => do
    match ← T.resolve (.named c args) with
    | .struct fs => return some fs
    | _ => return none
  | _ => .ok none

/-- Whether `sub` implements `sup`, given the method sets of types. Interfaces ask for method sets
that contain theirs; all other types ask for identity. A type parameter may stand as a supertype
only of a type parameter. -/
def implementsBy (T : Table) (methodsOf : Ty → Answer TypeError MethodSet) (sub sup : Ty) :
    Answer TypeError Bool :=
  match sub, sup with
  | .param a, .param b => .ok (decide (a = b))
  | _, .param p => .error (.paramAsBound p sub)
  | .var _, _ => .ok (decide (sub = sup))
  | _, .var _ => .ok (decide (sub = sup))
  | _, .prim _ => .ok (decide (sub = sup))
  | _, _ => do
    if ← T.isInterface sup then
      let wanted ← methodsOf sup
      if wanted.isEmpty then
        return true
      let offered ← methodsOf sub
      return wanted.all fun s => (offered.find? s.name).any fun o => o.alphaEq s
    else
      return decide (sub = sup)

/-- Whether the arguments, position by position, implement the bounds of the formals they stand
for. -/
def withinBounds (T : Table) (methodsOf : Ty → Answer TypeError MethodSet) (η : Env Ty) :
    List Slot → List Ty → Answer TypeError Bool
  | f :: fs, t :: ts => do
    if ← T.implementsBy methodsOf t (f.ty.subst η) then
      withinBounds T methodsOf η fs ts
    else
      return false
  | _, _ => .ok true

/-- The substitution of receiver formals by arguments, if their numbers agree and every argument
implements its bound. -/
def receiverBy (T : Table) (methodsOf : Ty → Answer TypeError MethodSet) (formals : List Slot)
    (args : List Ty) : Answer TypeError (Option (Env Ty)) := do
  if formals.length = args.length then
    let η := instantiation formals args
    if ← T.withinBounds methodsOf η formals args then
      return some η
    else
      return none
  else
    return none

/-- The signatures that interface members list or embed; of a repeated name the first counts. -/
def memberMethods (methodsOf : Ty → Answer TypeError MethodSet) :
    List Member → MethodSet → Answer TypeError MethodSet
  | [], acc => .ok acc
  | .method s :: ms, acc => memberMethods methodsOf ms (acc.add s)
  | .embed c args :: ms, acc => do
    memberMethods methodsOf ms (acc.union (← methodsOf (.named c args)))

/-- The signatures of declared methods that apply to the given receiver arguments. -/
def declaredMethods (T : Table) (methodsOf : Ty → Answer TypeError MethodSet) (args : List Ty) :
    List MethodDecl → MethodSet → Answer TypeError MethodSet
  | [], acc => .ok acc
  | md :: mds, acc => do
    match ← T.receiverBy methodsOf md.recvFormals args with
    | some η => declaredMethods T methodsOf args mds (acc.add (md.sig.subst η))
    | none => declaredMethods T methodsOf args mds acc

/-- The methods of a type under `Δ`. Interfaces offer what they list and embed; other named types
what is declared on them and applies to their arguments; type parameters what their bound offers. -/
def methods (T : Table) (Δ : Bounds) : Nat → Ty → Answer TypeError MethodSet
  | 0, _ => .unfinished
  | fuel + 1, t =>
    match t with
    | .interface ms => memberMethods (methods T Δ fuel) ms []
    | .named c args => do
      match ← T.resolve (.named c args) with
      | .interface ms => methods T Δ fuel (.interface ms)
      | _ => T.declaredMethods (methods T Δ fuel) args (T.methodsOn c) []
    | .param p => do methods T Δ fuel (← Δ.boundOf p)
    | .prim _ | .struct _ | .var _ => .ok []

/-- Whether `sub` implements `sup` under `Δ`. -/
def implements (T : Table) (fuel : Nat) (Δ : Bounds) (sub sup : Ty) : Answer TypeError Bool :=
  T.implementsBy (T.methods Δ fuel) sub sup

/-- The substitution that a receiver's arguments give its formals, if they are within bounds. -/
def receiver (T : Table) (fuel : Nat) (Δ : Bounds) (formals : List Slot) (args : List Ty) :
    Answer TypeError (Option (Env Ty)) :=
  T.receiverBy (T.methods Δ fuel) formals args

/-- The bounds of formals at a substitution, as a bounding context. -/
def boundsAt (η : Env Ty) (formals : List Slot) : Bounds :=
  formals.map fun f => (f.name, f.ty.subst η)

end Table

end FeatherGo
