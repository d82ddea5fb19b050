import FeatherGo.Env
import FeatherGo.Ty.Scope

/-!
# Substitution of type parameters

`Ty.subst` replaces type parameters throughout a type; parameters without an entry stay. The
formals of a signature hide entries of the same name, and a formal that a substituted type
mentions is renamed first, by adding primes until the name is unused. Renaming is itself a
substitution of parameters for parameters, so it keeps the depth of a type, and the recursion is
on that depth.

`Signature.alphaEq` compares signatures up to the names of their formals and value parameters.
-/

namespace FeatherGo

/-- The first of `name`, `name'`, `name''`, … that is not taken; one of the first
`taken.length + 1` is free, so the count of trials starts there. -/
def primedIn (taken : List String) : Nat → String → String
  | 0, name => name
  | n + 1, name => if name ∈ taken then primedIn taken n (name ++ "'") else name

namespace Signature

/-- New names for formals that `free` mentions, all different from `taken`; other formals keep
theirs. -/
def freshNames (free : List String) : List String → List String → List String
  | _, [] => []
  | taken, f :: fs =>
    if f ∈ free then
      let name := primedIn taken taken.length (f ++ "'")
      name :: freshNames free (name :: taken) fs
    else
      f :: freshNames free taken fs

/-- Give the slots new names by position; slots beyond the list keep theirs. -/
def relabel : List Slot → List String → List Slot
  | f :: fs, n :: ns => ⟨n, f.ty⟩ :: relabel fs ns
  | fs, _ => fs

/-- Rename the formals by position, with `sub` for substitution in types. -/
def renameWith (sub : Env Ty → Ty → Ty) (s : Signature) (names : List String) : Signature :=
  let renamed := s.map (sub ((s.formalNames.zip names).map fun (f, n) => (f, .param n)))
  { renamed with formals := relabel renamed.formals names }

/-- Substitute in a signature, with `sub` for substitution in types: entries of its own formals
do not count, and formals that would capture are renamed first. -/
def substWith (sub : Env Ty → Ty → Ty) (η : Env Ty) (s : Signature) : Signature :=
  let inner : Env Ty := η.filter fun (p, _) => p ∉ s.formalNames
  if inner.isEmpty then
    s
  else
    let free := inner.entries.flatMap Ty.freeParams
    if s.formalNames.any (· ∈ free) then
      (s.renameWith sub (freshNames free (free ++ s.formalNames) s.formalNames)).map (sub inner)
    else
      s.map (sub inner)

end Signature

/-- Substitute in an interface member. -/
def Member.substWith (sub : Env Ty → Ty → Ty) (η : Env Ty) : Member → Member
  | .method s => .method (s.substWith sub η)
  | .embed c args => .embed c (args.map (sub η))

/-- Substitution in types of at most the given depth. -/
def Ty.substAt : Nat → Env Ty → Ty → Ty
  | 0, _, t => t
  | n + 1, η, t =>
    match t with
    | .param p => (η.find? p).getD (.param p)
    | .named c args => .named c (args.map (substAt n η))
    | .prim p => .prim p
    | .struct fs => .struct (fs.map (Slot.map (substAt n η)))
    | .interface ms => .interface (ms.map (Member.substWith (substAt n) η))
    | .var v => .var v

/-- Replace type parameters by the entries of `η`; parameters without an entry stay. -/
def Ty.subst (η : Env Ty) (t : Ty) : Ty := t.substAt t.depth η

/-- Substitute in an interface member. -/
def Member.subst (η : Env Ty) (m : Member) : Member := m.substWith Ty.subst η

namespace Signature

/-- Capture-avoiding substitution in a signature. -/
def subst (η : Env Ty) (s : Signature) : Signature := s.substWith Ty.subst η

/-- Rename the signature's own formals by position. -/
def rename (s : Signature) (names : List String) : Signature := s.renameWith Ty.subst names

/-- The name of the formal at a position, from one, in canonical signatures. -/
def canonicalName (i : Nat) : String := "α" ++ toString i

/-- The signature with its formals renamed to `α1`, `α2`, … by position. -/
def canonical (s : Signature) : Signature :=
  s.rename ((List.range s.formals.length).map fun i => canonicalName (i + 1))

/-- Equality up to the names of formals and value parameters: the canonical signatures have the
same bounds, parameter types and result. -/
def alphaEq (a b : Signature) : Bool :=
  a.name == b.name
    && a.formals.length == b.formals.length
    && a.params.length == b.params.length
    && a.canonical.formals.map (·.ty) == b.canonical.formals.map (·.ty)
    && a.canonical.params.map (·.ty) == b.canonical.params.map (·.ty)
    && a.canonical.result == b.canonical.result

end Signature

/-- The substitution of type formals by arguments, by position. -/
def instantiation (formals : List Slot) (args : List Ty) : Env Ty :=
  (formals.map (·.name)).zip args

end FeatherGo
