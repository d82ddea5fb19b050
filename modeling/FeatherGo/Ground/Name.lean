import FeatherGo.Ty.Render
import FeatherGo.Ty.Subst

/-!
# Names of ground declarations

An instance of a declared type or a method becomes a declaration of its own, named by the instance
as it is written: `List(Pair(A, B))` becomes `ListᐸPairᐸAˏBᐳᐳ`. Every method also leaves a
placeholder behind, named for a digest of its whole signature, so that a type still offers what it
offered before. The digest is a parameter.
-/

namespace FeatherGo.Ground

/-- A character of an instance as it stands in a name. -/
def nameChar : Char → List Char
  | ' ' => []
  | '(' => ['ᐸ']
  | ')' => ['ᐳ']
  | ',' => ['ˏ']
  | c => [c]

/-- The text of an instance as a name. -/
def nameOf (text : String) : String := String.ofList (text.toList.flatMap nameChar)

/-- The name of a declared type at arguments. -/
def typeName (c : String) (args : List Ty) : String :=
  if args.isEmpty then c else nameOf (Ty.named c args).render

/-- The name of a method at type arguments. -/
def methodName (meth : String) (targs : List Ty) : String :=
  if targs.isEmpty then meth else nameOf (meth ++ parenthesised (Ty.renderAll targs))

/-- A digest in 64 bits of a name and of types, one after the other. -/
class Digest where
  /-- The digest of what it is fed. -/
  of : String × List Ty → UInt64

/-- What the digest of a signature is fed: the name, then the bounds, the parameter types and the
result under canonical names of the formals. Names of parameters do not count. -/
def digested (s : Signature) : String × List Ty :=
  (s.name, s.canonical.formals.map (·.ty) ++ s.canonical.params.map (·.ty) ++ [s.canonical.result])

/-- The name of the placeholder of a signature: its name, a mark, and its digest in hexadecimal. -/
def placeholderName [Digest] (s : Signature) : String :=
  s.name ++ "ǂ" ++ String.ofList (Nat.toDigits 16 (Digest.of (digested s)).toNat)

/-- The name, or else the first of `name_1`, `name_2`, … that is not taken. -/
def freshName (name : String) (taken : List String) : String :=
  if name ∈ taken then
    (((List.range (taken.length + 1)).map fun i => name ++ "_" ++ toString (i + 1)).find?
      fun candidate => candidate ∉ taken).getD name
  else
    name

end FeatherGo.Ground
