import FeatherGo.Ground.Name

/-!
# The digest of commands

A name and types are read as a sequence of numbers: which form a type has, how many parts, and the
parts in order; a name as its length and its characters. The numbers are mixed into a word one after
the other.
-/

namespace FeatherGo.Command

/-- A name: its length and its characters. -/
def codeName (s : String) : List Nat := s.toList.length :: s.toList.map Char.toNat

/-- The place of a kind in the list of all. -/
def codeKind (k : Kind) : Nat := Kind.all.idxOf k

mutual

/-- A type. -/
def codeTy : Ty → List Nat
  | .param p => 0 :: codeName p
  | .named c args => 1 :: codeName c ++ args.length :: codeTys args
  | .prim p => [2, codeKind p.kind, p.untyped.toNat]
  | .struct fs => 3 :: fs.length :: codeSlots fs
  | .interface ms => 4 :: ms.length :: codeMembers ms
  | .var n => [5, n]

/-- Some types. -/
def codeTys : List Ty → List Nat
  | [] => []
  | t :: ts => codeTy t ++ codeTys ts

/-- Some slots. -/
def codeSlots : List Slot → List Nat
  | [] => []
  | ⟨x, t⟩ :: fs => codeName x ++ codeTy t ++ codeSlots fs

/-- Some interface members. -/
def codeMembers : List Member → List Nat
  | [] => []
  | .method ⟨m, fs, ps, r⟩ :: ms =>
    0 :: codeName m ++ fs.length :: codeSlots fs ++ ps.length :: codeSlots ps ++ codeTy r
      ++ codeMembers ms
  | .embed c args :: ms => 1 :: codeName c ++ args.length :: codeTys args ++ codeMembers ms

end

/-- Mix a number into a word. -/
def mix (word : UInt64) (n : Nat) : UInt64 := (word ^^^ UInt64.ofNat n) * 1099511628211

/-- The digest that commands name placeholders by. -/
instance digest : Ground.Digest where
  of := fun (name, types) => (codeName name ++ codeTys types).foldl mix 14695981039346656037

end FeatherGo.Command
