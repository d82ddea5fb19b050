/-!
# Types

The types of the calculus: type parameters, declared types applied to arguments, primitives,
anonymous struct and interface types, and the variables that inference solves for. A signature
binds its own type formals; an interface lists signatures and embedded interfaces.

Equality of types is structural and decidable (`Ty.beq_iff`).
-/

namespace FeatherGo

/-- The primitive kinds. -/
inductive Kind where
  | bool
  | int32
  | int64
  | float32
  | float64
  | string
deriving DecidableEq

namespace Kind

/-- Every kind, in the order of declaration. -/
def all : List Kind := [bool, int32, int64, float32, float64, string]

/-- The name of a kind in programs. -/
def name : Kind → String
  | .bool => "bool"
  | .int32 => "int32"
  | .int64 => "int64"
  | .float32 => "float32"
  | .float64 => "float64"
  | .string => "string"

/-- The kind of a given name. -/
def ofName? (s : String) : Option Kind := all.find? fun k => k.name = s

/-- The integer kinds. -/
def isIntegral : Kind → Bool
  | .int32 | .int64 => true
  | _ => false

/-- The floating-point kinds. -/
def isFloat : Kind → Bool
  | .float32 | .float64 => true
  | _ => false

/-- The kinds of numbers. -/
def isNumeric (k : Kind) : Bool := k.isIntegral || k.isFloat

/-- Which kind wins when two untyped constants meet: the wider one, and floats over integers. -/
def rank : Kind → Nat
  | .bool | .string => 0
  | .int32 => 1
  | .int64 => 2
  | .float32 => 3
  | .float64 => 4

end Kind

/-- A primitive type. An untyped one belongs to a constant whose representation the context still
has to settle; its kind is the one it falls back to. -/
structure Prim where
  kind : Kind
  untyped : Bool
deriving DecidableEq

namespace Prim

/-- The primitive type of values. -/
def typed (k : Kind) : Prim := ⟨k, false⟩

/-- The primitive type of constants that fall back to `k`. -/
def constant (k : Kind) : Prim := ⟨k, true⟩

/-- The type a constant takes when nothing else decides. -/
def settled (p : Prim) : Prim := .typed p.kind

end Prim

mutual

/-- A type. -/
inductive Ty where
  /-- A type parameter; its bound comes from the context. -/
  | param (name : String)
  /-- A declared type applied to type arguments. -/
  | named (name : String) (args : List Ty)
  /-- A primitive type. -/
  | prim (p : Prim)
  /-- An anonymous struct type. -/
  | struct (fields : List Slot)
  /-- An anonymous interface type. -/
  | interface (members : List Member)
  /-- A variable of inference; programs hold none. -/
  | var (n : Nat)

/-- A name with a type: a field, a type formal with its upper bound, or a value parameter. -/
structure Slot where
  name : String
  ty : Ty

/-- A method signature, which binds its own type formals. -/
structure Signature where
  name : String
  formals : List Slot
  params : List Slot
  result : Ty

/-- What an interface lists: a signature or an embedded interface. -/
inductive Member where
  | method (sig : Signature)
  | embed (name : String) (args : List Ty)

end

mutual

/-- Structural equality of types, as a test. -/
def Ty.beq : Ty → Ty → Bool
  | .param a, .param b => a == b
  | .named a as, .named b bs => a == b && Ty.beqAll as bs
  | .prim p, .prim q => p == q
  | .struct fs, .struct gs => Slot.beqAll fs gs
  | .interface ms, .interface ns => Member.beqAll ms ns
  | .var n, .var m => n == m
  | _, _ => false
termination_by structural t => t

/-- Structural equality of lists of types. -/
def Ty.beqAll : List Ty → List Ty → Bool
  | [], [] => true
  | t :: ts, u :: us => t.beq u && Ty.beqAll ts us
  | _, _ => false

/-- Structural equality of lists of slots. -/
def Slot.beqAll : List Slot → List Slot → Bool
  | [], [] => true
  | ⟨a, t⟩ :: fs, ⟨b, u⟩ :: gs => a == b && t.beq u && Slot.beqAll fs gs
  | _, _ => false

/-- Structural equality of lists of interface members. -/
def Member.beqAll : List Member → List Member → Bool
  | [], [] => true
  | .method ⟨a, fs, ps, t⟩ :: ms, .method ⟨b, gs, qs, u⟩ :: ns =>
    a == b && Slot.beqAll fs gs && Slot.beqAll ps qs && t.beq u && Member.beqAll ms ns
  | .embed a as :: ms, .embed b bs :: ns => a == b && Ty.beqAll as bs && Member.beqAll ms ns
  | _, _ => false

end

mutual

theorem Ty.beq_iff : ∀ t u : Ty, t.beq u = true ↔ t = u
  | .param _, u => by cases u <;> simp [Ty.beq]
  | .named _ as, u => by
    cases u with
    | named _ bs => simp [Ty.beq, Ty.beqAll_iff as bs]
    | _ => simp [Ty.beq]
  | .prim _, u => by cases u <;> simp [Ty.beq]
  | .struct fs, u => by
    cases u with
    | struct gs => simp [Ty.beq, Slot.beqAll_iff fs gs]
    | _ => simp [Ty.beq]
  | .interface ms, u => by
    cases u with
    | interface ns => simp [Ty.beq, Member.beqAll_iff ms ns]
    | _ => simp [Ty.beq]
  | .var _, u => by cases u <;> simp [Ty.beq]

theorem Ty.beqAll_iff : ∀ ts us : List Ty, Ty.beqAll ts us = true ↔ ts = us
  | [], us => by cases us <;> simp [Ty.beqAll]
  | t :: ts, [] => by simp [Ty.beqAll]
  | t :: ts, u :: us => by simp [Ty.beqAll, Ty.beq_iff t u, Ty.beqAll_iff ts us]

theorem Slot.beqAll_iff : ∀ fs gs : List Slot, Slot.beqAll fs gs = true ↔ fs = gs
  | [], gs => by cases gs <;> simp [Slot.beqAll]
  | ⟨_, _⟩ :: _, [] => by simp [Slot.beqAll]
  | ⟨_, t⟩ :: fs, ⟨_, u⟩ :: gs => by simp [Slot.beqAll, Ty.beq_iff t u, Slot.beqAll_iff fs gs]

theorem Member.beqAll_iff : ∀ ms ns : List Member, Member.beqAll ms ns = true ↔ ms = ns
  | [], ns => by cases ns <;> simp [Member.beqAll]
  | .method ⟨_, _, _, _⟩ :: _, [] => by simp [Member.beqAll]
  | .embed _ _ :: _, [] => by simp [Member.beqAll]
  | .method ⟨_, fs, ps, t⟩ :: ms, .method ⟨_, gs, qs, u⟩ :: ns => by
    simp [Member.beqAll, Slot.beqAll_iff fs gs, Slot.beqAll_iff ps qs, Ty.beq_iff t u,
      Member.beqAll_iff ms ns, and_assoc]
  | .embed _ as :: ms, .embed _ bs :: ns => by
    simp [Member.beqAll, Ty.beqAll_iff as bs, Member.beqAll_iff ms ns]
  | .method ⟨_, _, _, _⟩ :: _, .embed _ _ :: _ => by simp [Member.beqAll]
  | .embed _ _ :: _, .method ⟨_, _, _, _⟩ :: _ => by simp [Member.beqAll]

end

instance : DecidableEq Ty := fun t u => decidable_of_iff _ (Ty.beq_iff t u)

instance : DecidableEq Slot := fun ⟨a, t⟩ ⟨b, u⟩ =>
  decidable_of_iff (a = b ∧ t = u) (by simp)

instance : DecidableEq Signature := fun ⟨a, fs, ps, t⟩ ⟨b, gs, qs, u⟩ =>
  decidable_of_iff (a = b ∧ fs = gs ∧ ps = qs ∧ t = u) (by simp)

namespace Ty

/-- The type of values of a primitive kind. -/
def ofKind (k : Kind) : Ty := .prim (.typed k)

/-- The interface that asks for nothing. -/
def anything : Ty := .interface []

/-- The primitive type that a type is, if it is one. -/
def prim? : Ty → Option Prim
  | .prim p => some p
  | _ => none

/-- The declared name of a named type. -/
def head? : Ty → Option String
  | .named c _ => some c
  | _ => none

/-- The arguments of a named type; other types have none. -/
def arguments : Ty → List Ty
  | .named _ args => args
  | _ => []

/-- Whether the type is one of an untyped constant. -/
def isUntyped (t : Ty) : Bool := t.prim?.any (·.untyped)

/-- Whether the type is a declared type applied to arguments. -/
def isNamed (t : Ty) : Bool := t.head?.isSome

end Ty

/-- The same slot with its type changed. -/
def Slot.map (f : Ty → Ty) (s : Slot) : Slot := ⟨s.name, f s.ty⟩

namespace Signature

/-- Change the bounds, the parameter types and the result; the names stay. -/
def map (f : Ty → Ty) (s : Signature) : Signature :=
  ⟨s.name, s.formals.map (Slot.map f), s.params.map (Slot.map f), f s.result⟩

/-- The names of the signature's own type formals. -/
def formalNames (s : Signature) : List String := s.formals.map (·.name)

end Signature

end FeatherGo
