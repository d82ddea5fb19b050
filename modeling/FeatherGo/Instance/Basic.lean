import FeatherGo.Program

/-!
# Instances

What a program instantiates: types, and methods at a receiver type and type arguments. A set of
instances is a list without repetition that keeps the order in which its members were found.
-/

namespace FeatherGo

/-- A method at a receiver type and type arguments. -/
structure MethodInstance where
  recv : Ty
  meth : String
  targs : List Ty
deriving DecidableEq

namespace MethodInstance

/-- The declared name of the receiver type, if it has one. -/
def recvDecl? (m : MethodInstance) : Option String := m.recv.head?

/-- The text of a method instance: `Box(A).map(B)()`. -/
def render (m : MethodInstance) : String :=
  m.recv.render ++ "." ++ m.meth ++ parenthesised (Ty.renderAll m.targs) ++ "()"

end MethodInstance

/-- Add a member to a set unless it is there. -/
def insertNew {α : Type} [DecidableEq α] (a : α) (set : List α) : List α :=
  if a ∈ set then set else set ++ [a]

@[simp] theorem mem_insertNew {α : Type} [DecidableEq α] {a b : α} {set : List α} :
    b ∈ insertNew a set ↔ b ∈ set ∨ b = a := by
  unfold insertNew
  split
  · constructor
    · exact .inl
    · rintro (h | rfl) <;> assumption
  · simp

theorem nodup_insertNew {α : Type} [DecidableEq α] {a : α} {set : List α} (h : set.Nodup) :
    (insertNew a set).Nodup := by
  unfold insertNew
  split
  · exact h
  · rw [List.nodup_append]
    exact ⟨h, by simp, by rintro b hb c hc rfl; simp_all⟩

/-- Types and method instances, in the order in which they were found. -/
structure Instances where
  types : List Ty
  meths : List MethodInstance

namespace Instances

/-- No instances. -/
def empty : Instances := ⟨[], []⟩

/-- How many instances there are. -/
def size (s : Instances) : Nat := s.types.length + s.meths.length

/-- Append a type. -/
def pushType (t : Ty) (s : Instances) : Instances := { s with types := s.types ++ [t] }

/-- Append a method instance. -/
def pushMethod (m : MethodInstance) (s : Instances) : Instances :=
  { s with meths := s.meths ++ [m] }

end Instances

end FeatherGo
