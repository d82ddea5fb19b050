import FeatherGo.Proofs.Declarations.Plain
import Mathlib.Algebra.GroupWithZero.Nat
import Mathlib.Algebra.Order.BigOperators.Group.List
import Mathlib.Algebra.Order.Group.Nat

/-!
# The parts of a type

`Ty.parts` lists the types directly inside a type whatever its constructor, so that a fact about all
nested types is proved once for the list and not once for each form of type. `Ty.size` counts nested
types: a part is smaller than the type it stands in.
-/

namespace FeatherGo

namespace Ty

/-- The types directly inside a type. -/
def parts : Ty → List Ty
  | .named _ args => args
  | .struct fs => fs.map (·.ty)
  | .interface ms => ms.flatMap Member.types
  | .param _ | .prim _ | .var _ => []

/-- How many types are nested in a type, itself included. -/
def size (t : Ty) : Nat := t.preorder.length

@[simp] theorem parts_param (p : String) : (Ty.param p).parts = [] := rfl
@[simp] theorem parts_prim (p : Prim) : (Ty.prim p).parts = [] := rfl
@[simp] theorem parts_var (n : Nat) : (Ty.var n).parts = [] := rfl
@[simp] theorem parts_named (c : String) (args : List Ty) : (Ty.named c args).parts = args := rfl
@[simp] theorem parts_struct (fs : List Slot) : (Ty.struct fs).parts = fs.map (·.ty) := rfl
@[simp] theorem parts_interface (ms : List Member) :
    (Ty.interface ms).parts = ms.flatMap Member.types := rfl

theorem preorderAll_eq (ts : List Ty) : Ty.preorderAll ts = ts.flatMap Ty.preorder := by
  induction ts with
  | nil => rfl
  | cons t ts ih => rw [Ty.preorderAll, ih, List.flatMap_cons]

theorem slot_preorderAll_eq (fs : List Slot) :
    Slot.preorderAll fs = (fs.map (·.ty)).flatMap Ty.preorder := by
  induction fs with
  | nil => rfl
  | cons f fs ih =>
    obtain ⟨x, t⟩ := f
    rw [Slot.preorderAll, ih, List.map_cons, List.flatMap_cons]

theorem member_preorderAll_eq (ms : List Member) :
    Member.preorderAll ms = (ms.flatMap Member.types).flatMap Ty.preorder := by
  induction ms with
  | nil => rfl
  | cons m ms ih =>
    cases m with
    | method s =>
      obtain ⟨x, fs, ps, r⟩ := s
      rw [Member.preorderAll, ih, slot_preorderAll_eq, slot_preorderAll_eq]
      simp [Member.types, Signature.types]
    | embed c args =>
      rw [Member.preorderAll, ih, preorderAll_eq]
      simp [Member.types]

/-- The nested types are the type itself and those nested in its parts. -/
theorem preorder_eq (t : Ty) : t.preorder = t :: t.parts.flatMap Ty.preorder := by
  cases t with
  | named c args => rw [Ty.preorder, preorderAll_eq, parts_named]
  | struct fs => rw [Ty.preorder, slot_preorderAll_eq, parts_struct]
  | interface ms => rw [Ty.preorder, member_preorderAll_eq, parts_interface]
  | param _ => rfl
  | prim _ => rfl
  | var _ => rfl

theorem mem_preorder {t u : Ty} : u ∈ t.preorder ↔ u = t ∨ ∃ a ∈ t.parts, u ∈ a.preorder := by
  rw [preorder_eq, List.mem_cons, List.mem_flatMap]

theorem size_eq (t : Ty) : t.size = (t.parts.map Ty.size).sum + 1 := by
  rw [size, preorder_eq, List.length_cons, List.length_flatMap]
  rfl

theorem size_pos (t : Ty) : 0 < t.size := by
  rw [size_eq]
  omega

theorem size_lt_of_mem_parts {t a : Ty} (h : a ∈ t.parts) : a.size < t.size := by
  rw [size_eq t]
  have := List.le_sum_of_mem (List.mem_map_of_mem (f := Ty.size) h)
  omega

theorem depth_le_succ {t : Ty} {n : Nat} : t.depth ≤ n + 1 ↔ ∀ a ∈ t.parts, a.depth ≤ n := by
  cases t with
  | named c args => exact depth_named_le
  | struct fs => rw [depth_struct_le, parts_struct, List.forall_mem_map]
  | interface ms =>
    refine depth_interface_le.trans ⟨fun h a ha => ?_, fun h m hm a ha => ?_⟩
    · obtain ⟨m, hm, ha⟩ := List.mem_flatMap.1 ha
      exact h m hm a ha
    · exact h a (List.mem_flatMap.2 ⟨m, hm, ha⟩)
  | _ => exact ⟨fun _ _ ha => absurd ha List.not_mem_nil, fun _ => Nat.succ_pos n⟩

theorem depth_lt_of_mem_parts {t a : Ty} (h : a ∈ t.parts) : a.depth < t.depth := by
  obtain ⟨n, hn⟩ := Nat.exists_eq_succ_of_ne_zero (Nat.ne_of_gt t.depth_pos)
  have hle : a.depth ≤ n := depth_le_succ.1 (Nat.le_of_eq hn) a h
  omega

/-- A property of types that passes from the parts of a type to the type holds of every type. -/
theorem induction_parts {P : Ty → Prop} (step : ∀ t, (∀ a ∈ t.parts, P a) → P t) (t : Ty) :
    P t := by
  induction h : t.size using Nat.strongRecOn generalizing t with
  | ind n ih => exact step t fun a ha => ih a.size (h ▸ size_lt_of_mem_parts ha) a rfl

theorem mem_preorder_self (t : Ty) : t ∈ t.preorder := mem_preorder.2 (.inl rfl)

end Ty

end FeatherGo
