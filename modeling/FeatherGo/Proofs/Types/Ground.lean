import FeatherGo.Proofs.Declarations.WellFormed
import FeatherGo.Proofs.Types.FreeParams

/-!
# Ground types

A type is ground if nothing is open in it, and what is open in a type is open in its parts. A type under
some names has those type parameters alone free, and no variable (`Ty.Under`): ground types put in for the
names make it ground (`Ty.Under.isGround_subst`), whatever a substitution renames on its way.
-/

namespace FeatherGo

/-- Nothing is open in an interface member. -/
def Member.Ground (m : Member) : Prop := m.freeParams = [] ∧ ∀ t ∈ m.types, t.hasVars = false

/-- Free type parameters of some names alone, and no variables. -/
structure Ty.Under (names : List String) (t : Ty) : Prop where
  free : ∀ a ∈ t.freeParams, a ∈ names
  noVars : t.hasVars = false

namespace Ty

variable {t : Ty}

theorem isGround_iff : t.isGround = true ↔ t.freeParams = [] ∧ t.hasVars = false := by
  rw [isGround, Bool.and_eq_true, List.isEmpty_iff, Bool.not_eq_true']

theorem under_nil : t.Under [] ↔ t.isGround = true := by
  rw [isGround_iff, List.eq_nil_iff_forall_not_mem]
  exact ⟨fun h => ⟨fun a ha => List.not_mem_nil (h.free a ha), h.noVars⟩,
    fun h => ⟨fun a ha => absurd ha (h.1 a), h.2⟩⟩

/-! ## Variables -/

theorem hasVars_eq_false_iff : t.hasVars = false ↔ t.Everywhere fun u => ∀ v, u ≠ .var v := by
  rw [hasVars, List.any_eq_false]
  refine forall₂_congr fun u _ => ?_
  cases u with
  | var v => exact iff_of_false (fun h => h rfl) fun h => h v rfl
  | _ => exact iff_of_true Bool.false_ne_true fun v h => by cases h

/-- No variable occurs in a type that is none if none occurs in its parts. -/
theorem hasVars_iff_parts (h : ∀ v, t ≠ .var v) :
    t.hasVars = false ↔ ∀ a ∈ t.parts, a.hasVars = false := by
  simp only [hasVars_eq_false_iff]
  rw [Everywhere.iff_parts, and_iff_right h]

/-- Substitution brings in no variables but those of its entries. -/
theorem hasVars_subst (ht : t.hasVars = false) {η : Env Ty}
    (hη : ∀ a x, η.find? a = some x → x.hasVars = false) : (t.subst η).hasVars = false := by
  rw [hasVars_eq_false_iff] at ht ⊢
  refine ht.subst_of (fun _ _ h => by cases h) (fun u η hp hu => ?_) fun a x hx =>
    hasVars_eq_false_iff.1 (hη a x hx)
  cases u with
  | param p => exact absurd rfl (hp p)
  | var v => exact absurd rfl (hu v)
  | _ => simp

/-! ## Ground types by their parts -/

theorem isGround_struct {fs : List Slot} :
    (Ty.struct fs).isGround = true ↔ ∀ f ∈ fs, f.ty.isGround = true := by
  have hfree : (Ty.struct fs).freeParams = [] ↔ ∀ f ∈ fs, f.ty.freeParams = [] := by
    simp only [List.eq_nil_iff_forall_not_mem, Ty.freeParams, Slot.mem_freeParamsAll, not_exists,
      not_and]
    exact ⟨fun h f hf a ha => h a f hf ha, fun h a f hf ha => h f hf a ha⟩
  have hvars := hasVars_iff_parts (t := .struct fs) fun _ h => by cases h
  rw [parts_struct, List.forall_mem_map] at hvars
  simp only [isGround_iff, hfree, hvars]
  exact forall₂_and.symm

theorem isGround_interface {ms : List Member} :
    (Ty.interface ms).isGround = true ↔ ∀ m ∈ ms, m.Ground := by
  have hfree : (Ty.interface ms).freeParams = [] ↔ ∀ m ∈ ms, m.freeParams = [] := by
    simp only [List.eq_nil_iff_forall_not_mem, Ty.freeParams, Member.mem_freeParamsAll, not_exists,
      not_and]
    exact ⟨fun h m hm a ha => h a m hm ha, fun h a m hm ha => h m hm a ha⟩
  have hvars := hasVars_iff_parts (t := .interface ms) fun _ h => by cases h
  rw [parts_interface, List.forall_mem_flatMap] at hvars
  rw [isGround_iff, hfree, hvars]
  exact forall₂_and.symm

end Ty

theorem Signature.isGround_alone {s : Signature} :
    s.alone.isGround = true ↔ (Member.method s).Ground := by
  rw [alone, Ty.isGround_interface, List.forall_mem_singleton]

theorem Member.ground_embed {c : String} {args : List Ty} :
    (Member.embed c args).Ground ↔ (Ty.named c args).isGround = true := by
  rw [Ty.isGround_iff, Ty.hasVars_iff_parts fun _ h => by cases h]
  rfl

/-- In a signature without formals nothing is bound. -/
theorem Member.ground_method {s : Signature} (h : s.formals = []) :
    (Member.method s).Ground ↔ ∀ t ∈ s.types, t.isGround = true := by
  have hfree : s.freeParams = [] ↔ ∀ t ∈ s.types, t.freeParams = [] := by
    simp only [List.eq_nil_iff_forall_not_mem, Signature.mem_freeParams, Signature.formalNames, h,
      List.map_nil, List.not_mem_nil, not_false_eq_true, true_and, not_exists, not_and]
    exact ⟨fun h t ht a ha => h a t ht ha, fun h a t ht ha => h t ht a ha⟩
  simp only [Ty.isGround_iff]
  exact (and_congr_left' hfree).trans forall₂_and.symm

/-! ## Types under names -/

namespace Ty.Under

variable {t : Ty} {names : List String}

/-- **Ground types put in for the names make a type ground.** -/
theorem isGround_subst (ht : t.Under names) {η : Env Ty} (hη : ∀ a ∈ names, η.find? a ≠ none)
    (hground : ∀ a x, η.find? a = some x → x.isGround = true) : (t.subst η).isGround = true := by
  refine isGround_iff.2 ⟨List.eq_nil_iff_forall_not_mem.2 fun a ha => ?_,
    hasVars_subst ht.noVars fun a x hx => (isGround_iff.1 (hground a x hx)).2⟩
  rcases t.of_mem_freeParams_subst η a ha with ⟨ha, hnone⟩ | ⟨b, x, hx, ha⟩
  · exact hη a (ht.free a ha) hnone
  · rw [(isGround_iff.1 (hground b x hx)).1] at ha
    cases ha

theorem isGround_instantiate {formals : List Slot} (ht : t.Under (formalNames formals))
    {args : List Ty} (hl : formals.length = args.length) (hargs : ∀ u ∈ args, u.isGround = true) :
    (t.subst (instantiation formals args)).isGround = true :=
  ht.isGround_subst (fun _ ha => find?_instantiation_ne_none hl ha)
    fun _ x hx => hargs x (mem_of_find?_instantiation hx).2

end Ty.Under

/-- A signature is under names if its types are under the names and its formals. -/
theorem Signature.under_alone {s : Signature} {names : List String} :
    s.alone.Under names ↔ ∀ t ∈ s.types, t.Under (names ++ s.formalNames) := by
  have hfree {a : String} : a ∈ s.alone.freeParams ↔ a ∉ s.formalNames ∧ ∃ t ∈ s.types, a ∈ t.freeParams := by
    rw [alone, Ty.freeParams, Member.mem_freeParamsAll]
    simp only [List.mem_singleton, exists_eq_left]
    exact mem_freeParams
  have hvars : s.alone.hasVars = false ↔ ∀ t ∈ s.types, t.hasVars = false := by
    rw [alone, Ty.hasVars_iff_parts (fun _ h => by cases h), Ty.parts_interface, List.flatMap_singleton]
    rfl
  constructor
  · refine fun h t ht => ⟨fun a ha => ?_, hvars.1 h.noVars t ht⟩
    by_cases hf : a ∈ s.formalNames
    · exact List.mem_append_right _ hf
    · exact List.mem_append_left _ (h.free a (hfree.2 ⟨hf, t, ht, ha⟩))
  · refine fun h => ⟨fun a ha => ?_, hvars.2 fun t ht => (h t ht).noVars⟩
    obtain ⟨hf, t, ht, ha⟩ := hfree.1 ha
    exact (List.mem_append.1 ((h t ht).free a ha)).resolve_right hf

end FeatherGo
