import FeatherGo.Proofs.Methods.Instances
import FeatherGo.Proofs.Methods.Stable

/-!
# Types of values

A simple type is no literal: values of one are fields, parameters and results of declared, primitive and
parameter types alone. Where the declarations write simple types for values, so do all signatures that a
closed type offers and all fields that it has (`Table.WellFormed.conveys_valued`).
-/

namespace FeatherGo

/-- A type that is no literal and no inference variable. -/
def Ty.isSimple : Ty → Bool
  | .named .. | .prim _ | .param _ => true
  | _ => false

/-- The types of what a signature takes and gives. -/
def Signature.values (s : Signature) : List Ty := s.params.map (·.ty) ++ [s.result]

/-- The types of what a member that is listed takes and gives. -/
def Member.values : Member → List Ty
  | .method s => s.values
  | .embed .. => []

/-- The types of values that a literal writes: of its fields, or of what its methods take and give. -/
def Ty.values : Ty → List Ty
  | .struct fs => fs.map (·.ty)
  | .interface ms => ms.flatMap Member.values
  | _ => []

/-- A literal writes simple types for values. -/
def Ty.Valued (t : Ty) : Prop := ∀ u ∈ t.values, u.isSimple = true

/-- The sources of types and the signatures of methods write simple types for values. -/
structure Table.Valued (T : Table) : Prop where
  sources : ∀ c td, T.type? c = some td → td.source.Valued
  signatures : ∀ md ∈ T.methodDecls, md.sig.alone.Valued

theorem Signature.forall_values {s : Signature} {P : Ty → Prop} :
    (∀ u ∈ s.values, P u) ↔ (∀ p ∈ s.params, P p.ty) ∧ P s.result := by
  rw [values, List.forall_mem_append, List.forall_mem_map, List.forall_mem_singleton]

@[simp] theorem Signature.values_alone (s : Signature) : s.alone.values = s.values :=
  List.flatMap_singleton Member.values (.method s)

/-- Flat types are simple. -/
theorem Ty.isSimple_of_flat {t : Ty} (h : t.flat true = true) : t.isSimple = true := by
  cases t with
  | struct fs => simp [Ty.flat] at h
  | interface ms => simp [Ty.flat] at h
  | var n => cases h
  | _ => rfl

/-- A simple type writes no types of values itself. -/
theorem Ty.valued_of_isSimple {t : Ty} (h : t.isSimple = true) : t.Valued := by
  intro u hu
  cases t with
  | struct fs => cases h
  | interface ms => cases h
  | _ => cases hu

/-- Simple types for parameters keep a simple type simple. -/
theorem Ty.isSimple_subst {t : Ty} {η : Env Ty} (h : t.isSimple = true)
    (hη : ∀ a x, η.find? a = some x → x.isSimple = true) : (t.subst η).isSimple = true := by
  cases t with
  | param a =>
    rw [Ty.subst_param]
    cases hx : η.find? a with
    | none => rfl
    | some x => exact hη a x hx
  | named c args =>
    rw [Ty.subst_named]
    rfl
  | prim p => rfl
  | _ => cases h

/-! ## Closing -/

section Close

variable {ρ : String → Ty} (hρ : ∀ a, (ρ a).isSimple = true)
include hρ

theorem Ty.isSimple_close {t : Ty} (h : t.isSimple = true) : (t.close ρ).isSimple = true := by
  cases t with
  | param a => exact hρ a
  | named c args =>
    rw [Ty.close_named]
    rfl
  | prim p => rfl
  | _ => cases h

theorem isSimple_shield (names : List String) (a : String) : (shield ρ names a).isSimple = true := by
  rw [shield]
  split
  · rfl
  · exact hρ a

/-- Simple types for parameters keep the types of values simple. -/
theorem Ty.Valued.close {t : Ty} (h : t.Valued) (ht : ∀ a, t ≠ .param a) : (t.close ρ).Valued := by
  cases t with
  | param a => exact absurd rfl (ht a)
  | struct fs =>
    rw [Ty.close_struct, Ty.Valued, Ty.values, List.map_map, List.forall_mem_map]
    exact fun f hf => Ty.isSimple_close hρ (h f.ty (List.mem_map_of_mem hf))
  | interface ms =>
    rw [Ty.close_interface]
    intro u hu
    obtain ⟨m, hm, hu⟩ := List.mem_flatMap.1 hu
    obtain ⟨m, hm', rfl⟩ := List.mem_map.1 hm
    have hm : ∀ u ∈ m.values, u.isSimple = true := fun u hu => h u (List.mem_flatMap.2 ⟨m, hm', hu⟩)
    cases m with
    | method s =>
      have hs := Signature.forall_values.1 hm
      have hclose : ∀ u ∈ (s.close ρ).values, u.isSimple = true := by
        refine Signature.forall_values.2 ⟨?_, Ty.isSimple_close (isSimple_shield hρ _) hs.2⟩
        exact List.forall_mem_map.2 fun p hp => Ty.isSimple_close (isSimple_shield hρ _) (hs.1 p hp)
      exact hclose u hu
    | embed c args => cases hu
  | named c args =>
    rw [Ty.close_named]
    exact fun _ hu => absurd hu List.not_mem_nil
  | prim p => exact h
  | var n => exact h

end Close

/-- Flat arguments stand for simple types. -/
theorem isSimple_lookup_instantiation {formals : List Slot} {args : List Ty}
    (hargs : ∀ a ∈ args, a.flat true = true) (a : String) :
    ((instantiation formals args).lookup a).isSimple = true := by
  rw [Env.lookup]
  cases hx : (instantiation formals args).find? a with
  | none => rfl
  | some x => exact Ty.isSimple_of_flat (hargs x (mem_of_find?_instantiation hx).2)

namespace Table

variable {T : Table} {rank : String → Nat}

/-- **Declarations convey that values have simple types.** -/
theorem WellFormed.conveys_valued (h : T.WellFormed true rank) (hT : T.Valued) :
    T.Conveys [] fun t => t.Closed (T.vocabulary true) ∧ t.Valued where
  bound hb := by cases hb
  source := by
    intro c args td ht htd hl
    have hproper := h.types c td htd
    refine ⟨hproper.source.closed_subst hl ht.1.args, ?_⟩
    rw [hproper.source.subst_eq_close ht.1.args]
    refine (hT.sources c td htd).close (isSimple_lookup_instantiation fun a ha => (ht.1.args a ha).2) ?_
    intro a ha
    have hsource := hproper.isSource
    rw [ha] at hsource
    cases hsource
  embed ht hm := ⟨(closed_of_embed ht.1 hm).1, fun _ hu => absurd hu List.not_mem_nil⟩
  method := by
    intro ms s ht hm
    have hclosed := closed_of_method ht.1 hm
    refine ⟨⟨Signature.fit_alone.2 hclosed.fit, hclosed.text⟩, fun u hu => ht.2 u ?_⟩
    rw [Signature.values_alone] at hu
    exact List.mem_flatMap.2 ⟨_, hm, hu⟩
  declared := by
    intro md args hmd ht hwithin
    have hproper := h.methods md hmd
    have hclosed := hproper.sig.closed_subst hwithin.length ht.1.args
    refine ⟨⟨Signature.fit_alone.2 hclosed.fit, hclosed.text⟩, ?_⟩
    rw [hproper.sig.subst_eq_close ht.1.args, ← Signature.close_alone]
    exact (hT.signatures md hmd).close
      (isSimple_lookup_instantiation fun a ha => (ht.1.args a ha).2) nofun

variable (h : T.WellFormed true rank) (hT : T.Valued) {t : Ty} (ht : t.Closed (T.vocabulary true))
  (hs : t.isSimple = true)
include h hT ht hs

/-- The signatures that a closed simple type offers take and give values of simple types. -/
theorem WellFormed.isSimple_of_methods {n : Nat} {S : MethodSet} (hS : T.methods [] n t = .ok S)
    {s : Signature} (hmem : s ∈ S) : ∀ u ∈ s.values, u.isSimple = true := by
  have hsig := ((h.conveys_valued hT).of_methods ⟨ht, Ty.valued_of_isSimple hs⟩ hS s hmem).2
  rwa [Ty.Valued, Signature.values_alone] at hsig

/-- The fields of a closed simple type have simple types. -/
theorem WellFormed.isSimple_of_structFields {fs : List Slot} (hfs : T.structFields t = .ok (some fs))
    {f : Slot} (hf : f ∈ fs) : f.ty.isSimple = true := by
  have hfields := (h.conveys_valued hT).of_resolves ⟨ht, Ty.valued_of_isSimple hs⟩
    (Checker.resolves_of_structFields hfs)
  exact hfields.2 f.ty (List.mem_map_of_mem hf)

end Table

end FeatherGo
