import FeatherGo.Proofs.Inference.Assignment
import FeatherGo.Proofs.Types.Undisturbed

/-!
# Types that are clear of some names

A type is clear of names if it is built from a vocabulary, none of its formals has the stem of one of
the names, and it mentions no other type parameters (`Ty.Clear`). The first two are said of each nested
type by itself, so that they pass to all parts, also to those under formals, and substitution and
assignment keep them (`Ty.Everywhere.apart_subst`, `Ty.Everywhere.apart_assign`).

Among clear types assignment commutes with renaming: what is assigned to variables mentions none of the
formals around them (`Ty.assign_subst_comm`).
-/

namespace FeatherGo

/-! ## Assignment and nested types -/

/-- A property of all nested types is kept by assigning types that have it, if it is kept at each
single type. -/
theorem Ty.Everywhere.assign {N : Ty → Prop} {σ : VarSubst}
    (hself : ∀ t, (∀ v, t ≠ .var v) → N t → N (Ty.assign σ t)) {t : Ty} (ht : t.Everywhere N)
    (hσ : ∀ v ∈ t.vars, (σ.lookup v).Everywhere N) : (t.assign σ).Everywhere N := by
  intro u hu
  rcases mem_preorder_assign hu with ⟨a, ha, hvar, rfl⟩ | ⟨v, hv, hu⟩
  · exact hself a hvar (ht a ha)
  · exact hσ v hv u hu

@[simp] theorem Member.formalNames_assign (σ : VarSubst) (m : Member) :
    (m.assign σ).formalNames = m.formalNames := by
  cases m with
  | method s => exact Signature.formalNames_map _ s
  | embed c args => rfl

/-- What is free in a member, by what is free in its types. -/
theorem Member.mem_freeParams {m : Member} {a : String} :
    a ∈ m.freeParams ↔ a ∉ m.formalNames ∧ ∃ t ∈ m.types, a ∈ t.freeParams := by
  cases m with
  | method s => exact Signature.mem_freeParams
  | embed c args => simp [freeParams, formalNames, types, Ty.mem_freeParamsAll]

namespace Ty

variable {σ : VarSubst} {t : Ty} {a : String}

/-- What is free in an assigned type is free in the type, or in what a variable of it stands for. -/
theorem of_mem_freeParams_assign (h : a ∈ (t.assign σ).freeParams) :
    a ∈ t.freeParams ∨ ∃ v ∈ t.vars, a ∈ (σ.lookup v).freeParams := by
  induction t using Ty.induction with
  | param p =>
    rw [assign_param] at h
    exact .inl h
  | named c args ih =>
    rw [assign_named] at h
    obtain ⟨u', hu', h⟩ := mem_freeParamsAll.1 h
    obtain ⟨u, hu, rfl⟩ := List.mem_map.1 hu'
    refine (ih u hu h).imp (fun h => mem_freeParamsAll.2 ⟨u, hu, h⟩) ?_
    rintro ⟨v, hv, h⟩
    exact ⟨v, vars_subset_of_mem_parts hu hv, h⟩
  | prim p =>
    rw [assign_prim] at h
    exact .inl h
  | struct fs ih =>
    rw [assign_struct] at h
    obtain ⟨f', hf', h⟩ := Slot.mem_freeParamsAll.1 h
    obtain ⟨f, hf, rfl⟩ := List.mem_map.1 hf'
    refine (ih f hf h).imp (fun h => Slot.mem_freeParamsAll.2 ⟨f, hf, h⟩) ?_
    rintro ⟨v, hv, h⟩
    exact ⟨v, vars_subset_of_mem_parts (List.mem_map_of_mem hf) hv, h⟩
  | interface ms ih =>
    rw [assign_interface] at h
    obtain ⟨m', hm', h⟩ := Member.mem_freeParamsAll.1 h
    obtain ⟨m, hm, rfl⟩ := List.mem_map.1 hm'
    rw [Member.mem_freeParams, Member.formalNames_assign, Member.types_assign] at h
    obtain ⟨hf, u', hu', h⟩ := h
    obtain ⟨u, hu, rfl⟩ := List.mem_map.1 hu'
    refine (ih m hm u hu h).imp (fun h => ?_) ?_
    · exact Member.mem_freeParamsAll.2 ⟨m, hm, Member.mem_freeParams.2 ⟨hf, u, hu, h⟩⟩
    · rintro ⟨v, hv, h⟩
      exact ⟨v, vars_subset_of_mem_parts (List.mem_flatMap.2 ⟨m, hm, hu⟩) hv, h⟩
  | var v =>
    rw [assign_var] at h
    exact .inr ⟨v, mem_vars_var.2 rfl, h⟩

/-- What is free in a type stays free, whatever is assigned. -/
theorem mem_freeParams_assign (σ : VarSubst) (h : a ∈ t.freeParams) : a ∈ (t.assign σ).freeParams := by
  induction t using Ty.induction with
  | param p =>
    rw [assign_param]
    exact h
  | named c args ih =>
    rw [assign_named]
    obtain ⟨u, hu, h⟩ := mem_freeParamsAll.1 h
    exact mem_freeParamsAll.2 ⟨_, List.mem_map_of_mem hu, ih u hu h⟩
  | prim p => cases h
  | struct fs ih =>
    rw [assign_struct]
    obtain ⟨f, hf, h⟩ := Slot.mem_freeParamsAll.1 h
    exact Slot.mem_freeParamsAll.2 ⟨_, List.mem_map_of_mem hf, ih f hf h⟩
  | interface ms ih =>
    rw [assign_interface]
    obtain ⟨m, hm, h⟩ := Member.mem_freeParamsAll.1 h
    obtain ⟨hf, u, hu, h⟩ := Member.mem_freeParams.1 h
    refine Member.mem_freeParamsAll.2 ⟨_, List.mem_map_of_mem hm, ?_⟩
    rw [Member.mem_freeParams, Member.formalNames_assign, Member.types_assign]
    exact ⟨hf, _, List.mem_map_of_mem hu, ih m hm u hu h⟩
  | var v => cases h

/-- Renaming and assignment commute, if what is assigned mentions nothing that is renamed and binds no
new name. -/
theorem assign_subst_comm {r : Env Ty} (hr : r.IsRenaming) (ht : r.Avoids t.binders)
    (hσ : ∀ v ∈ t.vars, r.Avoids (σ.lookup v).binders
      ∧ ∀ a ∈ (σ.lookup v).freeParams, r.find? a = none) :
    (t.assign σ).subst r = (t.subst r).assign σ := by
  have hpart {r : Env Ty} {t u : Ty} (hu : u ∈ t.parts) (ht : r.Avoids t.binders) :
      r.Avoids u.binders := ht.mono fun _ ha => binders_subset_of_mem_parts hu ha
  induction t using Ty.induction generalizing r with
  | param p =>
    rw [assign_param, subst_param]
    cases hx : r.find? p with
    | none => rw [Option.getD_none, assign_param]
    | some x =>
      obtain ⟨q, rfl⟩ := hr p x hx
      rw [Option.getD_some, assign_param]
  | named c args ih =>
    rw [assign_named, subst_named, subst_named, assign_named, List.map_map, List.map_map]
    refine congrArg (Ty.named c) (List.map_congr_left fun u hu => ?_)
    have hmem : u ∈ (Ty.named c args).parts := hu
    exact ih u hu hr (hpart hmem ht) fun v hv => hσ v (vars_subset_of_mem_parts hmem hv)
  | prim p => simp
  | struct fs ih =>
    rw [assign_struct, subst_struct, subst_struct, assign_struct, List.map_map, List.map_map]
    refine congrArg Ty.struct (List.map_congr_left fun f hf => congrArg (Slot.mk f.name) ?_)
    have hu : f.ty ∈ (Ty.struct fs).parts := List.mem_map_of_mem hf
    exact ih f hf hr (hpart hu ht) fun v hv => hσ v (vars_subset_of_mem_parts hu hv)
  | interface ms ih =>
    rw [assign_interface, subst_interface, subst_interface, assign_interface, List.map_map,
      List.map_map]
    refine congrArg Ty.interface (List.map_congr_left fun m hm => ?_)
    rw [Function.comp_apply, Function.comp_apply]
    cases m with
    | method s =>
      have hs : r.Avoids s.formalNames := ht.mono fun f hf => mem_binders_of_formal hm hf
      have hvisible : (s.map (Ty.assign σ)).visible r = s.visible r := by simp [Signature.visible]
      have htypes : ∀ u ∈ s.types,
          (u.assign σ).subst (s.visible r) = (u.subst (s.visible r)).assign σ := by
        intro u hu
        have hmem := mem_parts_of_method hm hu
        refine ih _ hm u hu (Signature.isRenaming_visible hr s) ((hpart hmem ht).visible s) ?_
        intro v hv
        obtain ⟨hbound, hfree⟩ := hσ v (vars_subset_of_mem_parts hmem hv)
        refine ⟨hbound.visible s, fun a ha => ?_⟩
        rw [Signature.find?_visible, hfree a ha, ite_self]
      have hs' : r.Avoids (s.map (Ty.assign σ)).formalNames := by simpa using hs
      rw [Member.assign, Member.subst_method, Member.subst_method, Member.assign,
        Signature.subst_of_avoids hs, Signature.subst_of_avoids hs', hvisible,
        Signature.map_map, Signature.map_map]
      exact congrArg Member.method (Signature.map_congr htypes)
    | embed c args =>
      rw [Member.assign, Member.subst_embed, Member.subst_embed, Member.assign, List.map_map,
        List.map_map]
      refine congrArg (Member.embed c) (List.map_congr_left fun u hu => ?_)
      have hmem := mem_parts_of_embed hm hu
      exact ih _ hm u hu hr (hpart hmem ht) fun v hv => hσ v (vars_subset_of_mem_parts hmem hv)
  | var v =>
    obtain ⟨hbound, hfree⟩ := hσ v (mem_vars_var.2 rfl)
    rw [assign_var, subst_var, assign_var]
    exact (undisturbed_of_avoids hbound).subst_eq_self fun a ha => Env.lookup_of_none (hfree a ha)

end Ty

/-- Assigning types to the variables that a substitution put in is substituting these types, if nothing
is assigned to other variables. -/
theorem Ty.Undisturbed.assign_subst {t : Ty} {η θ : Env Ty} {σ : VarSubst} (hη : t.Undisturbed η)
    (hθ : t.Undisturbed θ) (hvars : ∀ v ∈ t.vars, σ.lookup v = .var v)
    (h : ∀ a ∈ t.freeParams, (η.lookup a).assign σ = θ.lookup a) :
    (t.subst η).assign σ = t.subst θ := by
  have hpart {t u : Ty} (hvars : ∀ v ∈ t.vars, σ.lookup v = .var v) (hu : u ∈ t.parts) :
      ∀ v ∈ u.vars, σ.lookup v = .var v := fun v hv => hvars v (vars_subset_of_mem_parts hu hv)
  induction hη generalizing θ with
  | param a => exact h a (by simp [Ty.freeParams])
  | named _ ih =>
    cases hθ with
    | named inner =>
      rw [subst_named, subst_named, assign_named, List.map_map, Ty.named.injEq]
      refine ⟨rfl, List.map_congr_left fun u hu => ih u hu (inner u hu) (hpart hvars hu) ?_⟩
      exact fun a ha => h a (mem_freeParamsAll.2 ⟨u, hu, ha⟩)
  | prim p => simp
  | struct _ ih =>
    cases hθ with
    | struct inner =>
      rw [subst_struct, subst_struct, assign_struct, List.map_map, Ty.struct.injEq]
      refine List.map_congr_left fun f hf => congrArg (Slot.mk f.name) ?_
      refine ih f hf (inner f hf) (hpart hvars (List.mem_map_of_mem hf)) fun a ha => h a ?_
      exact Slot.mem_freeParamsAll.2 ⟨f, hf, ha⟩
  | @interface η ms apart _ _ ihMethods ihEmbeds =>
    cases hθ with
    | interface apart' methods embeds =>
      rw [subst_interface, subst_interface, assign_interface, List.map_map, Ty.interface.injEq]
      refine List.map_congr_left fun m hm => ?_
      rw [Function.comp_apply]
      cases m with
      | method s =>
        have htypes : ∀ u ∈ s.types, (u.subst (s.visible η)).assign σ = u.subst (s.visible θ) := by
          intro u hu
          refine ihMethods s hm u hu (methods s hm u hu) (hpart hvars (mem_parts_of_method hm hu)) ?_
          intro a ha
          by_cases hf : a ∈ s.formalNames
          · rw [Signature.lookup_visible, Signature.lookup_visible, if_pos hf, if_pos hf, assign_param]
          · rw [Signature.lookup_visible, Signature.lookup_visible, if_neg hf, if_neg hf]
            exact h a (mem_freeParams_of_method hm (Signature.mem_freeParams.2 ⟨hf, u, hu, ha⟩))
        rw [Member.subst_method, Member.subst_method, Signature.subst_of_apart (apart s hm),
          Signature.subst_of_apart (apart' s hm), Member.assign, ← Signature.map_congr htypes]
        simp [Signature.map, Slot.map]
      | embed c args =>
        rw [Member.subst_embed, Member.subst_embed, Member.assign, List.map_map, Member.embed.injEq]
        refine ⟨rfl, List.map_congr_left fun u hu => ?_⟩
        refine ihEmbeds c args hm u hu (embeds c args hm u hu) (hpart hvars ?_) fun a ha => h a ?_
        · exact mem_parts_of_embed hm hu
        · exact mem_freeParams_of_embed hm hu ha
  | var n =>
    rw [subst_var, subst_var, assign_var]
    exact hvars n (mem_vars_var.2 rfl)

/-! ## The variables of a type -/

/-- A type is no variable but one of some. -/
def Ty.VarsIn (X : Finset Nat) (t : Ty) : Prop := ∀ v, t = .var v → v ∈ X

theorem Ty.vars_subset_iff {X : Finset Nat} {t : Ty} : t.vars ⊆ X ↔ t.Everywhere (Ty.VarsIn X) := by
  constructor
  · intro h u hu v he
    exact h (mem_vars.2 (he ▸ hu))
  · intro h v hv
    exact h _ (mem_vars.1 hv) v rfl

theorem Ty.VarsIn.subst {X : Finset Nat} {t : Ty} (h : t.VarsIn X) (hp : ∀ p, t ≠ .param p)
    (η : Env Ty) : (t.subst η).VarsIn X := by
  cases t with
  | param p => exact absurd rfl (hp p)
  | var v => exact h
  | _ => simp [VarsIn]

/-- Substitution brings in the variables of the entries alone. -/
theorem Ty.vars_subst_subset {X : Finset Nat} {t : Ty} (ht : t.vars ⊆ X) {η : Env Ty}
    (hη : ∀ a x, η.find? a = some x → x.vars ⊆ X) : (t.subst η).vars ⊆ X := by
  rw [vars_subset_iff] at ht ⊢
  refine ht.subst_of (fun p v => nofun) (fun t η hp h => h.subst hp η) fun a x hx => ?_
  exact vars_subset_iff.1 (hη a x hx)

/-! ## Clear types -/

/-- At its head a type keeps to a vocabulary: declared names take their arguments, and members are
sound. -/
def Ty.Built (V : Vocabulary) : Ty → Prop
  | .named c args => V.heads c args.length
  | .interface ms => ∀ m ∈ ms, m.Sound V false []
  | _ => True

/-- A type keeps to a vocabulary at its head, and binds no name there that has the stem of one of the
names. -/
structure Ty.Apart (V : Vocabulary) (names : List String) (t : Ty) : Prop where
  built : t.Built V
  bound : ∀ f ∈ t.bound, stem f ∉ names

/-- A type none of whose nested types binds one of some names, under whatever primes, and that mentions
what is in scope alone. -/
structure Ty.Clear (V : Vocabulary) (names scope : List String) (t : Ty) : Prop where
  inner : t.Everywhere (Ty.Apart V names)
  free : ∀ a ∈ t.freeParams, a ∈ scope

variable {V : Vocabulary} {names scope scope' stems : List String} {t : Ty}

/-- Formals in a scoped type have other stems than the formals around it, if this is asked for. -/
theorem Ty.Scoped.of_mem_binders {apart : Bool} (h : t.Scoped V apart scope stems) {f : String}
    (hf : f ∈ t.binders) : (apart = true → stem f ∉ stems) ∧ Uncanonical f := by
  induction h with
  | named _ _ ih =>
    obtain ⟨u, hu, hf⟩ := (mem_binders.1 hf).resolve_left List.not_mem_nil
    exact ih u hu hf
  | struct _ ih =>
    obtain ⟨u, hu, hf⟩ := (mem_binders.1 hf).resolve_left List.not_mem_nil
    obtain ⟨x, hx, rfl⟩ := List.mem_map.1 hu
    exact ih x hx hf
  | interface sound _ ih =>
    rcases mem_binders.1 hf with hf | ⟨u, hu, hf⟩
    · obtain ⟨m, hm, hf⟩ := List.mem_flatMap.1 hf
      cases m with
      | method s => exact (sound _ hm).2 f hf
      | embed c args => exact absurd hf List.not_mem_nil
    · obtain ⟨m, hm, hu⟩ := List.mem_flatMap.1 hu
      obtain ⟨hstem, hcanonical⟩ := ih m hm u hu hf
      exact ⟨fun happart hmem => hstem happart (List.mem_append_right _ hmem), hcanonical⟩
  | _ => exact absurd hf List.not_mem_nil

/-- A type is scoped if its nested types keep to the vocabulary and what is free in it is in scope. -/
theorem Ty.scoped_iff : t.Scoped V false scope stems
    ↔ t.Everywhere (Ty.Built V) ∧ ∀ a ∈ t.freeParams, a ∈ scope := by
  constructor
  · refine fun h => ⟨?_, fun a ha => h.mem_scope ha⟩
    induction h with
    | param mem => exact Everywhere.iff_parts.2 ⟨trivial, List.forall_mem_nil _⟩
    | named head _ ih => exact Everywhere.iff_parts.2 ⟨head, ih⟩
    | prim p => exact Everywhere.iff_parts.2 ⟨trivial, List.forall_mem_nil _⟩
    | struct _ ih => exact Everywhere.iff_parts.2 ⟨trivial, List.forall_mem_map.2 ih⟩
    | interface sound _ ih =>
      refine Everywhere.iff_parts.2 ⟨fun m hm => (sound m hm).mono nofun, ?_⟩
      exact List.forall_mem_flatMap.2 ih
    | var n => exact Everywhere.iff_parts.2 ⟨trivial, List.forall_mem_nil _⟩
  · rintro ⟨hbuilt, hfree⟩
    induction t using Ty.induction generalizing scope stems with
    | param p => exact .param (hfree p (List.mem_singleton_self p))
    | named c args ih =>
      refine .named hbuilt.self fun u hu => ih u hu (hbuilt.of_mem_parts hu) fun a ha => ?_
      exact hfree a (mem_freeParamsAll.2 ⟨u, hu, ha⟩)
    | prim p => exact .prim p
    | struct fs ih =>
      refine .struct fun f hf => ih f hf (hbuilt.of_mem_parts (List.mem_map_of_mem hf)) fun a ha => ?_
      exact hfree a (Slot.mem_freeParamsAll.2 ⟨f, hf, ha⟩)
    | interface ms ih =>
      refine .interface (fun m hm => (hbuilt.self m hm).mono nofun) fun m hm u hu => ?_
      refine ih m hm u hu (hbuilt.of_mem_parts (List.mem_flatMap.2 ⟨m, hm, hu⟩)) fun a ha => ?_
      by_cases hf : a ∈ m.formalNames
      · exact List.mem_append_left _ hf
      · exact List.mem_append_right _ (hfree a
          (Member.mem_freeParamsAll.2 ⟨m, hm, Member.mem_freeParams.2 ⟨hf, u, hu, ha⟩⟩))
    | var n => exact .var n

theorem Ty.apart_param (V : Vocabulary) (names : List String) (p : String) :
    (Ty.param p).Apart V names := ⟨trivial, List.forall_mem_nil _⟩

theorem Ty.apart_var (V : Vocabulary) (names : List String) (v : Nat) :
    (Ty.var v).Apart V names := ⟨trivial, List.forall_mem_nil _⟩

namespace Ty.Apart

/-- A property of the stems of formals and of the rest of a member, at the head of a type. -/
theorem of_members {ms ms' : List Member} (h : (Ty.interface ms).Apart V names)
    (hms : ∀ m' ∈ ms', ∃ m ∈ ms, (m.Sound V false [] → m'.Sound V false [])
      ∧ m'.formalNames.map stem = m.formalNames.map stem) : (Ty.interface ms').Apart V names := by
  constructor
  · intro m' hm'
    obtain ⟨m, hm, hsound, -⟩ := hms m' hm'
    exact hsound (h.built m hm)
  · intro f hf
    obtain ⟨m', hm', hf⟩ := List.mem_flatMap.1 hf
    obtain ⟨m, hm, -, hstems⟩ := hms m' hm'
    obtain ⟨g, hg, he⟩ := List.mem_map.1 (hstems ▸ List.mem_map_of_mem hf)
    exact he ▸ h.bound g (List.mem_flatMap.2 ⟨m, hm, hg⟩)

theorem subst (h : t.Apart V names) (hp : ∀ p, t ≠ .param p) (η : Env Ty) :
    (t.subst η).Apart V names := by
  cases t with
  | param p => exact absurd rfl (hp p)
  | named c args =>
    rw [subst_named]
    exact ⟨by simpa [Built] using h.built, List.forall_mem_nil _⟩
  | struct fs =>
    rw [subst_struct]
    exact ⟨trivial, List.forall_mem_nil _⟩
  | interface ms =>
    rw [subst_interface]
    apply h.of_members
    rw [List.forall_mem_map]
    intro m hm
    refine ⟨m, hm, ?_⟩
    cases m with
    | method s =>
      have hstems := s.map_stem_formalNames_subst η
      exact ⟨fun hs => hs.of_stems hstems nofun, hstems⟩
    | embed c args => exact ⟨fun hs => by simpa [Member.Sound] using hs, rfl⟩
  | prim p => exact h
  | var v => exact h

theorem assign (h : t.Apart V names) (hv : ∀ v, t ≠ .var v) (σ : VarSubst) :
    (t.assign σ).Apart V names := by
  cases t with
  | var v => exact absurd rfl (hv v)
  | named c args =>
    rw [assign_named]
    exact ⟨by simpa [Built] using h.built, List.forall_mem_nil _⟩
  | struct fs =>
    rw [assign_struct]
    exact ⟨trivial, List.forall_mem_nil _⟩
  | interface ms =>
    rw [assign_interface]
    apply h.of_members
    rw [List.forall_mem_map]
    refine fun m hm => ⟨m, hm, fun hs => ?_, by rw [Member.formalNames_assign]⟩
    cases m with
    | method s => exact hs.of_stems (by rw [Signature.formalNames_map]) nofun
    | embed c args => simpa [Member.Sound, Member.assign] using hs
  | param p => simpa using h
  | prim p => simpa using h

end Ty.Apart

theorem Ty.Everywhere.apart_subst (ht : t.Everywhere (Ty.Apart V names)) {η : Env Ty}
    (hη : ∀ a x, η.find? a = some x → x.Everywhere (Ty.Apart V names)) :
    (t.subst η).Everywhere (Ty.Apart V names) :=
  ht.subst_of (Ty.apart_param V names) (fun _ η hp h => h.subst hp η) hη

theorem Ty.Everywhere.apart_assign (ht : t.Everywhere (Ty.Apart V names)) {σ : VarSubst}
    (hσ : ∀ v ∈ t.vars, (σ.lookup v).Everywhere (Ty.Apart V names)) :
    (t.assign σ).Everywhere (Ty.Apart V names) :=
  ht.assign (fun _ hv h => h.assign hv σ) hσ

/-- No formal anywhere in the type has the stem of one of the names. -/
theorem Ty.Everywhere.stem_notMem (h : t.Everywhere (Ty.Apart V names)) {f : String}
    (hf : f ∈ t.binders) : stem f ∉ names := by
  obtain ⟨u, hu, hf⟩ := List.mem_flatMap.1 hf
  exact (h u hu).bound f hf

/-- No formal anywhere in the type is canonical. -/
theorem Ty.Everywhere.uncanonical (h : t.Everywhere (Ty.Apart V names)) {f : String}
    (hf : f ∈ t.binders) : Uncanonical f := by
  obtain ⟨u, hu, hf⟩ := List.mem_flatMap.1 hf
  cases u with
  | interface ms =>
    obtain ⟨m, hm, hf⟩ := List.mem_flatMap.1 hf
    cases m with
    | method s => exact (((h _ hu).built _ hm).2 f hf).2
    | embed c args => exact absurd hf List.not_mem_nil
  | _ => exact absurd hf List.not_mem_nil

/-- What types apart from some names bind, and what mentions these names alone, are apart. -/
theorem Ty.Everywhere.avoids (h : t.Everywhere (Ty.Apart V names)) (hnames : ∀ a ∈ names, Unprimed a)
    {η : Env Ty} (hη : ∀ a x, η.find? a = some x → ∀ q ∈ x.freeParams, q ∈ names) :
    η.Avoids t.binders := by
  intro a x hx q hq hf
  have hmem := hη a x hx q hq
  exact h.stem_notMem hf ((hnames q hmem).symm ▸ hmem)

theorem Ty.Clear.scoped (h : t.Clear V names scope) : t.Scoped V false scope stems :=
  Ty.scoped_iff.2 ⟨fun u hu => (h.inner u hu).built, h.free⟩

namespace Ty.Clear

/-- A scoped type is clear if its formals are apart from the names. -/
theorem of_scoped (h : t.Scoped V false scope stems) (hbound : ∀ f ∈ t.binders, stem f ∉ names) :
    t.Clear V names scope := by
  obtain ⟨hbuilt, hfree⟩ := scoped_iff.1 h
  exact ⟨fun u hu => ⟨hbuilt u hu, fun f hf => hbound f (List.mem_flatMap.2 ⟨u, hu, hf⟩)⟩, hfree⟩

theorem var (V : Vocabulary) (names scope : List String) (v : Nat) : (Ty.var v).Clear V names scope :=
  ⟨Everywhere.iff_parts.2 ⟨apart_var V names v, List.forall_mem_nil _⟩, List.forall_mem_nil _⟩

theorem mono (h : t.Clear V names scope) (hs : ∀ a ∈ scope, a ∈ scope') : t.Clear V names scope' :=
  ⟨h.inner, fun a ha => hs a (h.free a ha)⟩

theorem args {c : String} {args : List Ty} (h : (Ty.named c args).Clear V names scope) :
    ∀ a ∈ args, a.Clear V names scope :=
  fun a ha => ⟨h.inner.of_mem_parts ha, fun b hb => h.free b (mem_freeParamsAll.2 ⟨a, ha, hb⟩)⟩

/-- A named type is clear if it is scoped and its arguments are apart from the names. -/
theorem of_args {c : String} {args : List Ty} (h : (Ty.named c args).Scoped V false scope stems)
    (hargs : ∀ a ∈ args, a.Everywhere (Ty.Apart V names)) : (Ty.named c args).Clear V names scope :=
  ⟨Everywhere.iff_parts.2 ⟨⟨(scoped_iff.1 h).1.self, List.forall_mem_nil _⟩, hargs⟩,
    fun _ ha => h.mem_scope ha⟩

theorem assign (h : t.Clear V names scope) {σ : VarSubst}
    (hσ : ∀ v, (σ.lookup v).Clear V names scope) : (t.assign σ).Clear V names scope := by
  refine ⟨h.inner.apart_assign fun v _ => (hσ v).inner, fun a ha => ?_⟩
  rcases of_mem_freeParams_assign ha with ha | ⟨v, -, ha⟩
  · exact h.free a ha
  · exact (hσ v).free a ha

theorem subst (h : t.Clear V names scope) {η : Env Ty}
    (hη : ∀ a x, η.find? a = some x → x.Clear V names scope')
    (hrest : ∀ a ∈ scope, η.find? a = none → a ∈ scope') : (t.subst η).Clear V names scope' := by
  refine ⟨h.inner.apart_subst fun a x hx => (hη a x hx).inner, fun a ha => ?_⟩
  rcases Ty.of_mem_freeParams_subst t η a ha with ⟨ha, hnone⟩ | ⟨b, x, hx, ha⟩
  · exact hrest a (h.free a ha) hnone
  · exact (hη b x hx).free a ha

end Ty.Clear

end FeatherGo
