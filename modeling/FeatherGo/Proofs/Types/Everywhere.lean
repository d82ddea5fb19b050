import FeatherGo.Proofs.Types.Alpha
import FeatherGo.Proofs.Types.Freshness
import FeatherGo.Proofs.Types.Parts

/-!
# Properties of all nested types

`Ty.Everywhere N` says that a type and all types nested in it have a property. What substitution does
to such a type is said once (`Ty.Everywhere.subst`), for every property and every class of
substitutions that agree with each other at a single type (`Ty.Keeping`). Going under the formals of a
signature raises the grade of a substitution by one, so that a class may say how far the names that
renaming made up are from those it started with.
-/

namespace FeatherGo

/-- A type and the types nested in it have a property. -/
def Ty.Everywhere (N : Ty → Prop) (t : Ty) : Prop := ∀ u ∈ t.preorder, N u

namespace Ty.Everywhere

variable {N : Ty → Prop}

theorem iff_parts {t : Ty} : t.Everywhere N ↔ N t ∧ ∀ a ∈ t.parts, a.Everywhere N := by
  constructor
  · intro h
    exact ⟨h t t.mem_preorder_self, fun a ha u hu => h u (Ty.mem_preorder.2 (.inr ⟨a, ha, hu⟩))⟩
  · rintro ⟨ht, hparts⟩ u hu
    rcases Ty.mem_preorder.1 hu with rfl | ⟨a, ha, hu⟩
    · exact ht
    · exact hparts a ha u hu

theorem self {t : Ty} (h : t.Everywhere N) : N t := (iff_parts.1 h).1

theorem of_mem_parts {t a : Ty} (h : t.Everywhere N) (ha : a ∈ t.parts) : a.Everywhere N :=
  (iff_parts.1 h).2 a ha

end Ty.Everywhere

/-! ## Signatures under a substitution -/

namespace Signature

variable {η : Env Ty} {s : Signature}

theorem freshNames_of_apart {free taken names : List String} (h : ∀ f ∈ names, f ∉ free) :
    freshNames free taken names = names := by
  induction names generalizing taken with
  | nil => rfl
  | cons f fs ih =>
    rw [List.forall_mem_cons] at h
    rw [freshNames, if_neg h.1, ih h.2]

/-- The formals of a signature after a substitution, whether or not it renames. -/
theorem formalNames_subst (s : Signature) (η : Env Ty) : (s.subst η).formalNames = s.freshFor η := by
  by_cases hc : ∃ f ∈ s.formalNames, f ∈ s.imported η
  · obtain ⟨f, hf, hi⟩ := hc
    rw [subst_of_capture hf hi, formalNames_map, formalNames_rename _ length_freshFor]
  · have hapart : ∀ f ∈ s.formalNames, f ∉ s.imported η := fun f hf hi => hc ⟨f, hf, hi⟩
    rw [subst_of_apart hapart, formalNames_map, freshFor, freshNames_of_apart hapart]

/-- Substitution keeps the number of formals. -/
theorem length_formals_subst (s : Signature) (η : Env Ty) :
    (s.subst η).formals.length = s.formals.length := by
  rw [← length_formalNames, formalNames_subst, length_freshFor, length_formalNames]

/-- Substitution keeps the number of parameters. -/
theorem length_params_subst (s : Signature) (η : Env Ty) :
    (s.subst η).params.length = s.params.length := by
  simpa using congrArg List.length (map_name_params_subst η s)

/-- The types of a signature after a substitution are those of the signature after a substitution of
what its formals leave visible, possibly after the formals have been renamed. -/
theorem types_subst (s : Signature) (η : Env Ty) :
    (s.subst η).types = s.types.map (Ty.subst (s.visible η))
      ∨ (s.subst η).types = s.types.map fun u =>
          (u.subst (relabelling s.formalNames (s.freshFor η))).subst (s.visible η) := by
  by_cases hc : ∃ f ∈ s.formalNames, f ∈ s.imported η
  · obtain ⟨f, hf, hi⟩ := hc
    rw [subst_of_capture hf hi, types_map, types_rename, List.map_map]
    exact .inr rfl
  · rw [subst_of_apart fun f hf hi => hc ⟨f, hf, hi⟩, types_map]
    exact .inl rfl

/-- So are its bounds. -/
theorem exists_of_mem_formals_subst {f : Slot} (h : f ∈ (s.subst η).formals) :
    ∃ g ∈ s.formals, f.ty = g.ty.subst (s.visible η)
      ∨ f.ty = (g.ty.subst (relabelling s.formalNames (s.freshFor η))).subst (s.visible η) := by
  have hty := List.mem_map_of_mem (f := (·.ty)) h
  by_cases hc : ∃ f ∈ s.formalNames, f ∈ s.imported η
  · obtain ⟨a, ha, hi⟩ := hc
    rw [subst_of_capture ha hi, map, List.map_map] at hty
    obtain ⟨g', hg', he⟩ := List.mem_map.1 hty
    have hg' : g'.ty ∈ (s.map (Ty.subst (relabelling s.formalNames (s.freshFor η)))).formals.map
        (·.ty) := by
      rw [← map_ty_relabel _ (s.freshFor η)]
      exact List.mem_map_of_mem hg'
    rw [map, List.map_map] at hg'
    obtain ⟨g, hg, hg'⟩ := List.mem_map.1 hg'
    exact ⟨g, hg, .inr (he.symm.trans (congrArg (Ty.subst _) hg'.symm))⟩
  · rw [subst_of_apart fun f hf hi => hc ⟨f, hf, hi⟩, map, List.map_map] at hty
    obtain ⟨g, hg, he⟩ := List.mem_map.1 hty
    exact ⟨g, hg, .inl he.symm⟩

end Signature

/-- The members that an interface type lists. -/
def Ty.members : Ty → List Member
  | .interface ms => ms
  | _ => []

/-- The signatures in a type after a substitution, but for a type parameter. -/
theorem Ty.exists_of_method_mem_members_subst {t : Ty} {s : Signature} {η : Env Ty}
    (hp : ∀ p, t ≠ .param p) (h : .method s ∈ (t.subst η).members) :
    ∃ s', .method s' ∈ t.members ∧ s = s'.subst η := by
  cases t with
  | param p => exact absurd rfl (hp p)
  | interface ms =>
    rw [subst_interface] at h
    obtain ⟨m, hm, he⟩ := List.mem_map.1 h
    cases m with
    | method s' => exact ⟨s', hm, (Member.method.inj he).symm⟩
    | embed c args => cases he
  | named c args => simp [members] at h
  | struct fs => simp [members] at h
  | _ => cases h

/-- A part of a type after a substitution in the type. -/
def Ty.PartImage (η : Env Ty) (t u a : Ty) : Prop :=
  a = u.subst η ∨ ∃ s, .method s ∈ t.members ∧ (a = u.subst (s.visible η)
    ∨ a = (u.subst (Signature.relabelling s.formalNames (s.freshFor η))).subst (s.visible η))

/-- The parts of a type after a substitution are those of the type after it, one by one. -/
theorem Ty.forall₂_parts_subst {t : Ty} (hp : ∀ p, t ≠ .param p) (η : Env Ty) :
    List.Forall₂ (t.PartImage η) t.parts (t.subst η).parts := by
  cases t with
  | param p => exact absurd rfl (hp p)
  | named c args =>
    rw [subst_named, parts_named, parts_named, List.forall₂_map_right_iff]
    exact List.forall₂_same.2 fun u _ => .inl rfl
  | struct fs =>
    rw [subst_struct, parts_struct, parts_struct, List.map_map, List.forall₂_map_left_iff,
      List.forall₂_map_right_iff]
    exact List.forall₂_same.2 fun f _ => .inl rfl
  | interface ms =>
    rw [subst_interface, parts_interface, parts_interface, List.flatMap_map]
    have hmember : ∀ m ∈ ms,
        List.Forall₂ (PartImage η (.interface ms)) m.types (m.subst η).types := by
      intro m hm
      cases m with
      | method s =>
        rcases s.types_subst η with h | h
        all_goals
          rw [Member.subst_method, Member.types, Member.types, h, List.forall₂_map_right_iff]
          refine List.forall₂_same.2 fun u _ => .inr ⟨s, hm, ?_⟩
        · exact .inl rfl
        · exact .inr rfl
      | embed c args =>
        rw [Member.subst_embed, Member.types, Member.types, List.forall₂_map_right_iff]
        exact List.forall₂_same.2 fun u _ => .inl rfl
    clear hp
    generalize Ty.interface ms = t at hmember
    induction ms with
    | nil => exact .nil
    | cons m ms ih =>
      rw [List.forall_mem_cons] at hmember
      exact List.rel_append hmember.1 (ih hmember.2)
  | _ => exact .nil

/-- Substitution never makes a type shallower. -/
theorem Ty.depth_le_depth_subst (t : Ty) (η : Env Ty) : t.depth ≤ (t.subst η).depth := by
  suffices h : ∀ n t η, (Ty.subst η t).depth ≤ n → t.depth ≤ n from
    h _ t η (Nat.le_refl _)
  intro n
  induction n with
  | zero => exact fun t η h => absurd (Ty.subst η t).depth_pos (by omega)
  | succ n ih =>
    intro t η h
    by_cases hp : ∃ p, t = .param p
    · obtain ⟨p, rfl⟩ := hp
      exact depth_le_succ.2 fun a ha => absurd ha List.not_mem_nil
    · have hparts := forall₂_parts_subst (fun p he => hp ⟨p, he⟩) η
      refine depth_le_succ.2 fun u hu => ?_
      obtain ⟨a, ha, himage⟩ := exists_of_mem_forall₂ hparts hu
      have hle := depth_le_succ.1 h a ha
      rcases himage with rfl | ⟨s, -, rfl | rfl⟩
      · exact ih u η hle
      · exact ih u _ hle
      · have hrename := Signature.isRenaming_relabelling s.formalNames (s.freshFor η)
        exact (depth_substAt_le hrename _ n u).1 (ih _ _ hle)

/-! ## What substitution keeps -/

/-- A property of types and a graded class of substitutions that keeps it at every single type, up to a
grade that the depth of the type leaves. -/
structure Ty.Keeping (N : Ty → Prop) (E : Nat → Env Ty → Prop) (limit : Nat) : Prop where
  entry : ∀ {i η a x}, E i η → η.find? a = some x → x.Everywhere N
  visible : ∀ {i η}, E i η → ∀ s : Signature, E (i + 1) (s.visible η)
  relabelled : ∀ {i η t s}, E i η → i < limit → N t → .method s ∈ t.members →
    E (i + 1) (Signature.relabelling s.formalNames (s.freshFor η))
  self : ∀ {i η t}, E i η → t.depth + i ≤ limit → N t → (∀ p, t ≠ .param p) → N (t.subst η)

/-- **Substitution keeps what holds of all nested types.** -/
theorem Ty.Everywhere.subst {N : Ty → Prop} {E : Nat → Env Ty → Prop} {limit : Nat}
    (hK : Ty.Keeping N E limit) {t : Ty} (ht : t.Everywhere N) {i : Nat} {η : Env Ty} (hη : E i η)
    (hd : t.depth + i ≤ limit) : (t.subst η).Everywhere N := by
  -- Renaming keeps the depth of a type, so the induction is on that.
  induction hn : t.depth using Nat.strongRecOn generalizing t i η with
  | ind n ih =>
    subst hn
    by_cases hp : ∃ p, t = .param p
    · obtain ⟨p, rfl⟩ := hp
      rw [Ty.subst_param]
      cases hx : η.find? p with
      | some x => exact hK.entry hη hx
      | none => exact ht
    · have hp : ∀ p, t ≠ .param p := fun p he => hp ⟨p, he⟩
      refine iff_parts.2 ⟨hK.self hη hd ht.self hp, fun a ha => ?_⟩
      obtain ⟨u, hu, ha⟩ := exists_of_mem_forall₂ (forall₂_parts_subst hp η).flip ha
      have hut := ht.of_mem_parts hu
      have hlt := depth_lt_of_mem_parts hu
      rcases ha with rfl | ⟨s, hs, rfl | rfl⟩
      · exact ih _ hlt hut hη (by omega) rfl
      · exact ih _ hlt hut (hK.visible hη s) (by omega) rfl
      · have hrel := hK.relabelled hη (by omega) ht.self hs
        have hrename := Signature.isRenaming_relabelling s.formalNames (s.freshFor η)
        have hdepth : (u.subst (Signature.relabelling s.formalNames (s.freshFor η))).depth ≤ u.depth :=
          (depth_substAt_le hrename u.depth u.depth u).2 (Nat.le_refl _)
        exact ih _ (by omega) (ih _ hlt hut hrel (by omega) rfl) (hK.visible hη s) (by omega) rfl

/-- What every substitution keeps at a single type, a substitution of types that have it keeps
everywhere. -/
theorem Ty.Everywhere.subst_of {N : Ty → Prop} (hparam : ∀ p, N (.param p))
    (hself : ∀ t η, (∀ p, t ≠ .param p) → N t → N (Ty.subst η t)) {t : Ty} (ht : t.Everywhere N)
    {η : Env Ty} (hη : ∀ a x, η.find? a = some x → x.Everywhere N) : (t.subst η).Everywhere N := by
  refine Everywhere.subst (E := fun _ η => ∀ a x, η.find? a = some x → x.Everywhere N)
    ⟨fun h hx => h _ _ hx, fun h s a x hx => ?_, fun _ _ _ _ a x hx => ?_,
      fun {i η t} _ _ ht hp => hself t η hp ht⟩ ht (i := 0) hη (Nat.le_refl _)
  · rw [Signature.find?_visible] at hx
    split at hx
    · cases hx
    · exact h a x hx
  · obtain ⟨q, rfl⟩ := Signature.isRenaming_relabelling _ _ a x hx
    exact iff_parts.2 ⟨hparam q, List.forall_mem_nil _⟩

end FeatherGo
