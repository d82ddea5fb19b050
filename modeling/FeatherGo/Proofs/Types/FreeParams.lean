import FeatherGo.Proofs.Types.Everywhere
import FeatherGo.Proofs.Types.Scoped

/-!
# Free parameters under substitution

A substitution leaves no type parameter free but those of the type that it has no entry for and those of
its entries (`Ty.of_mem_freeParams_subst`). Nothing is said of which entries: a formal that is renamed
may take a name that the substitution replaces.
-/

namespace FeatherGo

open Signature (relabelling)

/-- What is free in a type after a substitution was free in it, or is free in an entry. -/
def Ty.FreeAfter (η : Env Ty) (t : Ty) : Prop :=
  ∀ a ∈ (t.subst η).freeParams,
    (a ∈ t.freeParams ∧ η.find? a = none) ∨ ∃ b x, η.find? b = some x ∧ a ∈ x.freeParams

namespace Signature

variable {s : Signature} {η : Env Ty} {a : String}

theorem find?_of_find?_visible {x : Ty} (h : (s.visible η).find? a = some x) :
    a ∉ s.formalNames ∧ η.find? a = some x := by
  rw [find?_visible] at h
  split at h
  · cases h
  · exact ⟨‹_›, h⟩

theorem find?_eq_none_of_visible (ha : a ∉ s.formalNames) (h : (s.visible η).find? a = none) :
    η.find? a = none := by
  rwa [find?_visible, if_neg ha] at h

/-- What is free in a signature after a substitution, from what is free in its types. -/
theorem of_mem_freeParams_subst
    (hvisible : ∀ t ∈ s.types, t.FreeAfter (s.visible η))
    (hrenamed : ∀ t ∈ s.types, t.FreeAfter (relabelling s.formalNames (s.freshFor η))
      ∧ (t.subst (relabelling s.formalNames (s.freshFor η))).FreeAfter (s.visible η))
    (h : a ∈ (s.subst η).freeParams) :
    (a ∈ s.freeParams ∧ η.find? a = none) ∨ ∃ b x, η.find? b = some x ∧ a ∈ x.freeParams := by
  obtain ⟨hnot, t', ht', ha⟩ := mem_freeParams.1 h
  rw [formalNames_subst] at hnot
  by_cases hc : ∃ f ∈ s.formalNames, f ∈ s.imported η
  · obtain ⟨f, hf, hi⟩ := hc
    rw [subst_of_capture hf hi, types_map, types_rename, List.map_map] at ht'
    obtain ⟨t, ht, rfl⟩ := List.mem_map.1 ht'
    obtain ⟨hrel, hsub⟩ := hrenamed t ht
    rcases hsub a ha with ⟨ha, hvis⟩ | ⟨b, x, hb, hx⟩
    · rcases hrel a ha with ⟨ha, hnone⟩ | ⟨b, x, hb, hx⟩
      · have hformal := (find?_relabelling_eq_none length_freshFor.symm).1 hnone
        exact .inl ⟨mem_freeParams.2 ⟨hformal, t, ht, ha⟩, find?_eq_none_of_visible hformal hvis⟩
      · obtain ⟨i, n, -, hn, rfl⟩ := of_find?_relabelling hb
        obtain rfl := List.mem_singleton.1 hx
        exact absurd (List.mem_of_getElem? hn) hnot
    · exact .inr ⟨b, x, (find?_of_find?_visible hb).2, hx⟩
  · have hapart : ∀ f ∈ s.formalNames, f ∉ s.imported η := fun f hf hi => hc ⟨f, hf, hi⟩
    rw [subst_of_apart hapart, types_map] at ht'
    rw [freshFor, freshNames_of_apart hapart] at hnot
    obtain ⟨t, ht, rfl⟩ := List.mem_map.1 ht'
    rcases hvisible t ht a ha with ⟨ha, hvis⟩ | ⟨b, x, hb, hx⟩
    · exact .inl ⟨mem_freeParams.2 ⟨hnot, t, ht, ha⟩, find?_eq_none_of_visible hnot hvis⟩
    · exact .inr ⟨b, x, (find?_of_find?_visible hb).2, hx⟩

end Signature

/-- **A substitution leaves free** what it has no entry for and what its entries leave free. -/
theorem Ty.of_mem_freeParams_subst (t : Ty) (η : Env Ty) : t.FreeAfter η := by
  -- Renaming keeps the depth of a type, so the induction is on that.
  induction hn : t.depth using Nat.strongRecOn generalizing t η with
  | ind n ih =>
    subst hn
    intro a ha
    -- Parts of one type share what is free in them.
    have hpart {u : Ty} (hu : u ∈ t.parts) (hin : a ∈ u.freeParams → a ∈ t.freeParams)
        (ha : a ∈ (u.subst η).freeParams) : (a ∈ t.freeParams ∧ η.find? a = none)
          ∨ ∃ b x, η.find? b = some x ∧ a ∈ x.freeParams :=
      (ih _ (depth_lt_of_mem_parts hu) u η rfl a ha).imp_left (And.imp_left hin)
    cases t with
    | param p =>
      rw [subst_param] at ha
      cases hp : η.find? p with
      | some x =>
        rw [hp] at ha
        exact .inr ⟨p, x, hp, ha⟩
      | none =>
        rw [hp] at ha
        obtain rfl := List.mem_singleton.1 ha
        exact .inl ⟨ha, hp⟩
    | named c args =>
      rw [subst_named] at ha
      obtain ⟨u', hu', ha⟩ := mem_freeParamsAll.1 ha
      obtain ⟨u, hu, rfl⟩ := List.mem_map.1 hu'
      exact hpart hu (fun h => mem_freeParamsAll.2 ⟨u, hu, h⟩) ha
    | struct fs =>
      rw [subst_struct] at ha
      obtain ⟨f', hf', ha⟩ := Slot.mem_freeParamsAll.1 ha
      obtain ⟨f, hf, rfl⟩ := List.mem_map.1 hf'
      exact hpart (List.mem_map_of_mem hf) (fun h => Slot.mem_freeParamsAll.2 ⟨f, hf, h⟩) ha
    | interface ms =>
      rw [subst_interface] at ha
      obtain ⟨m', hm', ha⟩ := Member.mem_freeParamsAll.1 ha
      obtain ⟨m, hm, rfl⟩ := List.mem_map.1 hm'
      cases m with
      | method s =>
        have hlt {u : Ty} (hu : u ∈ s.types) : u.depth < (Ty.interface ms).depth :=
          depth_lt_of_mem_parts (List.mem_flatMap.2 ⟨_, hm, hu⟩)
        have hrename := Signature.isRenaming_relabelling s.formalNames (s.freshFor η)
        refine (Signature.of_mem_freeParams_subst (fun u hu => ih _ (hlt hu) u _ rfl) (fun u hu =>
          ⟨ih _ (hlt hu) u _ rfl, ih _ (Nat.lt_of_le_of_lt ?_ (hlt hu)) _ _ rfl⟩) ha).imp_left
            (And.imp_left fun h => Member.mem_freeParamsAll.2 ⟨_, hm, h⟩)
        exact (depth_substAt_le hrename u.depth u.depth u).2 (Nat.le_refl _)
      | embed c args =>
        obtain ⟨u', hu', ha⟩ := mem_freeParamsAll.1 ha
        obtain ⟨u, hu, rfl⟩ := List.mem_map.1 hu'
        refine hpart (List.mem_flatMap.2 ⟨_, hm, hu⟩) (fun h => ?_) ha
        exact Member.mem_freeParamsAll.2 ⟨_, hm, mem_freeParamsAll.2 ⟨u, hu, h⟩⟩
    | _ => cases ha

end FeatherGo
