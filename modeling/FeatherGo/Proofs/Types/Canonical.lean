import FeatherGo.Proofs.Types.Undisturbed

/-!
# Canonical forms of substituted signatures

A substitution may rename the formals of a signature, by what the entries mention, and so two
substitutions may give one signature different formals. The canonical form does not show this: it has
the canonical names in the places of the formals and the entries in the places of the other type
parameters, whatever the formals were called in between (`Signature.Takes.types_canonical_subst`).

For that the entries and the formals of nested signatures have to be apart (`Signature.Takes`).
-/

namespace FeatherGo.Signature

variable {s : Signature} {η : Env Ty} {names fresh : List String} {a q : String} {i : Nat}

/-- The substitution that gives the formals of a signature new names, by position, and puts the entries
in the places of the other type parameters. -/
def naming (s : Signature) (names : List String) (η : Env Ty) : Env Ty :=
  relabelling s.formalNames names ++ s.visible η

/-- A signature takes the entries of a substitution: they cover what is free in it, and neither they nor
names made from its formals are bound below it. -/
structure Takes (s : Signature) (η : Env Ty) : Prop where
  nodup : (s.formalNames.map stem).Nodup
  entry : ∀ u ∈ s.types, ∀ a ∈ u.freeParams, a ∉ s.formalNames → (η.find? a).isSome
  keys : ∀ a x, η.find? a = some x → Unprimed a
  nested : ∀ u ∈ s.types, ∀ f ∈ u.binders, stem f ∉ s.formalNames.map stem ∧ FeatherGo.Uncanonical f
  avoids : ∀ u ∈ s.types, η.Avoids u.binders
  uncanonical : ∀ a x, η.find? a = some x → ∀ f ∈ x.binders, FeatherGo.Uncanonical f

theorem find?_relabelling (hn : names.Nodup) (ha : names[i]? = some a) (hq : fresh[i]? = some q) :
    (relabelling names fresh).find? a = some (.param q) := by
  have hmap : relabelling names fresh = names.zip (fresh.map Ty.param) := by
    rw [relabelling, List.zip_map_right]
    rfl
  rw [hmap]
  exact Env.find?_zip_of_nodup hn ha (by rw [List.getElem?_map, hq]; rfl)

theorem avoids_relabelling {bound : List String} (h : ∀ q ∈ fresh, q ∉ bound) :
    (relabelling names fresh).Avoids bound := by
  intro a x hx p hp
  obtain ⟨i, q, -, hq, rfl⟩ := of_find?_relabelling hx
  obtain rfl := List.mem_singleton.1 hp
  exact h p (List.mem_of_getElem? hq)

/-- Canonical names are none of some that are not canonical under whatever primes. -/
theorem canonicalNames_notMem {bound : List String} (h : ∀ f ∈ bound, FeatherGo.Uncanonical f) {n : Nat} :
    ∀ q ∈ canonicalNames n, q ∉ bound := by
  intro q hq hf
  obtain ⟨i, -, rfl⟩ := List.mem_map.1 hq
  exact h _ hf (i + 1) (stem_canonicalName (i + 1))

/-! ## What names stand for -/

theorem lookup_naming_formal (hn : s.formalNames.Nodup) (ha : s.formalNames[i]? = some a)
    (hq : names[i]? = some q) : (s.naming names η).lookup a = .param q := by
  apply Env.lookup_of_some
  rw [naming, Env.find?_append, find?_visible, if_pos (List.mem_of_getElem? ha), Option.none_or]
  exact find?_relabelling hn ha hq

theorem lookup_naming_other (hl : s.formalNames.length = names.length) (ha : a ∉ s.formalNames) :
    (s.naming names η).lookup a = η.lookup a := by
  rw [Env.lookup, naming, Env.find?_append, find?_visible, if_neg ha,
    (find?_relabelling_eq_none hl).2 ha, Option.or_none]
  rfl

theorem avoids_naming {bound : List String} (hnames : ∀ q ∈ names, q ∉ bound)
    (hη : η.Avoids bound) : (s.naming names η).Avoids bound := by
  intro a x hx
  rw [naming, Env.find?_append, Option.or_eq_some_iff] at hx
  rcases hx with hx | ⟨-, hx⟩
  · exact hη.visible s a x hx
  · exact avoids_relabelling hnames a x hx

/-- A formal stands at a position, and the name of that position stands for it. -/
theorem exists_lookup_naming (hn : s.formalNames.Nodup) (hl : s.formalNames.length = names.length)
    (η : Env Ty) (ha : a ∈ s.formalNames) :
    ∃ (i : Nat) (q : String), s.formalNames[i]? = some a ∧ names[i]? = some q
      ∧ (s.naming names η).lookup a = .param q := by
  obtain ⟨i, hi⟩ := List.mem_iff_getElem?.1 ha
  have hlt : i < names.length := hl ▸ (List.getElem?_eq_some_iff.1 hi).1
  have hq : names[i]? = some names[i] := List.getElem?_eq_getElem hlt
  exact ⟨i, _, hi, hq, lookup_naming_formal hn hi hq⟩

namespace Takes

theorem formals_nodup (h : s.Takes η) : s.formalNames.Nodup := List.Nodup.of_map stem h.nodup

theorem freshFor_nodup (h : s.Takes η) : (s.freshFor η).Nodup :=
  List.Nodup.of_map stem (map_stem_freshFor (s := s) (η := η) ▸ h.nodup)

/-- No name that a formal gets is bound below the signature. -/
theorem freshFor_notMem_binders (h : s.Takes η) {u : Ty} (hu : u ∈ s.types) :
    ∀ q ∈ s.freshFor η, q ∉ u.binders := by
  intro q hq hf
  apply (h.nested u hu q hf).1
  rw [← map_stem_freshFor (s := s) (η := η)]
  exact List.mem_map_of_mem hq

/-- No name that a formal gets is replaced. -/
theorem find?_visible_freshFor (h : s.Takes η) (hq : q ∈ s.freshFor η) :
    (s.visible η).find? q = none := by
  rw [find?_visible]
  rcases of_mem_freshFor hq with hprimed | ⟨hmem, -⟩
  · split
    · rfl
    · cases hx : η.find? q with
      | none => rfl
      | some x => exact absurd (h.keys q x hx) hprimed
  · rw [if_pos hmem]

/-- What stands for a type parameter that is no formal mentions none of the names that formals get. -/
theorem freshFor_notMem_entry {x : Ty} (ha : a ∉ s.formalNames) (hx : η.find? a = some x)
    (hq : q ∈ x.freeParams) : q ∉ s.freshFor η :=
  fun hmem => freshFor_notMem hmem (mem_imported.2 ⟨a, x, ha, hx, hq⟩)

/-- **A substituted signature** has the names that its formals get in their places and the entries in
the places of the other type parameters, whether or not formals are renamed. -/
theorem types_subst (h : s.Takes η) :
    (s.subst η).types = s.types.map (Ty.subst (s.naming (s.freshFor η) η)) := by
  have hl : s.formalNames.length = (s.freshFor η).length := length_freshFor.symm
  have hκ {u : Ty} (hu : u ∈ s.types) : (s.naming (s.freshFor η) η).Avoids u.binders :=
    avoids_naming (h.freshFor_notMem_binders hu) (h.avoids u hu)
  by_cases hc : ∃ f ∈ s.formalNames, f ∈ s.imported η
  · obtain ⟨f, hf, hi⟩ := hc
    rw [subst_of_capture hf hi, types_map, types_rename, List.map_map]
    refine List.map_congr_left fun u hu => ?_
    refine Ty.subst_subst (avoids_relabelling (h.freshFor_notMem_binders hu))
      ((h.avoids u hu).visible s) (hκ hu) (fun a _ => ?_) fun a _ => ?_
    · intro b x hx q hq hmem
      cases hy : (relabelling s.formalNames (s.freshFor η)).find? a with
      | none =>
        rw [Env.lookup_of_none hy] at hmem
        exact absurd hmem List.not_mem_nil
      | some y =>
        obtain ⟨i, p, -, -, rfl⟩ := of_find?_relabelling hy
        rw [Env.lookup_of_some hy] at hmem
        exact absurd hmem List.not_mem_nil
    · by_cases ha : a ∈ s.formalNames
      · obtain ⟨i, q, hi, hq, hκa⟩ := exists_lookup_naming h.formals_nodup hl η ha
        rw [hκa, Env.lookup_of_some (find?_relabelling h.formals_nodup hi hq), Ty.subst_param,
          h.find?_visible_freshFor (List.mem_of_getElem? hq), Option.getD_none]
      · rw [lookup_naming_other hl ha, Env.lookup_of_none ((find?_relabelling_eq_none hl).2 ha)]
        exact lookup_visible.trans (if_neg ha)
  · have hapart : ∀ f ∈ s.formalNames, f ∉ s.imported η := fun f hf hi => hc ⟨f, hf, hi⟩
    have hkeep : s.freshFor η = s.formalNames := freshNames_of_apart hapart
    rw [subst_of_apart hapart, types_map]
    refine List.map_congr_left fun u hu => ?_
    refine (Ty.undisturbed_of_avoids ((h.avoids u hu).visible s)).subst_congr
      (Ty.undisturbed_of_avoids (hκ hu)) fun a _ => ?_
    by_cases ha : a ∈ s.formalNames
    · obtain ⟨i, hi⟩ := List.mem_iff_getElem?.1 ha
      rw [lookup_visible, if_pos ha, lookup_naming_formal h.formals_nodup hi (hkeep ▸ hi)]
    · rw [lookup_visible, if_neg ha, lookup_naming_other hl ha]

/-- **The canonical form of a substituted signature** does not depend on the names that its formals
get. -/
theorem types_canonical_subst (h : s.Takes η) : (s.subst η).canonical.types
    = s.types.map (Ty.subst (s.naming (canonicalNames s.formals.length) η)) := by
  have hl : s.formalNames.length = (s.freshFor η).length := length_freshFor.symm
  have hlc : s.formalNames.length = (canonicalNames s.formals.length).length := by simp
  have hcanonical {u : Ty} (hu : u ∈ s.types) : ∀ q ∈ canonicalNames s.formals.length, q ∉ u.binders :=
    canonicalNames_notMem fun f hf => (h.nested u hu f hf).2
  rw [types_canonical, length_formals_subst, formalNames_subst, h.types_subst, List.map_map]
  refine List.map_congr_left fun u hu => ?_
  refine Ty.subst_subst (avoids_naming (h.freshFor_notMem_binders hu) (h.avoids u hu))
    (avoids_relabelling (hcanonical hu)) (avoids_naming (hcanonical hu) (h.avoids u hu))
    (fun a ha => ?_) fun a ha => ?_
  · by_cases hf : a ∈ s.formalNames
    · obtain ⟨i, q, -, -, hq⟩ := exists_lookup_naming h.formals_nodup hl η hf
      rw [hq]
      exact fun _ _ _ _ _ => List.not_mem_nil
    · obtain ⟨x, hx⟩ := Option.isSome_iff_exists.1 (h.entry u hu a ha hf)
      rw [lookup_naming_other hl hf, Env.lookup_of_some hx]
      exact avoids_relabelling (canonicalNames_notMem (h.uncanonical a x hx))
  · by_cases hf : a ∈ s.formalNames
    · obtain ⟨i, q, hi, hq, hfresh⟩ := exists_lookup_naming h.formals_nodup hl η hf
      have hlt : i < s.formals.length := by
        rw [← length_formalNames]
        exact (List.getElem?_eq_some_iff.1 hi).1
      have hc : (canonicalNames s.formals.length)[i]? = some (canonicalName (i + 1)) := by
        simp [canonicalNames, hlt]
      rw [hfresh, lookup_naming_formal h.formals_nodup hi hc, Ty.subst_param,
        find?_relabelling h.freshFor_nodup hq hc, Option.getD_some]
    · obtain ⟨x, hx⟩ := Option.isSome_iff_exists.1 (h.entry u hu a ha hf)
      rw [lookup_naming_other hl hf, lookup_naming_other hlc hf, Env.lookup_of_some hx]
      apply Ty.Undisturbed.subst_eq_self
      · exact Ty.undisturbed_of_avoids
          (avoids_relabelling (canonicalNames_notMem (h.uncanonical a x hx)))
      · intro b hb
        have hlf : (s.freshFor η).length = (canonicalNames s.formals.length).length := by simp
        exact Env.lookup_of_none
          ((find?_relabelling_eq_none hlf).2 (freshFor_notMem_entry hf hx hb))

/-- **The types of a signature in two stages**, at the entries of a substitution and then at type
arguments for its formals, are the types at both together. -/
theorem types_subst_instantiation (h : s.Takes η) {ts : List Ty} (hl : s.formals.length = ts.length)
    (htypes : ∀ u ∈ s.types, ∀ x ∈ ts, ∀ q ∈ x.freeParams, q ∉ u.binders)
    (hentries : ∀ a y, η.find? a = some y → ∀ x ∈ ts, ∀ q ∈ x.freeParams, q ∉ y.binders) :
    (s.subst η).types.map (Ty.subst (instantiation (s.subst η).formals ts))
      = s.types.map (Ty.subst (η ++ instantiation s.formals ts)) := by
  have hformals : instantiation (s.subst η).formals ts = (s.freshFor η).zip ts := by
    rw [← formalNames_subst]
    rfl
  have hlf : s.formalNames.length = ts.length := by simpa [formalNames] using hl
  have hlength : (s.freshFor η).length = ts.length := length_freshFor.trans hlf
  have htargs {names bound : List String} (hb : ∀ x ∈ ts, ∀ q ∈ x.freeParams, q ∉ bound) :
      Env.Avoids (names.zip ts) bound :=
    fun _ x hx => hb x (List.of_mem_zip (Env.mem_of_find? hx)).2
  rw [h.types_subst, List.map_map, hformals]
  refine List.map_congr_left fun u hu => ?_
  refine Ty.subst_subst (avoids_naming (h.freshFor_notMem_binders hu) (h.avoids u hu))
    (htargs (htypes u hu)) (fun a x hx => ?_) (fun a ha => ?_) fun a ha => ?_
  · rw [Env.find?_append, Option.or_eq_some_iff] at hx
    exact hx.elim (htargs (htypes u hu) a x) fun hx => h.avoids u hu a x hx.2
  · by_cases hf : a ∈ s.formalNames
    · obtain ⟨i, q, -, -, hq⟩ := exists_lookup_naming h.formals_nodup length_freshFor.symm η hf
      rw [hq]
      exact fun _ _ _ _ _ => List.not_mem_nil
    · obtain ⟨x, hx⟩ := Option.isSome_iff_exists.1 (h.entry u hu a ha hf)
      rw [lookup_naming_other length_freshFor.symm hf, Env.lookup_of_some hx]
      exact htargs (hentries a x hx)
  · have hcall {x : Ty} (hx : Env.find? (s.formalNames.zip ts) a = some x) :
        Env.lookup (η ++ instantiation s.formals ts) a = x := by
      have hx : Env.find? (instantiation s.formals ts) a = some x := hx
      exact Env.lookup_of_some (by rw [Env.find?_append, hx, Option.some_or])
    by_cases hf : a ∈ s.formalNames
    · obtain ⟨i, q, hi, hq, hfresh⟩ :=
        exists_lookup_naming h.formals_nodup length_freshFor.symm η hf
      have hlt : i < ts.length := hlf ▸ (List.getElem?_eq_some_iff.1 hi).1
      have hx : ts[i]? = some ts[i] := List.getElem?_eq_getElem hlt
      rw [hfresh, Ty.subst_param, Env.find?_zip_of_nodup h.freshFor_nodup hq hx,
        hcall (Env.find?_zip_of_nodup h.formals_nodup hi hx)]
      rfl
    · -- No name that a formal gets occurs in an entry, so type arguments leave it as it is.
      obtain ⟨x, hx⟩ := Option.isSome_iff_exists.1 (h.entry u hu a ha hf)
      have hnone : Env.find? (instantiation s.formals ts) a = none := Env.find?_zip_eq_none hf
      rw [lookup_naming_other length_freshFor.symm hf, Env.lookup_of_some hx, Env.lookup,
        Env.find?_append, hnone, Option.none_or, hx]
      refine (Ty.undisturbed_of_avoids (htargs (hentries a x hx))).subst_eq_self fun b hb => ?_
      exact Env.lookup_of_none (Env.find?_zip_eq_none (freshFor_notMem_entry hf hx hb))

end Takes

end FeatherGo.Signature
