import FeatherGo.Proofs.Types.Undisturbed

/-!
# What substitution leaves free

Capture-avoiding substitution leaves exactly those type parameters free that it does not replace and
those of the entries it puts in. The formals of a signature are renamed away from the entries, by adding
primes, but neither from the other names that are free in the signature nor from the names that are
replaced: a new name can capture one of these, or be replaced itself (`Ty.not_mem_freeParams_subst`).

The law holds where names are told apart by more than their primes (`Ty.PrimesApart`), whatever the
entries are: `mem_freeParams_subst_of_primesApart`. Renaming the formals of a signature then disturbs no
signature nested in it, so the law for renaming comes first.
-/

namespace FeatherGo

open Signature (relabelling)

/-- The law: what is free in a type after a substitution is what is free in what its free type
parameters stand for. -/
def Ty.CaptureFree (η : Env Ty) (t : Ty) : Prop :=
  ∀ a, a ∈ (t.subst η).freeParams ↔ ∃ b ∈ t.freeParams, a ∈ (η.lookup b).freeParams

/-- A name that a type binds differs by more than primes from the other names that are free in the
type, that it binds, or that are replaced. -/
def Ty.PrimesApart (η : Env Ty) (t : Ty) : Prop :=
  ∀ f ∈ t.binders, ∀ q ∈ t.freeParams ++ t.binders ++ η.names, stem q = stem f → q = f

instance (η : Env Ty) (t : Ty) : Decidable (t.PrimesApart η) :=
  inferInstanceAs (Decidable (∀ f ∈ t.binders, ∀ q ∈ t.freeParams ++ t.binders ++ η.names,
    stem q = stem f → q = f))

/-- The formals of the signatures directly inside a type have other stems than the names free in the
signature. -/
def Ty.StemsApart (t : Ty) : Prop :=
  ∀ s, .method s ∈ t.members → ∀ f ∈ s.formalNames, ∀ q ∈ s.freeParams, stem q ≠ stem f

/-- Every entry is a type parameter of the stem of the name that it replaces. -/
def Env.KeepsStems (η : Env Ty) : Prop :=
  ∀ a x, η.find? a = some x → ∃ q, x = .param q ∧ stem q = stem a

/-! ## Renaming that keeps stems -/

namespace Env

variable {η : Env Ty}

/-- A name that keeps its stem stands for one type parameter of this stem. -/
theorem KeepsStems.lookup (h : η.KeepsStems) (b : String) :
    ∃ q, η.lookup b = .param q ∧ stem q = stem b := by
  cases hx : η.find? b with
  | none => exact ⟨b, lookup_of_none hx, rfl⟩
  | some x =>
    obtain ⟨q, rfl, hq⟩ := h b x hx
    exact ⟨q, lookup_of_some hx, hq⟩

theorem KeepsStems.visible (h : η.KeepsStems) (s : Signature) : (s.visible η).KeepsStems :=
  fun a x hx => h a x (Signature.find?_of_find?_visible hx).2

end Env

theorem Signature.keepsStems_relabelling (s : Signature) (η : Env Ty) :
    (relabelling s.formalNames (s.freshFor η)).KeepsStems := by
  intro a x hx
  obtain ⟨i, q, hi, hq, rfl⟩ := of_find?_relabelling hx
  have hs := congrArg (·[i]?) (map_stem_freshFor (η := η) (s := s))
  exact ⟨q, rfl, by simpa [hi, hq] using hs⟩

/-! ## The law for one signature -/

theorem Ty.captureFree_param {η : Env Ty} (p : String) : (Ty.param p).CaptureFree η := by
  intro a
  simp [freeParams, Env.lookup]

/-- The law passes from the types of a signature to the signature. What the names free in its types
stand for is given by `σ`: formals for their new names, other names for their entries, which mention
none of the new names. -/
theorem Signature.captureFree_of_types {s : Signature} {η : Env Ty} {σ : String → Ty}
    (hformal : ∀ b ∈ s.formalNames, ∃ q ∈ s.freshFor η, σ b = .param q)
    (houter : ∀ b, b ∉ s.formalNames → σ b = η.lookup b)
    (hfresh : ∀ b ∈ s.freeParams, b ∉ s.freshFor η)
    (htypes : ∀ a, (∃ t ∈ (s.subst η).types, a ∈ t.freeParams)
      ↔ ∃ u ∈ s.types, ∃ b ∈ u.freeParams, a ∈ (σ b).freeParams) (a : String) :
    a ∈ (s.subst η).freeParams ↔ ∃ b ∈ s.freeParams, a ∈ (η.lookup b).freeParams := by
  rw [mem_freeParams, formalNames_subst, htypes]
  constructor
  · rintro ⟨ha, u, hu, b, hb, hσ⟩
    by_cases hf : b ∈ s.formalNames
    · obtain ⟨q, hq, he⟩ := hformal b hf
      rw [he, Ty.freeParams, List.mem_singleton] at hσ
      exact absurd (hσ ▸ hq) ha
    · exact ⟨b, mem_freeParams.2 ⟨hf, u, hu, hb⟩, houter b hf ▸ hσ⟩
  · rintro ⟨b, hb, ha⟩
    obtain ⟨hf, u, hu, hbu⟩ := mem_freeParams.1 hb
    refine ⟨?_, u, hu, b, hbu, (houter b hf).symm ▸ ha⟩
    rcases Env.mem_freeParams_lookup.1 ha with ⟨rfl, -⟩ | ⟨x, hx, hax⟩
    · exact hfresh a hb
    · exact fun hmem => freshFor_notMem hmem (mem_imported.2 ⟨b, x, hf, hx, hax⟩)

/-- Where the formals keep their names. -/
theorem Signature.captureFree_of_apart {s : Signature} {η : Env Ty}
    (hf : ∀ f ∈ s.formalNames, f ∉ s.imported η) (h : ∀ u ∈ s.types, u.CaptureFree (s.visible η))
    (a : String) :
    a ∈ (s.subst η).freeParams ↔ ∃ b ∈ s.freeParams, a ∈ (η.lookup b).freeParams := by
  have hkeep : s.freshFor η = s.formalNames := freshNames_of_apart hf
  apply captureFree_of_types (σ := (s.visible η).lookup)
  · exact fun b hb => ⟨b, hkeep.symm ▸ hb, Signature.lookup_visible.trans (if_pos hb)⟩
  · exact fun b hb => Signature.lookup_visible.trans (if_neg hb)
  · exact fun b hb => hkeep.symm ▸ (mem_freeParams.1 hb).1
  · intro a
    simp only [subst_of_apart hf, types_map, List.mem_map, exists_exists_and_eq_and]
    exact exists_congr fun u => and_congr_right fun hu => h u hu a

/-- Where the formals are renamed: to names that neither are free in the signature nor are replaced. -/
theorem Signature.captureFree_of_capture {s : Signature} {η : Env Ty} {f : String}
    (hf : f ∈ s.formalNames) (hi : f ∈ s.imported η)
    (hfree : ∀ q ∈ s.freshFor η, q ∉ s.freeParams)
    (hkeys : ∀ q ∈ s.freshFor η, (s.visible η).find? q = none)
    (hrenamed : ∀ u ∈ s.types, u.CaptureFree (relabelling s.formalNames (s.freshFor η)))
    (h : ∀ u ∈ s.types, (u.subst (relabelling s.formalNames (s.freshFor η))).CaptureFree (s.visible η))
    (a : String) :
    a ∈ (s.subst η).freeParams ↔ ∃ b ∈ s.freeParams, a ∈ (η.lookup b).freeParams := by
  have hlength := (length_freshFor (s := s) (η := η)).symm
  apply captureFree_of_types
    (σ := fun b => ((relabelling s.formalNames (s.freshFor η)).lookup b).subst (s.visible η))
  · intro b hb
    obtain ⟨x, hx⟩ := Option.isSome_iff_exists.1 ((find?_relabelling_isSome hlength).2 hb)
    obtain ⟨i, q, -, hq, rfl⟩ := of_find?_relabelling hx
    have hq := List.mem_of_getElem? hq
    refine ⟨q, hq, ?_⟩
    simp [Env.lookup_of_some hx, hkeys q hq]
  · intro b hb
    rw [Env.lookup_of_none ((find?_relabelling_eq_none hlength).2 hb)]
    exact Signature.lookup_visible.trans (if_neg hb)
  · exact fun b hb hmem => hfree b hmem hb
  · intro a
    simp only [subst_of_capture hf hi, types_map, types_rename, List.map_map, List.mem_map,
      exists_exists_and_eq_and]
    refine exists_congr fun u => and_congr_right fun hu => (h u hu a).trans ?_
    -- A formal stands for its new name, so both sides look this name up.
    have hname (b : String) : a ∈ (((relabelling s.formalNames (s.freshFor η)).lookup b).subst
        (s.visible η)).freeParams ↔ ∃ c ∈ ((relabelling s.formalNames (s.freshFor η)).lookup
          b).freeParams, a ∈ ((s.visible η).lookup c).freeParams := by
      obtain ⟨q, he, -⟩ := (s.keepsStems_relabelling η).lookup b
      rw [he]
      exact Ty.captureFree_param q a
    simp only [hrenamed u hu _, hname]
    constructor
    · rintro ⟨c, ⟨b, hb, hc⟩, ha⟩
      exact ⟨b, hb, c, hc, ha⟩
    · rintro ⟨b, hb, c, hc, ha⟩
      exact ⟨c, ⟨b, hb, hc⟩, ha⟩

/-! ## The law passes through types -/

namespace Ty

variable {η : Env Ty}

/-- Types of a list, one by one. -/
theorem exists_mem_freeParams_map {ts : List Ty} (h : ∀ u ∈ ts, u.CaptureFree η) (a : String) :
    (∃ t ∈ ts.map (Ty.subst η), a ∈ t.freeParams)
      ↔ ∃ b, (∃ u ∈ ts, b ∈ u.freeParams) ∧ a ∈ (η.lookup b).freeParams := by
  simp only [List.mem_map, exists_exists_and_eq_and]
  constructor
  · rintro ⟨u, hu, ha⟩
    obtain ⟨b, hb, ha⟩ := (h u hu a).1 ha
    exact ⟨b, ⟨u, hu, hb⟩, ha⟩
  · rintro ⟨b, ⟨u, hu, hb⟩, ha⟩
    exact ⟨u, hu, (h u hu a).2 ⟨b, hb, ha⟩⟩

theorem captureFree_named {c : String} {args : List Ty} (h : ∀ u ∈ args, u.CaptureFree η) :
    (Ty.named c args).CaptureFree η := by
  intro a
  simp only [subst_named, freeParams, mem_freeParamsAll]
  exact exists_mem_freeParams_map h a

theorem captureFree_struct {fs : List Slot} (h : ∀ f ∈ fs, f.ty.CaptureFree η) :
    (Ty.struct fs).CaptureFree η := by
  intro a
  have hmap := exists_mem_freeParams_map (List.forall_mem_map.2 h) a
  simp only [List.map_map, List.mem_map, exists_exists_and_eq_and, Function.comp_apply] at hmap
  simp only [subst_struct, freeParams, Slot.mem_freeParamsAll, List.mem_map, exists_exists_and_eq_and,
    Slot.map]
  exact hmap

theorem captureFree_interface {ms : List Member}
    (hmethod : ∀ s, .method s ∈ ms → ∀ a, a ∈ (s.subst η).freeParams
      ↔ ∃ b ∈ s.freeParams, a ∈ (η.lookup b).freeParams)
    (hembed : ∀ c args, .embed c args ∈ ms → ∀ u ∈ args, u.CaptureFree η) :
    (Ty.interface ms).CaptureFree η := by
  intro a
  have hmember : ∀ m ∈ ms, (a ∈ (m.subst η).freeParams
      ↔ ∃ b ∈ m.freeParams, a ∈ (η.lookup b).freeParams) := by
    intro m hm
    cases m with
    | method s => exact hmethod s hm a
    | embed c args =>
      simp only [Member.subst_embed, Member.freeParams, mem_freeParamsAll]
      exact exists_mem_freeParams_map (hembed c args hm) a
  simp only [subst_interface, freeParams, Member.mem_freeParamsAll, List.mem_map,
    exists_exists_and_eq_and]
  constructor
  · rintro ⟨m, hm, ha⟩
    obtain ⟨b, hb, ha⟩ := (hmember m hm).1 ha
    exact ⟨b, ⟨m, hm, hb⟩, ha⟩
  · rintro ⟨b, ⟨m, hm, hb⟩, ha⟩
    exact ⟨m, hm, (hmember m hm).2 ⟨b, hb, ha⟩⟩

/-- Where nothing is renamed nothing is captured. -/
theorem Undisturbed.captureFree {t : Ty} (h : t.Undisturbed η) : t.CaptureFree η := by
  induction h with
  | param a => exact captureFree_param a
  | named _ ih => exact captureFree_named ih
  | prim p => simp [CaptureFree, freeParams]
  | struct _ ih => exact captureFree_struct ih
  | interface apart _ _ ihMethods ihEmbeds =>
    exact captureFree_interface (fun s hs => Signature.captureFree_of_apart (apart s hs) (ihMethods s hs))
      ihEmbeds
  | var n => simp [CaptureFree, freeParams]

/-! ## Renaming formals -/

/-- Renaming that keeps stems disturbs no type in which names of one stem are one name. -/
theorem undisturbed_of_keepsStems {t : Ty} (hη : η.KeepsStems)
    (h : ∀ f ∈ t.binders, ∀ a, (η.find? a).isSome → stem a = stem f → a = f) :
    t.Undisturbed η := by
  induction t using Ty.induction generalizing η with
  | param a => exact .param a
  | named c args ih =>
    exact .named fun u hu => ih u hu hη fun f hf => h f (binders_subset_of_mem_parts hu hf)
  | prim p => exact .prim p
  | struct fs ih =>
    refine .struct fun x hx => ih x hx hη fun f hf => h f ?_
    exact binders_subset_of_mem_parts (List.mem_map_of_mem hx) hf
  | interface ms ih =>
    apply Undisturbed.interface
    · intro s hs f hf hi
      obtain ⟨a, x, hnot, hx, hq⟩ := Signature.mem_imported.1 hi
      obtain ⟨q, rfl, hstem⟩ := hη a x hx
      obtain rfl := List.mem_singleton.1 hq
      obtain rfl := h f (mem_binders_of_formal hs hf) a (by simp [hx]) hstem.symm
      exact hnot hf
    · intro s hs u hu
      refine ih _ hs u hu (hη.visible s) fun f hf a ha => ?_
      obtain ⟨x, hx⟩ := Option.isSome_iff_exists.1 ha
      apply h f (binders_subset_of_mem_parts (mem_parts_of_method hs hu) hf)
      simp [(Signature.find?_of_find?_visible hx).2]
    · intro c args hm u hu
      exact ih _ hm u hu hη fun f hf => h f (binders_subset_of_mem_parts (mem_parts_of_embed hm hu) hf)
  | var n => exact .var n

/-- What an undisturbed type binds after a renaming, it bound before. -/
theorem Undisturbed.mem_binders_of_subst {t : Ty} (h : t.Undisturbed η) (hη : η.KeepsStems)
    {a : String} (ha : a ∈ (t.subst η).binders) : a ∈ t.binders := by
  rcases h.mem_binders_subst ha with ha | ⟨b, x, hx, ha⟩
  · exact ha
  · obtain ⟨q, rfl, -⟩ := hη b x hx
    exact absurd ha List.not_mem_nil

/-- In an undisturbed type, renaming that keeps stems keeps formals apart from what is free. -/
theorem Undisturbed.stemsApart_subst {t : Ty} (h : t.Undisturbed η) (hη : η.KeepsStems)
    (hs : t.Everywhere Ty.StemsApart) : (t.subst η).Everywhere Ty.StemsApart := by
  have hleaf {u : Ty} (hp : u.parts = []) (hm : u.members = []) : u.Everywhere Ty.StemsApart := by
    refine Everywhere.iff_parts.2 ⟨fun s hs => ?_, fun v hv => ?_⟩
    · simp [hm] at hs
    · simp [hp] at hv
  induction h with
  | param p =>
    obtain ⟨q, hq, -⟩ := hη.lookup p
    rw [subst_param, ← Env.lookup, hq]
    exact hleaf rfl rfl
  | @named η c args _ ih =>
    rw [subst_named]
    refine Everywhere.iff_parts.2 ⟨fun s hs => absurd hs List.not_mem_nil, ?_⟩
    rw [parts_named, List.forall_mem_map]
    exact fun u hu => ih u hu hη (hs.of_mem_parts hu)
  | prim p => exact hleaf rfl rfl
  | @struct η fs _ ih =>
    rw [subst_struct]
    refine Everywhere.iff_parts.2 ⟨fun s hs => absurd hs List.not_mem_nil, ?_⟩
    rw [parts_struct, List.map_map, List.forall_mem_map]
    exact fun f hf => ih f hf hη (hs.of_mem_parts (List.mem_map_of_mem hf))
  | @interface η ms apart methods _ ihMethods ihEmbeds =>
    rw [subst_interface]
    refine Everywhere.iff_parts.2 ⟨?_, ?_⟩
    · intro s' hs' f hf q hq
      obtain ⟨m, hm, he⟩ := List.mem_map.1 hs'
      cases m with
      | method s =>
        have he : s.subst η = s' := Member.method.inj he
        subst he
        have hlaw := Signature.captureFree_of_apart (apart s hm) fun u hu => (methods s hm u hu).captureFree
        obtain ⟨b, hb, hq⟩ := (hlaw q).1 hq
        obtain ⟨c, hc, hstem⟩ := hη.lookup b
        rw [hc, freeParams, List.mem_singleton] at hq
        rw [Signature.subst_of_apart (apart s hm), Signature.formalNames_map] at hf
        rw [hq, hstem]
        exact hs.self s hm f hf b hb
      | embed c args => cases he
    · rw [parts_interface, List.forall_mem_flatMap, List.forall_mem_map]
      intro m hm
      cases m with
      | method s =>
        rw [Member.subst_method, Signature.subst_of_apart (apart s hm), Member.types,
          Signature.types_map, List.forall_mem_map]
        exact fun u hu => ihMethods s hm u hu (hη.visible s)
          (hs.of_mem_parts (mem_parts_of_method hm hu))
      | embed c args =>
        rw [Member.subst_embed, Member.types, List.forall_mem_map]
        exact fun u hu => ihEmbeds c args hm u hu hη (hs.of_mem_parts (mem_parts_of_embed hm hu))
  | var n => exact hleaf rfl rfl

/-! ## The law -/

/-- What is free in a nested type is free in the type or bound in it. -/
theorem mem_freeParams_of_preorder {t u : Ty} (hu : u ∈ t.preorder) {a : String}
    (ha : a ∈ u.freeParams) : a ∈ t.freeParams ∨ a ∈ t.binders := by
  have hpart {t u : Ty} (hu : u ∈ t.parts) {a : String} (ha : a ∈ u.freeParams) :
      a ∈ t.freeParams ∨ a ∈ t.bound := by
    cases t with
    | named c args => exact .inl (mem_freeParamsAll.2 ⟨u, hu, ha⟩)
    | struct fs =>
      obtain ⟨f, hf, rfl⟩ := List.mem_map.1 hu
      exact .inl (Slot.mem_freeParamsAll.2 ⟨f, hf, ha⟩)
    | interface ms =>
      obtain ⟨m, hm, hu⟩ := List.mem_flatMap.1 hu
      cases m with
      | method s =>
        by_cases hf : a ∈ s.formalNames
        · exact .inr (List.mem_flatMap.2 ⟨_, hm, hf⟩)
        · exact .inl (mem_freeParams_of_method hm (Signature.mem_freeParams.2 ⟨hf, u, hu, ha⟩))
      | embed c args => exact .inl (mem_freeParams_of_embed hm hu ha)
    | _ => cases hu
  induction t using Ty.induction_parts with
  | step t ih =>
    rcases mem_preorder.1 hu with rfl | ⟨v, hv, hu⟩
    · exact .inl ha
    · rcases ih v hv hu with h | h
      · exact (hpart hv h).imp_right fun h => mem_binders.2 (.inl h)
      · exact .inr (binders_subset_of_mem_parts hv h)

namespace PrimesApart

variable {t : Ty}

theorem of_binders (h : t.PrimesApart η) {f g : String} (hf : f ∈ t.binders) (hg : g ∈ t.binders)
    (he : stem g = stem f) : g = f :=
  h f hf g (by simp [hg]) he

theorem of_find? (h : t.PrimesApart η) {f q : String} (hf : f ∈ t.binders)
    (hq : (η.find? q).isSome) (he : stem q = stem f) : q = f :=
  h f hf q (by simp [Env.find?_isSome.1 hq]) he

/-- Formals have other stems than what is free beside them: such a name is free in the type or bound
around the signature. -/
theorem stemsApart (h : t.PrimesApart η) : t.Everywhere Ty.StemsApart := by
  intro u hu s hs f hf q hq he
  have hbound : f ∈ t.binders := by
    refine List.mem_flatMap.2 ⟨u, hu, ?_⟩
    cases u with
    | interface ms => exact List.mem_flatMap.2 ⟨_, hs, hf⟩
    | _ => simp [members] at hs
  have hfree : q ∈ u.freeParams := by
    cases u with
    | interface ms => exact mem_freeParams_of_method hs hq
    | _ => simp [members] at hs
  have hq' : q ∈ t.freeParams ++ t.binders ++ η.names := by
    rcases mem_freeParams_of_preorder hu hfree with hq | hq <;> simp [hq]
  obtain rfl := h f hbound q hq' he
  exact (Signature.mem_freeParams.1 hq).1 hf

end PrimesApart

/-- The law, from what renaming keeps: names that a type binds are told apart by stems, names that are
replaced are told apart from them, and formals have other stems than what is free beside them. -/
theorem captureFree_of_stems {t : Ty} (hbound : ∀ f ∈ t.binders, ∀ g ∈ t.binders, stem g = stem f → g = f)
    (hkeys : ∀ f ∈ t.binders, ∀ q, (η.find? q).isSome → stem q = stem f → q = f)
    (hscopes : t.Everywhere Ty.StemsApart) : t.CaptureFree η := by
  -- Renaming keeps the depth of a type, so the induction is on that.
  induction hn : t.depth using Nat.strongRecOn generalizing t η with
  | ind n ih =>
    subst hn
    have hpart {u : Ty} (hu : u ∈ t.parts) : u.CaptureFree η :=
      ih _ (depth_lt_of_mem_parts hu)
        (fun f hf g hg => hbound f (binders_subset_of_mem_parts hu hf) g
          (binders_subset_of_mem_parts hu hg))
        (fun f hf => hkeys f (binders_subset_of_mem_parts hu hf)) (hscopes.of_mem_parts hu) rfl
    cases t with
    | param p => exact captureFree_param p
    | named c args => exact captureFree_named fun u hu => hpart hu
    | prim p => simp [CaptureFree, freeParams]
    | struct fs => exact captureFree_struct fun f hf => hpart (List.mem_map_of_mem hf)
    | var n => simp [CaptureFree, freeParams]
    | interface ms =>
      refine captureFree_interface (fun s hs => ?_) fun c args hm u hu => hpart (mem_parts_of_embed hm hu)
      have hformal {f : String} (hf : f ∈ s.formalNames) : f ∈ (Ty.interface ms).binders :=
        mem_binders_of_formal hs hf
      have hinner {u : Ty} (hu : u ∈ s.types) {f : String} (hf : f ∈ u.binders) :
          f ∈ (Ty.interface ms).binders :=
        binders_subset_of_mem_parts (mem_parts_of_method hs hu) hf
      -- The entries that count inside the signature, for a type inside with its names.
      have hvisible {u v : Ty} (hu : u ∈ s.types) (hd : v.depth ≤ u.depth)
          (hb : ∀ f ∈ v.binders, f ∈ u.binders) (hv : v.Everywhere Ty.StemsApart) :
          v.CaptureFree (s.visible η) := by
        have hlt := depth_lt_of_mem_parts (mem_parts_of_method hs hu)
        refine ih _ (by omega) (fun f hf g hg => ?_) (fun f hf q hq => ?_) hv rfl
        · exact hbound f (hinner hu (hb f hf)) g (hinner hu (hb g hg))
        · obtain ⟨x, hx⟩ := Option.isSome_iff_exists.1 hq
          apply hkeys f (hinner hu (hb f hf))
          simp [(Signature.find?_of_find?_visible hx).2]
      have htypes {u : Ty} (hu : u ∈ s.types) : u.Everywhere Ty.StemsApart :=
        hscopes.of_mem_parts (mem_parts_of_method hs hu)
      by_cases hc : ∃ f ∈ s.formalNames, f ∈ s.imported η
      · obtain ⟨f, hf, hi⟩ := hc
        have hkeeps := s.keepsStems_relabelling η
        have hrename := Signature.isRenaming_relabelling s.formalNames (s.freshFor η)
        -- A new name has the stem of a formal.
        have hstem {q : String} (hq : q ∈ s.freshFor η) : ∃ g ∈ s.formalNames, stem g = stem q :=
          List.mem_map.1 (Signature.map_stem_freshFor (η := η) ▸ List.mem_map_of_mem hq)
        have hundisturbed {u : Ty} (hu : u ∈ s.types) :
            u.Undisturbed (relabelling s.formalNames (s.freshFor η)) := by
          refine undisturbed_of_keepsStems hkeeps fun g hg a ha => ?_
          have ha := (Signature.find?_relabelling_isSome Signature.length_freshFor.symm).1 ha
          exact hbound g (hinner hu hg) a (hformal ha)
        apply Signature.captureFree_of_capture hf hi
        · intro q hq hfree
          obtain ⟨g, hg, he⟩ := hstem hq
          exact hscopes.self s hs g hg q hfree he.symm
        · intro q hq
          obtain ⟨g, hg, he⟩ := hstem hq
          rw [Signature.find?_visible]
          split
          · rfl
          · rename_i hnot
            by_contra hne
            obtain rfl := hkeys g (hformal hg) q (Option.ne_none_iff_isSome.1 hne) he.symm
            exact hnot hg
        · exact fun u hu => (hundisturbed hu).captureFree
        · intro u hu
          apply hvisible hu
          · exact (depth_substAt_le hrename u.depth u.depth u).2 (Nat.le_refl _)
          · exact fun g hg => (hundisturbed hu).mem_binders_of_subst hkeeps hg
          · exact (hundisturbed hu).stemsApart_subst hkeeps (htypes hu)
      · apply Signature.captureFree_of_apart fun f hf hi => hc ⟨f, hf, hi⟩
        exact fun u hu => hvisible hu (Nat.le_refl _) (fun f hf => hf) (htypes hu)

theorem PrimesApart.captureFree {t : Ty} (h : t.PrimesApart η) : t.CaptureFree η :=
  captureFree_of_stems (fun _ hf _ hg => h.of_binders hf hg) (fun _ hf _ => h.of_find? hf) h.stemsApart

/-- The law with the names that are kept apart from the names that are replaced. -/
theorem captureFree_iff {t : Ty} : t.CaptureFree η ↔ ∀ a, a ∈ (t.subst η).freeParams
    ↔ (a ∈ t.freeParams ∧ η.find? a = none)
      ∨ ∃ b ∈ t.freeParams, ∃ x, η.find? b = some x ∧ a ∈ x.freeParams := by
  refine forall_congr' fun a => ?_
  have hsplit : (∃ b ∈ t.freeParams, a ∈ (η.lookup b).freeParams)
      ↔ (a ∈ t.freeParams ∧ η.find? a = none)
        ∨ ∃ b ∈ t.freeParams, ∃ x, η.find? b = some x ∧ a ∈ x.freeParams := by
    simp only [Env.mem_freeParams_lookup]
    constructor
    · rintro ⟨b, hb, ⟨rfl, hnone⟩ | hx⟩
      · exact .inl ⟨hb, hnone⟩
      · exact .inr ⟨b, hb, hx⟩
    · rintro (⟨ha, hnone⟩ | ⟨b, hb, hx⟩)
      · exact ⟨a, ha, .inl ⟨rfl, hnone⟩⟩
      · exact ⟨b, hb, .inr hx⟩
  rw [hsplit]

end Ty

/-- A signature leaves free what it does as an interface of its own. -/
theorem Signature.freeParams_alone (s : Signature) : s.alone.freeParams = s.freeParams := by
  obtain ⟨m, fs, ps, r⟩ := s
  rw [alone, Ty.freeParams, Member.freeParamsAll, Member.freeParamsAll, List.append_nil]
  rfl

/-- **Substitution avoids capture**: a type or a signature in which names differ by more than primes
leaves free, after a substitution, what it left free and has no entry, and what the entries of the other
names leave free. -/
theorem mem_freeParams_subst_of_primesApart (η : Env Ty) :
    (∀ t : Ty, t.PrimesApart η → ∀ a, a ∈ (t.subst η).freeParams
      ↔ (a ∈ t.freeParams ∧ η.find? a = none)
        ∨ ∃ b ∈ t.freeParams, ∃ x, η.find? b = some x ∧ a ∈ x.freeParams)
    ∧ ∀ s : Signature, s.alone.PrimesApart η → ∀ a, a ∈ (s.subst η).freeParams
      ↔ (a ∈ s.freeParams ∧ η.find? a = none)
        ∨ ∃ b ∈ s.freeParams, ∃ x, η.find? b = some x ∧ a ∈ x.freeParams := by
  constructor
  · exact fun t ht => Ty.captureFree_iff.1 ht.captureFree
  · intro s hs
    have h := Ty.captureFree_iff.1 hs.captureFree
    rwa [Signature.subst_alone, Signature.freeParams_alone, Signature.freeParams_alone] at h

/-- The entry for `b` mentions the formal, which is renamed; `c` stays free and `a` becomes free. -/
theorem mem_freeParams_subst_generic :
    ((Signature.generic (.param "c") (.param "b")).alone.PrimesApart [("b", .param "a")])
      ∧ "c" ∈ ((Signature.generic (.param "c") (.param "b")).alone.subst
        [("b", .param "a")]).freeParams
      ∧ "a" ∈ ((Signature.generic (.param "c") (.param "b")).subst [("b", .param "a")]).freeParams := by
  have hapart : (Signature.generic (.param "c") (.param "b")).alone.PrimesApart
      [("b", .param "a")] := by decide +kernel
  refine ⟨hapart, ?_, ?_⟩
  · exact ((mem_freeParams_subst_of_primesApart _).1 _ hapart "c").2 (.inl (by decide +kernel))
  · refine ((mem_freeParams_subst_of_primesApart _).2 _ hapart "a").2 (.inr ⟨"b", ?_, .param "a", ?_⟩)
    · decide +kernel
    · decide +kernel

/-- A free `a'` is captured: the entry mentions the formal `a`, whose new name it is. -/
theorem Ty.not_mem_freeParams_subst :
    ¬∀ (t : Ty) (η : Env Ty) (a : String), a ∈ (t.subst η).freeParams
      ↔ (a ∈ t.freeParams ∧ η.find? a = none)
        ∨ ∃ b ∈ t.freeParams, ∃ x, η.find? b = some x ∧ a ∈ x.freeParams := by
  intro h
  have hlaw := h (Signature.generic (.param "a'") (.param "b")).alone [("b", .param "a")] "a'"
  exact absurd (hlaw.2 (.inl (by decide +kernel))) (by decide +kernel)

end FeatherGo
