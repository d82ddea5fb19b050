import FeatherGo.Proofs.Types.Alpha
import FeatherGo.Proofs.Types.FreeParams

/-!
# Substitutions that rename nothing

Before a substitution goes under the formals of a signature, it renames those that an entry mentions,
whether or not the entry is for a name that occurs in the signature. So a type that does not hold any
name that is replaced may still come back with new formals, and two substitutions that agree on all the
names in it may give two spellings of one type (`Ty.not_subst_congr`).

A type is undisturbed by a substitution if no signature in it has a formal to rename. On undisturbed
types substitution depends on the free type parameters alone, and the closed types that are undisturbed
are those that a substitution leaves as they are (`Ty.subst_depends_on_free`). A type is undisturbed if
no entry mentions a name that it binds (`Ty.undisturbed_of_avoids`).
-/

namespace FeatherGo

/-- No signature in a type has a formal that an entry mentions, of those entries that count there. -/
inductive Ty.Undisturbed : Env Ty → Ty → Prop
  | param {η : Env Ty} (a : String) : Undisturbed η (.param a)
  | named {η : Env Ty} {c : String} {args : List Ty} (inner : ∀ a ∈ args, Undisturbed η a) :
    Undisturbed η (.named c args)
  | prim {η : Env Ty} (p : Prim) : Undisturbed η (.prim p)
  | struct {η : Env Ty} {fs : List Slot} (inner : ∀ f ∈ fs, Undisturbed η f.ty) :
    Undisturbed η (.struct fs)
  | interface {η : Env Ty} {ms : List Member}
      (apart : ∀ s, .method s ∈ ms → ∀ f ∈ s.formalNames, f ∉ s.imported η)
      (methods : ∀ s, .method s ∈ ms → ∀ t ∈ s.types, Undisturbed (s.visible η) t)
      (embeds : ∀ c args, .embed c args ∈ ms → ∀ a ∈ args, Undisturbed η a) :
    Undisturbed η (.interface ms)
  | var {η : Env Ty} (n : Nat) : Undisturbed η (.var n)

/-- What a substitution puts in mentions none of some names. -/
def Env.Avoids (η : Env Ty) (names : List String) : Prop :=
  ∀ a x, η.find? a = some x → ∀ q ∈ x.freeParams, q ∉ names

/-! ## What names stand for -/

namespace Env

variable {η : Env Ty} {a b : String}

theorem lookup_of_some {x : Ty} (h : η.find? b = some x) : η.lookup b = x := by
  rw [lookup, h, Option.getD_some]

theorem lookup_of_none (h : η.find? b = none) : η.lookup b = .param b := by
  rw [lookup, h, Option.getD_none]

theorem mem_freeParams_lookup :
    a ∈ (η.lookup b).freeParams
      ↔ (a = b ∧ η.find? b = none) ∨ ∃ x, η.find? b = some x ∧ a ∈ x.freeParams := by
  cases hx : η.find? b <;> simp [lookup, hx, Ty.freeParams]

end Env

/-- What stands for a type parameter that is no formal of a signature is visible in it. -/
theorem Signature.lookup_visible {s : Signature} {η : Env Ty} {a : String} :
    (s.visible η).lookup a = if a ∈ s.formalNames then .param a else η.lookup a := by
  rw [Env.lookup, find?_visible]
  split <;> rfl

@[simp] theorem Signature.map_map (f g : Ty → Ty) (s : Signature) :
    (s.map f).map g = s.map (g ∘ f) := by
  simp [map, Slot.map, Function.comp_def]

/-! ## What a type binds -/

/-- A type binds names at its head and in its parts. -/
theorem Ty.mem_binders {t : Ty} {a : String} :
    a ∈ t.binders ↔ a ∈ t.bound ∨ ∃ u ∈ t.parts, a ∈ u.binders := by
  simp only [binders, preorder_eq t, List.flatMap_cons, List.mem_append, List.mem_flatMap]
  constructor
  · rintro (h | ⟨v, ⟨u, hu, hv⟩, ha⟩)
    · exact .inl h
    · exact .inr ⟨u, hu, v, hv, ha⟩
  · rintro (h | ⟨u, hu, v, hv, ha⟩)
    · exact .inl h
    · exact .inr ⟨v, ⟨u, hu, hv⟩, ha⟩

theorem Ty.binders_subset_of_mem_parts {t u : Ty} (hu : u ∈ t.parts) {a : String}
    (ha : a ∈ u.binders) : a ∈ t.binders :=
  mem_binders.2 (.inr ⟨u, hu, ha⟩)

/-- The types in a signature of an interface type are parts of it. -/
theorem Ty.mem_parts_of_method {ms : List Member} {s : Signature} (hs : .method s ∈ ms) {u : Ty}
    (hu : u ∈ s.types) : u ∈ (Ty.interface ms).parts :=
  List.mem_flatMap.2 ⟨_, hs, hu⟩

/-- So are the arguments of what it embeds. -/
theorem Ty.mem_parts_of_embed {ms : List Member} {c : String} {args : List Ty}
    (hm : .embed c args ∈ ms) {u : Ty} (hu : u ∈ args) : u ∈ (Ty.interface ms).parts :=
  List.mem_flatMap.2 ⟨_, hm, hu⟩

theorem Ty.mem_binders_of_formal {ms : List Member} {s : Signature} (hs : .method s ∈ ms)
    {f : String} (hf : f ∈ s.formalNames) : f ∈ (Ty.interface ms).binders :=
  mem_binders.2 (.inl (List.mem_flatMap.2 ⟨_, hs, hf⟩))

/-- What is free in a signature of an interface type is free in the type. -/
theorem Ty.mem_freeParams_of_method {ms : List Member} {s : Signature} (hs : .method s ∈ ms)
    {a : String} (ha : a ∈ s.freeParams) : a ∈ (Ty.interface ms).freeParams :=
  Member.mem_freeParamsAll.2 ⟨_, hs, ha⟩

theorem Ty.mem_freeParams_of_embed {ms : List Member} {c : String} {args : List Ty}
    (hm : .embed c args ∈ ms) {u : Ty} (hu : u ∈ args) {a : String} (ha : a ∈ u.freeParams) :
    a ∈ (Ty.interface ms).freeParams :=
  Member.mem_freeParamsAll.2 ⟨_, hm, mem_freeParamsAll.2 ⟨u, hu, ha⟩⟩

/-! ## Undisturbed types -/

namespace Env.Avoids

variable {η : Env Ty} {names names' : List String}

theorem of_entries (h : ∀ x ∈ η.entries, ∀ q ∈ x.freeParams, q ∉ names) : η.Avoids names :=
  fun a x hx => h x (Env.mem_entries.2 ⟨a, hx⟩)

theorem mono (h : η.Avoids names) (hn : ∀ a ∈ names', a ∈ names) : η.Avoids names' :=
  fun a x hx q hq hm => h a x hx q hq (hn q hm)

theorem visible (h : η.Avoids names) (s : Signature) : (s.visible η).Avoids names :=
  fun a x hx => h a x (Signature.find?_of_find?_visible hx).2

theorem notMem_imported (h : η.Avoids names) {s : Signature} (hs : ∀ f ∈ s.formalNames, f ∈ names) :
    ∀ f ∈ s.formalNames, f ∉ s.imported η := by
  intro f hf hi
  obtain ⟨a, x, -, hx, hq⟩ := Signature.mem_imported.1 hi
  exact h a x hx f hq (hs f hf)

end Env.Avoids

theorem Signature.subst_of_avoids {s : Signature} {η : Env Ty} (h : η.Avoids s.formalNames) :
    s.subst η = s.map (Ty.subst (s.visible η)) :=
  subst_of_apart (h.notMem_imported fun _ hf => hf)

/-- Where no entry mentions a name that the type binds, there is nothing to rename. -/
theorem Ty.undisturbed_of_avoids {t : Ty} {η : Env Ty} (h : η.Avoids t.binders) :
    t.Undisturbed η := by
  have hpart {t : Ty} {η : Env Ty} (h : η.Avoids t.binders) {u : Ty} (hu : u ∈ t.parts) :
      η.Avoids u.binders := h.mono fun _ ha => binders_subset_of_mem_parts hu ha
  induction t using Ty.induction generalizing η with
  | param a => exact .param a
  | named c args ih => exact .named fun a ha => ih a ha (hpart h ha)
  | prim p => exact .prim p
  | struct fs ih => exact .struct fun f hf => ih f hf (hpart h (List.mem_map_of_mem hf))
  | interface ms ih =>
    apply Undisturbed.interface
    · intro s hs
      exact h.notMem_imported fun f hf => mem_binders_of_formal hs hf
    · intro s hs u hu
      exact ih _ hs u hu ((hpart h (mem_parts_of_method hs hu)).visible s)
    · intro c args hm u hu
      exact ih _ hm u hu (hpart h (mem_parts_of_embed hm hu))
  | var n => exact .var n

/-- What a substitution leaves as it is, it does not disturb: a formal that it renames changes. -/
theorem Ty.undisturbed_of_subst_eq_self {t : Ty} {η : Env Ty} (h : t.subst η = t) :
    t.Undisturbed η := by
  induction t using Ty.induction generalizing η with
  | param a => exact .param a
  | named c args ih =>
    rw [subst_named, Ty.named.injEq] at h
    exact .named fun a ha => ih a ha (map_eq_self_iff.1 h.2 a ha)
  | prim p => exact .prim p
  | struct fs ih =>
    rw [subst_struct, Ty.struct.injEq] at h
    refine .struct fun f hf => ih f hf ?_
    exact congrArg Slot.ty (map_eq_self_iff.1 h f hf)
  | interface ms ih =>
    rw [subst_interface, Ty.interface.injEq] at h
    have hmember := map_eq_self_iff.1 h
    have happart : ∀ s, .method s ∈ ms → ∀ f ∈ s.formalNames, f ∉ s.imported η := by
      intro s hs f hf
      have hself : s.subst η = s := Member.method.inj (hmember _ hs)
      rw [← hself, Signature.formalNames_subst] at hf
      exact Signature.freshFor_notMem hf
    apply Undisturbed.interface happart
    · intro s hs u hu
      have hself : s.subst η = s := Member.method.inj (hmember _ hs)
      have htypes := congrArg Signature.types hself
      rw [Signature.subst_of_apart (happart s hs), Signature.types_map] at htypes
      exact ih _ hs u hu (map_eq_self_iff.1 htypes u hu)
    · intro c args hm u hu
      have hself := (Member.embed.inj (hmember _ hm)).2
      exact ih _ hm u hu (map_eq_self_iff.1 hself u hu)
  | var n => exact .var n

namespace Ty.Undisturbed

variable {t : Ty} {η θ : Env Ty}

theorem nil (t : Ty) : t.Undisturbed [] := undisturbed_of_subst_eq_self t.subst_nil

/-- Substitutions that do not disturb a type and agree on what is free in it have one result. -/
theorem subst_congr (hη : t.Undisturbed η) (hθ : t.Undisturbed θ)
    (h : ∀ a ∈ t.freeParams, η.lookup a = θ.lookup a) : t.subst η = t.subst θ := by
  induction hη generalizing θ with
  | param a => exact h a (by simp [Ty.freeParams])
  | named _ ih =>
    cases hθ with
    | named inner =>
      rw [subst_named, subst_named, Ty.named.injEq]
      refine ⟨rfl, List.map_congr_left fun u hu => ih u hu (inner u hu) fun a ha => h a ?_⟩
      exact mem_freeParamsAll.2 ⟨u, hu, ha⟩
  | prim p => rfl
  | struct _ ih =>
    cases hθ with
    | struct inner =>
      rw [subst_struct, subst_struct, Ty.struct.injEq]
      refine List.map_congr_left fun f hf => congrArg (Slot.mk f.name) ?_
      exact ih f hf (inner f hf) fun a ha => h a (Slot.mem_freeParamsAll.2 ⟨f, hf, ha⟩)
  | @interface η ms apart _ _ ihMethods ihEmbeds =>
    cases hθ with
    | interface apart' methods embeds =>
      rw [subst_interface, subst_interface, Ty.interface.injEq]
      refine List.map_congr_left fun m hm => ?_
      cases m with
      | method s =>
        rw [Member.subst_method, Member.subst_method, Signature.subst_of_apart (apart s hm),
          Signature.subst_of_apart (apart' s hm), Member.method.injEq]
        refine Signature.map_congr fun u hu => ihMethods s hm u hu (methods s hm u hu) ?_
        -- Both hide the formals; the other names are free in the signature.
        intro a ha
        by_cases hf : a ∈ s.formalNames
        · rw [Signature.lookup_visible, Signature.lookup_visible, if_pos hf, if_pos hf]
        · rw [Signature.lookup_visible, Signature.lookup_visible, if_neg hf, if_neg hf]
          exact h a (mem_freeParams_of_method hm (Signature.mem_freeParams.2 ⟨hf, u, hu, ha⟩))
      | embed c args =>
        rw [Member.subst_embed, Member.subst_embed, Member.embed.injEq]
        refine ⟨rfl, List.map_congr_left fun u hu => ihEmbeds c args hm u hu (embeds c args hm u hu) ?_⟩
        exact fun a ha => h a (mem_freeParams_of_embed hm hu ha)
  | var n => rfl

/-- A substitution that does not disturb a type and replaces nothing in it gives it back. -/
theorem subst_eq_self (h : t.Undisturbed η) (hn : ∀ a ∈ t.freeParams, η.lookup a = .param a) :
    t.subst η = t :=
  (h.subst_congr (.nil t) hn).trans t.subst_nil

/-- What an undisturbed type binds after a substitution, it bound before or an entry binds. -/
theorem mem_binders_subst (h : t.Undisturbed η) {a : String} (ha : a ∈ (t.subst η).binders) :
    a ∈ t.binders ∨ ∃ b x, η.find? b = some x ∧ a ∈ x.binders := by
  induction h with
  | param p =>
    cases hx : Env.find? _ p with
    | none =>
      rw [subst_param, hx, Option.getD_none] at ha
      exact .inl ha
    | some x =>
      rw [subst_param, hx, Option.getD_some] at ha
      exact .inr ⟨p, x, hx, ha⟩
  | named _ ih =>
    rw [subst_named] at ha
    rcases mem_binders.1 ha with ha | ⟨v, hv, ha⟩
    · exact absurd ha List.not_mem_nil
    · obtain ⟨u, hu, rfl⟩ := List.mem_map.1 hv
      exact (ih u hu ha).imp_left (binders_subset_of_mem_parts hu)
  | prim p => exact .inl ha
  | struct _ ih =>
    rw [subst_struct] at ha
    rcases mem_binders.1 ha with ha | ⟨v, hv, ha⟩
    · exact absurd ha List.not_mem_nil
    · rw [parts_struct, List.map_map] at hv
      obtain ⟨f, hf, rfl⟩ := List.mem_map.1 hv
      exact (ih f hf ha).imp_left (binders_subset_of_mem_parts (List.mem_map_of_mem hf))
  | @interface η ms apart _ _ ihMethods ihEmbeds =>
    rw [subst_interface] at ha
    rcases mem_binders.1 ha with ha | ⟨v, hv, ha⟩
    · obtain ⟨m', hm', ha⟩ := List.mem_flatMap.1 ha
      obtain ⟨m, hm, rfl⟩ := List.mem_map.1 hm'
      cases m with
      | method s =>
        rw [Member.subst_method, Signature.subst_of_apart (apart s hm)] at ha
        exact .inl (mem_binders_of_formal hm (by simpa [Member.formalNames] using ha))
      | embed c args => exact absurd ha List.not_mem_nil
    · obtain ⟨m', hm', hv⟩ := List.mem_flatMap.1 hv
      obtain ⟨m, hm, rfl⟩ := List.mem_map.1 hm'
      cases m with
      | method s =>
        rw [Member.subst_method, Signature.subst_of_apart (apart s hm), Member.types,
          Signature.types_map] at hv
        obtain ⟨u, hu, rfl⟩ := List.mem_map.1 hv
        rcases ihMethods s hm u hu ha with ha | ⟨b, x, hx, ha⟩
        · exact .inl (binders_subset_of_mem_parts (mem_parts_of_method hm hu) ha)
        · exact .inr ⟨b, x, (Signature.find?_of_find?_visible hx).2, ha⟩
      | embed c args =>
        obtain ⟨u, hu, rfl⟩ := List.mem_map.1 hv
        exact (ihEmbeds c args hm u hu ha).imp_left
          (binders_subset_of_mem_parts (mem_parts_of_embed hm hu))
  | var n => exact .inl ha

end Ty.Undisturbed

/-- Substitutions of which none renames anything compose: the second goes into the entries of the
first. -/
theorem Ty.subst_subst {t : Ty} {η θ κ : Env Ty} (hη : η.Avoids t.binders) (hθ : θ.Avoids t.binders)
    (hκ : κ.Avoids t.binders) (hentries : ∀ a ∈ t.freeParams, θ.Avoids (η.lookup a).binders)
    (h : ∀ a ∈ t.freeParams, (η.lookup a).subst θ = κ.lookup a) :
    (t.subst η).subst θ = t.subst κ := by
  have hpart {ζ : Env Ty} {t u : Ty} (hu : u ∈ t.parts) (hζ : ζ.Avoids t.binders) :
      ζ.Avoids u.binders := hζ.mono fun _ ha => binders_subset_of_mem_parts hu ha
  induction t using Ty.induction generalizing η θ κ with
  | param a => exact h a (by simp [Ty.freeParams])
  | named c args ih =>
    rw [subst_named, subst_named, subst_named, List.map_map, Ty.named.injEq]
    refine ⟨rfl, List.map_congr_left fun u hu => ?_⟩
    have hmem : u ∈ (Ty.named c args).parts := hu
    have hfree : ∀ a ∈ u.freeParams, a ∈ (Ty.named c args).freeParams :=
      fun a ha => mem_freeParamsAll.2 ⟨u, hu, ha⟩
    exact ih u hu (hpart hmem hη) (hpart hmem hθ) (hpart hmem hκ)
      (fun a ha => hentries a (hfree a ha)) fun a ha => h a (hfree a ha)
  | prim p => rfl
  | struct fs ih =>
    rw [subst_struct, subst_struct, subst_struct, List.map_map, Ty.struct.injEq]
    refine List.map_congr_left fun f hf => congrArg (Slot.mk f.name) ?_
    have hu : f.ty ∈ (Ty.struct fs).parts := List.mem_map_of_mem hf
    have hfree : ∀ a ∈ f.ty.freeParams, a ∈ (Ty.struct fs).freeParams :=
      fun a ha => Slot.mem_freeParamsAll.2 ⟨f, hf, ha⟩
    exact ih f hf (hpart hu hη) (hpart hu hθ) (hpart hu hκ) (fun a ha => hentries a (hfree a ha))
      fun a ha => h a (hfree a ha)
  | interface ms ih =>
    rw [subst_interface, subst_interface, subst_interface, List.map_map, Ty.interface.injEq]
    refine List.map_congr_left fun m hm => ?_
    rw [Function.comp_apply]
    cases m with
    | method s =>
      have happart {ζ : Env Ty} (hζ : ζ.Avoids (Ty.interface ms).binders) :
          ∀ f ∈ s.formalNames, f ∉ s.imported ζ :=
        hζ.notMem_imported fun f hf => mem_binders_of_formal hm hf
      have hvisible (s' : Signature) (hs' : s'.formalNames = s.formalNames) :
          s'.visible θ = s.visible θ := by simp [Signature.visible, hs']
      have happart' : ∀ f ∈ (s.map (Ty.subst (s.visible η))).formalNames,
          f ∉ (s.map (Ty.subst (s.visible η))).imported θ := by
        simpa [Signature.imported, hvisible] using happart hθ
      rw [Member.subst_method, Member.subst_method, Member.subst_method,
        Signature.subst_of_apart (happart hη), Signature.subst_of_apart happart',
        Signature.subst_of_apart (happart hκ), hvisible _ (Signature.formalNames_map _ s)]
      have htypes : ∀ u ∈ s.types,
          (u.subst (s.visible η)).subst (s.visible θ) = u.subst (s.visible κ) := by
        intro u hu
        have hmem := mem_parts_of_method hm hu
        have hfree {a : String} (hf : a ∉ s.formalNames) (ha : a ∈ u.freeParams) :
            a ∈ (Ty.interface ms).freeParams :=
          mem_freeParams_of_method hm (Signature.mem_freeParams.2 ⟨hf, u, hu, ha⟩)
        refine ih _ hm u hu ((hpart hmem hη).visible s) ((hpart hmem hθ).visible s)
          ((hpart hmem hκ).visible s) (fun a ha => ?_) fun a ha => ?_
        · by_cases hf : a ∈ s.formalNames
          · rw [Signature.lookup_visible, if_pos hf]
            exact fun _ _ _ _ _ => List.not_mem_nil
          · rw [Signature.lookup_visible, if_neg hf]
            exact (hentries a (hfree hf ha)).visible s
        · by_cases hf : a ∈ s.formalNames
          · rw [Signature.lookup_visible, Signature.lookup_visible, if_pos hf, if_pos hf]
            exact Signature.lookup_visible.trans (if_pos hf)
          · rw [Signature.lookup_visible, Signature.lookup_visible, if_neg hf, if_neg hf,
              ← h a (hfree hf ha)]
            have hx := hentries a (hfree hf ha)
            -- The formals are not free in what the first substitution puts in.
            refine (undisturbed_of_avoids (hx.visible s)).subst_congr (undisturbed_of_avoids hx)
              fun q hq => Signature.lookup_visible.trans (if_neg fun hqf => ?_)
            rcases Env.mem_freeParams_lookup.1 hq with ⟨rfl, -⟩ | ⟨x, hx, hqx⟩
            · exact hf hqf
            · exact hη a x hx q hqx (mem_binders_of_formal hm hqf)
      rw [← Signature.map_congr htypes]
      simp [Signature.map, Slot.map]
    | embed c args =>
      rw [Member.subst_embed, Member.subst_embed, Member.subst_embed, List.map_map,
        Member.embed.injEq]
      refine ⟨rfl, List.map_congr_left fun u hu => ?_⟩
      have hmem := mem_parts_of_embed hm hu
      have hfree : ∀ a ∈ u.freeParams, a ∈ (Ty.interface ms).freeParams :=
        fun a ha => mem_freeParams_of_embed hm hu ha
      exact ih _ hm u hu (hpart hmem hη) (hpart hmem hθ) (hpart hmem hκ)
        (fun a ha => hentries a (hfree a ha)) fun a ha => h a (hfree a ha)
  | var n => rfl

/-- **Substitution depends on what is free**: undisturbed types come out alike under substitutions
that agree on their free type parameters, and of the closed types a substitution leaves the undisturbed
ones, and these alone, as they are. -/
theorem Ty.subst_depends_on_free (t : Ty) :
    (∀ η θ : Env Ty, t.Undisturbed η → t.Undisturbed θ →
        (∀ a ∈ t.freeParams, η.find? a = θ.find? a) → t.subst η = t.subst θ)
      ∧ (t.freeParams = [] → ∀ η : Env Ty, t.subst η = t ↔ t.Undisturbed η) := by
  constructor
  · intro η θ hη hθ h
    exact hη.subst_congr hθ fun a ha => by rw [Env.lookup, Env.lookup, h a ha]
  · intro hclosed η
    refine ⟨undisturbed_of_subst_eq_self, fun h => h.subst_eq_self ?_⟩
    simp [hclosed]

/-- The signature `m(a Any)(x t) u`. -/
def Signature.generic (t u : Ty) : Signature := ⟨"m", [⟨"a", .named "Any" []⟩], [⟨"x", t⟩], u⟩

/-- Two substitutions that agree on the free `b`, of which one has an entry for a name that does not
occur, and a closed type that neither changes. -/
theorem Ty.subst_generic_depends_on_free :
    (Signature.generic (.param "b") (.param "a")).alone.subst
          [("b", .prim (.typed .int32)), ("c", .param "d")]
        = (Signature.generic (.param "b") (.param "a")).alone.subst [("b", .prim (.typed .int32))]
      ∧ (Signature.generic (.param "a") (.param "a")).alone.subst [("b", .param "c")]
        = (Signature.generic (.param "a") (.param "a")).alone := by
  constructor
  · apply (Signature.generic (.param "b") (.param "a")).alone.subst_depends_on_free.1
    · exact undisturbed_of_avoids (.of_entries (by decide +kernel))
    · exact undisturbed_of_avoids (.of_entries (by decide +kernel))
    · decide +kernel
  · apply ((Signature.generic (.param "a") (.param "a")).alone.subst_depends_on_free.2 _ _).2
    · exact undisturbed_of_avoids (.of_entries (by decide +kernel))
    · decide +kernel

/-- A closed type changes: the entry is for a name that does not occur, but it mentions the formal. -/
theorem Ty.not_subst_congr :
    ¬∀ (t : Ty) (η θ : Env Ty), (∀ a ∈ t.freeParams, η.find? a = θ.find? a) →
      t.subst η = t.subst θ := by
  intro h
  have hagree := h (Signature.generic (.param "a") (.param "a")).alone [("b", .param "a")] []
    (by decide +kernel)
  exact absurd hagree (by decide +kernel)

end FeatherGo
