import FeatherGo.Proofs.Declarations.WellFormed
import FeatherGo.Proofs.Types.Canonical
import FeatherGo.Proofs.Types.Clear

/-!
# What becomes of declared types

Types are put in for variables, or for the type parameters of a context. Then a declared type at
arguments becomes the declared type at the arguments that have become. Word for word this is so below
its head: there nothing is renamed, if the declaration binds no names that the arguments mention
(`Ty.Replaces.instantiate`). In the signatures that its head lists formals may be renamed, and
differently before and after. So what changes there are the types of canonical forms
(`Signature.Changed`), and types follow each other up to the signatures at their heads (`Ty.Becomes`,
`Ty.Replaces.becomes_subst`).

`Ty.Replaces` says what is used of the map of types. It goes from a context to another one, and `names`
holds the type parameters of both.
-/

namespace FeatherGo

/-! ## Signatures -/

/-- A signature is another one with its types changed, up to the names of formals and value
parameters. -/
structure Signature.Changed (f : Ty → Ty) (s s' : Signature) : Prop where
  name : s'.name = s.name
  formals : s'.formals.length = s.formals.length
  params : s'.params.length = s.params.length
  types : s'.canonical.types = s.canonical.types.map f

namespace Signature

variable {f : Ty → Ty} {s s' o o' : Signature}

/-- Signatures whose canonical types a change makes equal agree after it. -/
theorem Changed.alphaEq (ho : o.Changed f o') (hs : s.Changed f s') (hname : o.name = s.name)
    (hformals : o.formals.length = s.formals.length) (hparams : o.params.length = s.params.length)
    (htypes : o.canonical.types.map f = s.canonical.types.map f) : o'.alphaEq s' = true := by
  rw [alphaEq_iff, ho.name, hs.name, ho.formals, hs.formals, ho.params, hs.params, ho.types, hs.types]
  exact ⟨hname, hformals, hparams, htypes⟩

/-- Signatures that agree do so after a change. -/
theorem Changed.alphaEq_of (ho : o.Changed f o') (hs : s.Changed f s') (h : o.alphaEq s = true) :
    o'.alphaEq s' = true := by
  obtain ⟨hname, hformals, hparams, htypes⟩ := alphaEq_iff.1 h
  exact ho.alphaEq hs hname hformals hparams (by rw [htypes])

/-- What agrees with a changed signature is the signature changed as well. -/
theorem Changed.of_alphaEq (hs : s.Changed f s') (h : o.alphaEq s' = true) : s.Changed f o := by
  obtain ⟨hname, hformals, hparams, htypes⟩ := alphaEq_iff.1 h
  exact ⟨hname.trans hs.name, hformals.trans hs.formals, hparams.trans hs.params,
    htypes.trans hs.types⟩

theorem types_canonical_map (f : Ty → Ty) (s : Signature) : (s.map f).canonical.types
    = (s.types.map f).map (Ty.subst (relabelling s.formalNames (canonicalNames s.formals.length))) := by
  rw [types_canonical, formalNames_map, types_map]
  simp [map]

/-- A signature is changed by a map that commutes with giving its formals canonical names. -/
theorem changed_map {g : Ty → Ty}
    (h : ∀ u ∈ s.types, (g u).subst (relabelling s.formalNames (canonicalNames s.formals.length))
      = f (u.subst (relabelling s.formalNames (canonicalNames s.formals.length)))) :
    s.Changed f (s.map g) := by
  refine ⟨rfl, by simp [map], by simp [map], ?_⟩
  rw [types_canonical_map, types_canonical, List.map_map, List.map_map]
  exact List.map_congr_left h

end Signature

/-! ## Types up to the signatures at their heads -/

/-- What an interface member becomes: a changed signature, or an embedded interface at the arguments that
have become. -/
inductive Member.Becomes (V : Vocabulary) (names scope : List String) (f : Ty → Ty) :
    Member → Member → Prop
  | method {s s' : Signature} (changed : s.Changed f s') :
    Becomes V names scope f (.method s) (.method s')
  | embed {c : String} {args : List Ty} (embeds : V.embeds c)
      (clear : (Ty.named c args).Clear V names scope) :
    Becomes V names scope f (.embed c args) (.embed c (args.map f))

/-- What a type becomes, word for word or, of an interface literal, up to the names of formals. -/
inductive Ty.Becomes (V : Vocabulary) (names scope : List String) (f : Ty → Ty) : Ty → Ty → Prop
  | clear {t : Ty} (clear : t.Clear V names scope) : Becomes V names scope f t (f t)
  | interface {ms ms' : List Member} (members : List.Forall₂ (Member.Becomes V names scope f) ms ms') :
    Becomes V names scope f (.interface ms) (.interface ms')

/-- A map of types that puts types in for variables or for the type parameters of a scope: it goes under
declared names and the members of interfaces, what is clear stays so, and it may be put off till after a
substitution that renames nothing. -/
structure Ty.Replaces (V : Vocabulary) (names scope scope' : List String) (f : Ty → Ty) : Prop where
  unprimed : ∀ a ∈ names, Unprimed a
  within : ∀ a ∈ scope, a ∈ names
  within' : ∀ a ∈ scope', a ∈ names
  named : ∀ c args, f (.named c args) = .named c (args.map f)
  canonical : ∀ i, f (.param (Signature.canonicalName i)) = .param (Signature.canonicalName i)
  ne_var : ∀ {t}, t.Clear V names scope → (∀ v, t ≠ .var v) → ∀ v, f t ≠ .var v
  clear : ∀ {t}, t.Clear V names scope → (f t).Clear V names scope'
  members : ∀ {ms}, (Ty.interface ms).Clear V names scope →
    ∃ ms', f (.interface ms) = .interface ms' ∧ List.Forall₂ (Member.Becomes V names scope f) ms ms'
  subst : ∀ {t : Ty} {η θ : Env Ty}, t.Everywhere (Ty.Apart V names) →
    (∀ v ∈ t.vars, f (.var v) = .var v) → η.Avoids t.binders → θ.Avoids t.binders →
    (∀ a ∈ t.freeParams,
      (η.lookup a).Everywhere (Ty.Apart V names) ∧ f (η.lookup a) = θ.lookup a) →
    f (t.subst η) = t.subst θ

/-! ## Declared types -/

/-- The types that are exposed to type arguments word for word: a type itself or, of an interface
literal, the types that its members hold. What the fields of a struct hold plays no role for methods. -/
def Ty.exposed : Ty → List Ty
  | .struct _ => []
  | .interface ms => ms.flatMap Member.types
  | t => [t]

theorem Ty.Everywhere.of_exposed {N : Ty → Prop} {t : Ty} (ht : t.Everywhere N) :
    ∀ u ∈ t.exposed, u.Everywhere N := by
  intro u hu
  cases t with
  | struct fs => cases hu
  | interface ms => exact ht.of_mem_parts hu
  | _ =>
    obtain rfl := List.mem_singleton.1 hu
    exact ht

/-- No type that is exposed has a variable that a map changes, or binds a name that is one of some names
but for primes. -/
def Ty.Untouched (f : Ty → Ty) (names : List String) (t : Ty) : Prop :=
  ∀ u ∈ t.exposed, (∀ v ∈ u.vars, f (.var v) = .var v) ∧ ∀ q ∈ u.binders, stem q ∉ names

variable {V : Vocabulary} {names scope scope' : List String} {f : Ty → Ty} {formals : List Slot}
  {args : List Ty} {t : Ty}

/-- What is exposed of an untouched type is apart from the names. -/
theorem Ty.Untouched.apart (h : t.Untouched f names) {apart : Bool} {stems : List String}
    (ht : t.Scoped V apart scope stems) : ∀ u ∈ t.exposed, u.Everywhere (Ty.Apart V names) := by
  intro u hu w hw
  have hbuilt := (Ty.scoped_iff.1 ht.loose).1.of_exposed u hu
  exact ⟨hbuilt w hw, fun q hq => (h u hu).2 q (List.mem_flatMap.2 ⟨w, hw, hq⟩)⟩

/-- What stands for a formal at mapped arguments. -/
theorem lookup_instantiation_map (f : Ty → Ty) {a : String} {x : Ty}
    (hx : (instantiation formals args).find? a = some x) :
    (instantiation formals (args.map f)).lookup a = f x := by
  rw [Env.lookup, find?_instantiation_map, hx]
  rfl

/-- A signature under formals takes clear arguments for these. -/
theorem Signature.Scoped.takes {s : Signature}
    (h : s.Scoped V true (FeatherGo.formalNames formals) (FeatherGo.formalNames formals))
    (hp : FormalsProper formals) (hl : formals.length = args.length)
    (hnames : ∀ a ∈ names, Unprimed a) (happart : ∀ u ∈ s.types, u.Everywhere (Ty.Apart V names))
    (hargs : ∀ a ∈ args, a.Clear V names names) : s.Takes (instantiation formals args) where
  nodup := h.sound.1
  entry u hu a ha hf := by
    rw [find?_instantiation_isSome hl]
    exact (List.mem_append.1 ((h.types u hu).mem_scope ha)).resolve_left hf
  keys a x hx := hp.unprimed a (mem_of_find?_instantiation hx).1
  nested u hu q hq := by
    obtain ⟨hstem, hcanonical⟩ := (h.types u hu).of_mem_binders hq
    exact ⟨fun hmem => hstem rfl (List.mem_append_left _ hmem), hcanonical⟩
  avoids u hu := (happart u hu).avoids hnames fun _ _ hx =>
    (hargs _ (mem_of_find?_instantiation hx).2).free
  uncanonical a x hx q hq := (hargs x (mem_of_find?_instantiation hx).2).inner.uncanonical hq

namespace Ty.Replaces

variable (hf : Ty.Replaces V names scope scope' f)
include hf

/-- Arguments stay clear, whether or not types are put in. -/
theorem clear_args (hargs : ∀ a ∈ args, a.Clear V names scope) :
    (∀ a ∈ args, a.Clear V names names) ∧ ∀ a ∈ args.map f, a.Clear V names names :=
  ⟨fun a ha => (hargs a ha).mono hf.within,
    List.forall_mem_map.2 fun a ha => (hf.clear (hargs a ha)).mono hf.within'⟩

/-- What is exposed at arguments becomes what it is at the arguments that have become. -/
theorem instantiate {u : Ty} (hu : u.Everywhere (Ty.Apart V names))
    (hvars : ∀ v ∈ u.vars, f (.var v) = .var v) (hl : formals.length = args.length)
    (hfree : ∀ a ∈ u.freeParams, a ∈ formalNames formals)
    (hargs : ∀ a ∈ args, a.Clear V names scope) :
    f (u.subst (instantiation formals args)) = u.subst (instantiation formals (args.map f)) := by
  obtain ⟨hbefore, hafter⟩ := hf.clear_args hargs
  refine hf.subst hu hvars ?_ ?_ fun a ha => ?_
  · exact hu.avoids hf.unprimed fun _ _ hx => (hbefore _ (mem_of_find?_instantiation hx).2).free
  · exact hu.avoids hf.unprimed fun _ _ hx => (hafter _ (mem_of_find?_instantiation hx).2).free
  · obtain ⟨x, hx⟩ := Option.isSome_iff_exists.1 ((find?_instantiation_isSome hl).2 (hfree a ha))
    rw [Env.lookup_of_some hx, lookup_instantiation_map f hx]
    exact ⟨(hargs x (mem_of_find?_instantiation hx).2).inner, rfl⟩

/-- **A substituted signature changes** to the signature at the entries that have become. -/
theorem changed_subst {s : Signature} {η θ : Env Ty} (hη : s.Takes η) (hθ : s.Takes θ)
    (happart : ∀ u ∈ s.types, u.Everywhere (Ty.Apart V names))
    (hvars : ∀ u ∈ s.types, ∀ v ∈ u.vars, f (.var v) = .var v)
    (hentries : ∀ a x, η.find? a = some x → x.Everywhere (Ty.Apart V names) ∧ f x = θ.lookup a) :
    (s.subst η).Changed f (s.subst θ) := by
  refine ⟨by simp, by rw [s.length_formals_subst, s.length_formals_subst],
    by rw [s.length_params_subst, s.length_params_subst], ?_⟩
  rw [hη.types_canonical_subst, hθ.types_canonical_subst, List.map_map]
  refine List.map_congr_left fun u hu => Eq.symm ?_
  have hcanonical := Signature.canonicalNames_notMem (n := s.formals.length)
    fun q hq => (hη.nested u hu q hq).2
  refine hf.subst (happart u hu) (hvars u hu) (Signature.avoids_naming hcanonical (hη.avoids u hu))
    (Signature.avoids_naming hcanonical (hθ.avoids u hu)) fun a hau => ?_
  have hl : s.formalNames.length = (Signature.canonicalNames s.formals.length).length := by simp
  by_cases ha : a ∈ s.formalNames
  · obtain ⟨i, q, hi, hq, he⟩ := Signature.exists_lookup_naming hη.formals_nodup hl η ha
    obtain ⟨j, -, rfl⟩ := List.mem_map.1 (List.mem_of_getElem? hq)
    rw [he, hf.canonical, Signature.lookup_naming_formal hη.formals_nodup hi hq]
    exact ⟨Everywhere.iff_parts.2 ⟨apart_param V names _, List.forall_mem_nil _⟩, rfl⟩
  · obtain ⟨x, hx⟩ := Option.isSome_iff_exists.1 (hη.entry u hu a hau ha)
    rw [Signature.lookup_naming_other hl ha, Signature.lookup_naming_other hl ha, Env.lookup_of_some hx]
    exact hentries a x hx

/-- A declared signature at arguments changes to the signature at the arguments that have become. -/
theorem changed_instantiate {s : Signature}
    (hs : s.Scoped V true (FeatherGo.formalNames formals) (FeatherGo.formalNames formals))
    (hp : FormalsProper formals) (hl : formals.length = args.length)
    (happart : ∀ u ∈ s.types, u.Everywhere (Ty.Apart V names))
    (hvars : ∀ u ∈ s.types, ∀ v ∈ u.vars, f (.var v) = .var v)
    (hargs : ∀ a ∈ args, a.Clear V names scope) :
    (s.subst (instantiation formals args)).Changed f
      (s.subst (instantiation formals (args.map f))) := by
  obtain ⟨hbefore, hafter⟩ := hf.clear_args hargs
  have hl' : formals.length = (args.map f).length := by simpa using hl
  refine hf.changed_subst (hs.takes hp hl hf.unprimed happart hbefore)
    (hs.takes hp hl' hf.unprimed happart hafter) happart hvars fun a x hx => ?_
  exact ⟨(hargs x (mem_of_find?_instantiation hx).2).inner, (lookup_instantiation_map f hx).symm⟩

/-- **A spelled type at arguments becomes the type at the arguments that have become.** Of a struct
literal nothing is said: it offers no methods. -/
theorem becomes_subst (ht : t.Spelled V (formalNames formals)) (hp : FormalsProper formals)
    (hl : formals.length = args.length) (hr : t.Untouched f names)
    (hargs : ∀ a ∈ args, a.Clear V names scope) (hstruct : ∀ fs, t ≠ .struct fs) :
    (t.subst (instantiation formals args)).Becomes V names scope f
      (t.subst (instantiation formals (args.map f))) := by
  have hs := ht.scoped_subst hl fun a ha => (hargs a ha).scoped
  have hentries : ∀ a x, (instantiation formals args).find? a = some x →
      x.Everywhere (Ty.Apart V names) := fun a x hx => (hargs x (mem_of_find?_instantiation hx).2).inner
  have happart := hr.apart ht.inner
  have hexposed (hexposed : t ∈ t.exposed) : (t.subst (instantiation formals args)).Becomes V names scope f
      (t.subst (instantiation formals (args.map f))) := by
    rw [← hf.instantiate (happart t hexposed) (hr t hexposed).1 hl (fun a ha => ht.inner.mem_scope ha)
      hargs]
    exact .clear ⟨(happart t hexposed).apart_subst hentries, fun a ha => hs.mem_scope ha⟩
  cases t with
  | struct fs => exact absurd rfl (hstruct fs)
  | interface ms =>
    rw [subst_interface] at hs
    rw [subst_interface, subst_interface]
    apply Becomes.interface
    rw [List.forall₂_map_left_iff, List.forall₂_map_right_iff]
    refine List.forall₂_same.2 fun m hm => ?_
    have hmem {u : Ty} (hu : u ∈ m.types) : u ∈ (Ty.interface ms).exposed :=
      List.mem_flatMap.2 ⟨m, hm, hu⟩
    cases m with
    | method s =>
      have hscoped : s.Scoped V true (formalNames formals) (formalNames formals) := by
        cases ht.inner with
        | interface sound inner => exact ⟨sound _ hm, inner _ hm⟩
      exact .method (hf.changed_instantiate hscoped hp hl (fun u hu => happart u (hmem hu))
        (fun u hu => (hr u (hmem hu)).1) hargs)
    | embed c ds =>
      have hinner : ∀ d ∈ ds, d.Scoped V true (formalNames formals) (formalNames formals) := by
        cases ht.inner with
        | interface sound inner => exact inner _ hm
      have hmap : ds.map (Ty.subst (instantiation formals (args.map f)))
          = (ds.map (Ty.subst (instantiation formals args))).map f := by
        rw [List.map_map]
        refine List.map_congr_left fun d hd => Eq.symm ?_
        exact hf.instantiate (happart d (hmem hd)) (hr d (hmem hd)).1 hl
          (fun a ha => (hinner d hd).mem_scope ha) hargs
      obtain ⟨hembeds, hscoped⟩ := hs.embedded (List.mem_map_of_mem hm)
      rw [Member.subst_embed, Member.subst_embed, hmap]
      refine .embed hembeds (.of_args hscoped ?_)
      exact List.forall_mem_map.2 fun d hd => (happart d (hmem hd)).apart_subst hentries
  | _ => exact hexposed (List.mem_singleton_self _)

end Ty.Replaces

end FeatherGo
