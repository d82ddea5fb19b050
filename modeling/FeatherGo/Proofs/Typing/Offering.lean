import FeatherGo.Proofs.Typing.Formation
import FeatherGo.Proofs.Typing.Written

/-!
# What formed types offer

A declaration is formed if its formals have formed bounds and no signature in it binds formals below its
head. Substitution within bounds keeps a type formed over such declarations (`Table.Formed.subst`), since
what one type implements under its context it implements after the substitution. So the fields of a
formed type are formed, and its methods have formed results at formed type arguments
(`Table.upholds_formed`): the arguments of the receiver and those of a call, put in one after the other,
are put in together, and both are within their bounds.
-/

namespace FeatherGo

/-- What holds of pairs by the images of their left sides does so for another list with the images. -/
theorem forall_mem_zip_congr {α β γ : Type} {f g : α → γ} {l l' : List α} {r : List β}
    {P : γ → β → Prop} (h : l.map f = l'.map g) :
    (∀ p ∈ l.zip r, P (f p.1) p.2) ↔ ∀ p ∈ l'.zip r, P (g p.1) p.2 := by
  have himages {f : α → γ} {l : List α} :
      (∀ p ∈ (l.map f).zip r, P p.1 p.2) ↔ ∀ p ∈ l.zip r, P (f p.1) p.2 := by
    rw [List.zip_map_left, List.forall_mem_map]
    rfl
  rw [← himages, h, himages]

/-- Substitution in a signature without formals goes through. -/
theorem Signature.subst_of_formals_eq_nil {s : Signature} (hs : s.formals = []) (η : Env Ty) :
    s.subst η = s.map (Ty.subst η) := by
  have hnames : s.formalNames = [] := by rw [formalNames, hs, List.map_nil]
  rw [subst_of_apart (by simp [hnames])]
  simp [visible, hnames]

/-- A method of a spelled interface. -/
theorem Ty.Spelled.method {V : Vocabulary} {names : List String} {ms : List Member} {s : Signature}
    (h : (Ty.interface ms).Spelled V names) (hm : .method s ∈ ms) : s.Spelled V names where
  inner := by
    cases h.inner with
    | interface sound inner => exact ⟨sound _ hm, inner _ hm⟩
  text := by
    have htext := h.text
    rw [Ty.Text, Ty.close_interface, Ty.interface.injEq] at htext
    have hs : s.close .param = s := Member.method.inj (map_eq_self_iff.1 htext _ hm)
    rw [Signature.Text, Ty.Text, Signature.close_alone, hs]

namespace Table

variable {T : Table} {strict : Bool} {rank : String → Nat} {names : List String} {Δ Δ' : Bounds}
  {κ : Env Ty}

/-! ## Declarations that are formed -/

/-- Bounds of formals are formed under a context and may bound. -/
def FormedBounds (T : Table) (Δ : Bounds) (formals : List Slot) : Prop :=
  ∀ f ∈ formals, T.Formed Δ f.ty ∧ T.BoundType f.ty

/-- A signature may bind formals, which are new; its types are formed under them. -/
structure FormedSignature (T : Table) (Δ : Bounds) (s : Signature) : Prop where
  fresh : ∀ a ∈ s.formalNames, a ∉ Δ.names
  bounds : ∀ f ∈ s.formals, T.BoundType f.ty
  types : ∀ u ∈ s.types, T.Formed (Δ.extend s.formals) u

/-- What an interface embeds is formed, and its signatures have a property. -/
def FormedMemberBelow (T : Table) (Δ : Bounds) (Q : Signature → Prop) : Member → Prop
  | .method s => Q s
  | .embed c args => T.Formed Δ (.named c args)

/-- A type is formed below its head. There the signatures of an interface have a property, and may bind
formals. -/
def FormedBelow (T : Table) (Δ : Bounds) (Q : Signature → Prop) : Ty → Prop
  | .struct fs => ∀ f ∈ fs, T.Formed Δ f.ty
  | .interface ms => ∀ m ∈ ms, T.FormedMemberBelow Δ Q m
  | t => T.Formed Δ t

/-- The types in the heads of declarations are formed. -/
structure FormedDeclarations (T : Table) : Prop where
  formals : ∀ c td, T.type? c = some td → T.FormedBounds (Bounds.extend [] td.formals) td.formals
  sources : ∀ c td, T.type? c = some td → T.FormedBelow (Bounds.extend [] td.formals)
    (T.FormedSignature (Bounds.extend [] td.formals)) td.source
  receivers : ∀ md ∈ T.methodDecls,
    T.FormedBounds (Bounds.extend [] md.recvFormals) md.recvFormals
  signatures : ∀ md ∈ T.methodDecls, T.FormedSignature (Bounds.extend [] md.recvFormals) md.sig

/-- Substitution in a formed type depends on the names of its context only. -/
theorem Formed.subst_congr {t : Ty} (ht : T.Formed Δ t) {η θ : Env Ty}
    (h : ∀ a ∈ Δ.names, η.lookup a = θ.lookup a) : t.subst η = t.subst θ := by
  have havoids (η : Env Ty) : η.Avoids t.binders := by
    rw [ht.binders_eq_nil]
    exact fun _ _ _ _ _ => List.not_mem_nil
  have hclear : t.Clear (T.vocabulary false) [] Δ.names := ht.clear []
  exact (Ty.undisturbed_of_avoids (havoids η)).subst_congr (Ty.undisturbed_of_avoids (havoids θ))
    fun a ha => h a (hclear.free a ha)

/-- Types that are exposed and bind no formals are untouched by substitution. -/
theorem untouched_subst {t : Ty} (h : ∀ u ∈ t.exposed, u.binders = []) (κ : Env Ty)
    (names : List String) : t.Untouched (Ty.subst κ) names :=
  fun u hu => ⟨fun v _ => Ty.subst_var .., fun q hq => absurd hq (by simp [h u hu])⟩

theorem FormedDeclarations.untouched (hT : T.FormedDeclarations) (κ : Env Ty) (names : List String) :
    T.Untouched (Ty.subst κ) names where
  sources c td htd := by
    refine untouched_subst (fun u hu => ?_) κ names
    have hsource := hT.sources c td htd
    cases hs : td.source with
    | struct fs =>
      rw [hs] at hu
      cases hu
    | interface ms =>
      rw [hs] at hu hsource
      obtain ⟨m, hm, hu⟩ := List.mem_flatMap.1 hu
      have hm := hsource m hm
      cases m with
      | method s => exact (hm.types u hu).binders_eq_nil
      | embed d ds => exact (hm.args u hu).binders_eq_nil
    | _ =>
      rw [hs] at hu hsource
      obtain rfl := List.mem_singleton.1 hu
      exact hsource.binders_eq_nil
  receivers md hmd x hx :=
    untouched_subst (fun u hu => Formed.binders_eq_nil (T := T)
      ((hT.receivers md hmd x hx).1.of_exposed u hu)) κ names
  signatures md hmd := by
    refine untouched_subst (fun u hu => ?_) κ names
    obtain ⟨m, hm, hu⟩ := List.mem_flatMap.1 hu
    obtain rfl := List.mem_singleton.1 hm
    exact ((hT.signatures md hmd).types u hu).binders_eq_nil

/-! ## Substitution keeps types formed -/

section Subst

variable (h : T.Lawful strict rank) (hT : T.FormedDeclarations) (hκ : T.Meets strict names Δ Δ' κ)
  (hentries : ∀ a ∈ Δ.names, T.Formed Δ' (κ.lookup a))
include h hT hκ

/-- Arguments within bounds stay so. -/
theorem Applies.subst {c : String} {args : List Ty} (happlies : T.Applies Δ c args)
    (hargs : ∀ a ∈ args, T.Formed Δ a) : T.Applies Δ' c (args.map (Ty.subst κ)) := by
  have hf := hκ.transports (hT.untouched κ names)
  obtain ⟨td, htd, hl, hbounds⟩ := happlies
  refine ⟨td, htd, by simpa using hl, ?_⟩
  rw [List.zip_map_right]
  refine List.forall_mem_map.2 fun ⟨f, a⟩ hp => ?_
  obtain ⟨hmem, ha⟩ := List.of_mem_zip hp
  have hbound : f.ty.Clear (T.vocabulary strict) names (Bounds.extend [] td.formals).names :=
    (hT.formals c td htd f hmem).1.clear names
  rw [names_extend] at hbound
  have hclear : (f.ty.subst (instantiation td.formals args)).Clear (T.vocabulary strict) names
      Δ.names := by
    refine hbound.subst (fun _ x hx => ?_) fun b hb hnone => ?_
    · exact (hargs x (mem_of_find?_instantiation hx).2).clear names
    · exact absurd hnone (find?_instantiation_ne_none hl hb)
  obtain ⟨N, hN⟩ := (T.finitary_implementsBy _ _).eventually (hbounds _ hp)
  have himp := hf.implements_becomes h ((hargs a ha).clear names) hclear (hN N (Nat.le_refl N))
  rwa [hf.instantiate hbound.inner (fun v _ => Ty.subst_var ..) hl (fun b hb => hbound.free b hb)
    fun a ha => (hargs a ha).clear names] at himp

include hentries

/-- **Substitution within bounds keeps a type formed.** -/
theorem Formed.subst {t : Ty} (ht : T.Formed Δ t) : T.Formed Δ' (t.subst κ) := by
  induction t using Ty.induction with
  | param a =>
    rw [Ty.subst_param]
    exact hentries a ht.self
  | named c args ih =>
    rw [Ty.subst_named]
    refine .of_parts (Applies.subst h hT hκ ht.self ht.args) ?_
    exact List.forall_mem_map.2 fun a ha => ih a ha (ht.args a ha)
  | prim p => exact .of_parts trivial (List.forall_mem_nil _)
  | struct fs ih =>
    rw [Ty.subst_struct]
    refine .of_parts ?_ ?_
    · have hn : (fs.map (·.name)).Nodup := ht.self
      simpa [FormedHead, Slot.map, Function.comp_def] using hn
    · rw [Ty.parts_struct, List.map_map]
      exact List.forall_mem_map.2 fun f hf => ih f hf (ht.part (List.mem_map_of_mem hf))
  | interface ms ih =>
    obtain ⟨hapart, hmembers⟩ := ht.self
    have hpart {m : Member} (hm : m ∈ ms) {u : Ty} (hu : u ∈ m.types) :
        T.Formed Δ' (u.subst κ) := ih m hm u hu (ht.part (List.mem_flatMap.2 ⟨m, hm, hu⟩))
    have hmember : ∀ m ∈ ms, T.FormedMember Δ' (m.subst κ)
        ∧ (m.subst κ).types = m.types.map (Ty.subst κ) := by
      intro m hm
      cases m with
      | method s =>
        obtain ⟨hs, hn⟩ := hmembers _ hm
        rw [Member.subst_method, Signature.subst_of_formals_eq_nil hs]
        refine ⟨⟨by simp [Signature.map, hs], ?_⟩, Signature.types_map ..⟩
        simpa [Signature.map, Slot.map, Function.comp_def] using hn
      | embed c args =>
        obtain ⟨hi, hc⟩ := hmembers _ hm
        refine ⟨⟨hi, Applies.subst h hT hκ hc fun a ha => ?_⟩, rfl⟩
        exact ht.part (Ty.mem_parts_of_embed hm ha)
    rw [Ty.subst_interface]
    refine .of_parts ⟨hapart.subst κ, List.forall_mem_map.2 fun m hm => (hmember m hm).1⟩ ?_
    rw [Ty.parts_interface, List.flatMap_map]
    refine List.forall_mem_flatMap.2 fun m hm => ?_
    rw [(hmember m hm).2]
    exact List.forall_mem_map.2 fun u hu => hpart hm hu
  | var v => exact .of_parts trivial (List.forall_mem_nil _)

end Subst

/-! ## Type arguments for the formals of a context -/

/-- Each parameter of a context is given a formed type that implements its bound. -/
structure Fulfils (T : Table) (strict : Bool) (Δ Δ' : Bounds) (κ : Env Ty) : Prop where
  keys : ∀ a x, κ.find? a = some x → a ∈ Δ.names
  bounds : ∀ a b, Δ.find? a = some b → b.Scoped (T.vocabulary strict) false Δ.names []
    ∧ b.binders = [] ∧ T.BoundType b
  entries : ∀ a b, Δ.find? a = some b → ∃ x, κ.find? a = some x ∧ T.Formed Δ' x
    ∧ T.implementsBy (T.allMethods Δ') x (b.subst κ) = .ok true

namespace Fulfils

variable (hκ : T.Fulfils strict Δ Δ' κ)
include hκ

theorem exists_entry {a : String} (ha : a ∈ Δ.names) : ∃ b x, Δ.find? a = some b
    ∧ κ.find? a = some x ∧ T.Formed Δ' x ∧ T.implementsBy (T.allMethods Δ') x (b.subst κ) = .ok true := by
  obtain ⟨b, hb⟩ := Option.isSome_iff_exists.1 (Env.find?_isSome.2 ha)
  obtain ⟨x, hx, hformed, himp⟩ := hκ.entries a b hb
  exact ⟨b, x, hb, hx, hformed, himp⟩

theorem meets (h : T.Lawful strict rank) (hΔ' : T.Bounded strict Δ')
    (hnames : ∀ a ∈ Δ.names ++ Δ'.names, Unprimed a ∧ Uncanonical a) :
    T.Meets strict (Δ.names ++ Δ'.names) Δ Δ' κ where
  keys a x hx := List.mem_append_left _ (hκ.keys a x hx)
  entries a x hx := by
    obtain ⟨b, y, hb, hy, hformed, himp⟩ := hκ.exists_entry (hκ.keys a x hx)
    obtain rfl := Option.some.inj (hx.symm.trans hy)
    refine ⟨hformed.clear _, fun v he => ?_⟩
    -- A variable implements nothing but itself, which is no bound.
    obtain ⟨-, -, hbound⟩ := hκ.bounds a b hb
    rcases eq_or_isInterface himp with hself | ⟨-, hne⟩
    · rw [he] at hself
      cases b with
      | prim p => cases hself
      | named c args =>
        rw [Ty.subst_named] at hself
        cases hself
      | interface ms =>
        rw [Ty.subst_interface] at hself
        cases hself
      | _ => exact hbound
    · exact hne v he
  rest a ha hnone := by
    obtain ⟨b, x, -, hx, -⟩ := hκ.exists_entry ha
    cases hnone.symm.trans hx
  ordinary := hnames
  within a ha := List.mem_append_left _ ha
  within' a ha := List.mem_append_right _ ha
  bounded := hΔ'
  bounds a b hb := by
    obtain ⟨hscoped, hbinders, -⟩ := hκ.bounds a b hb
    obtain ⟨x, hx, hformed, himp⟩ := hκ.entries a b hb
    refine ⟨.of_scoped hscoped (by simp [hbinders]), ?_⟩
    rw [Env.lookup_of_some hx]
    exact h.coversIn_of_implementsBy hΔ' hformed.scoped himp

/-- What is formed under the formals of a context is formed at type arguments for them. -/
theorem formed_subst (h : T.Lawful strict rank) (hT : T.FormedDeclarations)
    (hΔ' : T.Bounded strict Δ') (hnames : ∀ a ∈ Δ.names ++ Δ'.names, Unprimed a ∧ Uncanonical a)
    {t : Ty} (ht : T.Formed Δ t) : T.Formed Δ' (t.subst κ) := by
  refine ht.subst h hT (hκ.meets h hΔ' hnames) fun a ha => ?_
  obtain ⟨b, x, -, hx, hformed, -⟩ := hκ.exists_entry ha
  rwa [Env.lookup_of_some hx]

end Fulfils

/-- A bound in an extended context is that of a formal, or an outer one of a name that no formal has. -/
theorem find?_extend {formals : List Slot} {a : String} {b : Ty} :
    (Δ.extend formals).find? a = some b ↔ Env.find? (formals.map fun f => (f.name, f.ty)) a = some b
      ∨ Env.find? (formals.map fun f => (f.name, f.ty)) a = none ∧ Δ.find? a = some b := by
  rw [Bounds.extend, Env.find?_append, Option.or_eq_some_iff]

theorem names_map_bounds (formals : List Slot) :
    Env.names (formals.map fun f => (f.name, f.ty)) = formalNames formals := by
  simp [Env.names, formalNames, Function.comp_def]

/-- A bound and what is given for it stand at one position. -/
theorem exists_mem_zip_of_find? {formals : List Slot} {args : List Ty}
    (hl : formals.length = args.length) {a : String} {b : Ty}
    (hb : Env.find? (formals.map fun f => (f.name, f.ty)) a = some b) :
    ∃ f x, (f, x) ∈ formals.zip args ∧ f.ty = b ∧ (instantiation formals args).find? a = some x := by
  have ha : a ∈ formalNames formals := by
    rw [← names_map_bounds, ← Env.find?_isSome, hb]
    rfl
  obtain ⟨i, hi, hfind⟩ := Env.exists_find?_zip ha
  have hzip : (formalNames formals).zip (formals.map (·.ty)) = formals.map fun f => (f.name, f.ty) :=
    List.zip_map' ..
  rw [← hzip, hfind _ (by simp [formalNames]), List.getElem?_map, Option.map_eq_some_iff] at hb
  obtain ⟨f, hf, rfl⟩ := hb
  have hlt : i < args.length := hl ▸ (List.getElem?_eq_some_iff.1 hf).1
  have hx : args[i]? = some args[i] := List.getElem?_eq_getElem hlt
  refine ⟨f, args[i], List.mem_iff_getElem?.2 ⟨i, List.getElem?_zip_eq_some.2 ⟨hf, hx⟩⟩, rfl, ?_⟩
  rw [← hx]
  exact hfind args (by simpa [formalNames] using hl)

/-- **Type arguments within bounds fulfil their context**: those for the formals of a declaration and
those for the formals of a signature in it, together. -/
theorem fulfils_of_within {formals inner : List Slot} {args targs : List Ty}
    (hformals : T.FormedBounds (Bounds.extend [] formals) formals)
    (hinner : T.FormedBounds ((Bounds.extend [] formals).extend inner) inner)
    (hfresh : ∀ a ∈ formalNames inner, a ∉ formalNames formals)
    (hwithin : T.Within Δ formals args) (hargs : ∀ a ∈ args, T.Formed Δ a)
    (hl : inner.length = targs.length)
    (hbounds : ∀ p ∈ inner.zip targs, T.implementsBy (T.allMethods Δ) p.2
      (p.1.ty.subst (instantiation formals args ++ instantiation inner targs)) = .ok true)
    (htargs : ∀ a ∈ targs, T.Formed Δ a) :
    T.Fulfils strict ((Bounds.extend [] formals).extend inner) Δ
      (instantiation formals args ++ instantiation inner targs) := by
  have hnames : ((Bounds.extend [] formals).extend inner).names
      = formalNames formals ++ formalNames inner := by
    rw [names_extend, names_extend]
    rfl
  refine ⟨fun a x hx => ?_, fun a b hb => ?_, fun a b hb => ?_⟩
  · rw [Env.find?_append, Option.or_eq_some_iff] at hx
    rw [hnames]
    rcases hx with hx | ⟨-, hx⟩
    · exact List.mem_append_right _ (mem_of_find?_instantiation hx).1
    · exact List.mem_append_left _ (mem_of_find?_instantiation hx).1
  · rcases find?_extend.1 hb with hb | ⟨-, hb⟩
    · obtain ⟨f, x, hmem, rfl, -⟩ := exists_mem_zip_of_find? hl hb
      obtain ⟨hformed, hbound⟩ := hinner f (List.of_mem_zip hmem).1
      exact ⟨hformed.scoped, hformed.binders_eq_nil, hbound⟩
    · obtain ⟨f, x, hmem, rfl, -⟩ := exists_mem_zip_of_find? hwithin.length hb
      obtain ⟨hformed, hbound⟩ := hformals f (List.of_mem_zip hmem).1
      refine ⟨hformed.scoped.mono ?_ nofun, hformed.binders_eq_nil, hbound⟩
      rw [names_extend _ inner]
      exact fun _ hm => List.mem_append_left _ hm
  · rw [Env.find?_append]
    rcases find?_extend.1 hb with hb | ⟨hnone, hb⟩
    · obtain ⟨f, x, hmem, rfl, hx⟩ := exists_mem_zip_of_find? hl hb
      refine ⟨x, by rw [hx, Option.some_or], htargs x (List.of_mem_zip hmem).2, hbounds _ hmem⟩
    · obtain ⟨f, x, hmem, rfl, hx⟩ := exists_mem_zip_of_find? hwithin.length hb
      have hnot : a ∉ formalNames inner := by
        rw [← names_map_bounds, ← Env.find?_isSome, hnone]
        exact Bool.false_ne_true
      have hnone : Env.find? (instantiation inner targs) a = none := Env.find?_zip_eq_none hnot
      refine ⟨x, by rw [hnone, Option.none_or, hx], hargs x (List.of_mem_zip hmem).2, ?_⟩
      obtain ⟨hformed, -⟩ := hformals f (List.of_mem_zip hmem).1
      rw [hformed.subst_congr (θ := instantiation formals args) fun c hc => ?_]
      · exact hwithin.bounds _ hmem
      · rw [names_extend] at hc
        have hnone : Env.find? (instantiation inner targs) c = none :=
          Env.find?_zip_eq_none fun hmem => hfresh c hmem hc
        rw [Env.lookup, Env.find?_append, hnone, Option.none_or]
        rfl

/-! ## What types offer -/

/-- At formed type arguments within its bounds, a signature has formed types. -/
def Yields (T : Table) (Δ : Bounds) (s : Signature) : Prop :=
  ∀ targs, T.Within Δ s.formals targs → (∀ a ∈ targs, T.Formed Δ a) →
    ∀ u ∈ s.types, T.Formed Δ (u.subst (instantiation s.formals targs))

/-- A signature without formals has its types, whatever is offered. -/
theorem yields_of_formed {s : Signature} (hs : s.formals = []) (htypes : ∀ u ∈ s.types, T.Formed Δ u) :
    T.Yields Δ s := by
  intro targs hwithin _ u hu
  have hnil : instantiation s.formals targs = [] := by rw [hs]; rfl
  rw [hnil, Ty.subst_nil]
  exact htypes u hu

/-- A formed type offers signatures that yield formed types. -/
theorem FormedBelow.of_formed {t : Ty} (ht : T.Formed Δ t) : T.FormedBelow Δ (T.Yields Δ) t := by
  cases t with
  | struct fs => exact fun f hf => ht.part (List.mem_map_of_mem hf)
  | interface ms =>
    intro m hm
    cases m with
    | method s =>
      obtain ⟨hs, -⟩ := ht.self.2 _ hm
      exact yields_of_formed hs fun u hu => ht.part (Ty.mem_parts_of_method hm hu)
    | embed c args => exact (ht.embedded hm).2
  | _ => exact ht

section Offers

variable (h : T.Lawful strict rank) (hT : T.FormedDeclarations) (hΔ : T.Bounded strict Δ)
  (hnames : ∀ a ∈ Δ.names, Unprimed a ∧ Uncanonical a) {formals : List Slot} {args : List Ty}
  (hp : FormalsProper formals) (hformals : T.FormedBounds (Bounds.extend [] formals) formals)
  (hwithin : T.Within Δ formals args) (hargs : ∀ a ∈ args, T.Formed Δ a)
include h hT hΔ hnames hp hformals hwithin hargs

/-- A type that is formed under the formals of a declaration is formed at type arguments. -/
theorem Formed.instantiate {t : Ty} (ht : T.Formed (Bounds.extend [] formals) t) :
    T.Formed Δ (t.subst (instantiation formals args)) := by
  have hκ : T.Fulfils strict (Bounds.extend [] formals) Δ (instantiation formals args) := by
    have hboth : T.Fulfils strict ((Bounds.extend [] formals).extend []) Δ
        (instantiation formals args ++ instantiation [] []) :=
      fulfils_of_within hformals (List.forall_mem_nil _) (List.forall_mem_nil _) hwithin hargs rfl
        (List.forall_mem_nil _) (List.forall_mem_nil _)
    rwa [Bounds.extend_nil, show instantiation [] [] = [] from rfl, List.append_nil] at hboth
  refine hκ.formed_subst h hT hΔ (List.forall_mem_append.2 ⟨fun a ha => ?_, hnames⟩) ht
  rw [names_extend] at ha
  exact ⟨hp.unprimed a ha, hp.uncanonical a ha⟩

/-- **A declared signature yields formed types** at the arguments of its receiver. These and the
arguments of a call are put in one after the other, which is the same as together. -/
theorem FormedSignature.yields {s : Signature}
    (hs : s.Spelled (T.vocabulary strict) (formalNames formals))
    (hsig : T.FormedSignature (Bounds.extend [] formals) s) :
    T.Yields Δ (s.subst (instantiation formals args)) := by
  intro targs hcall htargs u hu
  have hempty {t : Ty} {Δ : Bounds} (ht : T.Formed Δ t) : ∀ x ∈ targs, ∀ q ∈ x.freeParams,
      q ∉ t.binders := by
    rw [ht.binders_eq_nil]
    exact fun _ _ _ _ => List.not_mem_nil
  have htakes : s.Takes (instantiation formals args) := by
    refine hs.inner.takes hp hwithin.length (fun a (ha : a ∈ Δ.names) => (hnames a ha).1) ?_ ?_
    · exact fun u hu => ((hsig.types u hu).clear Δ.names).inner
    · exact fun a ha => (hargs a ha).clear Δ.names
  have hl : s.formals.length = targs.length := (s.length_formals_subst _).symm.trans hcall.length
  have hstage := htakes.types_subst_instantiation hl (fun u hu => hempty (hsig.types u hu))
    fun a y hy => hempty (hargs y (mem_of_find?_instantiation hy).2)
  obtain ⟨hbounds, -⟩ := Signature.parts_eq (s.length_formals_subst _) (s.length_params_subst _) hstage
  have hfulfils : T.Fulfils strict ((Bounds.extend [] formals).extend s.formals) Δ
      (instantiation formals args ++ instantiation s.formals targs) := by
    refine fulfils_of_within hformals (fun f hf => ?_) (fun a ha => ?_) hwithin hargs hl ?_ htargs
    · exact ⟨hsig.types _ (Signature.mem_types_formal hf), hsig.bounds f hf⟩
    · have hfresh := hsig.fresh a ha
      rwa [names_extend] at hfresh
    · exact (forall_mem_zip_congr
        (P := fun b x => T.implementsBy (T.allMethods Δ) x b = .ok true) hbounds).1 hcall.bounds
  obtain ⟨w, hw, heq⟩ := List.mem_map.1 (hstage ▸ List.mem_map_of_mem hu)
  rw [← heq]
  refine hfulfils.formed_subst h hT hΔ (List.forall_mem_append.2 ⟨fun a ha => ?_, hnames⟩)
    (hsig.types w hw)
  rw [names_extend, names_extend] at ha
  rcases List.mem_append.1 ha with ha | ha
  · exact ⟨hp.unprimed a ha, hp.uncanonical a ha⟩
  · exact ⟨hs.text.formals a ha, (hs.inner.sound.2 a ha).2⟩

end Offers

/-- **What formed types offer is formed.** -/
theorem conveys_formedBelow (h : T.Lawful strict rank) (hT : T.FormedDeclarations)
    (hΔ : T.Bounded strict Δ) (hnames : ∀ a ∈ Δ.names, Unprimed a ∧ Uncanonical a)
    (hbounds : ∀ a b, Δ.find? a = some b → T.Formed Δ b) :
    T.Conveys Δ (T.FormedBelow Δ (T.Yields Δ)) where
  bound hb := .of_formed (hbounds _ _ hb)
  source {c args td} ht htd hl := by
    have ht : T.Formed Δ (.named c args) := ht
    obtain ⟨td', htd', hwithin⟩ := ht.self
    obtain rfl := Option.some.inj (htd.symm.trans htd')
    obtain ⟨hp, hspelled, -⟩ := h.types c td htd
    have hformals := hT.formals c td htd
    have hinst {u : Ty} (hu : T.Formed (Bounds.extend [] td.formals) u) :=
      hu.instantiate h hT hΔ hnames hp hformals hwithin ht.args
    have hsource := hT.sources c td htd
    cases hs : td.source with
    | struct fs =>
      rw [hs] at hsource
      rw [Ty.subst_struct]
      exact List.forall_mem_map.2 fun f hf => hinst (hsource f hf)
    | interface ms =>
      rw [hs] at hsource hspelled
      rw [Ty.subst_interface]
      refine List.forall_mem_map.2 fun m hm => ?_
      have hm' := hsource m hm
      cases m with
      | method s =>
        exact hm'.yields h hT hΔ hnames hp hformals hwithin ht.args (hspelled.method hm)
      | embed d ds =>
        have hembed := hinst hm'
        rw [Ty.subst_named] at hembed
        exact hembed
    | _ =>
      rw [hs] at hsource
      exact .of_formed (hinst hsource)
  embed ht hm := ht _ hm
  method ht hm := List.forall_mem_singleton.2 (ht _ hm)
  declared {md args} hmd ht hwithin := by
    have ht : T.Formed Δ (.named md.recvType args) := ht
    obtain ⟨-, -, hp, -, hspelled, -⟩ := h.methods md hmd
    exact List.forall_mem_singleton.2 ((hT.signatures md hmd).yields h hT hΔ hnames hp
      (hT.receivers md hmd) hwithin ht.args hspelled)

/-- **A formed type has formed fields, and what it offers has formed results** at formed type arguments
within bounds. -/
theorem upholds_formed (h : T.Lawful strict rank) (hT : T.FormedDeclarations)
    (hΔ : T.Bounded strict Δ) (hnames : ∀ a ∈ Δ.names, Unprimed a ∧ Uncanonical a)
    (hbounds : ∀ a b, Δ.find? a = some b → T.Formed Δ b) :
    T.Upholds Δ (T.Formed Δ) fun _ => True where
  prim p := .of_parts trivial (List.forall_mem_nil _)
  field t fs ht hfs f hf :=
    (conveys_formedBelow h hT hΔ hnames hbounds).of_resolves (.of_formed ht)
      (Checker.resolves_of_structFields hfs) f hf
  result n t S m sig targs ht hS hsig hwithin htargs := by
    have hsig := (conveys_formedBelow h hT hΔ hnames hbounds).of_methods (.of_formed ht) hS sig
      (MethodSet.mem_of_find? hsig).1
    exact List.forall_mem_singleton.1 hsig targs hwithin (fun a ha => (htargs a ha).1) _
      sig.mem_types_result

end Table

end FeatherGo
