import FeatherGo.Proofs.Declarations.Guarded
import FeatherGo.Proofs.Methods.Closing
import FeatherGo.Proofs.Typing.Elaboration
import FeatherGo.Proofs.Types.FreeParams

/-!
# Properties of types that declarations keep

A table conveys a property of types if it passes from a declared type to its source, from an interface
to its members, and to the signatures of declared methods (`Table.Conveys`). A signature has the property
if the interface that lists it alone has. Then it passes along definition chains and to all signatures
that a type offers, under bounds that have the property (`Table.Conveys.of_methods`). It is stable if it
passes from a struct type to its fields too (`Table.Stable`).

What passes to the parts of a type and through substitution (`Ty.Hereditary`) is stable wherever the
declarations write it (`Ty.Hereditary.stable`).
-/

namespace FeatherGo

namespace Table

/-! ## Type arguments within bounds -/

/-- Types can be given for formals: they are as many, and under a context each implements the bound of its
formal at the types that are given. -/
structure Within (T : Table) (Δ : Bounds) (formals : List Slot) (args : List Ty) : Prop where
  length : formals.length = args.length
  bounds : ∀ p ∈ formals.zip args,
    T.implementsBy (T.allMethods Δ) p.2 (p.1.ty.subst (instantiation formals args)) = .ok true

theorem within_of_implements {T : Table} {Δ : Bounds} {formals : List Slot} {args : List Ty} {n : Nat}
    (hl : formals.length = args.length)
    (h : ∀ p ∈ formals.zip args,
      T.implements n Δ p.2 (p.1.ty.subst (instantiation formals args)) = .ok true) :
    T.Within Δ formals args :=
  ⟨hl, fun p hp => (T.finitary_implementsBy _ _).of_methods (h p hp)⟩

/-! ## What declarations convey -/

/-- A property of types that passes from a type to the signatures that it offers, under some bounds. -/
structure Conveys (T : Table) (Δ : Bounds) (P : Ty → Prop) : Prop where
  bound : ∀ {p b}, Δ.find? p = some b → P b
  source : ∀ {c args td}, P (.named c args) → T.type? c = some td → td.formals.length = args.length →
    P (td.source.subst (instantiation td.formals args))
  embed : ∀ {ms c args}, P (.interface ms) → .embed c args ∈ ms → P (.named c args)
  method : ∀ {ms s}, P (.interface ms) → .method s ∈ ms → P s.alone
  declared : ∀ {md args}, md ∈ T.methodDecls → P (.named md.recvType args) →
    T.Within Δ md.recvFormals args → P (md.sig.subst (instantiation md.recvFormals args)).alone

/-- A property of types that the declarations and some bounds keep. -/
structure Stable (T : Table) (Δ : Bounds) (P : Ty → Prop) : Prop extends T.Conveys Δ P where
  field : ∀ {fs f}, P (.struct fs) → f ∈ fs → P f.ty

variable {T : Table} {Δ : Bounds} {P : Ty → Prop}

namespace Conveys

theorem of_underlying (h : T.Conveys Δ P) {c : String} {args : List Ty} {u : Ty}
    (ht : P (.named c args)) (hu : T.underlying (.named c args) = .ok u) : P u := by
  obtain ⟨td, htd, hl, rfl⟩ := underlying_eq_ok.1 hu
  exact h.source ht htd hl

theorem of_resolves (h : T.Conveys Δ P) {t v : Ty} (ht : P t) (hv : T.Resolves t v) : P v := by
  induction hv with
  | stop => exact ht
  | step head _ ih => exact ih (h.of_underlying ht head)

/-- What a type embeds along its definition chain. -/
theorem of_embed (h : T.Conveys Δ P) {t : Ty} {ms : List Member} {c : String} {args : List Ty}
    (ht : P t) (hms : T.resolve t = .ok (.interface ms)) (hm : .embed c args ∈ ms) :
    P (.named c args) :=
  h.embed (h.of_resolves ht (resolves_of_resolve hms)) hm

/-- **The signatures that a type with the property offers have it.** -/
theorem of_methods (h : T.Conveys Δ P) {n : Nat} {t : Ty} {S : MethodSet} (ht : P t)
    (hS : T.methods Δ n t = .ok S) : ∀ s ∈ S, P s.alone := by
  induction n generalizing t S with
  | zero => cases hS
  | succ n ih =>
    rw [methods_succ] at hS
    cases t with
    | interface ms =>
      exact forall_of_memberMethods hS (fun s hs => absurd hs List.not_mem_nil)
        (fun s hs => h.method ht hs) fun c args hm E hE => ih (h.embed ht hm) hE
    | named c args =>
      obtain ⟨v, hv, hS⟩ := Answer.bind_eq_ok.1 hS
      have hv := Answer.ofExcept_eq_ok.1 hv
      split at hS
      · exact ih (h.of_resolves ht (resolves_of_resolve hv)) hS
      · intro s hs
        rcases of_mem_declaredMethods hS hs with hs | ⟨md, hmd, η, hr, rfl⟩
        · cases hs
        · obtain ⟨hl, rfl, hwithin⟩ := receiverBy_eq_some.1 hr
          obtain ⟨hdecl, rfl⟩ := mem_methodsOn.1 hmd
          exact h.declared hdecl ht (within_of_implements hl hwithin)
    | param p =>
      obtain ⟨b, hb, hS⟩ := Answer.bind_eq_ok.1 hS
      exact ih (h.bound (boundOf_eq_ok.1 (Answer.ofExcept_eq_ok.1 hb))) hS
    | prim p =>
      obtain rfl := Answer.ok.inj hS
      exact fun s hs => absurd hs List.not_mem_nil
    | struct fs =>
      obtain rfl := Answer.ok.inj hS
      exact fun s hs => absurd hs List.not_mem_nil
    | var v =>
      obtain rfl := Answer.ok.inj hS
      exact fun s hs => absurd hs List.not_mem_nil

end Conveys

theorem Stable.of_structFields (h : T.Stable Δ P) {t : Ty} {fs : List Slot} (ht : P t)
    (hfs : T.structFields t = .ok (some fs)) {f : Slot} (hf : f ∈ fs) : P f.ty :=
  h.field (h.of_resolves ht (Checker.resolves_of_structFields hfs)) hf

end Table

/-! ## Hereditary properties -/

/-- A property of types that passes to the parts of a type and that substitution keeps. -/
structure Ty.Hereditary (P : Ty → Prop) : Prop where
  prim : ∀ p, P (.prim p)
  part : ∀ {t a}, P t → a ∈ t.parts → P a
  embed : ∀ {ms c args}, P (.interface ms) → .embed c args ∈ ms → P (.named c args)
  method : ∀ {ms s}, P (.interface ms) → .method s ∈ ms → P s.alone
  subst : ∀ {t η}, P t → (∀ a x, η.find? a = some x → P x) → P (t.subst η)

/-- The sources of types, the signatures of methods and the types in their bodies have a property. -/
structure Table.Writes (T : Table) (P : Ty → Prop) : Prop where
  sources : ∀ c td, T.type? c = some td → P td.source
  signatures : ∀ md ∈ T.methodDecls, P md.sig.alone
  bodies : ∀ md ∈ T.methodDecls, ∀ t ∈ md.body.types, P t

namespace Ty.Hereditary

variable {T : Table} {Δ : Bounds} {P : Ty → Prop}

theorem instantiate (hP : Ty.Hereditary P) {t : Ty} (ht : P t) {formals : List Slot}
    {args : List Ty} (hargs : ∀ a ∈ args, P a) : P (t.subst (instantiation formals args)) :=
  hP.subst ht fun _ _ hx => hargs _ (mem_of_find?_instantiation hx).2

/-- The types of a signature. -/
theorem of_alone (hP : Ty.Hereditary P) {s : Signature} (hs : P s.alone) {t : Ty}
    (ht : t ∈ s.types) : P t :=
  hP.part hs (List.mem_flatMap.2 ⟨_, List.mem_singleton_self _, ht⟩)

/-- **A hereditary property is stable** where declarations write it. -/
theorem stable (hP : Ty.Hereditary P) (hT : T.Writes P) (hΔ : Δ.All P) : T.Stable Δ P where
  bound h := hΔ _ (Env.mem_of_find? h)
  source ht htd _ := hP.instantiate (hT.sources _ _ htd) fun _ ha => hP.part ht ha
  field ht hf := hP.part ht (List.mem_map_of_mem hf)
  embed := hP.embed
  method := hP.method
  declared hmd ht _ := by
    rw [← Signature.subst_alone]
    exact hP.instantiate (hT.signatures _ hmd) fun _ ha => hP.part ht ha

end Ty.Hereditary

/-! ## Properties of nested types -/

/-- Every type below the head of a type has a property throughout. What the fields of a struct hold plays
no role for methods. -/
def Ty.Holds (N : Ty → Prop) (t : Ty) : Prop :=
  (∃ fs, t = .struct fs) ∨ ∀ u ∈ t.parts, u.Everywhere N

namespace Ty.Holds

variable {N : Ty → Prop}

theorem of_everywhere {t : Ty} (ht : t.Everywhere N) : t.Holds N := .inr fun _ hu => ht.of_mem_parts hu

theorem types {s : Signature} (hs : s.alone.Holds N) : ∀ u ∈ s.types, u.Everywhere N := by
  rcases hs with ⟨fs, hs⟩ | hs
  · cases hs
  · exact fun u hu => hs u (List.mem_flatMap.2 ⟨_, List.mem_singleton_self _, hu⟩)

variable (hparam : ∀ p, N (.param p)) (hself : ∀ t η, (∀ p, t ≠ .param p) → N t → N (Ty.subst η t))
include hparam hself

theorem subst {t : Ty} (ht : t.Holds N) {η : Env Ty} (hη : ∀ a x, η.find? a = some x → x.Everywhere N) :
    (t.subst η).Holds N := by
  rcases ht with ⟨fs, rfl⟩ | ht
  · exact .inl ⟨_, subst_struct _⟩
  by_cases hp : ∃ p, t = .param p
  · obtain ⟨p, rfl⟩ := hp
    rw [subst_param]
    cases hx : η.find? p with
    | none => exact .inr (List.forall_mem_nil _)
    | some x => exact .of_everywhere (hη p x hx)
  · refine .inr fun a ha => ?_
    obtain ⟨u, hu, ha⟩ := exists_of_mem_forall₂ (forall₂_parts_subst (fun p he => hp ⟨p, he⟩) η).flip ha
    have hrelabelling {names fresh : List String} : ∀ b x,
        (Signature.relabelling names fresh).find? b = some x → x.Everywhere N := by
      intro b x hx
      obtain ⟨q, rfl⟩ := Signature.isRenaming_relabelling _ _ b x hx
      exact Everywhere.iff_parts.2 ⟨hparam q, List.forall_mem_nil _⟩
    have hvisible (s : Signature) : ∀ b x, (s.visible η).find? b = some x → x.Everywhere N :=
      fun b x hx => hη b x (Signature.find?_of_find?_visible hx).2
    rcases ha with rfl | ⟨s, -, rfl | rfl⟩
    · exact (ht u hu).subst_of hparam hself hη
    · exact (ht u hu).subst_of hparam hself (hvisible s)
    · exact ((ht u hu).subst_of hparam hself hrelabelling).subst_of hparam hself (hvisible s)

/-- **A property that substitution keeps at every single type is conveyed below heads.** -/
theorem conveys {T : Table} {Δ : Bounds} (hΔ : ∀ a b, Δ.find? a = some b → b.Holds N)
    (hsources : ∀ c td, T.type? c = some td → td.source.Holds N)
    (hsigs : ∀ md ∈ T.methodDecls, md.sig.alone.Holds N) : T.Conveys Δ (Ty.Holds N) := by
  have hargs {c : String} {args : List Ty} (h : (Ty.named c args).Holds N) {formals : List Slot} :
      ∀ a x, (instantiation formals args).find? a = some x → x.Everywhere N := by
    rcases h with ⟨fs, h⟩ | h
    · cases h
    · exact fun a x hx => h x (mem_of_find?_instantiation hx).2
  have hmembers {ms : List Member} (h : (Ty.interface ms).Holds N) {m : Member} (hm : m ∈ ms) :
      ∀ u ∈ m.types, u.Everywhere N := by
    rcases h with ⟨fs, h⟩ | h
    · cases h
    · exact fun u hu => h u (List.mem_flatMap.2 ⟨m, hm, hu⟩)
  constructor
  · exact fun h => hΔ _ _ h
  · exact fun ht htd _ => (hsources _ _ htd).subst hparam hself (hargs ht)
  · exact fun h hm => .inr (hmembers h hm)
  · intro ms s h hm
    refine .inr fun u hu => hmembers h hm u ?_
    simpa [Signature.alone, Member.types] using hu
  · intro md args hmd ht _
    rw [← Signature.subst_alone]
    exact (hsigs md hmd).subst hparam hself (hargs ht)

end Ty.Holds

end FeatherGo
