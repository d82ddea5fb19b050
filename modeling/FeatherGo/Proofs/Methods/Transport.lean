import FeatherGo.Proofs.Methods.Becoming
import FeatherGo.Proofs.Methods.Stable

/-!
# Methods under a change of types

Types are put in for variables or for the type parameters of a context, and the result is read under a
context of its own. What a type offers is then offered, with its types changed, by what the type becomes
(`Table.Transports.methods_becomes`): an interface offers exactly these signatures, other types may offer
more, since more receivers may apply. So a type that implements another goes on to do so
(`Table.Transports.implements_becomes`).

The declarations bind none of the names in the contexts below their heads, and what is put in for a type
parameter offers at least what becomes of its bound (`Table.Transports`).
-/

namespace FeatherGo

/-! ## Method sets -/

namespace MethodSet

variable {f : Ty → Ty} {S S' E E' : MethodSet}

/-- The second method set has what becomes of each signature of the first. -/
def Carried (f : Ty → Ty) (S S' : MethodSet) : Prop :=
  ∀ s ∈ S, ∃ s', S'.find? s.name = some s' ∧ s.Changed f s'

theorem Carried.of_forall₂ (hS' : S'.Sorted) (h : List.Forall₂ (Signature.Changed f) S S') :
    Carried f S S' := by
  intro s hs
  obtain ⟨s', hs', hchanged⟩ := exists_of_mem_forall₂ h hs
  exact ⟨s', hchanged.name ▸ find?_of_mem hS' hs', hchanged⟩

theorem forall₂_add {s s' : Signature} (hs : s.Changed f s')
    (h : List.Forall₂ (Signature.Changed f) S S') :
    List.Forall₂ (Signature.Changed f) (add s S) (add s' S') := by
  induction h with
  | nil => exact .cons hs .nil
  | @cons t t' ts ts' ht hts ih =>
    rw [add, add, hs.name, ht.name]
    split
    · exact .cons hs (.cons ht hts)
    · split
      · exact .cons ht hts
      · exact .cons ht ih

theorem forall₂_union (h : List.Forall₂ (Signature.Changed f) S S')
    (hE : List.Forall₂ (Signature.Changed f) E E') :
    List.Forall₂ (Signature.Changed f) (union S E) (union S' E') := by
  rw [union, union]
  induction hE generalizing S S' with
  | nil => exact h
  | cons he _ ih => exact ih (forall₂_add he h)

/-- If one method set covers another, so does what carries it cover what the other becomes. -/
theorem Carried.covers {W W' : MethodSet} (hS : Carried f S S') (h : S.Covers W)
    (hW : List.Forall₂ (Signature.Changed f) W W') : S'.Covers W' := by
  intro w' hw'
  obtain ⟨w, hw, hchanged⟩ := exists_of_mem_forall₂ hW.flip hw'
  obtain ⟨o, ho, heq⟩ := h w hw
  obtain ⟨hmem, hname⟩ := mem_of_find? ho
  obtain ⟨o', ho', hochanged⟩ := hS o hmem
  exact ⟨o', by rw [hchanged.name, ← hname, ho'], hochanged.alphaEq_of hchanged heq⟩

/-- What covers a method set carries what that carries. -/
theorem Carried.of_covers (hS : Carried f S S') (h : E.Covers S') : Carried f S E := by
  intro s hs
  obtain ⟨s', hs', hchanged⟩ := hS s hs
  obtain ⟨o, ho, heq⟩ := h s' (mem_of_find? hs').1
  exact ⟨o, hchanged.name ▸ ho, hchanged.of_alphaEq heq⟩

end MethodSet

theorem Ty.Holds.of_exposed {N : Ty → Prop} {t : Ty} (h : ∀ u ∈ t.exposed, u.Everywhere N) :
    t.Holds N := by
  cases t with
  | struct fs => exact .inl ⟨fs, rfl⟩
  | interface ms => exact .inr h
  | _ => exact .of_everywhere (h _ (List.mem_singleton_self _))

namespace Table

variable {T : Table} {strict : Bool} {rank : String → Nat} {names : List String} {Δ Δ' : Bounds}
  {f : Ty → Ty}

/-- Members become members that offer what the signatures become, if what they embed does. -/
theorem memberMethods_becomes {V : Vocabulary} {names scope : List String} {find find' : Finder}
    {ms ms' : List Member} {acc acc' S : MethodSet}
    (hms : List.Forall₂ (Member.Becomes V names scope f) ms ms')
    (hfind : ∀ c args, V.embeds c → (Ty.named c args).Clear V names scope →
      ∀ E, find (.named c args) = .ok E →
        ∃ E', find' (.named c (args.map f)) = .ok E' ∧ List.Forall₂ (Signature.Changed f) E E')
    (hacc : List.Forall₂ (Signature.Changed f) acc acc') (h : memberMethods find ms acc = .ok S) :
    ∃ S', memberMethods find' ms' acc' = .ok S' ∧ List.Forall₂ (Signature.Changed f) S S' := by
  induction hms generalizing acc acc' with
  | nil => exact ⟨acc', rfl, Answer.ok.inj h ▸ hacc⟩
  | cons hm _ ih =>
    cases hm with
    | method hs => exact ih (MethodSet.forall₂_add hs hacc) h
    | @embed c args hembeds hclear =>
      obtain ⟨E, hE, h⟩ := Answer.bind_eq_ok.1 h
      obtain ⟨E', hE', hEE'⟩ := hfind c args hembeds hclear E hE
      obtain ⟨S', hS', hSS'⟩ := ih (MethodSet.forall₂_union hacc hEE') h
      exact ⟨S', Answer.bind_eq_ok.2 ⟨E', hE', hS'⟩, hSS'⟩

/-! ## Contexts -/

/-- The bounds in a context are scoped there and may bound. -/
def Bounded (T : Table) (strict : Bool) (Δ : Bounds) : Prop :=
  ∀ a b, Δ.find? a = some b → b.Scoped (T.vocabulary strict) false Δ.names [] ∧ T.BoundType b

theorem BoundType.ne_struct {t : Ty} (h : T.BoundType t) (fs : List Slot) : t ≠ .struct fs := by
  rintro rfl
  exact h

theorem headed_of_clear {names scope : List String} {t : Ty}
    (ht : t.Clear (T.vocabulary strict) names scope) : T.Headed t := by
  have hscoped : t.Scoped (T.vocabulary strict) false scope [] := ht.scoped
  exact headed_of_scoped hscoped

/-- A type parameter offers what its bound offers. -/
theorem allMethods_param {a : String} {b : Ty} (hb : Δ.find? a = some b) :
    T.allMethods Δ (.param a) = T.allMethods Δ b := by
  rw [allMethods_eq, gather, boundOf_eq_ok.2 hb]
  rfl

/-- What is scoped in the context has a method set. -/
theorem Lawful.methods_of_bounded (h : T.Lawful strict rank) (hΔ : T.Bounded strict Δ) {t : Ty}
    (ht : t.Scoped (T.vocabulary strict) false Δ.names []) : ∃ S, T.allMethods Δ t = .ok S := by
  refine h.methods_of_params ht fun a ha => ?_
  obtain ⟨b, hb⟩ := Option.isSome_iff_exists.1 (Env.find?_isSome.2 ha)
  obtain ⟨hs, hbound⟩ := hΔ a b hb
  rw [allMethods_param hb]
  cases b with
  | prim p => exact ⟨[], by rw [allMethods_eq]; rfl⟩
  | named c args => exact h.interfaceMethods_total hs hbound Δ
  | interface ms => exact h.interfaceMethods_total hs hbound Δ
  | _ => exact hbound.elim

/-- Under a context a type offers at least what another one does. -/
def CoversIn (T : Table) (Δ : Bounds) (t u : Ty) : Prop :=
  ∀ W, T.allMethods Δ u = .ok W → ∃ S, T.allMethods Δ t = .ok S ∧ S.Covers W

/-- What implements a type offers what this offers. -/
theorem Lawful.coversIn_of_implementsBy (h : T.Lawful strict rank) (hΔ : T.Bounded strict Δ) {t u : Ty}
    (ht : t.Scoped (T.vocabulary strict) false Δ.names [])
    (himp : T.implementsBy (T.allMethods Δ) t u = .ok true) : T.CoversIn Δ t u := by
  intro W hW
  rcases eq_or_isInterface himp with rfl | ⟨hi, hv⟩
  · exact ⟨W, hW, MethodSet.covers_refl (sorted_allMethods hW)⟩
  · obtain ⟨W', hW', hor⟩ := of_implementsBy_interface hv hi himp
    obtain rfl := Answer.ok.inj (hW.symm.trans hW')
    rcases hor with rfl | hS
    · obtain ⟨S, hS⟩ := h.methods_of_bounded hΔ ht
      exact ⟨S, hS, MethodSet.covers_nil S⟩
    · exact hS

/-- The declarations have no variable that a map changes and bind none of some names, below their
heads. -/
structure Untouched (T : Table) (f : Ty → Ty) (names : List String) : Prop where
  sources : ∀ c td, T.type? c = some td → td.source.Untouched f names
  receivers : ∀ md ∈ T.methodDecls, ∀ x ∈ md.recvFormals, x.ty.Untouched f names
  signatures : ∀ md ∈ T.methodDecls, md.sig.alone.Untouched f names

/-- A map of types carries what types offer from one context to another. -/
structure Transports (T : Table) (strict : Bool) (names : List String) (Δ Δ' : Bounds)
    (f : Ty → Ty) : Prop extends Ty.Replaces (T.vocabulary strict) names Δ.names Δ'.names f,
    T.Untouched f names where
  bounded : T.Bounded strict Δ'
  bounds : ∀ a b, Δ.find? a = some b → ∃ b',
    b.Becomes (T.vocabulary strict) names Δ.names f b' ∧ T.CoversIn Δ' (f (.param a)) b'

/-- What a type offers is carried by what it becomes; of an interface, exactly. -/
def Follows (T : Table) (Δ : Bounds) (f : Ty → Ty) (t t' : Ty) (S : MethodSet) : Prop :=
  ∃ S', T.allMethods Δ t' = .ok S' ∧ S.Carried f S'
    ∧ (T.InterfaceType t → List.Forall₂ (Signature.Changed f) S S')

theorem Follows.of_forall₂ {t t' : Ty} {S S' : MethodSet} (h : T.allMethods Δ t' = .ok S')
    (hS : List.Forall₂ (Signature.Changed f) S S') : T.Follows Δ f t t' S :=
  ⟨S', h, .of_forall₂ (sorted_allMethods h) hS, fun _ => hS⟩

namespace Transports

variable (hf : T.Transports strict names Δ Δ' f)
include hf

/-- An interface becomes one. -/
theorem interfaceType {t : Ty} (ht : t.Clear (T.vocabulary strict) names Δ.names)
    (h : T.InterfaceType t) : T.InterfaceType (f t) := by
  cases t with
  | named c args =>
    rw [hf.named]
    exact h
  | interface ms =>
    obtain ⟨ms', he, -⟩ := hf.members ht
    rw [he]
    trivial
  | _ => exact h.elim

variable (h : T.Lawful strict rank)
include h

/-- A definition chain follows one of the type that its start becomes: either both end in interfaces, or
neither does. -/
theorem resolves {t v : Ty} (ht : t.Clear (T.vocabulary strict) names Δ.names)
    (hnamed : t.isNamed = true) (hv : T.Resolves t v) : ∃ v', T.Resolves (f t) v'
      ∧ ((∀ ms, v ≠ .interface ms) ∨ v.Becomes (T.vocabulary strict) names Δ.names f v') := by
  induction hv with
  | @stop t unnamed =>
    cases t with
    | named c args => exact unnamed.elim
    | _ => cases hnamed
  | @step c args u v head rest ih =>
    obtain ⟨td, htd, hl, rfl⟩ := underlying_eq_ok.1 head
    have hlawful := h.types c td htd
    have hhead : T.underlying (.named c (args.map f))
        = .ok (td.source.subst (instantiation td.formals (args.map f))) :=
      underlying_eq_ok.2 ⟨td, htd, by simpa using hl, rfl⟩
    rw [hf.named]
    by_cases hstruct : ∃ fs, td.source = .struct fs
    · obtain ⟨fs, hs⟩ := hstruct
      rw [hs, Ty.subst_struct] at rest hhead
      cases rest
      exact ⟨_, .step hhead (.stop trivial), .inl nofun⟩
    have hbecomes := hf.becomes_subst hlawful.source hlawful.formals hl (hf.sources c td htd) ht.args
      fun fs he => hstruct ⟨fs, he⟩
    have hform := hlawful.isSource
    cases hs : td.source with
    | named d ds =>
      rw [hs, Ty.subst_named] at hbecomes
      rw [hs] at hhead ih
      generalize (Ty.named d ds).subst (instantiation td.formals (args.map f)) = u' at hbecomes hhead
      cases hbecomes with
      | clear hclear =>
        obtain ⟨v', hv', hor⟩ := ih (by rwa [Ty.subst_named]) (by simp [Ty.isNamed, Ty.head?])
        rw [Ty.subst_named] at hv'
        exact ⟨v', .step hhead hv', hor⟩
    | struct fs => exact absurd ⟨fs, hs⟩ hstruct
    | interface ms =>
      rw [hs] at hbecomes hhead rest
      rw [Ty.subst_interface] at rest hbecomes
      cases rest
      refine ⟨_, .step hhead (.stop ?_), .inr hbecomes⟩
      rw [Ty.subst_interface]
      trivial
    | _ => simp [hs, Ty.isSource] at hform

/-- What a type becomes implements what another becomes, if the one implements the other. This is the
step for receivers in the induction on fuel. -/
theorem implements_becomes_of {find : Finder}
    (hfind : ∀ {t t' S}, t.Becomes (T.vocabulary strict) names Δ.names f t' → find t = .ok S →
      T.Follows Δ' f t t' S)
    {sub sup sup' : Ty} (hsub : sub.Clear (T.vocabulary strict) names Δ.names)
    (hsup : sup.Becomes (T.vocabulary strict) names Δ.names f sup')
    (himp : T.implementsBy find sub sup = .ok true) :
    T.implementsBy (T.allMethods Δ') (f sub) sup' = .ok true := by
  have hself := h.shaped.implementsBy_refl (headed_of_clear (hf.clear hsub)) Δ'
  by_cases hi : T.isInterface sup = .ok true ∧ ∀ v, sub ≠ .var v
  · obtain ⟨hi, hv⟩ := hi
    have htype := interfaceType_of_isInterface h.hasSources hi
    have hi' : T.isInterface sup' = .ok true := by
      cases hsup with
      | clear hclear =>
        exact h.isInterface_eq_true (hf.clear hclear).scoped (hf.interfaceType hclear htype)
      | interface _ => rfl
    obtain ⟨W, hW, hor⟩ := of_implementsBy_interface hv hi himp
    obtain ⟨W', hW', -, hexact⟩ := hfind hsup hW
    obtain ⟨S', hS'⟩ := h.methods_of_bounded hf.bounded (hf.clear hsub).scoped
    rw [implementsBy_interface (hf.ne_var hsub hv) hi' hW' hS', MethodSet.covers_iff.2]
    rcases hor with rfl | ⟨S, hS, hcovers⟩
    · cases hexact htype
      exact MethodSet.covers_nil S'
    · obtain ⟨S'', hS'', hcarried, -⟩ := hfind (.clear hsub) hS
      obtain rfl := Answer.ok.inj (hS'.symm.trans hS'')
      exact hcarried.covers hcovers (hexact htype)
  · obtain rfl := (eq_or_isInterface himp).resolve_right hi
    cases hsup with
    | clear _ => exact hself
    | interface _ => exact absurd ⟨rfl, fun v => nofun⟩ hi

/-- The methods declared on a type that apply to some arguments apply to what these become, and their
signatures are carried. -/
theorem carried_declaredMethods {find : Finder}
    (hfind : ∀ {t t' S}, t.Becomes (T.vocabulary strict) names Δ.names f t' → find t = .ok S →
      T.Follows Δ' f t t' S)
    {c : String} {args : List Ty} {S S' : MethodSet}
    (hargs : ∀ a ∈ args, a.Clear (T.vocabulary strict) names Δ.names)
    (hS : T.declaredMethods find args (T.methodsOn c) [] = .ok S)
    (hS' : T.declaredMethods (T.allMethods Δ') (args.map f) (T.methodsOn c) [] = .ok S') :
    S.Carried f S' := by
  intro s hs
  have hfound := MethodSet.find?_of_mem (sorted_declaredMethods hS .nil) hs
  obtain ⟨md, η, hmd, hr, rfl⟩ := (h.methodsUnique.find?_declaredMethods hS).1 hfound
  obtain ⟨hl, rfl, hwithin⟩ := receiverBy_eq_some.1 hr
  rw [Signature.name_subst] at hmd
  obtain ⟨hmem, -, -⟩ := of_method? hmd
  have hlawful := h.methods md hmem
  have hl' : md.recvFormals.length = (args.map f).length := by simpa using hl
  refine ⟨md.sig.subst (instantiation md.recvFormals (args.map f)), ?_, ?_⟩
  · rw [Signature.name_subst, h.methodsUnique.find?_declaredMethods hS']
    refine ⟨md, _, hmd, receiverBy_eq_some.2 ⟨hl', rfl, ?_⟩, rfl⟩
    rw [List.zip_map_right]
    refine List.forall_mem_map.2 fun p hp => ?_
    have hx := (List.of_mem_zip hp).1
    refine hf.implements_becomes_of h hfind (hargs p.2 (List.of_mem_zip hp).2) ?_ (hwithin p hp)
    exact hf.becomes_subst (hlawful.bounds p.1 hx) hlawful.formals hl (hf.receivers md hmem p.1 hx) hargs
      (hlawful.boundTypes p.1 (List.mem_append_left _ hx)).ne_struct
  · have hs := hlawful.sig.inner
    have hexposed {u : Ty} (hu : u ∈ md.sig.types) : u ∈ md.sig.alone.exposed :=
      List.mem_flatMap.2 ⟨_, List.mem_singleton_self _, hu⟩
    have huntouched := hf.signatures md hmem
    exact hf.changed_instantiate hs hlawful.formals hl
      (fun u hu => huntouched.apart (Signature.scoped_alone.2 hs) u (hexposed hu))
      (fun u hu => (huntouched u (hexposed hu)).1) hargs

/-- What a named type offers is carried by what it becomes. Its definition chain says whether this is
what an interface lists or what is declared on it. -/
theorem follows_named {find : Finder}
    (hfind : ∀ {t t' S}, t.Becomes (T.vocabulary strict) names Δ.names f t' → find t = .ok S →
      T.Follows Δ' f t t' S)
    {c : String} {args : List Ty} {S : MethodSet}
    (hclear : (Ty.named c args).Clear (T.vocabulary strict) names Δ.names)
    (hS : T.gather Δ find (.named c args) = .ok S) :
    T.Follows Δ' f (.named c args) (f (.named c args)) S := by
  obtain ⟨v, hv, hS⟩ := Answer.bind_eq_ok.1 hS
  rw [Answer.liftExcept_eq, Answer.ofExcept_eq_ok] at hv
  have hres := resolves_of_resolve hv
  obtain ⟨v', hres', hor⟩ := hf.resolves h hclear rfl hres
  have hclear' := hf.clear hclear
  rw [hf.named] at hres' hclear'
  have hscoped : (Ty.named c (args.map f)).Scoped (T.vocabulary strict) false Δ'.names [] :=
    hclear'.scoped
  have hv' := (h.resolve_iff hscoped).2 hres'
  have hiff := h.resolves_interface_iff hres
  rw [hf.named]
  by_cases hi : ∃ ms, v = .interface ms
  · obtain ⟨ms, rfl⟩ := hi
    have hbecomes := hor.resolve_left fun hne => hne ms rfl
    obtain ⟨ms', rfl⟩ := (h.resolves_interface_iff hres').2 (hiff.1 ⟨ms, rfl⟩)
    obtain ⟨S', hS', -, hexact⟩ := hfind hbecomes hS
    exact .of_forall₂ (allMethods_of_resolve_interface hv' ▸ hS') (hexact trivial)
  · have hnot : ¬T.NamesInterface c := fun hn => hi (hiff.2 hn)
    have hS : T.declaredMethods find args (T.methodsOn c) [] = .ok S := by
      cases v with
      | interface ms => exact absurd ⟨ms, rfl⟩ hi
      | _ => exact hS
    obtain ⟨S', hS'⟩ := h.methods_of_bounded hf.bounded hscoped
    have hne : ∀ ms, v' ≠ .interface ms := fun ms he =>
      hnot ((h.resolves_interface_iff hres').1 ⟨ms, he⟩)
    refine ⟨S', hS', ?_, fun hi => absurd hi hnot⟩
    rw [allMethods_of_resolve hv' hne] at hS'
    exact hf.carried_declaredMethods h hfind hclear.args hS hS'

/-- **What a type offers is carried by what it becomes.** -/
theorem methods_becomes {n : Nat} {t t' : Ty} {S : MethodSet}
    (ht : t.Becomes (T.vocabulary strict) names Δ.names f t') (hS : T.methods Δ n t = .ok S) :
    T.Follows Δ' f t t' S := by
  induction n generalizing t t' S with
  | zero => cases hS
  | succ n ih =>
    rw [methods_succ] at hS
    have hinterface {ms ms' : List Member}
        (hms : List.Forall₂ (Member.Becomes (T.vocabulary strict) names Δ.names f) ms ms')
        (hS : memberMethods (T.methods Δ n) ms [] = .ok S) :
        ∃ S', T.allMethods Δ' (.interface ms') = .ok S'
          ∧ List.Forall₂ (Signature.Changed f) S S' := by
      rw [allMethods_interface]
      refine memberMethods_becomes hms (fun c args hembeds hclear E hE => ?_) .nil hS
      obtain ⟨E', hE', -, hexact⟩ := ih (.clear hclear) hE
      rw [hf.named] at hE'
      exact ⟨E', hE', hexact hembeds⟩
    cases ht with
    | interface hms =>
      obtain ⟨S', hS', hSS'⟩ := hinterface hms hS
      exact .of_forall₂ hS' hSS'
    | clear hclear =>
      -- A type that offers nothing is carried by whatever it becomes.
      have hempty (hS : S = []) (hi : ¬T.InterfaceType t) : T.Follows Δ' f t (f t) S := by
        obtain ⟨S', hS'⟩ := h.methods_of_bounded hf.bounded (hf.clear hclear).scoped
        exact ⟨S', hS', hS ▸ fun s hs => absurd hs List.not_mem_nil, fun hi' => absurd hi' hi⟩
      cases t with
      | param a =>
        obtain ⟨b, hb, hS⟩ := Answer.bind_eq_ok.1 hS
        rw [Answer.liftExcept_eq, Answer.ofExcept_eq_ok, boundOf_eq_ok] at hb
        obtain ⟨b', hbecomes, hcovers⟩ := hf.bounds a b hb
        obtain ⟨W, hW, hcarried, -⟩ := ih hbecomes hS
        obtain ⟨S', hS', hcovers⟩ := hcovers W hW
        exact ⟨S', hS', hcarried.of_covers hcovers, fun hi => hi.elim⟩
      | named c args =>
        exact hf.follows_named h ih hclear hS
      | prim p => exact hempty (Answer.ok.inj hS).symm id
      | struct fs => exact hempty (Answer.ok.inj hS).symm id
      | interface ms =>
        obtain ⟨ms', he, hms⟩ := hf.members hclear
        obtain ⟨S', hS', hSS'⟩ := hinterface hms hS
        rw [he]
        exact .of_forall₂ hS' hSS'
      | var v => exact hempty (Answer.ok.inj hS).symm id

/-- **A type that implements another goes on to do so** when types are put in. -/
theorem implements_becomes {n : Nat} {sub sup : Ty}
    (hsub : sub.Clear (T.vocabulary strict) names Δ.names)
    (hsup : sup.Clear (T.vocabulary strict) names Δ.names)
    (himp : T.implements n Δ sub sup = .ok true) :
    T.implementsBy (T.allMethods Δ') (f sub) (f sup) = .ok true :=
  hf.implements_becomes_of h (fun ht hS => hf.methods_becomes h ht hS) hsub (.clear hsup) himp

end Transports

end Table

end FeatherGo
