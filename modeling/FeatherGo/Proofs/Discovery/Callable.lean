import FeatherGo.Proofs.Discovery.Proper
import FeatherGo.Proofs.Methods.Preorder
import FeatherGo.Proofs.Methods.Values
import FeatherGo.Proofs.Typing.Offering

/-!
# Discovered calls are within bounds

Where the values of a program have simple types, discovery answers simple types alone, and every method
instance that it answers is a call which the receiver type offers, at type arguments within the bounds of
the method (`Table.Simple.of_discover`): the instances like that are a saturated set. On a declared type
that is no interface an offered call is one at which the body of the method is typed
(`Table.Offered.applies`).
-/

namespace FeatherGo

namespace Table

/-- What the check establishes of a plain program whose values have simple types. -/
structure Simple (T : Table) (rank : String → Nat) : Prop where
  wellFormed : T.WellFormed true rank
  apart : ∀ c ms, T.Lists c ms → T.Apart ms
  bodiesTyped : T.BodiesTyped true
  bodiesWritten : T.BodiesWritten true
  valued : T.Valued
  bodiesNamed : ∀ md ∈ T.methodDecls, ∀ u ∈ md.body.namedTypes, u.isSimple = true

/-- The type of a value: it is closed and no literal. -/
def ValueType (T : Table) (t : Ty) : Prop := t.Closed (T.vocabulary true) ∧ t.isSimple = true

/-- An interface type of values is declared. -/
theorem ValueType.exists_named {T : Table} {t : Ty} (h : T.ValueType t) {ms : List Member}
    (hms : T.resolve t = .ok (.interface ms)) : ∃ c args, t = .named c args := by
  cases t with
  | named c args => exact ⟨c, args, rfl⟩
  | interface ms' => cases h.2
  | _ => cases hms

/-- A call that its receiver type offers, at type arguments within the bounds. -/
def Offered (T : Table) (m : MethodInstance) : Prop :=
  ∃ S sig, T.allMethods [] m.recv = .ok S ∧ S.find? m.meth = some sig ∧ T.Within [] sig.formals m.targs

variable {T : Table} {rank : String → Nat}

/-- What the substitution of a method gives is simple. -/
theorem isSimple_of_instantiation {md : MethodDecl} {args targs : List Ty} (ha : md.Fits T true args targs)
    {a : String} {x : Ty} (hx : (md.instantiation args targs).find? a = some x) : x.isSimple = true :=
  Ty.isSimple_of_flat (closed_of_find?_instantiation ha hx).2

/-! ## Simple types are kept -/

namespace Simple

variable (h : T.Simple rank)
include h

/-- The declarations keep the types of values. -/
theorem keeps : T.Keeps [] T.ValueType fun t => t.flat true = true where
  bound _ _ hb := by cases hb
  prim p := ⟨⟨.prim p, rfl⟩, rfl⟩
  field t fs ht hfs f hf :=
    ⟨h.wellFormed.keeps_closed.field t fs ht.1 hfs f hf,
      h.wellFormed.isSimple_of_structFields h.valued ht.1 ht.2 hfs hf⟩
  signature n t S m sig targs ht hS hsig hl htargs := by
    have hgiven : T.Given true targs := fun u hu => ⟨(htargs u hu).1.1, (htargs u hu).2⟩
    obtain ⟨hparams, hresult⟩ :=
      h.wellFormed.keeps_closed.signature n t S m sig targs ht.1 hS hsig hl hgiven
    have hvalues := Signature.forall_values.1
      (h.wellFormed.isSimple_of_methods h.valued ht.1 ht.2 hS (MethodSet.mem_of_find? hsig).1)
    have hη : ∀ a x, (instantiation sig.formals targs).find? a = some x → x.isSimple = true :=
      fun a x hx => (htargs x (mem_of_find?_instantiation hx).2).1.2
    exact ⟨fun p hp => ⟨hparams p hp, Ty.isSimple_subst (hvalues.1 p hp) hη⟩,
      hresult, Ty.isSimple_subst hvalues.2 hη⟩

section Bodies

variable {md : MethodDecl} (hmd : md ∈ T.methodDecls) {args targs : List Ty}
  (ha : md.Fits T true args targs)
include hmd ha

/-- The values that a body names have closed simple types where the formals can be put in. -/
theorem valueType_of_scopeAt {x : String} {t : Ty} (hx : (md.scopeAt args targs).find? x = some t) :
    T.ValueType t := by
  refine ⟨Closure.closed_scopeAt h.wellFormed hmd ha hx, ?_⟩
  rcases List.mem_cons.1 (Env.mem_of_find? hx) with he | hmem
  · rw [(Prod.mk.inj he).2]
    rfl
  · obtain ⟨p, hp, he⟩ := List.mem_map.1 hmem
    have hvalues := h.valued.signatures md hmd
    rw [Ty.Valued, Signature.values_alone] at hvalues
    rw [← (Prod.mk.inj he).2]
    exact Ty.isSimple_subst ((Signature.forall_values.1 hvalues).1 p hp)
      fun _ _ => isSimple_of_instantiation ha

/-- What a body writes is closed and simple where the formals can be put in. -/
theorem over_body : (md.body.substTypes (md.instantiation args targs)).Over T.ValueType
    fun t => t.flat true = true := by
  have hclosed := closed_body (h.bodiesWritten md hmd) ha
  refine ⟨fun t ht => ⟨hclosed.types t ht, ?_⟩, hclosed.calls⟩
  rcases Expr.mem_types.1 ht with hn | hc
  · rw [Expr.namedTypes_substTypes] at hn
    obtain ⟨u, hu, rfl⟩ := List.mem_map.1 hn
    exact Ty.isSimple_subst (h.bodiesNamed md hmd u hu) fun _ _ => isSimple_of_instantiation ha
  · exact Ty.isSimple_of_flat (hclosed.calls t hc)

end Bodies

end Simple

/-! ## Calls within bounds -/

/-- Type arguments within the bounds of a closed signature are within those of one that agrees. -/
theorem Within.of_alphaEq {s o : Signature} {targs : List Ty}
    (hwithin : T.Within [] s.formals targs) (hs : s.Closed (T.vocabulary true))
    (ho : o.Closed (T.vocabulary true)) (heq : o.alphaEq s = true) (hgiven : T.Given true targs) :
    T.Within [] o.formals targs := by
  obtain ⟨-, hformals, hparams, -⟩ := Signature.alphaEq_iff.1 heq
  obtain ⟨hbounds, -⟩ :=
    Signature.parts_eq hformals hparams (ho.at_eq hs heq hwithin.length hgiven)
  refine ⟨hformals.trans hwithin.length, ?_⟩
  exact (forall_mem_zip_congr
    (P := fun b x => T.implementsBy (T.allMethods []) x b = .ok true) hbounds).2 hwithin.bounds

/-- A type that implements an interface has its methods, with signatures that agree. -/
theorem exists_alphaEq_of_implements {t u : Ty} {n : Nat} (hne : ∀ v, t ≠ .var v)
    (hi : T.isInterface u = .ok true) (himp : T.implements n [] t u = .ok true) {S W : MethodSet}
    (hS : T.allMethods [] t = .ok S) (hW : T.allMethods [] u = .ok W) {meth : String} {sig : Signature}
    (hsig : W.find? meth = some sig) : ∃ o, S.find? meth = some o ∧ o.alphaEq sig = true := by
  obtain ⟨W', hW', hcovers⟩ :=
    of_implementsBy_interface hne hi ((T.finitary_implementsBy t u).of_methods himp)
  obtain rfl := Answer.ok.inj (hW.symm.trans hW')
  obtain ⟨hmem, rfl⟩ := MethodSet.mem_of_find? hsig
  obtain ⟨S', hS', hcovers⟩ := hcovers.resolve_left (List.ne_nil_of_mem hmem)
  obtain rfl := Answer.ok.inj (hS.symm.trans hS')
  exact hcovers sig hmem

/-- A call that a declared type offers is one to which its method applies. -/
theorem Offered.applies (h : T.WellFormed true rank) {md : MethodDecl} (hmd : md ∈ T.methodDecls)
    {args targs : List Ty} (hrecv : (Ty.named md.recvType args).Closed (T.vocabulary true))
    (hgiven : T.Given true targs) (hoffered : T.Offered ⟨.named md.recvType args, md.sig.name, targs⟩) :
    md.Applies T true args targs := by
  obtain ⟨S, sig, hS, hsig, hwithin⟩ := hoffered
  have hproper := h.methods md hmd
  obtain ⟨v, hv⟩ := h.lawful.resolve_total hrecv.sealed.inner
  have hnot : ∀ ms, v ≠ .interface ms := by
    rintro ms rfl
    exact hproper.concrete ((h.lawful.resolves_interface_iff (resolves_of_resolve hv)).1 ⟨ms, rfl⟩)
  rw [allMethods_of_resolve hv hnot] at hS
  obtain ⟨md', η, hmd', hr, rfl⟩ := (h.lawful.methodsUnique.find?_declaredMethods hS).1 hsig
  obtain rfl := Option.some.inj (hproper.unique.symm.trans hmd')
  obtain ⟨hl, rfl, hrw⟩ := receiverBy_eq_some.1 hr
  have hlen : md.sig.formals.length = targs.length :=
    (Signature.length_formals_subst _ _).symm.trans hwithin.length
  refine ⟨⟨hrecv, hl, hgiven, hlen⟩, hrw, ?_⟩
  obtain ⟨hbounds, -⟩ := Signature.parts_eq (md.sig.length_formals_subst _) (md.sig.length_params_subst _)
    (hproper.types_at hl hrecv.args hlen hgiven)
  exact (forall_mem_zip_congr (P := fun b x => T.Implements x b) hbounds).1 hwithin.bounds

end Table

/-! ## Collected calls -/

namespace Typed

variable {T : Table} {rank : String → Nat} {Γ : Scope} {C : Checker} {F F' : Instances}

theorem offered_of_collectAll {es : List Expr} {ts : List Ty} (hl : es.length = ts.length)
    (ih : ∀ p ∈ es.zip ts, ∀ {F F'}, (C.collect [] Γ p.1).Ends F () F' →
      (∀ m ∈ F.meths, T.Offered m) → ∀ m ∈ F'.meths, T.Offered m)
    (hc : (C.collectAll [] Γ es).Ends F () F') (hF : ∀ m ∈ F.meths, T.Offered m) :
    ∀ m ∈ F'.meths, T.Offered m := by
  induction es generalizing ts F with
  | nil =>
    obtain ⟨-, rfl⟩ := Track.of_ends_pure hc
    exact hF
  | cons e es ihes =>
    cases ts with
    | nil => simp at hl
    | cons t ts =>
      rw [List.zip_cons_cons, List.forall_mem_cons] at ih
      obtain ⟨⟨⟩, F₁, h₁, hc⟩ := Track.ends_bind.1 hc
      exact ihes (by simpa using hl) ih.2 hc (ih.1 h₁ hF)

/-- The calls that are collected from a typed expression are offered. -/
theorem offered_of_collect (h : T.WellFormed true rank)
    (hΓ : ∀ x t, Γ.find? x = some t → t.Closed (T.vocabulary true)) (hC : C.table = T)
    {e : Expr} {t : Ty} (ht : Typed T true .written Γ e t)
    (hc : (C.collect [] Γ e).Ends F () F') (hF : ∀ m ∈ F.meths, T.Offered m) :
    ∀ m ∈ F'.meths, T.Offered m := by
  induction ht generalizing F F' with
  | var found =>
    obtain ⟨-, rfl⟩ := Track.of_ends_pure hc
    exact hF
  | structLit _ _ _ length _ _ _ ih =>
    obtain ⟨⟨⟩, F₁, h₁, hc⟩ := Track.ends_bind.1 hc
    obtain rfl := Track.of_ends_update hc
    have hF₁ := offered_of_collectAll length (fun p hp => ih p hp) h₁ hF
    exact hF₁
  | select _ _ _ ih => exact ih hc hF
  | @call recv meth targs args t u S sig ts typedRecv used closed methods found arity given within
      length _ _ _ ih ihs =>
    obtain rfl := used
    have hp : ∀ p, t ≠ .prim p := by
      rintro p rfl
      rw [Table.Sub.allMethods_prim] at methods
      obtain rfl := Answer.ok.inj methods
      cases found
    obtain ⟨⟨⟩, F₁, h₁, hc⟩ := Track.ends_bind.1 hc
    obtain ⟨⟨⟩, F₂, h₂, hc⟩ := Track.ends_bind.1 hc
    have hF₂ := offered_of_collectAll length (fun p hp => ihs p hp) h₂ (ih h₁ hF)
    obtain ⟨u, F₃, h₃, hc⟩ := Track.ends_bind.1 hc
    obtain ⟨hu, rfl⟩ := Track.of_ends_lift h₃
    obtain ⟨v, F₄, h₄, hc⟩ := Track.ends_bind.1 hc
    obtain ⟨hv, rfl⟩ := Track.of_ends_lift h₄
    obtain rfl := typedRecv.eq_of_typeOf h hΓ hC hp hu (Answer.ofExcept_eq_ok.1 hv)
    obtain ⟨⟨⟩, F₅, h₅, hc⟩ := Track.ends_bind.1 hc
    obtain rfl := Track.of_ends_update h₅
    obtain rfl := Track.of_ends_update hc
    intro m hm
    rcases List.mem_append.1 hm with hm | hm
    · exact hF₂ m hm
    · exact List.mem_singleton.1 hm ▸ ⟨S, sig, methods, found, arity, within⟩
  | assert _ _ _ ih =>
    obtain ⟨⟨⟩, F₁, h₁, hc⟩ := Track.ends_bind.1 hc
    obtain rfl := Track.of_ends_update hc
    have hF₁ := ih h₁ hF
    exact hF₁
  | sprintf _ length _ ih => exact offered_of_collectAll length (fun p hp => ih p hp) hc hF
  | lit l =>
    obtain ⟨-, rfl⟩ := Track.of_ends_pure hc
    exact hF
  | binary _ _ _ ihl ihr =>
    obtain ⟨⟨⟩, F₁, h₁, hc⟩ := Track.ends_bind.1 hc
    exact ihr hc (ihl h₁ hF)
  | convert _ ih => exact ih hc hF

end Typed

namespace Table.Simple

variable {T : Table} {rank : String → Nat}

/-- Values of simple types, and calls on them that are offered. -/
def sets (T : Table) : InstanceSets :=
  ({t | T.ValueType t}, {m | m.Over T.ValueType (fun t => t.flat true = true) ∧ T.Offered m})

theorem given_of_over {m : MethodInstance}
    (hm : m.Over T.ValueType fun t => t.flat true = true) : T.Given true m.targs :=
  fun t ht => ⟨(hm.targs t ht).1.1, (hm.targs t ht).2⟩

variable (h : T.Simple rank)
include h

/-- What is collected from a typed expression over simple types stays among them. -/
theorem collects_le {Γ : Scope} (hΓ : ∀ x t, Γ.find? x = some t → T.ValueType t) {e : Expr} {t : Ty}
    (he : e.Over T.ValueType fun t => t.flat true = true) (ht : Typed T true .written Γ e t)
    {found : Instances} (hfound : T.Collects Γ e found) : found.sets ≤ sets T := by
  obtain ⟨htypes, hmeths⟩ := Instances.sets_le.1 (h.keeps.collects_le hΓ he hfound)
  obtain ⟨fuel, hc⟩ := hfound
  refine Instances.sets_le.2 ⟨htypes, fun m hm => ⟨hmeths m hm, ?_⟩⟩
  exact ht.offered_of_collect h.wellFormed (fun x t hx => (hΓ x t hx).1) rfl hc
    (fun _ hm => absurd hm List.not_mem_nil) m hm

/-- What an interface embeds has the methods of the interface with the same signatures. -/
theorem find?_embedded {t : Ty} (ht : T.ValueType t) {ms : List Member} {d : String} {as : List Ty} {n : Nat}
    {S E : MethodSet} (hms : T.resolve t = .ok (.interface ms)) (hd : .embed d as ∈ ms)
    (hE : T.methods [] n (.named d as) = .ok E) (hS : T.allMethods [] t = .ok S) {meth : String}
    {sig : Signature} (hsig : S.find? meth = some sig) (hsome : (E.find? meth).isSome = true) :
    T.allMethods [] (.named d as) = .ok E ∧ E.find? meth = some sig := by
  have hshaped := h.wellFormed.lawful.shaped
  obtain ⟨c, args, rfl⟩ := ht.exists_named hms
  obtain ⟨ms', η, hlists, rfl⟩ := hshaped.sources.lists_of_resolves (resolves_of_resolve hms)
  obtain ⟨S', E', hS', hE', hkept, -⟩ := hshaped.implementsBy_embedded (Δ := [])
    (headed_of_scoped ht.1.sealed.inner) hms ((h.apart c ms' hlists).subst η) hd
  obtain rfl := Answer.ok.inj (hS.symm.trans hS')
  obtain rfl := Answer.ok.inj (((Finitary.find _).of_methods hE).symm.trans hE')
  obtain ⟨o, ho⟩ := Option.isSome_iff_exists.1 hsome
  obtain ⟨hmem, hname⟩ := MethodSet.mem_of_find? ho
  have hfound := hkept o hmem
  rw [hname, hsig] at hfound
  exact ⟨hE', ho.trans hfound.symm⟩

/-- **The offered calls on values are a saturated set.** -/
theorem saturated : T.Saturated (sets T) where
  fields t fs ht hfs f hf := h.keeps.field t fs ht hfs f hf
  source c args u ht hu hn := by
    refine ⟨(h.wellFormed.keepsInstances_closed h.bodiesWritten).source c args u ht.1 hu, ?_⟩
    cases u with
    | named d as => rfl
    | _ => cases hn
  embedded c args ms d as ht hms hd :=
    ⟨(h.wellFormed.keepsInstances_closed h.bodiesWritten).embedded _ ms d as ht.1 hms hd, rfl⟩
  implementers m t n hm hi ht hn himp := by
    obtain ⟨W, sig, hW, hsig, hwithin⟩ := hm.2
    obtain ⟨S, hS⟩ := h.wellFormed.lawful.methods_total ht.1.sealed []
    have hne : ∀ v, t ≠ .var v := by
      rintro v rfl
      cases hn
    obtain ⟨o, ho, heq⟩ := exists_alphaEq_of_implements hne hi himp hS hW hsig
    have hsc := h.wellFormed.closed_of_allMethods hm.1.recv.1 hW sig (MethodSet.mem_of_find? hsig).1
    have hoc := h.wellFormed.closed_of_allMethods ht.1 hS o (MethodSet.mem_of_find? ho).1
    exact ⟨⟨ht, hm.1.targs⟩, S, o, hS, ho, hwithin.of_alphaEq hsc hoc heq (given_of_over hm.1)⟩
  embeddings m ms d as n E hm hms hd hE hsome := by
    obtain ⟨S, sig, hS, hsig, hwithin⟩ := hm.2
    obtain ⟨hE', hfound⟩ := h.find?_embedded hm.1.recv hms hd hE hS hsig hsome
    have hclosed := (h.wellFormed.keepsInstances_closed h.bodiesWritten).embedded m.recv ms d as
      hm.1.recv.1 hms hd
    exact ⟨⟨⟨hclosed, rfl⟩, hm.1.targs⟩, E, sig, hE', hfound, hwithin⟩
  signature m n S sig hm hS hsig hl :=
    h.keeps.signature n m.recv S m.meth sig m.targs hm.1.recv hS hsig hl hm.1.targs
  body c args m md found hm hr _ _ hmd hl hl' hfound := by
    obtain ⟨hdecl, rfl, hname⟩ := of_method? hmd
    obtain ⟨recv, meth, targs⟩ := m
    obtain rfl : recv = _ := hr
    obtain rfl : md.sig.name = meth := hname
    have ha := hm.2.applies h.wellFormed hdecl hm.1.recv.1 (given_of_over hm.1)
    obtain ⟨t, ht, -⟩ := h.bodiesTyped md hdecl args targs ha
    exact h.collects_le (fun x t hx => h.valueType_of_scopeAt hdecl ha.toFits hx)
      (h.over_body hdecl ha.toFits) ht hfound

/-- **Discovery answers value types, and offered calls on them.** -/
theorem of_discover {fuel : Nat} {main : Expr} {t : Ty} {limit : Option Nat} {F : Instances}
    (hmain : main.Over T.ValueType fun t => t.flat true = true) (ht : Typed T true .written [] main t)
    (hF : discover fuel T main limit = .ok F) :
    (∀ t ∈ F.types, T.ValueType t)
      ∧ ∀ m ∈ F.meths, m.Over T.ValueType (fun t => t.flat true = true) ∧ T.Offered m :=
  Instances.sets_le.1 (Closure.within_of_discover h.saturated
    (fun _ hfound => h.collects_le (fun x t hx => by cases hx) hmain ht hfound) hF).le

end Table.Simple

end FeatherGo
