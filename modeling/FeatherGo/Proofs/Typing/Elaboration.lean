import FeatherGo.Proofs.Declarations.Plain
import FeatherGo.Proofs.Expressions.Types
import FeatherGo.Proofs.Typing.Flow
import FeatherGo.Proofs.Typing.Typed

/-!
# Checked expressions are typed

A plain expression that passes its check under bounds is typed, once it is elaborated and its type
parameters stand for types within the bounds (`Checker.typed_of_check`). So one check of a generic
body answers for all of its instances.
-/

namespace FeatherGo

/-- The types written in an expression are plain, and what its calls give is flat. -/
abbrev Expr.Plain (strict : Bool) : Expr → Prop :=
  Expr.Over (Ty.Plain strict) fun t => t.flat strict = true

/-! ## Substitutions that keep within bounds -/

/-- What a substitution gives for the type parameters in scope keeps within their bounds. -/
structure Table.Admits (T : Table) (strict : Bool) (Δ : Bounds) (η : Env Ty) : Prop where
  models : T.Models strict Δ η.lookup
  unprimed : ∀ a ∈ Δ.names, Unprimed a
  entries : ∀ a x, η.find? a = some x → x.freeParams = []

/-- The types of a value context once type parameters are gone. -/
def Scope.close (Γ : Scope) (ρ : String → Ty) : Scope := Γ.map fun b => (b.1, b.2.close ρ)

theorem Scope.find?_close (Γ : Scope) (ρ : String → Ty) (x : String) :
    Env.find? (Γ.close ρ) x = (Env.find? Γ x).map (Ty.close ρ) := by
  induction Γ with
  | nil => rfl
  | cons b rest ih =>
    obtain ⟨k, t⟩ := b
    rw [Scope.close, List.map_cons, Env.find?, Env.find?]
    rw [Scope.close] at ih
    rw [ih]
    cases Env.find? rest x with
    | some y => rfl
    | none => by_cases hk : k = x <;> simp [hk]

namespace Table.Admits

variable {T : Table} {strict : Bool} {rank : String → Nat} {Δ : Bounds} {η : Env Ty}

theorem closing (hη : T.Admits strict Δ η) : Closing (T.vocabulary strict) Δ.names η.lookup :=
  hη.models.closing

/-- Putting the substitution in a written type closes it. -/
theorem subst_eq_close (hη : T.Admits strict Δ η) {t : Ty}
    (ht : t.Written (T.vocabulary strict) Δ.names) : t.subst η = t.close η.lookup := by
  refine ht.fit.subst_eq_close ht.text fun a x hx q hq => ?_
  rw [hη.entries a x hx] at hq
  exact absurd hq List.not_mem_nil

/-- Written types lose what they know of the formals around them. -/
theorem fit_of_written {t : Ty} (ht : t.Written (T.vocabulary strict) Δ.names) :
    t.Fit (T.vocabulary strict) Δ.names [] :=
  ht.fit.mono (fun _ ha => ha) fun _ ha => absurd ha List.not_mem_nil

end Table.Admits

/-! ## Elaboration keeps types -/

namespace Checker

variable {T : Table} {strict : Bool} {rank : String → Nat} {C : Checker} {Δ : Bounds} {η : Env Ty}
  {U : Usage} {Γ : Scope}

/-- An untyped expression that is given the representation of a kind is of it. -/
theorem typed_represent {e : Expr} {p : Prim} (k : Kind)
    (he : Typed T strict U Γ (e.substTypes η) (.prim p)) :
    Typed T strict U Γ ((represent e k).substTypes η) (.ofKind k) := by
  cases e with
  | lit l =>
    rw [represent]
    cases hl : l.convert k with
    | some l' =>
      rw [Ty.ofKind, ← Literal.prim_of_convert hl]
      exact .lit l'
    | none => exact .convert (.lit l)
  | _ => exact .convert he

/-- What flows into a place has the type that it has there. -/
theorem typed_of_flow {e e' : Expr} {t t' target : Ty} (ht : t.Fit (T.vocabulary strict) Δ.names [])
    (he : Typed T strict U Γ (e.substTypes η) (t.close η.lookup)) (hflow : Flow C Δ target e t t' e') :
    t'.Fit (T.vocabulary strict) Δ.names []
      ∧ Typed T strict U Γ (e'.substTypes η) (t'.close η.lookup) := by
  cases hflow with
  | loose => exact ⟨ht, he⟩
  | typed => exact ⟨ht, he⟩
  | @represented source k => exact ⟨.prim (.typed k), typed_represent k he⟩

/-- What flows into a type has a subtype of it. -/
theorem typed_of_coerce (h : T.WellFormed strict rank) (hη : T.Admits strict Δ η)
    (hC : C.table = T) {e e' : Expr} {t target : Ty} {dest : Destination}
    (ht : t.Fit (T.vocabulary strict) Δ.names [])
    (htarget : target.Fit (T.vocabulary strict) Δ.names [])
    (he : Typed T strict U Γ (e.substTypes η) (t.close η.lookup))
    (hco : C.coerce Δ t e target dest = .ok e') :
    ∃ t', Typed T strict U Γ (e'.substTypes η) t' ∧ T.Sub t' (target.close η.lookup) := by
  obtain ⟨t', hflow⟩ := exists_flow hco
  obtain ⟨hfit, htyped⟩ := typed_of_flow ht he hflow
  have himplements {n : Nat} (himp : C.table.implements n Δ t' target = .ok true) :
      T.Sub (t'.close η.lookup) (target.close η.lookup) :=
    .of_implements h (hfit.closed hη.closing) (htarget.closed hη.closing)
      (h.implements_close hη.models hfit htarget (hC ▸ himp))
  refine ⟨_, htyped, ?_⟩
  cases hflow with
  | loose place untyped =>
    subst place
    exact .untyped _ _
  | typed _ within => exact himplements within
  | represented _ _ within => exact himplements within

/-- An operation on primitive types has the type of its result. -/
theorem typed_of_binary {op : Operator} {l r whole e' : Expr} {tl tr t : Ty}
    (hl : Typed T strict U Γ (l.substTypes η) (tl.close η.lookup))
    (hr : Typed T strict U Γ (r.substTypes η) (tr.close η.lookup))
    (hb : C.binary Δ op tl l tr r whole = .ok (t, e')) :
    ∃ s, t = .prim s ∧ Typed T strict U Γ (e'.substTypes η) (.prim s) := by
  obtain ⟨lp, rp, p, l', r', rfl, rfl, hoperands, ht, rfl⟩ := exists_operands hb
  obtain rfl := Operator.eq_of_resultType ht
  refine ⟨_, rfl, ?_⟩
  have hflow {e e' : Expr} {p q : Prim} {dest : Destination} (hq : q.untyped = false)
      (he : Typed T strict U Γ (e.substTypes η) (.prim p))
      (hco : C.coerce Δ (.prim p) e (.prim q) dest = .ok e') :
      Typed T strict U Γ (e'.substTypes η) (.prim q) := by
    obtain ⟨t', hflow⟩ := exists_flow hco
    obtain rfl := hflow.eq_prim hq
    exact (typed_of_flow (.prim p) he hflow).2
  have hbinary {l r : Expr} {p q c : Prim} (hl : Typed T strict U Γ (l.substTypes η) (.prim p))
      (hr : Typed T strict U Γ (r.substTypes η) (.prim q))
      (agree : p.untyped = false → q.untyped = false → p = q) (hc : Operator.commonPrim p q = c) :
      Typed T strict U Γ ((Expr.binary op l r).substTypes η) (.prim (op.resultPrim c)) :=
    hc ▸ .binary hl hr agree
  have hcommon := hoperands.eq_commonPrim.symm
  cases hoperands with
  | untyped left => exact hbinary hl hr (by simp [left]) hcommon
  | left left _ flows =>
    exact hbinary hl (hflow left hr flows) (fun _ _ => rfl) (Operator.commonPrim_typed left)
  | right _ right flows =>
    exact hbinary (hflow right hl flows) hr (fun _ _ => rfl) (Operator.commonPrim_typed right)
  | typed => exact hbinary hl hr (fun _ _ => rfl) hcommon

/-- Expressions that flow into targets one by one, once each is typed. -/
theorem typedAll_of_checkAll (h : T.WellFormed strict rank) (hη : T.Admits strict Δ η)
    (hC : C.table = T) {Γ' : Scope} {targets : List (Ty × Destination)} {es es' : List Expr}
    (hl : targets.length = es.length)
    (htargets : ∀ d ∈ targets, d.1.Fit (T.vocabulary strict) Δ.names [])
    (ih : ∀ e ∈ es, ∀ t e', C.check Δ Γ e = .ok (t, e') →
      t.Fit (T.vocabulary strict) Δ.names []
        ∧ Typed T strict U Γ' (e'.substTypes η) (t.close η.lookup))
    (hall : C.checkAll Δ Γ targets es = .ok es') :
    TypedAll T strict U Γ' (es'.map (Expr.substTypes η))
      (targets.map fun d => d.1.close η.lookup) := by
  induction es generalizing targets es' with
  | nil =>
    obtain rfl := List.length_eq_zero_iff.1 hl
    obtain rfl := Answer.ok.inj hall
    exact .nil
  | cons e es ihes =>
    cases targets with
    | nil => simp at hl
    | cons d targets =>
      obtain ⟨target, dest⟩ := d
      rw [List.forall_mem_cons] at htargets ih
      obtain ⟨⟨t, e1⟩, hcheck, hall⟩ := Answer.bind_eq_ok.1 hall
      obtain ⟨e2, hcoerce, hall⟩ := Answer.bind_eq_ok.1 hall
      obtain ⟨rest, hrest, hall⟩ := Answer.bind_eq_ok.1 hall
      obtain rfl := Answer.ok.inj hall
      obtain ⟨hfit, htyped⟩ := ih.1 t e1 hcheck
      rw [List.map_cons, List.map_cons]
      exact TypedAll.cons_iff.2 ⟨typed_of_coerce h hη hC hfit htargets.1 htyped hcoerce,
        ihes (by simpa using hl) htargets.2 ih.2 hrest⟩

/-- The fields of a type are those that its chain ends in. -/
theorem resolves_of_structFields {t : Ty} {fields : List Slot}
    (hf : T.structFields t = .ok (some fields)) : T.Resolves t (.struct fields) := by
  cases t with
  | named c args =>
    rw [Table.structFields, except_bind_eq_ok] at hf
    obtain ⟨v, hv, hf⟩ := hf
    cases v with
    | struct fs =>
      obtain rfl := Option.some.inj (Except.ok.inj hf)
      exact Table.resolves_of_resolve hv
    | _ => cases hf
  | struct fs =>
    obtain rfl := Option.some.inj (Except.ok.inj hf)
    exact .stop trivial
  | _ => cases hf

/-- Fields of a type, closed. -/
theorem fields_close (h : T.WellFormed strict rank) {scope : List String} {ρ : String → Ty}
    (hρ : Closing (T.vocabulary strict) scope ρ) {t : Ty}
    (ht : t.Fit (T.vocabulary strict) scope []) {fields : List Slot}
    (hf : T.Resolves t (.struct fields)) :
    (∀ f ∈ fields, f.ty.Fit (T.vocabulary strict) scope [])
      ∧ T.Resolves (t.close ρ) (.struct (fields.map (Slot.map (Ty.close ρ)))) := by
  have hfit : ∀ f ∈ fields, f.ty.Fit (T.vocabulary strict) scope [] := by
    have hfit := h.fit_of_resolves ht hf
    cases hfit with
    | struct fit => exact fit
  refine ⟨hfit, ?_⟩
  cases t with
  | named c args =>
    have hclose := h.lawful.resolves_close hρ.sealing ht.scoped.loose hf rfl
    rwa [Ty.close_struct] at hclose
  | struct fs =>
    cases hf
    rw [Ty.close_struct]
    exact .stop trivial
  | _ => cases hf

/-- A call at type arguments within bounds finds on the closed receiver type a signature with the bounds,
the parameter types and the result of the one that was called, once these are closed. -/
theorem exists_offer_close (h : T.WellFormed strict rank) (hη : T.Admits strict Δ η) {n : Nat}
    {meth : String} {targs : List Ty} {t : Ty} {S : MethodSet} {sig : Signature}
    (ht : t.Fit (T.vocabulary strict) Δ.names []) (hS : T.methods Δ n t = .ok S)
    (hsig : S.find? meth = some sig) (hl : sig.formals.length = targs.length)
    (hflat : ∀ t ∈ targs, t.flat strict = true)
    (hfit : ∀ t ∈ targs, t.Fit (T.vocabulary strict) Δ.names [])
    (hwithin : ∀ p ∈ sig.formals.zip targs,
      T.implements n Δ p.2 (p.1.ty.subst (instantiation sig.formals targs)) = .ok true) :
    ∃ S' o, T.allMethods [] (t.close η.lookup) = .ok S' ∧ S'.find? meth = some o
      ∧ o.formals.length = (targs.map (Ty.close η.lookup)).length
      ∧ T.Given strict (targs.map (Ty.close η.lookup))
      ∧ (∀ p ∈ o.formals.zip (targs.map (Ty.close η.lookup)),
        T.Implements p.2 (p.1.ty.subst (instantiation o.formals (targs.map (Ty.close η.lookup)))))
      ∧ (sig.params.map fun p => (p.ty.subst (instantiation sig.formals targs)).close η.lookup)
        = o.params.map (fun p => p.ty.subst (instantiation o.formals (targs.map (Ty.close η.lookup))))
      ∧ (sig.result.subst (instantiation sig.formals targs)).close η.lookup
        = o.result.subst (instantiation o.formals (targs.map (Ty.close η.lookup))) := by
  have hmethods := h.lawful.close_methods hη.models.realizes (hη.models.opened ht) hS
  have hfits := h.fit_of_methods (fun a b hb => (hη.models.bounds a b hb).1) ht hS
  obtain ⟨hmem, hname⟩ := MethodSet.mem_of_find? hsig
  obtain ⟨S', hS', hcov⟩ := hmethods.covers
  obtain ⟨o, ho, heq⟩ := hcov (sig.close η.lookup) (List.mem_map_of_mem hmem)
  rw [Signature.name_close, hname] at ho
  have hclosed := ht.closed hη.closing
  have hoc := h.closed_of_allMethods hclosed hS' o (MethodSet.mem_of_find? ho).1
  have hgiven : T.Given strict (targs.map (Ty.close η.lookup)) := by
    rw [Table.Given, List.forall_mem_map]
    exact fun t ht => ⟨(hfit t ht).closed hη.closing,
      Ty.flat_close (hflat t ht) fun a ha => hη.closing.flat a ((hfit t ht).mem_scope ha)⟩
  have htypes := (hfits sig hmem).close_at hη.models.scope hη.closing hoc heq hl hgiven
  obtain ⟨-, hof, hop, -⟩ := Signature.alphaEq_iff.1 heq
  have hof : sig.formals.length = o.formals.length := by simpa [Signature.close] using hof.symm
  have hop : sig.params.length = o.params.length := by simpa [Signature.close] using hop.symm
  obtain ⟨hformals, hparams, hresult⟩ := Signature.parts_eq hof hop htypes
  refine ⟨S', o, hS', ho, by simpa using hof.symm.trans hl, hgiven, ?_, hparams, hresult⟩
  have hall : ∀ p ∈ (sig.formals.map fun x =>
      (x.ty.subst (instantiation sig.formals targs)).close η.lookup).zip
        (targs.map (Ty.close η.lookup)), T.Implements p.2 p.1 := by
    rw [List.zip_map, List.forall_mem_map]
    intro p hp
    have hp2 := List.of_mem_zip hp
    exact h.implements_close hη.models (hfit _ hp2.2)
      ((hfits sig hmem).fit_at hl hflat hfit (Signature.mem_types_formal hp2.1))
      (hwithin p hp)
  rw [hformals, List.zip_map_left, List.forall_mem_map] at hall
  exact hall

/-- A call at type arguments within bounds is typed by what the closed receiver type offers. -/
theorem typed_call (h : T.WellFormed strict rank) (hη : T.Admits strict Δ η) {n : Nat}
    {recv : Expr} {meth : String} {targs : List Ty} {args : List Expr} {t : Ty} {S : MethodSet}
    {sig : Signature} (ht : t.Fit (T.vocabulary strict) Δ.names [])
    (hrecv : Typed T strict .written Γ recv (t.close η.lookup)) (hS : T.methods Δ n t = .ok S)
    (hsig : S.find? meth = some sig) (hl : sig.formals.length = targs.length)
    (hflat : ∀ t ∈ targs, t.flat strict = true)
    (hfit : ∀ t ∈ targs, t.Fit (T.vocabulary strict) Δ.names [])
    (hwithin : ∀ p ∈ sig.formals.zip targs,
      T.implements n Δ p.2 (p.1.ty.subst (instantiation sig.formals targs)) = .ok true)
    (hargs : TypedAll T strict .written Γ args
      (sig.params.map fun p => (p.ty.subst (instantiation sig.formals targs)).close η.lookup)) :
    Typed T strict .written Γ (.call recv meth (targs.map (Ty.close η.lookup)) args)
      ((sig.result.subst (instantiation sig.formals targs)).close η.lookup) := by
  obtain ⟨S', o, hS', ho, hl', hgiven, hwithin', hparams, hresult⟩ :=
    exists_offer_close h hη ht hS hsig hl hflat hfit hwithin
  rw [hresult]
  obtain ⟨ts, hlen, hts, hlen', hsub⟩ := hparams ▸ hargs
  exact .call hrecv rfl (ht.closed hη.closing) hS' ho hl' hgiven hwithin' hlen hts hlen' hsub

/-- **A plain expression that passes its check is typed wherever its type parameters keep within
their bounds.** -/
theorem typed_of_check (h : T.WellFormed strict rank) (hη : T.Admits strict Δ η)
    (hC : C.table = T) (hΓ : ∀ x t, Γ.find? x = some t → t.Fit (T.vocabulary strict) Δ.names [])
    {e e' : Expr} {t : Ty} (hplain : e.Plain strict) (hcheck : C.check Δ Γ e = .ok (t, e')) :
    t.Fit (T.vocabulary strict) Δ.names []
      ∧ Typed T strict .written (Γ.close η.lookup) (e'.substTypes η) (t.close η.lookup) := by
  subst hC
  have hwritten {t : Ty} (hp : t.Plain strict) (hok : C.table.okType C.fuel Δ t = .ok ()) :
      t.Written (C.table.vocabulary strict) Δ.names :=
    Table.written_of_okType h.lawful.hasSources hη.unprimed hp hok
  induction e using Expr.induction generalizing t e' with
  | var x =>
    obtain ⟨hx, rfl⟩ := of_check_var hcheck
    refine ⟨hΓ x t hx, .var ?_⟩
    rw [Scope.find?_close, hx]
    rfl
  | structLit c targs es ih =>
    obtain ⟨htype, hes⟩ := hplain.structLit
    obtain ⟨fields, es', hok, hfields, hl, hall, rfl, rfl⟩ := of_check_structLit hcheck
    have hw := hwritten htype hok
    have hfit := Table.Admits.fit_of_written hw
    have hsubst := hη.subst_eq_close hw
    rw [Ty.subst_named] at hsubst
    obtain ⟨hffit, hres⟩ := fields_close h hη.closing hfit (resolves_of_structFields hfields)
    have htyped := typedAll_of_checkAll h hη rfl (by simpa using hl)
      (by rw [List.forall_mem_map]; exact hffit) (fun e he t e' => ih e he (hes e he)) hall
    rw [List.map_map] at htyped
    obtain ⟨ts, hlen, hts, hlen', hsub⟩ := htyped
    refine ⟨hfit, ?_⟩
    rw [Expr.substTypes, Expr.substTypesAll_eq, ← hsubst]
    rw [← hsubst] at hres
    refine .structLit (hsubst ▸ hfit.closed hη.closing) trivial hres hlen hts ?_ ?_
    · simpa using hlen'
    · simpa [Function.comp_def, Slot.map] using hsub
  | select e field ih =>
    obtain ⟨te, inner, fields, f, hinner, hfields, hfound, rfl, rfl⟩ := of_check_select hcheck
    obtain ⟨hfit, htyped⟩ := ih hplain.select hinner
    obtain ⟨hffit, hres⟩ := fields_close h hη.closing hfit (resolves_of_structFields hfields)
    have hclosed : (fields.map (Slot.map (Ty.close η.lookup))).find? (fun f => f.name = field)
        = some (f.map (Ty.close η.lookup)) := by
      rw [List.find?_map]
      exact congrArg (Option.map _) hfound
    exact ⟨hffit f (List.mem_of_find?_eq_some hfound), .select htyped hres hclosed⟩
  | call recv meth targs args ih ihs =>
    obtain ⟨hrecv, htargs, hargs⟩ := hplain.call
    obtain ⟨tr, recv', S, sig, args', hrc, hS, hsig, hl, hok, hwithin, hlp, hall, rfl, rfl⟩ :=
      of_check_call hcheck
    obtain ⟨htr, htyped⟩ := ih hrecv hrc
    have hw (t : Ty) (ht : t ∈ targs) := hwritten (htargs t ht).1 (Table.of_okTypes hok t ht)
    have hflat (t : Ty) (ht : t ∈ targs) := (htargs t ht).2
    have hfit (t : Ty) (ht : t ∈ targs) := Table.Admits.fit_of_written (hw t ht)
    have hsfit := h.fit_of_methods (fun a b hb => (hη.models.bounds a b hb).1) htr hS sig
      (MethodSet.mem_of_find? hsig).1
    have hparams := typedAll_of_checkAll h hη rfl (by simpa using hlp)
      (by
        intro d hd
        obtain ⟨⟨p, i⟩, hp, rfl⟩ := List.mem_map.1 hd
        exact hsfit.fit_at hl hflat hfit
          (Signature.mem_types_param (List.fst_mem_of_mem_zipIdx hp)))
      (fun e he t e' => ihs e he (hargs e he)) hall
    rw [List.map_map] at hparams
    have hzip := congrArg (List.map fun p : Slot =>
      (p.ty.subst (instantiation sig.formals targs)).close η.lookup)
        (List.zipIdx_map_fst 0 sig.params)
    rw [List.map_map] at hzip
    refine ⟨hsfit.fit_at hl hflat hfit (Signature.mem_types_result sig), ?_⟩
    have htargs' : targs.map (Ty.subst η) = targs.map (Ty.close η.lookup) :=
      List.map_congr_left fun t ht => hη.subst_eq_close (hw t ht)
    rw [Expr.substTypes, Expr.substTypesAll_eq, htargs']
    exact typed_call h hη htr htyped hS hsig hl hflat hfit hwithin (hzip ▸ hparams :)
  | assert e target ih =>
    obtain ⟨he, htarget⟩ := hplain.assert
    obtain ⟨te, inner, hok, hinner, -, rfl, rfl⟩ := of_check_assert hcheck
    obtain ⟨-, htyped⟩ := ih he hinner
    have hw := hwritten htarget hok
    have hfit := Table.Admits.fit_of_written hw
    refine ⟨hfit, ?_⟩
    rw [Expr.substTypes, hη.subst_eq_close hw]
    exact .assert htyped (hfit.closed hη.closing) trivial
  | sprintf format es ih =>
    obtain ⟨es', hall, rfl, rfl⟩ := of_check_sprintf hcheck
    have htyped := typedAll_of_checkAll h hη rfl (by simp)
      (by
        rw [List.forall_mem_map]
        exact fun _ _ => .interface (by simp) (by simp))
      (fun e he t e' => ih e he (hplain.sprintf e he)) hall
    obtain ⟨ts, hlen, hts, -, -⟩ := htyped
    rw [Expr.substTypes, Expr.substTypesAll_eq]
    exact ⟨.prim _, .sprintf trivial hlen hts⟩
  | lit l =>
    obtain ⟨rfl, rfl⟩ := of_check_lit hcheck
    exact ⟨.prim _, .lit l⟩
  | binary op l r ihl ihr =>
    obtain ⟨hl, hr⟩ := hplain.binary
    obtain ⟨tl, l', tr, r', hcl, hcr, hcheck⟩ := of_check_binary hcheck
    obtain ⟨s, rfl, htyped⟩ := typed_of_binary (ihl hl hcl).2 (ihr hr hcr).2 hcheck
    exact ⟨.prim s, htyped⟩
  | convert k e ih =>
    obtain ⟨p, inner, hinner, rfl, rfl⟩ := of_check_convert hcheck
    obtain ⟨-, htyped⟩ := ih hplain.convert hinner
    exact ⟨.prim _, .convert htyped⟩

end Checker

/-! ## Checking a typed expression again -/

/-- A call on a type has the result that it has on a type that this one may stand for. -/
theorem Table.Sub.result_eq {T : Table} {strict : Bool} {rank : String → Nat}
    (h : T.WellFormed strict rank) {t u : Ty} (hs : T.Sub t u)
    (ht : t.Closed (T.vocabulary strict)) (hu : u.Closed (T.vocabulary strict)) {S S' : MethodSet}
    (hS : T.allMethods [] u = .ok S) (hS' : T.allMethods [] t = .ok S') {m : String}
    {sig sig' : Signature} (hsig : S.find? m = some sig) (hsig' : S'.find? m = some sig')
    {targs : List Ty} (hl : sig.formals.length = targs.length) (hgiven : T.Given strict targs) :
    sig'.result.subst (instantiation sig'.formals targs)
      = sig.result.subst (instantiation sig.formals targs) := by
  obtain ⟨S'', o, hS'', ho, heq⟩ := hs.find?_methods hS hsig
  obtain rfl := Answer.ok.inj (hS'.symm.trans hS'')
  obtain rfl := Option.some.inj (hsig'.symm.trans ho)
  have hclosed := h.closed_of_allMethods hu hS _ (MethodSet.mem_of_find? hsig).1
  have hclosed' := h.closed_of_allMethods ht hS' _ (MethodSet.mem_of_find? ho).1
  obtain ⟨-, hformals, hparams, -⟩ := Signature.alphaEq_iff.1 heq
  exact (Signature.parts_eq hformals hparams (hclosed'.at_eq hclosed heq hl hgiven)).2.2

/-- Checking gives an expression the type that it has, or that of an untyped constant where this is
primitive, also where calls have come to stand on receivers of subtypes. -/
theorem Typed.eq_of_check {T : Table} {strict : Bool} {rank : String → Nat} {U : Usage} {Γ : Scope}
    (h : T.WellFormed strict rank) (hU : ∀ t u m ts, U.calls t u m ts → T.Sub t u)
    (hΓ : ∀ x t, Γ.find? x = some t → t.Closed (T.vocabulary strict)) {C : Checker}
    (hC : C.table = T) {e e' : Expr} {t u : Ty} (ht : Typed T strict U Γ e t)
    (hc : C.check [] Γ e = .ok (u, e')) :
    u = t ∨ ∃ p q, u = .prim p ∧ t = .prim q ∧ p.untyped = true := by
  induction ht generalizing u e' with
  | var found =>
    obtain ⟨hx, -⟩ := Checker.of_check_var hc
    exact .inl (Option.some.inj (hx.symm.trans found))
  | structLit =>
    obtain ⟨_, _, -, -, -, -, rfl, -⟩ := Checker.of_check_structLit hc
    exact .inl rfl
  | select typed resolves found ih =>
    obtain ⟨te, inner, fields, f, hinner, hfields, hf, rfl, -⟩ := Checker.of_check_select hc
    rcases ih hinner with rfl | ⟨p, q, rfl, rfl, -⟩
    · rw [hC] at hfields
      cases (Checker.resolves_of_structFields hfields).unique resolves
      rw [Option.some.inj (hf.symm.trans found)]
      exact .inl rfl
    · cases resolves
  | call typedRecv used closed methods found arity given _ _ _ _ _ ih =>
    obtain ⟨tr, _, S', sig', _, hrecv, hS', hsig', -, -, -, -, -, rfl, -⟩ :=
      Checker.of_check_call hc
    rw [hC] at hS'
    have hS' := Table.allMethods_of_methods hS'
    rcases ih hrecv with rfl | ⟨p, q, rfl, rfl, -⟩
    · exact .inl ((hU _ _ _ _ used).result_eq h (typedRecv.closed h hΓ) closed methods hS' found
        hsig' arity given)
    · rw [Table.Sub.allMethods_prim] at hS'
      obtain rfl := Answer.ok.inj hS'
      cases hsig'
  | assert =>
    obtain ⟨_, _, -, -, -, rfl, -⟩ := Checker.of_check_assert hc
    exact .inl rfl
  | sprintf =>
    obtain ⟨_, -, rfl, -⟩ := Checker.of_check_sprintf hc
    exact .inl rfl
  | lit l =>
    obtain ⟨rfl, -⟩ := Checker.of_check_lit hc
    exact .inl rfl
  | @binary op _ _ _ _ _ _ agree ihl ihr =>
    obtain ⟨_, _, _, _, hcl, hcr, hb⟩ := Checker.of_check_binary hc
    obtain ⟨p', q', rfl, rfl, rfl⟩ := Checker.prim_of_binary hb
    have hsub {p q : Prim} (h : Ty.prim p = .prim q ∨ ∃ p' q', Ty.prim p = .prim p'
        ∧ Ty.prim q = .prim q' ∧ p'.untyped = true) : T.Sub (.prim p) (.prim q) := by
      rw [Table.Sub.prim_iff]
      rcases h with h | ⟨p', q', hp, -, hu⟩
      · exact .inl (Ty.prim.inj h)
      · exact .inr (Ty.prim.inj hp ▸ hu)
    have hs := ((hsub (ihl hcl)).commonPrim (hsub (ihr hcr)) agree).resultPrim op
    exact (Table.Sub.prim_iff.1 hs).imp (congrArg Ty.prim) fun hu => ⟨_, _, rfl, rfl, hu⟩
  | convert =>
    obtain ⟨_, _, -, rfl, -⟩ := Checker.of_check_convert hc
    exact .inl rfl

end FeatherGo
