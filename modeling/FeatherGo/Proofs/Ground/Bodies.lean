import FeatherGo.Proofs.Ground.Forms

/-!
# Ground forms of expressions

The image of an expression whose types stand for themselves has the ground form of its type, and the check
of the ground declarations leaves it as it is (`Grounding.Typable.exists_settles`).
-/

namespace FeatherGo

/-- From some fuel on the check of an expression without type parameters gives it a type and leaves it as
it is. -/
def Table.Settles (T : Table) (Γ : Scope) (e : Expr) (t : Ty) : Prop :=
  ∃ k, ∀ n ≥ k, Checker.Settled ⟨T, false, n⟩ [] Γ e t

namespace Table

variable {T : Table} {Γ : Scope}

/-- What flows from one type into another does so from some fuel on. -/
theorem Flows.eventually {t target : Ty} (h : T.Flows t target) :
    ∃ k, ∀ n ≥ k, ∀ e dest, Checker.coerce ⟨T, false, n⟩ [] t e target dest = .ok e := by
  cases h with
  | loose untyped =>
    refine ⟨0, fun n _ e dest => ?_⟩
    unfold Checker.coerce
    exact if_pos untyped
  | typed typed within =>
    obtain ⟨k, hk⟩ := (T.finitary_implementsBy t target).eventually within
    exact ⟨k, fun n hn e dest => Checker.coerce_typed typed (hk n hn)⟩

/-- Some expressions are settled and flow each into its place. -/
def FlowAll (T : Table) (Γ : Scope) : List Expr → List Ty → Prop :=
  List.Forall₂ fun e target => ∃ t, T.Settles Γ e t ∧ T.Flows t target

theorem FlowAll.checkAll {es : List Expr} {targets : List (Ty × Destination)}
    (h : T.FlowAll Γ es (targets.map (·.1))) :
    ∃ k, ∀ n ≥ k, Checker.checkAll ⟨T, false, n⟩ [] Γ targets es = .ok es := by
  rw [FlowAll, List.forall₂_map_right_iff] at h
  induction h with
  | nil => exact ⟨0, fun _ _ => rfl⟩
  | cons h _ ih =>
    obtain ⟨t, ⟨k₁, hk₁⟩, hflows⟩ := h
    obtain ⟨k₂, hk₂⟩ := hflows.eventually
    obtain ⟨k₃, hk₃⟩ := ih
    refine ⟨max k₁ (max k₂ k₃), fun n hn => ?_⟩
    rw [ge_iff_le, max_le_iff, max_le_iff] at hn
    rw [Checker.checkAll, hk₁ n hn.1]
    simp only [Answer.ok_bind, hk₂ n hn.2.1, hk₃ n hn.2.2, Answer.pure_eq_ok]

end Table

namespace Checker

variable {C : Checker} {Δ : Bounds}

/-- Operands of one type, or untyped both, are as they should be. -/
theorem Operands.of_same {op : Operator} {l r : Expr} {p q : Prim} (agree : p.untyped = q.untyped)
    (same : p.untyped = false → p = q) : Operands C Δ op l r p q (Operator.commonPrim p q) l r := by
  cases hp : p.untyped with
  | true =>
    rw [Operator.commonPrim_untyped hp (agree ▸ hp)]
    exact .untyped hp (agree ▸ hp)
  | false =>
    obtain rfl := same hp
    rw [Operator.commonPrim_typed hp]
    exact .typed hp

/-- An assertion on an interface makes sense if its target is an interface or implements it. -/
theorem assertable_of_interface {t target : Ty} {b : Bool} {whole : Expr} (ht : ∀ p, t ≠ .param p)
    (hi : C.table.isInterface t = .ok true) (htarget : C.table.isInterface target = .ok b)
    (himp : b = false → C.table.implements C.fuel Δ target t = .ok true) :
    C.assertable Δ t target whole = .ok () := by
  have hstatic : assertedOn Δ t = .ok t := by
    cases t with
    | param p => exact absurd rfl (ht p)
    | _ => rfl
  refine Answer.bind_eq_ok.2 ⟨t, Answer.ofExcept_eq_ok.2 hstatic,
    Answer.bind_eq_ok.2 ⟨true, Answer.ofExcept_eq_ok.2 hi,
      Answer.bind_eq_ok.2 ⟨b, Answer.ofExcept_eq_ok.2 htarget, ?_⟩⟩⟩
  cases b with
  | true => rfl
  | false =>
    rw [himp rfl]
    cases isParam target <;> rfl

end Checker

/-! ## Settled forms -/

namespace Table.Settles

variable {T : Table} {Γ : Scope}

/-- A literal of a struct type without arguments is settled if its elements flow into the fields. -/
theorem structLit {c : String} {es : List Expr} {fields : List Slot}
    (hok : ∀ n, T.okType n [] (.named c []) = .ok ())
    (hfields : T.structFields (.named c []) = .ok (some fields))
    (hes : T.FlowAll Γ es (fields.map (·.ty))) : T.Settles Γ (.structLit c [] es) (.named c []) := by
  have htargets : (fields.map fun f => (f.ty, Destination.field f.name)).map (·.1) = fields.map (·.ty) :=
    List.map_map
  obtain ⟨k, hk⟩ := FlowAll.checkAll (htargets ▸ hes)
  refine ⟨k, fun n hn => Checker.check_structLit (hok n) hfields ?_ (hk n hn)⟩
  rw [hes.length_eq, List.length_map]

/-- A call without type arguments is settled if the receiver is and the arguments flow into the parameters. -/
theorem call {recv : Expr} {t : Ty} {meth : String} {args : List Expr} {S : MethodSet} {sig : Signature}
    (hrecv : T.Settles Γ recv t) (hS : T.allMethods [] t = .ok S) (hsig : S.find? meth = some sig)
    (hformals : sig.formals = []) (hargs : T.FlowAll Γ args (sig.params.map (·.ty))) :
    T.Settles Γ (.call recv meth [] args) sig.result := by
  have htargets : (sig.params.zipIdx.map fun p =>
      (p.1.ty.subst (instantiation sig.formals []), Destination.argument meth p.2)).map (·.1)
        = sig.params.map (·.ty) := by
    have hzip := congrArg (List.map fun p : Slot => p.ty) (List.zipIdx_map_fst 0 sig.params)
    rw [List.map_map] at hzip ⊢
    refine Eq.trans (List.map_congr_left fun p _ => ?_) hzip
    rw [hformals]
    exact Ty.subst_nil _
  have harity : sig.formals.length = ([] : List Ty).length := congrArg List.length hformals
  obtain ⟨k₁, hk₁⟩ := hrecv
  obtain ⟨k₂, hk₂⟩ := (Finitary.find t).eventually hS
  obtain ⟨k₃, hk₃⟩ := FlowAll.checkAll (htargets ▸ hargs)
  refine ⟨max k₁ (max k₂ k₃), fun n hn => ?_⟩
  rw [ge_iff_le, max_le_iff, max_le_iff] at hn
  have hcheck := Checker.check_call (hk₁ n hn.1) (hk₂ n hn.2.1) hsig harity rfl (by simp)
    (by rw [hargs.length_eq, List.length_map]) (hk₃ n hn.2.2)
  rw [hformals] at hcheck
  exact (Ty.subst_nil sig.result ▸ hcheck :)

/-- An assertion on an interface is settled if its target is an interface or implements it. -/
theorem assert {e : Expr} {t target : Ty} {b : Bool} (he : T.Settles Γ e t) (ht : ∀ p, t ≠ .param p)
    (hok : ∀ n, T.okType n [] target = .ok ()) (hi : T.isInterface t = .ok true)
    (htarget : T.isInterface target = .ok b) (himp : b = false → T.Implements target t) :
    T.Settles Γ (.assert e target) target := by
  have heventually : ∃ k, ∀ n ≥ k, b = false → T.implements n [] target t = .ok true := by
    cases b with
    | true => exact ⟨0, fun _ _ hb => by cases hb⟩
    | false =>
      obtain ⟨k, hk⟩ := (T.finitary_implementsBy target t).eventually (himp rfl)
      exact ⟨k, fun n hn _ => hk n hn⟩
  obtain ⟨k₁, hk₁⟩ := he
  obtain ⟨k₂, hk₂⟩ := heventually
  refine ⟨max k₁ k₂, fun n hn => ?_⟩
  rw [ge_iff_le, max_le_iff] at hn
  exact Checker.check_assert (hok n) (hk₁ n hn.1)
    (Checker.assertable_of_interface ht hi htarget (hk₂ n hn.2))

/-- Formatting is settled if the arguments flow into the interface that asks for nothing. -/
theorem sprintf {format : String} {es : List Expr}
    (hes : T.FlowAll Γ es (List.replicate es.length .anything)) :
    T.Settles Γ (.sprintf format es) (.ofKind .string) := by
  have htargets : ((List.range es.length).map fun i =>
      (Ty.anything, Destination.argument "fmt.Sprintf" (i + 1))).map (·.1)
        = List.replicate es.length .anything := by
    simp [Function.comp_def]
  obtain ⟨k, hk⟩ := FlowAll.checkAll (htargets ▸ hes)
  exact ⟨k, fun n hn => Checker.check_sprintf (hk n hn)⟩

theorem binary {op : Operator} {l r : Expr} {p q : Prim} {t : Ty} (hl : T.Settles Γ l (.prim p))
    (hr : T.Settles Γ r (.prim q)) (agree : p.untyped = q.untyped) (same : p.untyped = false → p = q)
    (result : op.resultType (Operator.commonPrim p q) = some t) : T.Settles Γ (.binary op l r) t := by
  obtain ⟨k₁, hk₁⟩ := hl
  obtain ⟨k₂, hk₂⟩ := hr
  refine ⟨max k₁ k₂, fun n hn => ?_⟩
  rw [ge_iff_le, max_le_iff] at hn
  exact Checker.check_binary (hk₁ n hn.1) (hk₂ n hn.2)
    ((Checker.Operands.of_same agree same).binary_eq result)

end Table.Settles

namespace Ground

theorem Imaged.unconvertible_eq [Digest] {top : String} {e m : Expr} (h : Imaged top e m) (k : Kind) :
    Checker.unconvertible m k = Checker.unconvertible e k := by
  cases e with
  | lit l =>
    obtain rfl := Except.ok.inj h
    rfl
  | var x =>
    obtain rfl := Except.ok.inj h
    rfl
  | structLit c ts es =>
    obtain ⟨-, ms, -, rfl⟩ := structLit_iff.1 h
    rfl
  | call recv meth ts args =>
    obtain ⟨-, recv', args', -, -, rfl⟩ := call_iff.1 h
    rfl
  | assert e t =>
    obtain ⟨e', t', -, -, rfl⟩ := assert_iff.1 h
    rfl
  | select e f =>
    obtain ⟨e', -, rfl⟩ := select_iff.1 h
    rfl
  | sprintf s es =>
    obtain ⟨ms, -, rfl⟩ := sprintf_iff.1 h
    rfl
  | binary op l r =>
    obtain ⟨l', r', -, -, rfl⟩ := binary_iff.1 h
    rfl
  | convert k e =>
    obtain ⟨e', -, rfl⟩ := convert_iff.1 h
    rfl

namespace Grounding

variable {G : Grounding} {T' : Table} {N : String → Prop} {rank : String → Nat}

/-- Two scopes give variables types and their ground forms. -/
def InScope (G : Grounding) (Γ Γ' : Scope) : Prop :=
  ∀ x t, Γ.find? x = some t → ∃ t', G.Form t t' ∧ Γ'.find? x = some t'

/-- Scopes that bind the same names to types and their ground forms. -/
theorem InScope.of_forall₂ {Γ Γ' : Scope}
    (h : List.Forall₂ (fun b b' => b'.1 = b.1 ∧ G.Form b.2 b'.2) Γ Γ') : InScope G Γ Γ' := by
  intro x t hx
  have hrel : Option.Rel G.Form (Γ.find? x) (Γ'.find? x) := by
    clear hx
    induction h with
    | nil => exact .none
    | @cons b b' Γ Γ' hb _ ih =>
      rw [Env.find?, Env.find?, hb.1]
      generalize Env.find? Γ x = o, Env.find? Γ' x = o' at ih
      cases ih with
      | some hform => exact .some hform
      | none =>
        rw [Option.none_or, Option.none_or]
        split
        · exact .some hb.2
        · exact .none
  rw [hx] at hrel
  generalize hx' : Γ'.find? x = o at hrel
  cases hrel with
  | some hform => exact ⟨_, hform, rfl⟩

/-- The form of a primitive type is the type. -/
theorem Form.eq_prim {p : Prim} {t' : Ty} (h : G.Form (.prim p) t') : t' = .prim p := by
  cases h
  rfl

namespace Typable

variable [Digest] (h : G.Typable T' N rank)
include h

theorem closed_of_form {t t' : Ty} (hform : G.Form t t') : t.Closed (G.table.vocabulary true) := by
  cases hform with
  | prim p => exact ⟨.prim _, rfl⟩
  | named mem => exact (h.values _ mem).1

omit h in
/-- The images of expressions that flow into their places flow into the ground forms of these. -/
theorem flows_all {Γ Γ' : Scope} {es ms : List Expr} {ts us targets targets' : List Ty}
    (himages : ImagedAll G.top es ms) (hl : es.length = ts.length)
    (ih : ∀ p ∈ es.zip ts, ∀ u m, Typed G.table true (G.instances.usage G.table) Γ p.1 u →
      Imaged G.top p.1 m → ∃ t', G.Form p.2 t' ∧ T'.Settles Γ' m t')
    (hlt : es.length = us.length)
    (ht : ∀ p ∈ es.zip us, Typed G.table true (G.instances.usage G.table) Γ p.1 p.2)
    (hl' : ts.length = targets.length) (hflows : ∀ p ∈ ts.zip targets, G.table.Flows p.1 p.2)
    (hplaces : List.Forall₂ (Place G T') targets targets') :
    T'.FlowAll Γ' ms targets' := by
  induction himages generalizing ts us targets targets' with
  | nil =>
    obtain rfl := List.eq_nil_of_length_eq_zero hl.symm
    obtain rfl := List.eq_nil_of_length_eq_zero hl'.symm
    cases hplaces
    exact .nil
  | cons himage himages ihes =>
    cases ts with
    | nil => cases hl
    | cons t ts =>
      cases us with
      | nil => cases hlt
      | cons u us =>
        cases hplaces with
        | nil => cases hl'
        | cons hplace hplaces =>
          rw [List.zip_cons_cons, List.forall_mem_cons] at ih ht hflows
          obtain ⟨t', hform, hsettles⟩ := ih.1 u _ ht.1 himage
          exact .cons ⟨t', hsettles, hplace t t' hform hflows.1⟩
            (ihes (Nat.succ.inj hl) ih.2 (Nat.succ.inj hlt) ht.2 (Nat.succ.inj hl') hflows.2 hplaces)

theorem places_of_forms {fs fs' : List Slot} (hforms : G.Forms fs fs') :
    List.Forall₂ (Place G T') (fs.map (·.ty)) (fs'.map (·.ty)) :=
  List.forall₂_map_left_iff.2 (List.forall₂_map_right_iff.2
    (hforms.imp fun _ _ hf => h.place_form hf.2))

/-- A call in use on a type that has the method has been discovered there. -/
theorem mem_meths {t t' u : Ty} {S : MethodSet} {sig : Signature} {meth : String} {targs : List Ty}
    (hform : G.Form t t') (hS : G.table.allMethods [] t = .ok S) (hsig : S.find? meth = some sig)
    (hcall : (G.instances.usage G.table).calls t u meth targs) : ⟨t, meth, targs⟩ ∈ G.instances.meths := by
  cases hform with
  | prim p =>
    rw [Table.Sub.allMethods_prim] at hS
    obtain rfl := Answer.ok.inj hS
    cases hsig
  | named mem => exact h.closed.mem_meths h.simple.wellFormed mem rfl hcall

/-- **The image of an expression whose types stand for themselves has the ground form of its type**, and
is settled. -/
theorem exists_settles {Γ Γ' : Scope} (hΓ : InScope G Γ Γ') {e m : Expr} {t u : Ty}
    (he : Precise G.table Γ e t) (ht : Typed G.table true (G.instances.usage G.table) Γ e u)
    (hm : Imaged G.top e m) : ∃ t', G.Form t t' ∧ T'.Settles Γ' m t' := by
  have hclosed : ∀ x t, Γ.find? x = some t → t.Closed (G.table.vocabulary true) := by
    intro x t hx
    obtain ⟨t', hform, -⟩ := hΓ x t hx
    exact h.closed_of_form hform
  induction he generalizing u m with
  | @var x t found =>
    obtain rfl := Except.ok.inj hm
    obtain ⟨t', hform, hx⟩ := hΓ x t found
    refine ⟨t', hform, 0, fun n _ => ?_⟩
    rw [Checker.Settled, Checker.check, hx]
  | @structLit c targs elems ts fields resolves length precise length' flows ih =>
    obtain ⟨-, ms, himages, rfl⟩ := Imaged.structLit_iff.1 hm
    cases ht with
    | structLit _ used _ hlt htyped _ _ =>
      have hform : G.Form (.named c targs) _ := .named used
      obtain ⟨fields', hfields, hforms⟩ := h.fields_form hform resolves
      exact ⟨_, hform, .structLit (fun n => h.okType_form hform n []) hfields
        (flows_all himages length (fun p hp u m => ih p hp) hlt htyped length' flows
          (h.places_of_forms hforms))⟩
  | @select e t field fields f precise resolves found ih =>
    obtain ⟨e', himage, rfl⟩ := Imaged.select_iff.1 hm
    cases ht with
    | select typed _ _ =>
      obtain ⟨t', hform, k, hk⟩ := ih typed himage
      obtain ⟨fields', hfields, hforms⟩ := h.fields_form hform resolves
      obtain ⟨f', hf', hform'⟩ := Forms.find? hforms found
      exact ⟨f'.ty, hform', k, fun n hn => Checker.check_select (hk n hn) hfields hf'⟩
  | @call recv meth targs args t S sig ts preciseRecv methods found arity length precise length' flows ih ihs =>
    obtain ⟨-, recv', args', himage, himages, rfl⟩ := Imaged.call_iff.1 hm
    cases ht with
    | call typedRecv used _ _ _ _ _ _ hlt htyped _ _ =>
      obtain ⟨t', hform, hsettles⟩ := ih typedRecv himage
      obtain rfl := preciseRecv.eq_of_typed (U := G.instances.usage G.table) h.simple.wellFormed
        (fun _ _ _ _ hc => hc.1) hclosed typedRecv
      obtain ⟨S', x, hS', hx, hformals, hparams, hresult⟩ :=
        h.call_form hform methods found arity (h.mem_meths hform methods found used)
      have hplaces := h.places_of_forms hparams
      rw [List.map_map] at hplaces
      exact ⟨x.result, hresult, hsettles.call hS' hx hformals
        (flows_all himages length (fun p hp u m => ihs p hp) hlt htyped length' flows hplaces)⟩
  | @assert e t target precise interface possible ih =>
    obtain ⟨e', target', himage, htarget, rfl⟩ := Imaged.assert_iff.1 hm
    cases ht with
    | assert typed _ used =>
      obtain ⟨t', hform, hsettles⟩ := ih typed himage
      have hform' := h.form_of_imageTy used htarget
      obtain ⟨b, hb, hb'⟩ := h.isInterface_form hform'
      refine ⟨target', hform', hsettles.assert (fun p => (hform.ne_param p).2)
        (fun n => h.okType_form hform' n []) (h.isInterface_of_interfaceType hform interface) hb' ?_⟩
      rintro rfl
      refine h.implements_form hform' hform (possible.resolve_left fun hi => ?_)
      rw [h.isInterface_of_interfaceType hform' hi] at hb'
      cases hb'
  | @sprintf format args ts length precise flows ih =>
    obtain ⟨ms, himages, rfl⟩ := Imaged.sprintf_iff.1 hm
    cases ht with
    | sprintf _ hlt htyped =>
      have hplaces : List.Forall₂ (Place G T') (List.replicate ms.length .anything)
          (List.replicate ms.length .anything) :=
        List.forall₂_same.2 fun u hu => List.eq_of_mem_replicate hu ▸ place_anything
      refine ⟨_, .prim _, .sprintf (flows_all himages length (fun p hp u m => ih p hp) hlt htyped ?_
        (fun p hp => ?_) hplaces)⟩
      · rw [List.length_replicate, ← length, himages.length_eq]
      · rw [List.eq_of_mem_replicate (List.of_mem_zip hp).2]
        exact flows p.1 (List.of_mem_zip hp).1
  | lit l fits =>
    obtain rfl := Except.ok.inj hm
    refine ⟨_, .prim _, 0, fun n _ => ?_⟩
    rw [Checker.Settled, Checker.check, if_pos fits]
  | @binary op l r p q t _ _ agree same result ihl ihr =>
    obtain ⟨l', r', himage, himage', rfl⟩ := Imaged.binary_iff.1 hm
    cases ht with
    | binary typedl typedr =>
      obtain ⟨_, hform, hl⟩ := ihl typedl himage
      obtain ⟨_, hform', hr⟩ := ihr typedr himage'
      obtain rfl := hform.eq_prim
      obtain rfl := hform'.eq_prim
      obtain rfl := Operator.eq_of_resultType result
      exact ⟨_, .prim _, hl.binary hr agree same result⟩
  | @convert k e p _ kind convertible ih =>
    obtain ⟨e', himage, rfl⟩ := Imaged.convert_iff.1 hm
    cases ht with
    | convert typed =>
      obtain ⟨_, hform, k₁, hk₁⟩ := ih typed himage
      obtain rfl := hform.eq_prim
      refine ⟨_, .prim _, k₁, fun n hn => ?_⟩
      exact Checker.check_convert (hk₁ n hn) kind ((himage.unconvertible_eq k).trans convertible)

end Typable

end Grounding

end Ground

end FeatherGo
