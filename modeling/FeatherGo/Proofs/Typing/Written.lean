import FeatherGo.Proofs.Methods.Stable
import FeatherGo.Proofs.Typing.Elaboration

/-!
# What checked expressions write

A check leaves the types that an expression writes as they are and finds each of them well formed, so
that a plain expression is written under the formals in scope, the elaborated one as well
(`Checker.written_of_check`). Where the formals are put in, what it writes is closed
(`Expr.Written.closed_subst`), and so is the type that a check then gives it
(`Checker.closed_of_check`): what a table keeps of types (`Table.Keeps`), a check keeps.
-/

namespace FeatherGo

namespace Expr

/-- Two expressions name the same types, give the same type arguments and format the same texts. -/
structure Agrees (e e' : Expr) : Prop where
  named : e.namedTypes = e'.namedTypes
  calls : e.callArguments = e'.callArguments
  formats : e.formats = e'.formats

theorem Agrees.refl (e : Expr) : e.Agrees e := ⟨rfl, rfl, rfl⟩

theorem Agrees.trans {e e' e'' : Expr} (h : e.Agrees e') (h' : e'.Agrees e'') : e.Agrees e'' :=
  ⟨h.named.trans h'.named, h.calls.trans h'.calls, h.formats.trans h'.formats⟩

theorem Agrees.mem_types {e e' : Expr} (h : e.Agrees e') {t : Ty} :
    t ∈ e.types ↔ t ∈ e'.types := by
  rw [Expr.mem_types, Expr.mem_types, h.named, h.calls]

/-- Lists of expressions that agree one by one write the same. -/
theorem agreesAll {es es' : List Expr} (h : List.Forall₂ Agrees es es') :
    namedTypesAll es = namedTypesAll es' ∧ callArgumentsAll es = callArgumentsAll es'
      ∧ formatsAll es = formatsAll es' := by
  induction h with
  | nil => exact ⟨rfl, rfl, rfl⟩
  | cons h _ ih =>
    obtain ⟨hn, hc, hf⟩ := ih
    simp only [namedTypesAll, callArgumentsAll, formatsAll, h.named, h.calls, h.formats, hn, hc, hf,
      and_self]

/-- The types in an expression are written under formals, and its calls give flat ones. -/
abbrev Written (V : Vocabulary) (names : List String) : Expr → Prop :=
  Over (Ty.Written V names) fun t => t.flat V.strict = true

/-- The types in an expression are closed, and its calls give flat ones. -/
abbrev Closed (V : Vocabulary) : Expr → Prop := Over (Ty.Closed V) fun t => t.flat V.strict = true

variable {V : Vocabulary}

theorem Agrees.over {e e' : Expr} (h : e.Agrees e') {P Q : Ty → Prop} (he : e'.Over P Q) :
    e.Over P Q :=
  ⟨fun t ht => he.types t (h.mem_types.1 ht), fun t ht => he.calls t (h.calls ▸ ht)⟩

/-- What is written where nothing is in scope is closed. -/
theorem Written.closed {e : Expr} (h : e.Written V []) : e.Closed V :=
  ⟨fun t ht => ⟨(h.types t ht).fit, (h.types t ht).text⟩, h.calls⟩

/-- Putting closed flat types in for the formals closes what is written under them. -/
theorem Written.closed_subst {e : Expr} {names : List String} {η : Env Ty}
    (h : e.Written V names) (hη : Closing V names η.lookup)
    (hentries : ∀ a x, η.find? a = some x → x.freeParams = []) : (e.substTypes η).Closed V := by
  have hclose {t : Ty} (ht : t ∈ e.types) : t.subst η = t.close η.lookup := by
    refine (h.types t ht).fit.subst_eq_close (h.types t ht).text fun a x hx q hq => ?_
    rw [hentries a x hx] at hq
    exact absurd hq List.not_mem_nil
  refine ⟨fun t ht => ?_, fun t ht => ?_⟩
  · rw [mem_types, namedTypes_substTypes, callArguments_substTypes, List.mem_map, List.mem_map] at ht
    obtain ⟨u, hu, rfl⟩ : ∃ u ∈ e.types, u.subst η = t := by
      rcases ht with ⟨u, hu, rfl⟩ | ⟨u, hu, rfl⟩
      · exact ⟨u, mem_types.2 (.inl hu), rfl⟩
      · exact ⟨u, mem_types.2 (.inr hu), rfl⟩
    rw [hclose hu]
    exact (h.types u hu).fit.closed hη
  · rw [callArguments_substTypes] at ht
    obtain ⟨u, hu, rfl⟩ := List.mem_map.1 ht
    have hmem := mem_types.2 (.inr hu)
    rw [hclose hmem]
    exact Ty.flat_close (h.calls u hu) fun a ha =>
      hη.flat a ((h.types u hmem).fit.mem_scope ha)

end Expr

/-! ## What checks keep -/

/-- Bounds have a property, the fields of a type with the property have it, and so have the signatures
that the type offers where the type arguments may stand in a call. -/
structure Table.Keeps (T : Table) (Δ : Bounds) (P Q : Ty → Prop) : Prop where
  bound : ∀ p b, Δ.boundOf p = .ok b → P b
  prim : ∀ p, P (.prim p)
  field : ∀ t fs, P t → T.structFields t = .ok (some fs) → ∀ f ∈ fs, P f.ty
  signature : ∀ n t S m sig targs, P t → T.methods Δ n t = .ok S → S.find? m = some sig →
    sig.formals.length = targs.length → (∀ u ∈ targs, P u ∧ Q u) →
    (∀ p ∈ sig.params, P (p.ty.subst (instantiation sig.formals targs)))
      ∧ P (sig.result.subst (instantiation sig.formals targs))

/-- What the types that a check gives rest on: the fields of a type with the property have it, and so have
the results of what the type offers, at type arguments within bounds. -/
structure Table.Upholds (T : Table) (Δ : Bounds) (P Q : Ty → Prop) : Prop where
  prim : ∀ p, P (.prim p)
  field : ∀ t fs, P t → T.structFields t = .ok (some fs) → ∀ f ∈ fs, P f.ty
  result : ∀ n t S m sig targs, P t → T.methods Δ n t = .ok S → S.find? m = some sig →
    T.Within Δ sig.formals targs → (∀ u ∈ targs, P u ∧ Q u) →
    P (sig.result.subst (instantiation sig.formals targs))

theorem Table.Keeps.upholds {T : Table} {Δ : Bounds} {P Q : Ty → Prop} (h : T.Keeps Δ P Q) :
    T.Upholds Δ P Q :=
  ⟨h.prim, h.field, fun n t S m sig targs ht hS hsig hwithin htargs =>
    (h.signature n t S m sig targs ht hS hsig hwithin.length htargs).2⟩

theorem Table.WellFormed.keeps_closed {T : Table} {strict : Bool} {rank : String → Nat}
    (h : T.WellFormed strict rank) :
    T.Keeps [] (Ty.Closed (T.vocabulary strict)) fun t => t.flat strict = true where
  bound _ _ hb := by cases hb
  prim p := ⟨.prim p, rfl⟩
  field t fs ht hfs f hf := by
    obtain ⟨hfit, htext⟩ := h.closed_of_resolves ht (Checker.resolves_of_structFields hfs)
    cases hfit with
    | struct fit => exact ⟨fit f hf, htext.struct f hf⟩
  signature n t S m sig targs ht hS hsig hl htargs := by
    have hsc := h.closed_of_methods ht hS sig (MethodSet.mem_of_find? hsig).1
    exact ⟨fun p hp => hsc.closed_subst hl htargs (Signature.mem_types_param hp),
      hsc.closed_subst hl htargs sig.mem_types_result⟩

/-- Declarations keep a hereditary property that they write. -/
theorem Table.Writes.keeps {T : Table} {P : Ty → Prop} (hT : T.Writes P) (hP : Ty.Hereditary P)
    {Δ : Bounds} (hΔ : Δ.All P) : T.Keeps Δ P fun _ => True where
  bound p b hb := hΔ _ (Env.mem_of_find? (boundOf_eq_ok.1 hb))
  prim := hP.prim
  field t fs ht hfs f hf := (hP.stable hT hΔ).of_structFields ht hfs hf
  signature n t S m sig targs ht hS hsig _ htargs := by
    have hsig := (hP.stable hT hΔ).of_methods ht hS sig (MethodSet.mem_of_find? hsig).1
    have hinst {u : Ty} (hu : u ∈ sig.types) : P (u.subst (instantiation sig.formals targs)) :=
      hP.instantiate (hP.of_alone hsig hu) fun a ha => (htargs a ha).1
    exact ⟨fun p hp => hinst (Signature.mem_types_param hp), hinst sig.mem_types_result⟩

namespace Checker

variable {C : Checker} {Δ : Bounds} {Γ : Scope}

theorem agrees_represent (e : Expr) (k : Kind) : (represent e k).Agrees e := by
  cases e with
  | lit l =>
    rw [represent]
    cases l.convert k with
    | some l => exact ⟨rfl, rfl, rfl⟩
    | none => exact ⟨rfl, rfl, rfl⟩
  | _ => exact ⟨rfl, rfl, rfl⟩

theorem agrees_of_coerce {e e' : Expr} {t target : Ty} {dest : Destination}
    (h : C.coerce Δ t e target dest = .ok e') : e'.Agrees e := by
  have himplements {x : Answer TypeError Bool} {a : Expr} {fault : TypeError}
      (h : (do if ← x then return a else throw fault : Answer TypeError Expr) = .ok e') :
      e' = a := by
    obtain ⟨b, -, h⟩ := Answer.bind_eq_ok.1 h
    cases b with
    | true => exact (Answer.ok.inj h).symm
    | false => cases h
  unfold coerce at h
  split at h
  · split at h
    · exact himplements h ▸ .refl _
    · cases h
  · rename_i want k
    split at h
    · exact Answer.ok.inj h ▸ .refl _
    · split at h
      · split at h
        · cases h
        · exact Answer.ok.inj h ▸ agrees_represent e want.kind
      · cases h
  · rename_i k _ _
    split at h
    · cases h
    · exact himplements h ▸ agrees_represent e k
  · exact himplements h ▸ .refl _

theorem agrees_of_binary {op : Operator} {l r whole e' : Expr} {tl tr t : Ty}
    (h : C.binary Δ op tl l tr r whole = .ok (t, e')) :
    ∃ l' r', e' = .binary op l' r' ∧ l'.Agrees l ∧ r'.Agrees r := by
  unfold binary at h
  split at h
  · obtain ⟨⟨p, l', r'⟩, hoperands, h⟩ := Answer.bind_eq_ok.1 h
    have hagrees : l'.Agrees l ∧ r'.Agrees r := by
      dsimp only at hoperands
      split at hoperands
      · obtain ⟨-, rfl, rfl⟩ : _ ∧ _ ∧ _ := by simpa using hoperands
        exact ⟨.refl _, .refl _⟩
      · obtain ⟨r'', hr'', hoperands⟩ := Answer.bind_eq_ok.1 hoperands
        obtain ⟨-, rfl, rfl⟩ : _ ∧ _ ∧ _ := by simpa using hoperands
        exact ⟨.refl _, agrees_of_coerce hr''⟩
      · obtain ⟨l'', hl'', hoperands⟩ := Answer.bind_eq_ok.1 hoperands
        obtain ⟨-, rfl, rfl⟩ : _ ∧ _ ∧ _ := by simpa using hoperands
        exact ⟨agrees_of_coerce hl'', .refl _⟩
      · split at hoperands
        · obtain ⟨-, rfl, rfl⟩ : _ ∧ _ ∧ _ := by simpa using hoperands
          exact ⟨.refl _, .refl _⟩
        · cases hoperands
    dsimp only at h
    split at h
    · exact ⟨l', r', (Prod.mk.inj (Answer.ok.inj h)).2.symm, hagrees⟩
    · cases h
  · cases h
  · cases h

/-- Each of some expressions is checked and flows into its target. -/
theorem of_checkAll {targets : List (Ty × Destination)} {es es' : List Expr}
    (hl : targets.length = es.length) (h : C.checkAll Δ Γ targets es = .ok es') :
    List.Forall₂ (fun e' e => ∃ t e'' target dest, C.check Δ Γ e = .ok (t, e'')
      ∧ C.coerce Δ t e'' target dest = .ok e') es' es := by
  induction es generalizing targets es' with
  | nil =>
    obtain rfl := List.length_eq_zero_iff.1 hl
    obtain rfl := Answer.ok.inj h
    exact .nil
  | cons e es ih =>
    cases targets with
    | nil => simp at hl
    | cons d targets =>
      obtain ⟨⟨t, e''⟩, hcheck, h⟩ := Answer.bind_eq_ok.1 h
      obtain ⟨e', hcoerce, h⟩ := Answer.bind_eq_ok.1 h
      obtain ⟨rest, hrest, h⟩ := Answer.bind_eq_ok.1 h
      obtain rfl := Answer.ok.inj h
      exact .cons ⟨t, e'', d.1, d.2, hcheck, hcoerce⟩ (ih (by simpa using hl) hrest)

/-- **A check leaves what an expression writes as it is.** -/
theorem agrees_of_check {e e' : Expr} {t : Ty} (h : C.check Δ Γ e = .ok (t, e')) :
    e'.Agrees e := by
  have hall {targets : List (Ty × Destination)} {es es' : List Expr}
      (ih : ∀ e ∈ es, ∀ {e' t}, C.check Δ Γ e = .ok (t, e') → e'.Agrees e)
      (hl : targets.length = es.length) (h : C.checkAll Δ Γ targets es = .ok es') :
      List.Forall₂ Expr.Agrees es' es := by
    have hparts := of_checkAll hl h
    clear hl h
    induction hparts with
    | nil => exact .nil
    | cons hpart _ ihs =>
      obtain ⟨t, e'', target, dest, hcheck, hcoerce⟩ := hpart
      rw [List.forall_mem_cons] at ih
      exact .cons ((agrees_of_coerce hcoerce).trans (ih.1 hcheck)) (ihs ih.2)
  induction e using Expr.induction generalizing t e' with
  | var x =>
    obtain ⟨-, rfl⟩ := of_check_var h
    exact .refl _
  | structLit c ts es ih =>
    obtain ⟨fields, es', -, -, hl, hcheck, -, rfl⟩ := of_check_structLit h
    obtain ⟨hn, hc, hf⟩ := Expr.agreesAll (hall ih (by simpa using hl) hcheck)
    exact ⟨congrArg (Ty.named c ts :: ·) hn, hc, hf⟩
  | select e f ih =>
    obtain ⟨te, inner, fields, f, hinner, -, -, -, rfl⟩ := of_check_select h
    obtain ⟨hn, hc, hf⟩ := ih hinner
    exact ⟨hn, hc, hf⟩
  | call e m ts es ih ihs =>
    obtain ⟨tr, recv', S, sig, args', hrecv, -, -, -, -, -, hl, hargs, -, rfl⟩ := of_check_call h
    obtain ⟨hn, hc, hf⟩ := ih hrecv
    obtain ⟨hns, hcs, hfs⟩ := Expr.agreesAll (hall ihs (by simpa using hl) hargs)
    refine ⟨?_, ?_, ?_⟩
    · rw [Expr.namedTypes, Expr.namedTypes, hn, hns]
    · rw [Expr.callArguments, Expr.callArguments, hc, hcs]
    · rw [Expr.formats, Expr.formats, hf, hfs]
  | assert e u ih =>
    obtain ⟨te, inner, -, hinner, -, -, rfl⟩ := of_check_assert h
    obtain ⟨hn, hc, hf⟩ := ih hinner
    exact ⟨congrArg (u :: ·) hn, hc, hf⟩
  | sprintf s es ih =>
    obtain ⟨es', hcheck, -, rfl⟩ := of_check_sprintf h
    obtain ⟨hn, hc, hf⟩ := Expr.agreesAll (hall ih (by simp) hcheck)
    exact ⟨hn, hc, congrArg (s :: ·) hf⟩
  | lit l =>
    obtain ⟨-, rfl⟩ := of_check_lit h
    exact .refl _
  | binary op l r ihl ihr =>
    obtain ⟨tl, l', tr, r', hl, hr, h⟩ := of_check_binary h
    obtain ⟨l'', r'', rfl, hl', hr'⟩ := agrees_of_binary h
    obtain ⟨hnl, hcl, hfl⟩ := hl'.trans (ihl hl)
    obtain ⟨hnr, hcr, hfr⟩ := hr'.trans (ihr hr)
    refine ⟨?_, ?_, ?_⟩
    · rw [Expr.namedTypes, Expr.namedTypes, hnl, hnr]
    · rw [Expr.callArguments, Expr.callArguments, hcl, hcr]
    · rw [Expr.formats, Expr.formats, hfl, hfr]
  | convert k e ih =>
    obtain ⟨p, inner, hinner, -, rfl⟩ := of_check_convert h
    obtain ⟨hn, hc, hf⟩ := ih hinner
    exact ⟨hn, hc, hf⟩

/-- A check finds every type that an expression writes well formed. -/
theorem okType_of_check {e e' : Expr} {t : Ty} (h : C.check Δ Γ e = .ok (t, e')) :
    ∀ u ∈ e.types, C.table.okType C.fuel Δ u = .ok () := by
  intro u hu
  have hall {targets : List (Ty × Destination)} {es es' : List Expr}
      (ih : ∀ e ∈ es, ∀ {e' t}, C.check Δ Γ e = .ok (t, e') →
        u ∈ e.types → C.table.okType C.fuel Δ u = .ok ())
      (hl : targets.length = es.length) (h : C.checkAll Δ Γ targets es = .ok es')
      (hu : u ∈ Expr.typesAll es) : C.table.okType C.fuel Δ u = .ok () := by
    obtain ⟨e, he, hue⟩ := Expr.mem_typesAll.1 hu
    have hparts := of_checkAll hl h
    clear hl h hu
    induction hparts with
    | nil => cases he
    | cons hpart _ ihs =>
      obtain ⟨t, e'', target, dest, hcheck, -⟩ := hpart
      rw [List.forall_mem_cons] at ih
      rcases List.mem_cons.1 he with rfl | he
      · exact ih.1 hcheck hue
      · exact ihs ih.2 he
  induction e using Expr.induction generalizing t e' with
  | var x => cases hu
  | structLit c ts es ih =>
    obtain ⟨fields, es', hok, -, hl, hcheck, -, -⟩ := of_check_structLit h
    rcases List.mem_cons.1 hu with rfl | hu
    · exact hok
    · exact hall ih (by simpa using hl) hcheck hu
  | select e f ih =>
    obtain ⟨te, inner, fields, f, hinner, -⟩ := of_check_select h
    exact ih hinner hu
  | call e m ts es ih ihs =>
    obtain ⟨tr, recv', S, sig, args', hrecv, -, -, -, hok, -, hl, hargs, -⟩ := of_check_call h
    rw [Expr.types, List.mem_append, List.mem_append] at hu
    rcases hu with (hu | hu) | hu
    · exact ih hrecv hu
    · exact Table.of_okTypes hok u hu
    · exact hall ihs (by simpa using hl) hargs hu
  | assert e v ih =>
    obtain ⟨te, inner, hok, hinner, -⟩ := of_check_assert h
    rcases List.mem_append.1 hu with hu | hu
    · exact ih hinner hu
    · exact List.mem_singleton.1 hu ▸ hok
  | sprintf s es ih =>
    obtain ⟨es', hcheck, -⟩ := of_check_sprintf h
    exact hall ih (by simp) hcheck hu
  | lit l => cases hu
  | binary op l r ihl ihr =>
    obtain ⟨tl, l', tr, r', hl, hr, -⟩ := of_check_binary h
    rcases List.mem_append.1 hu with hu | hu
    · exact ihl hl hu
    · exact ihr hr hu
  | convert k e ih =>
    obtain ⟨p, inner, hinner, -⟩ := of_check_convert h
    exact ih hinner hu

variable {T : Table} {strict : Bool} {rank : String → Nat}

/-- **A plain expression that passes its check is written under the formals in scope**, once it is
elaborated as well as before. -/
theorem written_of_check (h : T.WellFormed strict rank) (hC : C.table = T)
    (hΔ : ∀ a ∈ Δ.names, Unprimed a) {e e' : Expr} {t : Ty} (hplain : e.Plain strict)
    (hcheck : C.check Δ Γ e = .ok (t, e')) :
    e.Written (T.vocabulary strict) Δ.names ∧ e'.Written (T.vocabulary strict) Δ.names := by
  subst hC
  have hw : e.Written (C.table.vocabulary strict) Δ.names :=
    ⟨fun u hu => Table.written_of_okType h.lawful.hasSources hΔ (hplain.types u hu)
      (okType_of_check hcheck u hu), hplain.calls⟩
  exact ⟨hw, (agrees_of_check hcheck).over hw⟩

/-- A check gives an expression whose types have a property that is upheld a type that has it. -/
theorem upheld_of_check {P Q : Ty → Prop} (hK : T.Upholds Δ P Q) (hC : C.table = T)
    (hΓ : ∀ x t, Γ.find? x = some t → P t) {e e' : Expr} {t : Ty} (he : e.Over P Q)
    (hcheck : C.check Δ Γ e = .ok (t, e')) : P t := by
  subst hC
  induction e using Expr.induction generalizing t e' with
  | var x => exact hΓ x t (of_check_var hcheck).1
  | structLit c targs es ih =>
    obtain ⟨fields, es', -, -, -, -, rfl, -⟩ := of_check_structLit hcheck
    exact he.structLit.1
  | select e field ih =>
    obtain ⟨te, inner, fields, f, hinner, hfields, hfound, rfl, -⟩ := of_check_select hcheck
    exact hK.field te fields (ih he.select hinner) hfields f (List.mem_of_find?_eq_some hfound)
  | call recv meth targs args ih ihs =>
    obtain ⟨hrecv, htargs, -⟩ := he.call
    obtain ⟨tr, recv', S, sig, args', hrc, hS, hsig, hl, -, hwithin, -, -, rfl, -⟩ :=
      of_check_call hcheck
    exact hK.result _ tr S meth sig targs (ih hrecv hrc) hS hsig
      (Table.within_of_implements hl hwithin) htargs
  | assert e target ih =>
    obtain ⟨te, inner, -, -, -, rfl, -⟩ := of_check_assert hcheck
    exact he.assert.2
  | sprintf format es ih =>
    obtain ⟨es', -, rfl, -⟩ := of_check_sprintf hcheck
    exact hK.prim _
  | lit l =>
    obtain ⟨rfl, -⟩ := of_check_lit hcheck
    exact hK.prim _
  | binary op l r ihl ihr =>
    obtain ⟨tl, l', tr, r', -, -, hcheck⟩ := of_check_binary hcheck
    obtain ⟨_, _, -, -, rfl⟩ := prim_of_binary hcheck
    exact hK.prim _
  | convert k e ih =>
    obtain ⟨p, inner, -, rfl, -⟩ := of_check_convert hcheck
    exact hK.prim _

/-- A check gives an expression whose types are kept a type that is kept. -/
theorem kept_of_check {P Q : Ty → Prop} (hK : T.Keeps Δ P Q) (hC : C.table = T)
    (hΓ : ∀ x t, Γ.find? x = some t → P t) {e e' : Expr} {t : Ty} (he : e.Over P Q)
    (hcheck : C.check Δ Γ e = .ok (t, e')) : P t :=
  upheld_of_check hK.upholds hC hΓ he hcheck

/-- Where no type parameter is in scope, a check gives an expression over closed types a closed
type. -/
theorem closed_of_check (h : T.WellFormed strict rank) (hC : C.table = T)
    (hΓ : ∀ x t, Γ.find? x = some t → t.Closed (T.vocabulary strict)) {e e' : Expr} {t : Ty}
    (hclosed : e.Closed (T.vocabulary strict)) (hcheck : C.check [] Γ e = .ok (t, e')) :
    t.Closed (T.vocabulary strict) :=
  kept_of_check h.keeps_closed hC hΓ hclosed hcheck

end Checker

end FeatherGo
