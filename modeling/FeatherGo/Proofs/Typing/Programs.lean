import FeatherGo.Proofs.Declarations.Checked
import FeatherGo.Proofs.Typing.Evaluation
import FeatherGo.Proofs.Typing.Headers
import FeatherGo.Proofs.Typing.Written

/-!
# Checked programs

What the check of a plain program establishes, said of the checked program alone
(`checkProgram_typed`): its declarations make a well-formed table, the body of every method is typed
wherever the method applies, and so is the main expression.
-/

namespace FeatherGo

/-! ## Plain programs -/

/-- The expressions in a declaration. -/
def Decl.exprs : Decl → List Expr
  | .type _ => []
  | .method md => [md.body]

namespace Program

/-- The expressions of a program: the bodies of its methods and its main expression. -/
def exprs (p : Program) : List Expr := p.decls.flatMap Decl.exprs ++ [p.main]

/-- The types that a program writes. -/
def types (p : Program) : List Ty := p.decls.flatMap Decl.headerTypes ++ p.exprs.flatMap Expr.types

/-- The type formals that a program introduces: of its declarations, and of signatures in the types
that it writes. -/
def typeFormals (p : Program) : List String :=
  p.decls.flatMap Decl.formalNames ++ p.types.flatMap Ty.binders

/-- The type arguments that a program writes: of the names in its types, and of its calls. -/
def typeArguments (p : Program) : List Ty :=
  p.types.flatMap Ty.applications ++ p.exprs.flatMap Expr.callArguments

/-- The type formals of a program have ordinary names, and its type arguments are flat: no signature
in one has formals of its own, and strict ones have no anonymous parts at all. -/
structure Plain (strict : Bool) (p : Program) : Prop where
  formals : ∀ a ∈ p.typeFormals, OrdinaryName a
  arguments : ∀ t ∈ p.typeArguments, t.flat strict = true

variable {strict : Bool} {p : Program}

theorem Plain.type (h : p.Plain strict) {t : Ty} (ht : t ∈ p.types) : t.Plain strict where
  binders a ha := by
    have ha := h.formals a (List.mem_append_right _ (List.mem_flatMap.2 ⟨t, ht, ha⟩))
    exact ⟨ha.unprimed, ha.uncanonical⟩
  applications u hu :=
    h.arguments u (List.mem_append_left _ (List.mem_flatMap.2 ⟨t, ht, hu⟩))

theorem Plain.expr (h : p.Plain strict) {e : Expr} (he : e ∈ p.exprs) : e.Plain strict where
  types _ ht := h.type (List.mem_append_right _ (List.mem_flatMap.2 ⟨e, he, ht⟩))
  calls t ht := h.arguments t (List.mem_append_right _ (List.mem_flatMap.2 ⟨e, he, ht⟩))

theorem Plain.decl (h : p.Plain strict) {d : Decl} (hd : d ∈ p.decls) : d.Plain strict where
  formals a ha := by
    have ha := h.formals a (List.mem_append_left _ (List.mem_flatMap.2 ⟨d, hd, ha⟩))
    exact ⟨ha.unprimed, ha.uncanonical⟩
  types _ ht := h.type (List.mem_append_left _ (List.mem_flatMap.2 ⟨d, hd, ht⟩))

theorem Plain.body (h : p.Plain strict) {md : MethodDecl} (hmd : Decl.method md ∈ p.decls) :
    md.body.Plain strict :=
  h.expr (List.mem_append_left _ (List.mem_flatMap.2 ⟨_, hmd, List.mem_cons_self⟩))

theorem Plain.main (h : p.Plain strict) : p.main.Plain strict :=
  h.expr (List.mem_append_right _ List.mem_cons_self)

end Program

/-! ## Where methods apply -/

/-- What a substitution of formals by arguments gives for a formal, position by position. -/
theorem lookup_instantiation {formals : List Slot} {args : List Ty}
    (hn : (formalNames formals).Nodup) {f : Slot} {t : Ty} (hf : (f, t) ∈ formals.zip args) :
    (instantiation formals args).find? f.name = some t := by
  obtain ⟨i, hi⟩ := List.mem_iff_getElem?.1 hf
  obtain ⟨hfi, hti⟩ := List.getElem?_zip_eq_some.1 hi
  refine Env.find?_zip_of_nodup hn (i := i) ?_ hti
  rw [formalNames, List.getElem?_map, hfi]
  rfl

/-- In lists of one length every member stands beside one of the other. -/
theorem exists_mem_zip {α β : Type} {xs : List α} {ys : List β} (hl : xs.length = ys.length)
    {x : α} (hx : x ∈ xs) : ∃ y, (x, y) ∈ xs.zip ys := by
  obtain ⟨i, hi⟩ := List.mem_iff_getElem?.1 hx
  have hlt : i < ys.length := hl ▸ (List.getElem?_eq_some_iff.1 hi).1
  exact ⟨ys[i], List.mem_iff_getElem?.2 ⟨i, List.getElem?_zip_eq_some.2
    ⟨hi, List.getElem?_eq_getElem hlt⟩⟩⟩

/-- Formals at arguments are the arguments. -/
theorem map_lookup_instantiation {formals : List Slot} {args : List Ty}
    (hn : (formalNames formals).Nodup) (hl : formals.length = args.length) :
    formals.map (fun f => (instantiation formals args).lookup f.name) = args := by
  refine List.ext_getElem? fun i => ?_
  rw [List.getElem?_map]
  cases hf : formals[i]? with
  | none =>
    rw [List.getElem?_eq_none_iff, hl, ← List.getElem?_eq_none_iff] at hf
    exact hf.symm
  | some f =>
    have hlt : i < args.length := hl ▸ (List.getElem?_eq_some_iff.1 hf).1
    have hzip : (f, args[i]) ∈ formals.zip args :=
      List.mem_iff_getElem?.2 ⟨i, List.getElem?_zip_eq_some.2 ⟨hf, List.getElem?_eq_getElem hlt⟩⟩
    rw [Option.map_some, Env.lookup, lookup_instantiation hn hzip, List.getElem?_eq_getElem hlt]
    rfl

theorem MethodDecl.names_bounds (md : MethodDecl) :
    md.bounds.names = formalNames md.recvFormals ++ md.sig.formalNames := by
  rw [MethodDecl.bounds, Table.names_extend, Table.names_extend]
  rfl

namespace Table

variable {T : Table} {strict : Bool} {rank : String → Nat}

/-- Where nothing is in scope there is nothing to bound. -/
theorem admits_nil (T : Table) (strict : Bool) : T.Admits strict [] [] where
  models := {
    scope := fun _ ha => absurd ha List.not_mem_nil
    bounds := fun _ _ h => by cases h
    closing := ⟨Ty.text_param, fun _ ha => absurd ha List.not_mem_nil,
      fun _ ha => absurd ha List.not_mem_nil⟩
    within := fun _ _ h => by cases h }
  unprimed _ ha := absurd ha List.not_mem_nil
  entries _ _ h := by cases h

/-- The formals of a method are none of its receiver's. -/
theorem notMem_recvFormals {V : Vocabulary} {md : MethodDecl} (hmd : md.Proper T V) {a : String}
    (ha : a ∈ md.sig.formalNames) : a ∉ formalNames md.recvFormals := by
  have hfresh := (hmd.sig.fit.proper.2 a ha).1
  rwa [hmd.sig.text.formals a ha] at hfresh

section Applies

variable {md : MethodDecl} {args targs : List Ty}

/-- The formals of the receiver stand for its arguments. -/
theorem lookup_recvFormal (hmd : md.Proper T (T.vocabulary strict)) {a : String}
    (hm : a ∈ formalNames md.recvFormals) :
    (md.instantiation args targs).lookup a
      = (FeatherGo.instantiation md.recvFormals args).lookup a := by
  have hnone : Env.find? (FeatherGo.instantiation md.sig.formals targs) a = none := by
    rw [Option.eq_none_iff_forall_ne_some]
    exact fun x hx => notMem_recvFormals hmd (mem_of_find?_instantiation hx).1 hm
  rw [Env.lookup, Env.lookup, MethodDecl.instantiation, Env.find?_append, hnone, Option.none_or]

/-- What the substitution of a method gives is closed and flat. -/
theorem closed_of_find?_instantiation (ha : md.Fits T strict args targs) {a : String} {x : Ty}
    (hx : (md.instantiation args targs).find? a = some x) :
    x.Closed (T.vocabulary strict) ∧ x.flat strict = true := by
  rw [MethodDecl.instantiation, Env.find?_append] at hx
  cases hy : Env.find? (FeatherGo.instantiation md.sig.formals targs) a with
  | some y =>
    rw [hy, Option.some_or, Option.some.injEq] at hx
    exact hx ▸ ha.given y (mem_of_find?_instantiation hy).2
  | none =>
    rw [hy, Option.none_or] at hx
    exact ha.recv.args x (mem_of_find?_instantiation hx).2

/-- The substitution of a method gives something for each of its formals. -/
theorem exists_find?_instantiation (ha : md.Fits T strict args targs) {a : String}
    (hm : a ∈ md.bounds.names) : ∃ x, (md.instantiation args targs).find? a = some x := by
  rw [MethodDecl.names_bounds] at hm
  rw [MethodDecl.instantiation, Env.find?_append]
  cases hy : Env.find? (FeatherGo.instantiation md.sig.formals targs) a with
  | some y => exact ⟨y, rfl⟩
  | none =>
    rcases List.mem_append.1 hm with hm | hm
    · obtain ⟨x, hx⟩ :=
        Option.isSome_iff_exists.1 ((find?_instantiation_isSome ha.recvLength).2 hm)
      exact ⟨x, by rw [Option.none_or, hx]⟩
    · have hsome := (find?_instantiation_isSome ha.length).2 hm
      rw [hy] at hsome
      cases hsome

/-- Putting in the substitution of a method closes a type that is written in its header. -/
theorem subst_instantiation (ha : md.Fits T strict args targs) {t : Ty}
    {scope stems : List String} (hfit : t.Fit (T.vocabulary strict) scope stems) (htext : t.Text) :
    t.subst (md.instantiation args targs) = t.close (md.instantiation args targs).lookup := by
  refine hfit.subst_eq_close htext fun a x hx q hq => ?_
  rw [(closed_of_find?_instantiation ha hx).1.freeParams_eq_nil] at hq
  exact absurd hq List.not_mem_nil

/-- The substitution of a method closes what is written under its formals. -/
theorem closing_instantiation (ha : md.Fits T strict args targs) :
    Closing (T.vocabulary strict) md.bounds.names (md.instantiation args targs).lookup := by
  refine ⟨fun a => ?_, fun a hm => ?_, fun a hm => ?_⟩
  · rw [Env.lookup]
    cases hx : (md.instantiation args targs).find? a with
    | none => exact Ty.text_param a
    | some x => exact (closed_of_find?_instantiation ha hx).1.text
  all_goals
    obtain ⟨x, hx⟩ := exists_find?_instantiation ha hm
    rw [Env.lookup, hx]
  · exact (closed_of_find?_instantiation ha hx).1
  · exact (closed_of_find?_instantiation ha hx).2

/-- The types in a signature fit under the formals of the method. -/
theorem fit_of_mem_types (hmd : md.Proper T (T.vocabulary strict)) {t : Ty} (ht : t ∈ md.sig.types) :
    t.Fit (T.vocabulary strict) md.bounds.names [] := by
  rw [MethodDecl.names_bounds]
  refine (hmd.sig.fit.types t ht).mono (fun a ha => ?_) fun _ ha => absurd ha List.not_mem_nil
  rw [List.mem_append] at ha ⊢
  exact ha.symm

/-- Where a method applies, its substitution keeps within the bounds of its formals. -/
theorem admits_of_applies (hmd : md.Proper T (T.vocabulary strict))
    (hplain : (Decl.method md).Plain strict) (ha : md.Applies T strict args targs) :
    T.Admits strict md.bounds (md.instantiation args targs) := by
  have hnames : ∀ a ∈ md.bounds.names, Unprimed a ∧ Uncanonical a := by
    rw [MethodDecl.names_bounds]
    exact hplain.formals
  have hbound : ∀ a b, md.bounds.find? a = some b →
      ∃ f, f.name = a ∧ f.ty = b ∧ (f ∈ md.recvFormals ∨ f ∈ md.sig.formals) := by
    intro a b hb
    have hmem := Env.mem_of_find? hb
    rw [MethodDecl.bounds, Bounds.extend, Bounds.extend, List.nil_append, List.mem_append,
      List.mem_map, List.mem_map] at hmem
    rcases hmem with ⟨f, hf, he⟩ | ⟨f, hf, he⟩
    · exact ⟨f, (Prod.mk.inj he).1, (Prod.mk.inj he).2, .inl hf⟩
    · exact ⟨f, (Prod.mk.inj he).1, (Prod.mk.inj he).2, .inr hf⟩
  have hfits := ha.toFits
  refine ⟨⟨fun a hm => ⟨(hnames a hm).2, .inl (hnames a hm).1⟩, ?_, closing_instantiation hfits,
    ?_⟩, fun a hm => (hnames a hm).1, fun a x hx =>
      (closed_of_find?_instantiation hfits hx).1.freeParams_eq_nil⟩
  · intro a b hb
    obtain ⟨f, rfl, rfl, hf⟩ := hbound a b hb
    refine ⟨?_, hmd.boundTypes f (List.mem_append.2 hf)⟩
    rcases hf with hf | hf
    · rw [MethodDecl.names_bounds]
      exact (hmd.bounds f hf).fit.mono (fun _ ha => List.mem_append_left _ ha)
        fun _ ha => absurd ha List.not_mem_nil
    · exact fit_of_mem_types hmd (Signature.mem_types_formal hf)
  · intro a b hb
    obtain ⟨f, rfl, rfl, hf⟩ := hbound a b hb
    rcases hf with hf | hf
    · obtain ⟨t, ht⟩ := exists_mem_zip ha.recvLength hf
      have hw := hmd.bounds f hf
      have himp := ha.recvWithin _ ht
      rw [hw.subst_eq_close ha.recv.args, Ty.close_congr fun a hm =>
        (lookup_recvFormal hmd (hw.fit.mem_scope hm)).symm] at himp
      have hx := lookup_instantiation hmd.formals.nodup ht
      rw [lookup_recvFormal hmd (List.mem_map_of_mem hf), Env.lookup, hx]
      exact himp
    · obtain ⟨t, ht⟩ := exists_mem_zip ha.length hf
      have himp := ha.within _ ht
      rw [subst_instantiation hfits (hmd.sig.fit.types f.ty (Signature.mem_types_formal hf))
        (hmd.sig.text.types f.ty (Signature.mem_types_formal hf))] at himp
      have hx := lookup_instantiation hmd.sig.fit.nodup ht
      rw [Env.lookup, MethodDecl.instantiation, Env.find?_append, hx]
      exact himp

/-- The value context of a body, closed, is the one in which the body runs. -/
theorem close_scope (hmd : md.Proper T (T.vocabulary strict)) (ha : md.Fits T strict args targs) :
    Scope.close md.scope (md.instantiation args targs).lookup = md.scopeAt args targs := by
  have hself : md.selfType.close (md.instantiation args targs).lookup = .named md.recvType args := by
    rw [MethodDecl.selfType, Ty.close_named, formalArguments, List.map_map, Ty.named.injEq]
    refine ⟨rfl, Eq.trans (List.map_congr_left fun f hf => ?_)
      (map_lookup_instantiation hmd.formals.nodup ha.recvLength)⟩
    exact lookup_recvFormal hmd (List.mem_map_of_mem hf)
  rw [MethodDecl.scope, Scope.close, List.map_cons, hself, MethodDecl.scopeAt, List.map_map]
  refine congrArg _ (List.map_congr_left fun p hp => ?_)
  have hmem := Signature.mem_types_param hp
  rw [subst_instantiation ha (hmd.sig.fit.types _ hmem) (hmd.sig.text.types _ hmem)]
  rfl

/-- The types of a body's variables fit under the formals of the method. -/
theorem fit_of_scope (hmd : md.Proper T (T.vocabulary strict)) {x : String} {t : Ty}
    (hx : Env.find? md.scope x = some t) : t.Fit (T.vocabulary strict) md.bounds.names [] := by
  rw [MethodDecl.names_bounds]
  have hmem := Env.mem_of_find? hx
  rw [MethodDecl.scope, List.mem_cons] at hmem
  rcases hmem with he | hmem
  · obtain rfl := (Prod.mk.inj he).2
    refine .named (by simpa [formalArguments] using hmd.recv) ?_ ?_
    all_goals
      intro a ha
      obtain ⟨f, hf, rfl⟩ := List.mem_map.1 ha
    · rfl
    · exact .param (List.mem_append_left _ (List.mem_map_of_mem hf))
  · obtain ⟨p, hp, he⟩ := List.mem_map.1 hmem
    obtain rfl := (Prod.mk.inj he).2
    rw [← MethodDecl.names_bounds]
    exact fit_of_mem_types hmd (Signature.mem_types_param hp)

end Applies

/-- The body of every method is typed wherever the method applies. -/
def BodiesTyped (T : Table) (strict : Bool) : Prop :=
  ∀ md ∈ T.methodDecls, ∀ args targs, md.Applies T strict args targs →
    ∃ t, Typed T strict .written (md.scopeAt args targs)
        (md.body.substTypes (md.instantiation args targs)) t
      ∧ T.Sub t (md.sig.result.subst (md.instantiation args targs))

end Table

/-! ## Checked programs -/

/-- The elaborated body of a method is typed wherever the method applies. -/
theorem Checker.typed_body {C : Checker} {strict : Bool} {rank : String → Nat}
    (h : C.table.WellFormed strict rank) {md md' : MethodDecl} (hmd : md ∈ C.table.methodDecls)
    (hplain : (Decl.method md).Plain strict) (hbody : md.body.Plain strict)
    (hcheck : C.checkMethodDecl md = .ok md') {args targs : List Ty}
    (ha : md.Applies C.table strict args targs) :
    ∃ t, Typed C.table strict .written (md.scopeAt args targs)
        (md'.body.substTypes (md.instantiation args targs)) t
      ∧ C.table.Sub t (md.sig.result.subst (md.instantiation args targs)) := by
  have hproper := h.methods md hmd
  have hη := Table.admits_of_applies hproper hplain ha
  obtain ⟨-, -, t, body, body', hb, hcoerce, rfl⟩ := of_checkMethodDecl hcheck
  obtain ⟨hfit, htyped⟩ :=
    typed_of_check h hη rfl (fun x t hx => Table.fit_of_scope hproper hx) hbody hb
  rw [Table.close_scope hproper ha.toFits] at htyped
  have hmem := Signature.mem_types_result md.sig
  obtain ⟨t', ht', hs⟩ := typed_of_coerce h hη rfl hfit (Table.fit_of_mem_types hproper hmem) htyped
    hcoerce
  rw [Table.subst_instantiation ha.toFits (hproper.sig.fit.types _ hmem) (hproper.sig.text.types _ hmem)]
  exact ⟨t', ht', hs⟩

/-- A table whose headers are those of a well-formed one is well formed. -/
theorem Table.WellFormed.of_sameHeaders {T T' : Table} {strict : Bool} {rank : String → Nat}
    (h : T.WellFormed strict rank) (hT : T.SameHeaders T') (hunique : T'.MethodsUnique) :
    T'.WellFormed strict rank where
  ranking := by
    have hle := h.ranking.le
    have hlt := h.ranking.lt
    refine ⟨hT.types ▸ hle, fun c td d htd => ?_⟩
    rw [← hT.type?_eq] at htd ⊢
    exact hlt c td d htd
  types c td htd := hT.vocabulary_eq strict ▸ h.types c td (hT.type?_eq c ▸ htd)
  methods md' hmd' := by
    have hmem := List.mem_map_of_mem (f := MethodDecl.header) hmd'
    rw [← hT.methods] at hmem
    obtain ⟨md, hmd, hheader⟩ := List.mem_map.1 hmem
    simp only [MethodDecl.header, Prod.mk.injEq] at hheader
    obtain ⟨-, hr, hf, hs⟩ := hheader
    have hproper := h.methods md hmd
    rw [hT.vocabulary_eq strict] at hproper
    refine ⟨hr ▸ hf ▸ hproper.recv, hr ▸ hT.namesInterface_eq ▸ hproper.concrete,
      hf ▸ hproper.formals, hf ▸ hproper.bounds, hs ▸ hf ▸ hproper.sig, ?_, hunique md' hmd'⟩
    rw [← hf, ← hs]
    exact fun f hf => hT.boundType_eq f.ty ▸ hproper.boundTypes f hf

/-- Where a method applies does not depend on bodies. -/
theorem MethodDecl.Applies.of_sameHeaders {T T' : Table} (hT : T'.SameHeaders T) {strict : Bool}
    {md md' : MethodDecl} (hmd : md.header = md'.header) {args targs : List Ty}
    (ha : md'.Applies T' strict args targs) : md.Applies T strict args targs := by
  simp only [MethodDecl.header, Prod.mk.injEq] at hmd
  obtain ⟨-, hr, hf, hs⟩ := hmd
  have hinst : md.instantiation = md'.instantiation := by
    funext args targs
    rw [MethodDecl.instantiation, MethodDecl.instantiation, hf, hs]
  refine ⟨⟨hr ▸ hT.vocabulary_eq strict ▸ ha.recv, hf ▸ ha.recvLength, fun t ht => ?_,
    hs ▸ ha.length⟩, ?_, ?_⟩
  · exact hT.vocabulary_eq strict ▸ ha.given t ht
  · rw [hf]
    exact fun p hp => hT.implements_iff.1 (ha.recvWithin p hp)
  · rw [hs, hinst]
    exact fun p hp => hT.implements_iff.1 (ha.within p hp)

/-- What the check of a program went through: the table of the source, and the table of the checked
declarations with the source of every method in it. -/
structure ProgramCheck (C : Checker) (p : Program) (t : Ty) (q : Program) (T : Table) : Prop where
  source : Table.ofDecls p.decls = .ok C.table
  checked : Table.ofDecls q.decls = .ok T
  decls : C.checkDecls p.decls = .ok q.decls
  same : C.table.SameHeaders T
  methods : ∀ md' ∈ T.methodDecls, ∃ md, Decl.method md ∈ p.decls ∧ md ∈ C.table.methodDecls
    ∧ C.checkMethodDecl md = .ok md'
  main : C.check [] [] p.main = .ok (t, q.main)

theorem exists_programCheck {lenient : Bool} {fuel : Nat} {p q : Program} {t : Ty}
    (h : checkProgram fuel lenient p = .ok (t, q)) :
    ∃ T T', ProgramCheck ⟨T, lenient, fuel⟩ p t q T' := by
  obtain ⟨T, hT, h⟩ := Answer.bind_eq_ok.1 h
  rw [Answer.liftExcept_eq, Answer.ofExcept_eq_ok] at hT
  obtain ⟨decls, hdecls, h⟩ := Answer.bind_eq_ok.1 h
  obtain ⟨⟨t', main⟩, hmain, h⟩ := Answer.bind_eq_ok.1 h
  obtain ⟨rfl, rfl⟩ := Prod.mk.inj (Answer.ok.inj h)
  obtain ⟨-, hchecked⟩ := Checker.of_checkDecls hdecls
  obtain ⟨T', hT', hsame⟩ := Table.exists_ofDecls
    (hchecked.imp fun _ _ hd => Checker.sameHeader_of_checkDecl hd) hT
  refine ⟨T, T', hT, hT', hdecls, hsame, fun md' hmd' => ?_, hmain⟩
  have hmem := Table.mem_decls_of_method hT' hmd'
  obtain ⟨d, hd, hcheck⟩ := exists_of_mem_forall₂ hchecked.flip hmem
  cases d with
  | type td =>
    obtain ⟨⟨⟩, -, hcheck⟩ := Answer.bind_eq_ok.1 hcheck
    cases Answer.ok.inj hcheck
  | method md =>
    obtain ⟨md'', hmd'', hcheck⟩ := Answer.bind_eq_ok.1 hcheck
    obtain rfl := Decl.method.inj (Answer.ok.inj hcheck)
    refine ⟨md, hd, ?_, hmd''⟩
    rw [(Table.ofDecls_eq_ok hT).2.1, List.mem_filterMap]
    exact ⟨_, hd, rfl⟩

namespace ProgramCheck

variable {C : Checker} {strict : Bool} {p q : Program} {t : Ty} {T : Table}

theorem exists_wellFormed (h : ProgramCheck C p t q T) (hplain : p.Plain strict) :
    ∃ rank, C.table.WellFormed strict rank ∧ T.WellFormed strict rank := by
  obtain ⟨rank, hwf⟩ := Checker.wellFormed_of_checkDecls h.source
    (fun d hd => hplain.decl hd) h.decls
  exact ⟨rank, hwf, hwf.of_sameHeaders h.same (Table.ofDecls_eq_ok h.checked).2.2⟩

theorem bodiesTyped (h : ProgramCheck C p t q T) (hplain : p.Plain strict) :
    T.BodiesTyped strict := by
  obtain ⟨rank, hwf, -⟩ := h.exists_wellFormed hplain
  intro md' hmd' args targs ha
  obtain ⟨md, hdecl, hmd, hcheck⟩ := h.methods md' hmd'
  obtain ⟨-, -, _, _, body', -, -, hmethod⟩ := Checker.of_checkMethodDecl hcheck
  have hheader : md.header = md'.header := by rw [hmethod, MethodDecl.header, MethodDecl.header]
  obtain ⟨t, ht, hs⟩ := Checker.typed_body hwf hmd (hplain.decl hdecl) (hplain.body hdecl) hcheck
    (ha.of_sameHeaders h.same.symm hheader)
  subst hmethod
  exact ⟨t, h.same.typed ht, h.same.sub hs⟩

/-- The elaborated main expression is that of the source but for conversions, and what it writes is
closed. -/
theorem closed_main (h : ProgramCheck C p t q T) (hplain : p.Plain strict) :
    q.main.Agrees p.main ∧ q.main.Closed (T.vocabulary strict)
      ∧ t.Closed (T.vocabulary strict) := by
  obtain ⟨rank, hwf, -⟩ := h.exists_wellFormed hplain
  have hwritten := Checker.written_of_check hwf rfl (fun _ ha => absurd ha List.not_mem_nil)
    hplain.main h.main
  rw [← h.same.vocabulary_eq strict]
  exact ⟨Checker.agrees_of_check h.main, hwritten.2.closed,
    Checker.closed_of_check hwf rfl (fun _ _ hx => by cases hx) hwritten.1.closed h.main⟩

/-- The elaborated main expression is typed. -/
theorem typed_main (h : ProgramCheck C p t q T) (hplain : p.Plain strict) :
    Typed T strict .written [] q.main t := by
  obtain ⟨rank, hwf, -⟩ := h.exists_wellFormed hplain
  obtain ⟨-, -, hclosed⟩ := h.closed_main hplain
  obtain ⟨-, htyped⟩ := Checker.typed_of_check hwf (Table.admits_nil C.table strict) rfl
    (fun _ _ hx => by cases hx) hplain.main h.main
  rw [← h.same.vocabulary_eq strict] at hclosed
  rw [hclosed.close_eq, Expr.substTypes_nil] at htyped
  exact h.same.typed htyped

/-- An elaborated body is that of the source but for conversions, and it is written under the formals
of its method. -/
theorem written_body (h : ProgramCheck C p t q T) (hplain : p.Plain strict) {md' : MethodDecl}
    (hmd' : md' ∈ T.methodDecls) : (∃ e ∈ p.exprs, md'.body.Agrees e)
      ∧ md'.body.Written (T.vocabulary strict) md'.bounds.names := by
  obtain ⟨rank, hwf, -⟩ := h.exists_wellFormed hplain
  obtain ⟨md, hdecl, hmd, hcheck⟩ := h.methods md' hmd'
  obtain ⟨-, -, _, body, body', hbody, hcoerce, rfl⟩ := Checker.of_checkMethodDecl hcheck
  have hagrees := (Checker.agrees_of_coerce hcoerce).trans (Checker.agrees_of_check hbody)
  have hunprimed : ∀ a ∈ md.bounds.names, Unprimed a := by
    rw [MethodDecl.names_bounds]
    exact fun a ha => ((hplain.decl hdecl).formals a ha).1
  have hwritten := Checker.written_of_check hwf rfl hunprimed (hplain.body hdecl) hbody
  refine ⟨⟨md.body, ?_, hagrees⟩, ?_⟩
  · exact List.mem_append_left _ (List.mem_flatMap.2 ⟨_, hdecl, List.mem_cons_self⟩)
  · rw [← h.same.vocabulary_eq strict]
    exact hagrees.over hwritten.1

end ProgramCheck

/-- **What the check of a plain program establishes of the checked program.** -/
theorem checkProgram_typed {strict lenient : Bool} {fuel : Nat} {p q : Program} {t : Ty}
    (hplain : p.Plain strict) (h : checkProgram fuel lenient p = .ok (t, q)) :
    ∃ T rank, Table.ofDecls q.decls = .ok T ∧ T.WellFormed strict rank ∧ T.BodiesTyped strict
      ∧ t.Closed (T.vocabulary strict) ∧ Typed T strict .written [] q.main t := by
  obtain ⟨T, T', hcheck⟩ := exists_programCheck h
  obtain ⟨rank, -, hwf⟩ := hcheck.exists_wellFormed hplain
  obtain ⟨-, -, hclosed⟩ := hcheck.closed_main hplain
  exact ⟨T', rank, hcheck.checked, hwf, hcheck.bodiesTyped hplain, hclosed, hcheck.typed_main hplain⟩

end FeatherGo
