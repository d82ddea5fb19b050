import FeatherGo.Proofs.Ground.Exact
import FeatherGo.Proofs.Ground.Parallel

/-!
# Steps of typed expressions and their images

The rules for redexes come to the same end for an expression and its image
(`Ground.Grounding.Aligned.step`): a field stands at the same place, a call finds the method that was
declared for its instance, and an assertion has the same verdict since placeholders make ground
subtyping exact.
-/

namespace FeatherGo.Ground

variable [Digest] {top : String}

/-! ## Outcomes -/

/-- Two failures of one kind: an assertion failed, an integer was divided by zero, a divisor was lost,
or an operator or a conversion does not take its operands. -/
inductive SameKind : EvalError → EvalError → Prop
  | failedAssertion {t u t' u' : Ty} {e e' : Expr} :
      SameKind (.stuck (.failedAssertion t u e)) (.stuck (.failedAssertion t' u' e'))
  | divisionByZero {e e' : Expr} :
      SameKind (.stuck (.divisionByZero e)) (.stuck (.divisionByZero e'))
  | divisorLost : SameKind .divisorLost .divisorLost
  | invalidOperand {op : Operator} {t t' : Ty} {e e' : Expr} :
      SameKind (.type (.invalidOperand op t e)) (.type (.invalidOperand op t' e'))
  | invalidConversion {t t' : Ty} {k : Kind} {e e' : Expr} :
      SameKind (.type (.invalidConversion t k e)) (.type (.invalidConversion t' k e'))

/-- Two steps match: by one rule they lead to an expression and its image, or they fail in one way. -/
inductive Matching (top : String) :
    Answer EvalError (Expr × Rule) → Answer EvalError (Expr × Rule) → Prop
  | ok {g m : Expr} (imaged : Imaged top g m) (rule : Rule) :
      Matching top (.ok (g, rule)) (.ok (m, rule))
  | error {e e' : EvalError} (sameKind : SameKind e e') : Matching top (.error e) (.error e')

/-- Steps match if the steps of parts do. -/
theorem Matching.plug {x x' : Answer EvalError (Expr × Rule)} (h : Matching top x x')
    {plug plug' : Expr → Expr} (hplug : ∀ s s', Imaged top s s' → Imaged top (plug s) (plug' s')) :
    Matching top (do
      let (s, rule) ← x
      return (plug s, rule)) (do
      let (s, rule) ← x'
      return (plug' s, rule)) := by
  cases h with
  | ok imaged rule => exact .ok (hplug _ _ imaged) rule
  | error sameKind => exact .error sameKind

/-- Operators on literals do the same on both sides. -/
theorem matching_operate (op : Operator) (l r : Literal) (whole whole' : Expr) :
    Matching top (do return (← Machine.operate op (.lit l) (.lit r) whole, .binary))
      (do return (← Machine.operate op (.lit l) (.lit r) whole', .binary)) := by
  rw [Machine.operate, Machine.operate]
  cases op.apply l r with
  | ok l => exact .ok (.lit l) _
  | error fault =>
    cases fault with
    | divisionByZero => exact .error .divisionByZero
    | divisorLost => exact .error .divisorLost
    | unsupported p => exact .error .invalidOperand

/-- Conversions of literals do the same on both sides. -/
theorem matching_convertValue (k : Kind) (l : Literal) (whole whole' : Expr) :
    Matching top (do return (← Machine.convertValue k (.lit l) whole, .convert))
      (do return (← Machine.convertValue k (.lit l) whole', .convert)) := by
  rw [Machine.convertValue, Machine.convertValue]
  cases l.convert k with
  | some l => exact .ok (.lit l) _
  | none => exact .error .invalidConversion

/-- A value of a primitive type is a literal, its own image. -/
theorem lit_of_value {T : Table} {strict : Bool} {U : Usage} {Γ : Scope} {e m : Expr} {p : Prim}
    (ht : Typed T strict U Γ e (.prim p)) (hv : e.isValue = true) (hi : Imaged top e m) :
    ∃ l, e = .lit l ∧ m = .lit l := by
  rcases ht.of_value hv with ⟨l, rfl, -⟩ | ⟨c, targs, es, -, h⟩
  · exact ⟨l, rfl, (Except.ok.inj hi).symm⟩
  · cases h

namespace Grounding

variable {G : Grounding} {T' : Table} {N : String → Prop} {rank : String → Nat} {U : Usage}

/-- What lets the ground table follow evaluation under a usage: subtyping is exact, expressions run
well, the types in use are flat instances, the calls in use have instances, and nothing is formatted. -/
structure Aligned (G : Grounding) (T' : Table) (N : String → Prop) (rank : String → Nat)
    (U : Usage) : Prop where
  regular : G.Regular N
  declared : G.Declared T'
  placeholders : PlaceholdersApart G.table G.instances.types
  wellFormed : G.table.WellFormed true rank
  supported : Supported G.table true U
  types : ∀ t, U.types t → t ∈ G.instances.types ∧ t.flat true = true
  calls : ∀ t u m ts, U.types t → t.isNamed = true → U.calls t u m ts →
    ⟨t, m, ts⟩ ∈ G.instances.meths
  silent : ¬U.prints

/-! ## Assertions -/

/-- A type that assertions compare, with its image: an instance of a declared type or a primitive
type. -/
inductive Compared (G : Grounding) : Ty → Ty → Prop
  | named {c : String} {args : List Ty} (mem : .named c args ∈ G.instances.types) :
      Compared G (.named c args) (.named (typeName c args) [])
  | prim (p : Prim) : Compared G (.prim p) (.prim p)

/-- What has no methods implements an interface just if it implements the ground form. -/
theorem Sets.covers_nil {c : String} {args : List Ty} {W W' : MethodSet}
    (hW : G.Sets T' c args W W') : MethodSet.Covers [] W ↔ MethodSet.Covers [] W' := by
  constructor
  · intro h x hx
    cases (hW.mem x).1 hx with
    | placeholder hs =>
      obtain ⟨o, ho, -⟩ := h _ hs
      cases ho
    | image hs =>
      obtain ⟨o, ho, -⟩ := h _ hs
      cases ho
  · intro h s hs
    obtain ⟨o, ho, -⟩ := h _ ((hW.mem _).2 (.placeholder hs))
    cases ho

namespace Aligned

variable (A : G.Aligned T' N rank U)

include A

/-- One type that assertions compare implements another just if its image does. -/
theorem implementsBy {t t' u u' : Ty} (ht : G.Compared t t') (hu : G.Compared u u') :
    ∃ b, G.table.implementsBy (G.table.allMethods []) t u = .ok b
      ∧ T'.implementsBy (T'.allMethods []) t' u' = .ok b := by
  cases hu with
  | prim q =>
    refine ⟨_, Table.implementsBy_concrete (by simp) rfl, ?_⟩
    rw [Table.implementsBy_concrete (by simp) rfl]
    cases ht with
    | named => rfl
    | prim p => rfl
  | @named d ds hu =>
    cases ht with
    | named ht => exact A.regular.implements A.declared A.placeholders ht hu
    | prim p =>
      obtain ⟨b, hi, hi'⟩ := A.declared.isInterface A.regular.saturated hu
      cases b with
      | true =>
        obtain ⟨W, W', hW⟩ := A.regular.exists_sets A.declared hu
        refine ⟨_, Table.implementsBy_interface (by simp) hi hW.generic
          (Table.Sub.allMethods_prim [] p), ?_⟩
        rw [Table.implementsBy_interface (by simp) hi' hW.ground (Table.Sub.allMethods_prim [] p)]
        refine congrArg _ (Bool.eq_iff_iff.2 ?_)
        rw [MethodSet.covers_iff, MethodSet.covers_iff]
        exact hW.covers_nil.symm
      | false =>
        refine ⟨_, Table.implementsBy_concrete (by simp) hi, ?_⟩
        rw [Table.implementsBy_concrete (by simp) hi']
        rfl

/-- The type of a value is compared with that of its image. -/
theorem compared_runtimeType {e m : Expr} {t : Ty} (ht : Typed G.table true U [] e t)
    (hv : e.isValue = true) (hi : Imaged G.top e m) : G.Compared e.runtimeType m.runtimeType := by
  cases ht with
  | structLit closed used =>
    obtain ⟨-, ms, -, rfl⟩ := Imaged.structLit_iff.1 hi
    exact .named (A.types _ used).1
  | lit l =>
    obtain rfl := Except.ok.inj hi
    exact .prim _
  | _ => cases hv

/-- The target of an assertion in use is compared with its image. -/
theorem compared_target {u u' : Ty} (hu : U.types u)
    (hclosed : u.Closed (G.table.vocabulary true)) (hu' : imageTy G.top u = .ok u') :
    G.Compared u u' := by
  obtain ⟨hmem, hflat⟩ := A.types u hu
  cases u with
  | named c args =>
    obtain rfl := imageTy_named_eq_ok hu'
    exact .named hmem
  | prim p =>
    obtain rfl := Except.ok.inj hu'
    exact .prim p
  | param a => exact absurd rfl (hclosed.ne_param a)
  | _ => cases hflat

/-- An assertion on a value lets it through just if it lets its image through. -/
theorem assertValue {e m : Expr} {t u u' : Ty} (ht : Typed G.table true U [] e t)
    (hv : e.isValue = true) (hi : Imaged G.top e m) (hu : U.types u)
    (hclosed : u.Closed (G.table.vocabulary true)) (hu' : imageTy G.top u = .ok u') :
    ∃ k, ∀ n ≥ k, Matching G.top
      (do return (← (Machine.mk G.table n).assertValue e u, .assert))
      (do return (← (Machine.mk T' n).assertValue m u', .assert)) := by
  obtain ⟨b, hb, hb'⟩ :=
    A.implementsBy (A.compared_runtimeType ht hv hi) (A.compared_target hu hclosed hu')
  obtain ⟨k, hk⟩ := (Table.finitary_implementsBy _ _ _).eventually hb
  obtain ⟨k', hk'⟩ := (Table.finitary_implementsBy _ _ _).eventually hb'
  refine ⟨max k k', fun n hn => ?_⟩
  rw [Machine.assertValue, Machine.assertValue]
  dsimp only
  rw [Table.implements, hk n ((Nat.le_max_left ..).trans hn), Table.implements,
    hk' n ((Nat.le_max_right ..).trans hn)]
  cases b with
  | true => exact .ok hi _
  | false => exact .error .failedAssertion

/-! ## Fields and calls -/

/-- A struct literal in use is of an instance that resolves to fields. -/
theorem of_structLit {c : String} {targs : List Ty} {es : List Expr} {t : Ty}
    (ht : Typed G.table true U [] (.structLit c targs es) t) :
    .named c targs ∈ G.instances.types ∧ G.table.isInterface (.named c targs) = .ok false
      ∧ ∃ fields, G.table.resolve (.named c targs) = .ok (.struct fields) := by
  cases ht with
  | @structLit _ _ _ _ fields closed used resolves =>
    have hres := (A.wellFormed.lawful.resolve_iff closed.sealed.inner).2 resolves
    exact ⟨(A.types _ used).1, except_bind_eq_ok.2 ⟨_, hres, rfl⟩, fields, hres⟩

/-- A field of a struct value has the same place in its image. -/
theorem project {e m : Expr} {t : Ty} {fields : List Slot} {f : Slot} {field : String}
    (ht : Typed G.table true U [] e t) (hv : e.isValue = true) (hi : Imaged G.top e m)
    (hf : G.table.Resolves t (.struct fields))
    (hfound : fields.find? (fun f => f.name = field) = some f) (n : Nat) (whole whole' : Expr) :
    ∃ v v', (Machine.mk G.table n).project field whole e = .ok v
      ∧ (Machine.mk T' n).project field whole' m = .ok v' ∧ Imaged G.top v v' := by
  obtain ⟨v, -, hproject, -⟩ :=
    ht.project A.wellFormed ⟨G.table, n⟩ rfl hv hf hfound
  rcases ht.of_value hv with ⟨l, rfl, rfl⟩ | ⟨c, targs, es, rfl, rfl⟩
  · cases hf
  obtain ⟨hmem, hconcrete, -⟩ := A.of_structLit ht
  obtain ⟨-, ms, hms, rfl⟩ := Imaged.structLit_iff.1 hi
  obtain ⟨fields, i, hfields, hidx, hvi⟩ := Machine.project_eq_ok.1 hproject
  obtain ⟨v', hvi', himage⟩ := hms.getElem? hvi
  refine ⟨v, v', hproject, Machine.project_eq_ok.2 ?_, himage⟩
  -- The image of the source has fields of the same names.
  obtain ⟨w, w', hw, -, hw', hres', -⟩ :=
    A.declared.resolve_other A.regular.saturated hmem hconcrete
  obtain rfl := (Table.resolves_of_resolve hw).unique (Checker.resolves_of_structFields hfields)
  obtain ⟨fields', hfields', h⟩ := except_bind_eq_ok.1 hw'
  obtain rfl := Except.ok.inj h
  refine ⟨fields', i, except_bind_eq_ok.2 ⟨_, hres', rfl⟩, ?_, hvi'⟩
  have hplace (fs : List Slot) : fs.findIdx? (fun f => decide (f.name = field))
      = (fs.map (·.name)).findIdx? fun x => decide (x = field) := by
    rw [List.findIdx?_map]
    rfl
  rw [hplace, (imageSlots_eq_ok hfields').1, ← hplace, hidx]

/-- A call on a value runs the method that was declared for its instance. -/
theorem invoke {recv recv' : Expr} {meth meth' : String} {targs targs' : List Ty}
    {args args' : List Expr} {t : Ty} (ht : Typed G.table true U [] (.call recv meth targs args) t)
    (hv : recv.isValue = true)
    (hi : Imaged G.top (.call recv meth targs args) (.call recv' meth' targs' args')) (n : Nat) :
    ∃ v v', (Machine.mk G.table n).invoke recv meth targs args = .ok v
      ∧ (Machine.mk T' n).invoke recv' meth' targs' args' = .ok v' ∧ Imaged G.top v v' := by
  obtain ⟨c, cargs, es, u, md, rfl, hmd, hrecvTyped, hused, hcall, happlies, hargs, -⟩ :=
    ht.method_of_call A.wellFormed A.supported hv
  obtain ⟨hdecl, rfl, rfl⟩ := Table.of_method? hmd
  obtain ⟨-, recv', args', hrecv, hiargs, he⟩ := Imaged.call_iff.1 hi
  obtain ⟨rfl, rfl, rfl, rfl⟩ := Expr.call.inj he
  obtain ⟨-, ms, -, rfl⟩ := Imaged.structLit_iff.1 hrecv
  obtain ⟨hmem, hconcrete, -⟩ := A.of_structLit hrecvTyped
  have hlive : G.Live md.recvType cargs md := ⟨hmem, hconcrete, Table.mem_methodsOn.2 ⟨hdecl, rfl⟩⟩
  have happ : G.AppliesAt cargs md :=
    ((receiverBy_iff (A.declared.receivers _ _ _ hlive)).1 (Table.receiverBy_eq_some.2
      ⟨happlies.recvLength, rfl, happlies.recvWithin⟩)).1
  have hinstance : ⟨.named md.recvType cargs, md.sig.name, targs⟩
      ∈ G.instancesOf (.named md.recvType cargs) md.sig.name md.sig.formals :=
    mem_instancesOf.2 ⟨A.calls _ _ _ _ hused rfl hcall, rfl, rfl, happlies.length.symm⟩
  obtain ⟨g, hg, hg'⟩ := A.declared.methods.instances _ _ _ _ hlive happ hinstance
  have hmethod : T'.method? (typeName md.recvType cargs) (methodName md.sig.name targs) = some g := by
    have h := A.declared.unique g hg
    rwa [hg'.recvType, hg'.name_eq] at h
  obtain ⟨-, hformals, hparams, -⟩ := of_imageSignature hg'.sig
  have hnames : g.sig.params.map (·.name) = md.sig.params.map (·.name) := by
    rw [(imageSlots_eq_ok hparams).1, List.map_map]
    rfl
  have hlength : md.sig.params.length = args.length := by simpa using hargs.length_eq.symm
  have hlength' : g.sig.params.length = args'.length := by
    rw [← List.length_map (f := (·.name)), hnames, List.length_map, hlength, hiargs.length_eq]
  refine ⟨_, _, by rw [Machine.invoke, hmd]; exact if_pos hlength,
    by rw [Machine.invoke, hmethod]; exact if_pos hlength', ?_⟩
  rw [hg'.recvFormals, hformals, hg'.recv, hnames]
  have hbody : Imaged G.top (md.body.substTypes (md.instantiation cargs targs))
      (g.body.substTypes (instantiation [] [] ++ instantiation [] [])) := by
    rw [show (instantiation [] [] ++ instantiation [] [] : Env Ty) = [] from rfl,
      Expr.substTypes_nil]
    exact hg'.body
  exact hbody.substVars fun x => ImagedAll.find?_zip (.cons hrecv hiargs)
    (md.recv :: md.sig.params.map Slot.name) x

/-! ## Steps -/

/-- The rule for a redex comes to matching ends for the redex and its image. -/
theorem redex {r r' : Expr} {t : Ty} (hr : r.Ready) (ht : Typed G.table true U [] r t)
    (hi : Imaged G.top r r') : ∃ k, ∀ n ≥ k,
      Matching G.top ((Machine.mk G.table n).step r) ((Machine.mk T' n).step r') := by
  cases hr with
  | var x =>
    cases ht with
    | var found => cases found
  | @select e hv field =>
    obtain ⟨e', he', rfl⟩ := Imaged.select_iff.1 hi
    cases ht with
    | select typed resolves found =>
      refine ⟨0, fun n _ => ?_⟩
      obtain ⟨v, v', hp, hp', himage⟩ := A.project typed hv he' resolves found n
        (.select e field) (.select e' field)
      rw [Machine.step, if_pos hv, Machine.step, if_pos (he'.isValue_eq.trans hv), hp, hp']
      exact .ok himage _
  | @call recv args hv hvs meth targs =>
    obtain ⟨-, recv', args', hrecv, hargs, rfl⟩ := Imaged.call_iff.1 hi
    refine ⟨0, fun n _ => ?_⟩
    obtain ⟨v, v', hinv, hinv', himage⟩ := A.invoke ht hv hi n
    have hv' := hrecv.isValue_eq.trans hv
    have hvs' := hargs.areValues_eq.trans hvs
    simp only [Machine.step, hv, hvs, hv', hvs', Bool.not_true, Bool.false_eq_true, if_false]
    rw [hinv, hinv']
    exact .ok himage _
  | @assert e hv target =>
    obtain ⟨e', target', he', htarget, rfl⟩ := Imaged.assert_iff.1 hi
    cases ht with
    | assert typed closed used =>
      simp only [Machine.step, if_pos hv, if_pos (he'.isValue_eq.trans hv)]
      exact A.assertValue typed hv he' used closed htarget
  | sprintf =>
    cases ht with
    | sprintf used => exact absurd used A.silent
  | @decided op lhs b hl hd rhs =>
    obtain ⟨lhs', rhs', hlhs, -, rfl⟩ := Imaged.binary_iff.1 hi
    refine ⟨0, fun n _ => ?_⟩
    have hl' := hlhs.isValue_eq.trans hl
    have hd' := (hlhs.decided?_eq hl op).trans hd
    simp only [Machine.step, hl, hl', hd, hd', Bool.not_true, Bool.false_eq_true, if_false]
    exact .ok (.lit _) _
  | @binary op lhs rhs hl hd hr =>
    obtain ⟨lhs', rhs', hlhs, hrhs, rfl⟩ := Imaged.binary_iff.1 hi
    refine ⟨0, fun n _ => ?_⟩
    have hl' := hlhs.isValue_eq.trans hl
    have hd' := (hlhs.decided?_eq hl op).trans hd
    have hr' := hrhs.isValue_eq.trans hr
    simp only [Machine.step, hl, hl', hd, hd', hr, hr', Bool.not_true, Bool.false_eq_true, if_false]
    cases ht with
    | binary left right =>
      obtain ⟨l, rfl, rfl⟩ := lit_of_value left hl hlhs
      obtain ⟨r, rfl, rfl⟩ := lit_of_value right hr hrhs
      exact matching_operate op l r _ _
  | @convert e hv k =>
    obtain ⟨e', he', rfl⟩ := Imaged.convert_iff.1 hi
    refine ⟨0, fun n _ => ?_⟩
    simp only [Machine.step, if_pos hv, if_pos (he'.isValue_eq.trans hv)]
    cases ht with
    | convert typed =>
      obtain ⟨l, rfl, rfl⟩ := lit_of_value typed hv he'
      exact matching_convertValue k l _ _

/-- **An expression and its image take matching steps.** -/
theorem step {g m : Expr} {t : Ty} (ht : Typed G.table true U [] g t) (hi : Imaged G.top g m)
    (hv : g.isValue = false) : ∃ k, ∀ n ≥ k,
      Matching G.top ((Machine.mk G.table n).step g) ((Machine.mk T' n).step m) := by
  obtain ⟨hr, plug, plug', hstep, hstep', hplug⟩ := hi.parallel hv
  obtain ⟨t', ht'⟩ := ht.redex
  obtain ⟨k, hk⟩ := A.redex (Expr.ready_redex hv) ht' hr
  refine ⟨k, fun n hn => ?_⟩
  rw [hstep, hstep']
  exact (hk n hn).plug hplug

end Aligned

end Grounding

end FeatherGo.Ground
