import FeatherGo.Proofs.Literals.Operators
import FeatherGo.Proofs.Methods.Stable
import FeatherGo.Proofs.Typing.Rechecking

/-!
# Types of settled expressions

`Precise` is what the check finds of an expression that it leaves as it is, where no type parameters are in
scope: it is typed, at the kinds of primitive types that the check gives, and what flows into a place
implements it. A settled expression under bounds is precise once its type parameters stand for types within
the bounds (`Checker.precise_of_settled`), if it makes no assertion that looks at a type parameter: such an
assertion looks at the bound, but at an instance it looks at the type that the parameter stands for.
-/

namespace FeatherGo

/-! ## Assertions -/

namespace Expr

mutual

/-- The assertions in an expression: what they look at, and the types that they name. -/
def assertions : Expr → List (Expr × Ty)
  | .var _ | .lit _ => []
  | .structLit _ _ elems => assertionsAll elems
  | .select e _ => assertions e
  | .call recv _ _ args => assertions recv ++ assertionsAll args
  | .assert e ty => (e, ty) :: assertions e
  | .sprintf _ args => assertionsAll args
  | .binary _ lhs rhs => assertions lhs ++ assertions rhs
  | .convert _ e => assertions e

/-- The assertions in some expressions. -/
def assertionsAll : List Expr → List (Expr × Ty)
  | [] => []
  | e :: es => assertions e ++ assertionsAll es

end

theorem mem_assertionsAll {es : List Expr} {a : Expr × Ty} :
    a ∈ assertionsAll es ↔ ∃ e ∈ es, a ∈ e.assertions := by
  induction es with
  | nil => simp [assertionsAll]
  | cons e es ih => simp [assertionsAll, ih]

/-- What holds of an expression holds of its assertions. -/
theorem Over.of_assertion {P Q : Ty → Prop} {e : Expr} (h : e.Over P Q) {a : Expr × Ty}
    (ha : a ∈ e.assertions) : a.1.Over P Q ∧ P a.2 := by
  induction e using Expr.induction with
  | var | lit => cases ha
  | structLit c ts es ih =>
    obtain ⟨e, he, ha⟩ := mem_assertionsAll.1 ha
    exact ih e he (h.structLit.2 e he) ha
  | select e f ih => exact ih h.select ha
  | call e m ts es ih ihs =>
    obtain ⟨he, -, hes⟩ := h.call
    rcases List.mem_append.1 ha with ha | ha
    · exact ih he ha
    · obtain ⟨e, he, ha⟩ := mem_assertionsAll.1 ha
      exact ihs e he (hes e he) ha
  | assert e t ih =>
    rcases List.mem_cons.1 ha with rfl | ha
    · exact h.assert
    · exact ih h.assert.1 ha
  | sprintf s es ih =>
    obtain ⟨e, he, ha⟩ := mem_assertionsAll.1 ha
    exact ih e he (h.sprintf e he) ha
  | binary op l r ihl ihr =>
    rcases List.mem_append.1 ha with ha | ha
    · exact ihl h.binary.1 ha
    · exact ihr h.binary.2 ha
  | convert k e ih => exact ih h.convert ha

end Expr

/-- No assertion in an expression looks at a value whose type is a type parameter, and none names a type
parameter. -/
def Checker.AssertsConcretely (C : Checker) (Δ : Bounds) (Γ : Scope) (e : Expr) : Prop :=
  ∀ a ∈ e.assertions, ∀ p, C.typeOf Δ Γ a.1 ≠ .ok (.param p) ∧ a.2 ≠ .param p

namespace Checker.AssertsConcretely

variable {C : Checker} {Δ : Bounds} {Γ : Scope}

theorem of_part {e e' : Expr} (h : C.AssertsConcretely Δ Γ e)
    (he : ∀ a ∈ e'.assertions, a ∈ e.assertions) : C.AssertsConcretely Δ Γ e' :=
  fun a ha => h a (he a ha)

theorem of_mem {e : Expr} {es : List Expr} (h : ∀ a ∈ Expr.assertionsAll es, ∀ p,
    C.typeOf Δ Γ a.1 ≠ .ok (.param p) ∧ a.2 ≠ .param p) (he : e ∈ es) : C.AssertsConcretely Δ Γ e :=
  fun a ha => h a (Expr.mem_assertionsAll.2 ⟨e, he, ha⟩)

/-- Where no type parameter is in scope none is asserted on. -/
theorem of_closed {T : Table} {strict : Bool} {rank : String → Nat} (h : T.WellFormed strict rank)
    (hC : C.table = T) (hΓ : ∀ x t, Γ.find? x = some t → t.Closed (T.vocabulary strict)) {e : Expr}
    (he : e.Closed (T.vocabulary strict)) : C.AssertsConcretely [] Γ e := by
  intro a ha p
  obtain ⟨hlooks, htarget⟩ := he.of_assertion ha
  refine ⟨fun hp => ?_, htarget.ne_param p⟩
  obtain ⟨⟨t, e'⟩, hcheck, ht⟩ := Answer.bind_eq_ok.1 hp
  exact (closed_of_check h hC hΓ hlooks hcheck).ne_param p (Answer.ok.inj ht)

end Checker.AssertsConcretely

theorem Checker.isParam_eq_false {t : Ty} : isParam t = false ↔ ∀ p, t ≠ .param p := by
  cases t <;> simp [isParam]

instance (C : Checker) (Δ : Bounds) (Γ : Scope) (e : Expr) : Decidable (C.AssertsConcretely Δ Γ e) :=
  decidable_of_iff (∀ a ∈ e.assertions, (C.typeOf Δ Γ a.1).any Checker.isParam = false
    ∧ Checker.isParam a.2 = false) <| forall₂_congr fun a _ => by
      rw [Checker.isParam_eq_false, forall_and]
      refine and_congr_left fun _ => ?_
      cases C.typeOf Δ Γ a.1 with
      | ok t => simp [Answer.any, Checker.isParam_eq_false]
      | _ => simp [Answer.any]

/-- No method body makes an assertion that looks at a type parameter or names one. -/
def Table.AssertsConcretely (T : Table) (n : Nat) : Prop :=
  ∀ md ∈ T.methodDecls, (Checker.mk T false n).AssertsConcretely md.bounds md.scope md.body

instance (T : Table) (n : Nat) : Decidable (T.AssertsConcretely n) :=
  inferInstanceAs (Decidable (∀ md ∈ T.methodDecls, _))

/-! ## Precise types -/

/-- A value flows as it is into a place of another type: it has a type that implements the place, or
neither has a type. -/
inductive Table.Flows (T : Table) : Ty → Ty → Prop
  | loose {k : Kind} {q : Prim} (untyped : q.untyped = true) : Flows T (.prim ⟨k, true⟩) (.prim q)
  | typed {t target : Ty} (typed : ∀ k, t ≠ .prim ⟨k, true⟩) (within : T.Implements t target) :
      Flows T t target

/-- An expression without type parameters that its check leaves as it is, with the type that it has. -/
inductive Precise (T : Table) (Γ : Scope) : Expr → Ty → Prop
  | var {x : String} {t : Ty} (found : Γ.find? x = some t) : Precise T Γ (.var x) t
  | structLit {c : String} {targs : List Ty} {elems : List Expr} {ts : List Ty} {fields : List Slot}
      (resolves : T.Resolves (.named c targs) (.struct fields)) (length : elems.length = ts.length)
      (precise : ∀ p ∈ elems.zip ts, Precise T Γ p.1 p.2)
      (length' : ts.length = (fields.map (·.ty)).length)
      (flows : ∀ p ∈ ts.zip (fields.map (·.ty)), T.Flows p.1 p.2) :
      Precise T Γ (.structLit c targs elems) (.named c targs)
  | select {e : Expr} {t : Ty} {field : String} {fields : List Slot} {f : Slot} (precise : Precise T Γ e t)
      (resolves : T.Resolves t (.struct fields))
      (found : fields.find? (fun f => f.name = field) = some f) : Precise T Γ (.select e field) f.ty
  | call {recv : Expr} {meth : String} {targs : List Ty} {args : List Expr} {t : Ty} {S : MethodSet}
      {sig : Signature} {ts : List Ty} (preciseRecv : Precise T Γ recv t)
      (methods : T.allMethods [] t = .ok S) (found : S.find? meth = some sig)
      (arity : sig.formals.length = targs.length) (length : args.length = ts.length)
      (precise : ∀ p ∈ args.zip ts, Precise T Γ p.1 p.2)
      (length' : ts.length
        = (sig.params.map fun p => p.ty.subst (instantiation sig.formals targs)).length)
      (flows : ∀ p ∈ ts.zip (sig.params.map fun p => p.ty.subst (instantiation sig.formals targs)),
        T.Flows p.1 p.2) :
      Precise T Γ (.call recv meth targs args) (sig.result.subst (instantiation sig.formals targs))
  | assert {e : Expr} {t target : Ty} (precise : Precise T Γ e t) (interface : T.InterfaceType t)
      (possible : T.InterfaceType target ∨ T.Implements target t) : Precise T Γ (.assert e target) target
  | sprintf {format : String} {args : List Expr} {ts : List Ty} (length : args.length = ts.length)
      (precise : ∀ p ∈ args.zip ts, Precise T Γ p.1 p.2) (typed : ∀ t ∈ ts, T.Flows t .anything) :
      Precise T Γ (.sprintf format args) (.ofKind .string)
  | lit (l : Literal) (fits : (l.prim.untyped || l.fits l.prim.kind) = true) :
      Precise T Γ (.lit l) (.prim l.prim)
  | binary {op : Operator} {l r : Expr} {p q : Prim} {t : Ty} (lhs : Precise T Γ l (.prim p))
      (rhs : Precise T Γ r (.prim q)) (agree : p.untyped = q.untyped) (same : p.untyped = false → p = q)
      (result : op.resultType (Operator.commonPrim p q) = some t) : Precise T Γ (.binary op l r) t
  | convert {k : Kind} {e : Expr} {p : Prim} (precise : Precise T Γ e (.prim p))
      (kind : p.kind = k ∨ (p.kind.isNumeric && k.isNumeric) = true)
      (convertible : Checker.unconvertible e k = none) : Precise T Γ (.convert k e) (.ofKind k)

/-- Each of some expressions is precise and flows into its target. -/
def PreciseAll (T : Table) (Γ : Scope) (es : List Expr) (targets : List Ty) : Prop :=
  ∃ ts : List Ty, es.length = ts.length ∧ (∀ p ∈ es.zip ts, Precise T Γ p.1 p.2)
    ∧ ts.length = targets.length ∧ ∀ p ∈ ts.zip targets, T.Flows p.1 p.2

/-- A typed expression that is precise has its precise type. -/
theorem Precise.eq_of_typed {T : Table} {strict : Bool} {rank : String → Nat} {U : Usage} {Γ : Scope}
    (h : T.WellFormed strict rank) (hU : ∀ t u m ts, U.calls t u m ts → T.Sub t u)
    (hΓ : ∀ x t, Γ.find? x = some t → t.Closed (T.vocabulary strict)) {e : Expr} {t u : Ty}
    (he : Precise T Γ e t) (ht : Typed T strict U Γ e u) : t = u := by
  induction he generalizing u with
  | var found =>
    cases ht with
    | var found' => exact Option.some.inj (found.symm.trans found')
  | structLit =>
    cases ht with
    | structLit => rfl
  | select _ resolves found ih =>
    cases ht with
    | select typed resolves' found' =>
      obtain rfl := ih typed
      obtain rfl := Ty.struct.inj (resolves.unique resolves')
      rw [Option.some.inj (found.symm.trans found')]
  | call _ methods found _ _ _ _ _ ih =>
    cases ht with
    | call typedRecv used closed methods' found' arity given =>
      obtain rfl := ih typedRecv
      exact (hU _ _ _ _ used).result_eq h (typedRecv.closed h hΓ) closed methods' methods found'
        found arity given
  | assert =>
    cases ht with
    | assert => rfl
  | sprintf =>
    cases ht with
    | sprintf => rfl
  | lit =>
    cases ht with
    | lit => rfl
  | binary _ _ _ _ result ihl ihr =>
    cases ht with
    | binary typedl typedr =>
      obtain rfl := Ty.prim.inj (ihl typedl)
      obtain rfl := Ty.prim.inj (ihr typedr)
      exact Operator.eq_of_resultType result
  | convert =>
    cases ht with
    | convert => rfl

namespace PreciseAll

variable {T : Table} {Γ : Scope}

theorem nil : PreciseAll T Γ [] [] := ⟨[], rfl, by simp, rfl, by simp⟩

theorem cons {e : Expr} {es : List Expr} {t target : Ty} {targets : List Ty} (he : Precise T Γ e t)
    (ht : T.Flows t target) (hes : PreciseAll T Γ es targets) :
    PreciseAll T Γ (e :: es) (target :: targets) := by
  obtain ⟨ts, hl, hts, hl', hflows⟩ := hes
  refine ⟨t :: ts, congrArg Nat.succ hl, ?_, congrArg Nat.succ hl', ?_⟩
  · exact List.forall_mem_cons.2 ⟨he, hts⟩
  · exact List.forall_mem_cons.2 ⟨ht, hflows⟩

end PreciseAll

/-! ## Settled expressions are precise -/

namespace Checker

variable {T : Table} {rank : String → Nat} {C : Checker} {Δ : Bounds} {η : Env Ty} {Γ Γ' : Scope}

/-- Expressions that flow into their places unchanged are settled, and flow there as they are. -/
theorem Settled.of_flow {e : Expr} {t : Ty} {e₁ : Expr} {d : Ty × Destination}
    (hcheck : C.check Δ Γ e = .ok (t, e₁)) (hcoerce : C.coerce Δ t e₁ d.1 d.2 = .ok e) :
    C.Settled Δ Γ e t ∧ Flow C Δ d.1 e t t e := by
  obtain ⟨t', hflow⟩ := exists_flow hcoerce
  have hsettled := hflow.settled (settled_of_check hcheck)
  obtain ⟨rfl, rfl⟩ := Prod.mk.inj (Answer.ok.inj (hcheck.symm.trans hsettled))
  exact ⟨hsettled, hflow⟩

/-- What flows under bounds flows once type parameters stand for types within them. -/
theorem Flow.close (h : T.WellFormed true rank) (hη : T.Admits true Δ η) (hC : C.table = T)
    {t target : Ty} {e : Expr} (ht : t.Fit (T.vocabulary true) Δ.names [])
    (htarget : target.Fit (T.vocabulary true) Δ.names []) (hflow : Flow C Δ target e t t e) :
    T.Flows (t.close η.lookup) (target.close η.lookup) := by
  subst hC
  cases hflow with
  | loose place untyped =>
    subst place
    exact .loose untyped
  | typed typed within =>
    refine .typed (fun k => ?_) (h.implements_close hη.models ht htarget within)
    cases ht with
    | param mem =>
      -- What a parameter stands for is flat, and untyped primitives are not.
      intro heq
      have hflat := hη.closing.flat _ mem
      rw [show η.lookup _ = Ty.prim ⟨k, true⟩ from heq] at hflat
      cases hflat
    | prim p => exact typed k
    | _ => simp

/-- Wherever an expression is settled, its type fits, and it is precise once its parameters are put in. -/
def PreciseIfSettled (C : Checker) (Δ : Bounds) (η : Env Ty) (Γ Γ' : Scope) (e : Expr) : Prop :=
  ∀ t, C.Settled Δ Γ e t → t.Fit (C.table.vocabulary true) Δ.names []
    ∧ Precise C.table Γ' (e.substTypes η) (t.close η.lookup)

/-- Expressions that flow into targets one by one, once each is precise. -/
theorem preciseAll_of_checkAll (h : C.table.WellFormed true rank) (hη : C.table.Admits true Δ η)
    {targets : List (Ty × Destination)} {es : List Expr} (hl : targets.length = es.length)
    (htargets : ∀ d ∈ targets, d.1.Fit (C.table.vocabulary true) Δ.names [])
    (ih : ∀ e ∈ es, C.PreciseIfSettled Δ η Γ Γ' e) (hall : C.checkAll Δ Γ targets es = .ok es) :
    PreciseAll C.table Γ' (es.map (Expr.substTypes η)) (targets.map fun d => d.1.close η.lookup) := by
  induction es generalizing targets with
  | nil =>
    obtain rfl := List.length_eq_zero_iff.1 hl
    exact .nil
  | cons e es ihes =>
    cases targets with
    | nil => cases hl
    | cons d targets =>
      rw [List.forall_mem_cons] at htargets ih
      obtain ⟨⟨t, e₁⟩, hcheck, hall⟩ := Answer.bind_eq_ok.1 hall
      obtain ⟨e₂, hcoerce, hall⟩ := Answer.bind_eq_ok.1 hall
      obtain ⟨rest, hrest, hall⟩ := Answer.bind_eq_ok.1 hall
      obtain ⟨rfl, rfl⟩ := List.cons.inj (Answer.ok.inj hall)
      obtain ⟨hsettled, hflow⟩ := Settled.of_flow hcheck hcoerce
      obtain ⟨hfit, hprecise⟩ := ih.1 t hsettled
      exact .cons hprecise (hflow.close h hη rfl hfit htargets.1)
        (ihes (Nat.succ.inj hl) htargets.2 ih.2 hrest)

/-- Settled operands have one type, or neither has one. -/
theorem Operands.of_settled {op : Operator} {l r : Expr} {p q s : Prim} (hl : C.Settled Δ Γ l (.prim p))
    (hr : C.Settled Δ Γ r (.prim q)) (h : Operands C Δ op l r p q s l r) :
    p.untyped = q.untyped ∧ (p.untyped = false → p = q) ∧ s = Operator.commonPrim p q := by
  have hsame {e : Expr} {p q : Prim} (he : C.Settled Δ Γ e (.prim p)) (hq : q.untyped = false)
      (hflows : C.coerce Δ (.prim p) e (.prim q) (.operand op) = .ok e) : p = q := by
    have hflow := (Settled.of_flow (d := (.prim q, .operand op)) he hflows).2
    exact Ty.prim.inj (hflow.eq_prim hq)
  cases h with
  | untyped left right =>
    exact ⟨left.trans right.symm, by simp [left], (Operator.commonPrim_untyped left right).symm⟩
  | left left right flows =>
    obtain rfl := hsame hr left flows
    rw [left] at right
    cases right
  | right left right flows =>
    obtain rfl := hsame hl right flows
    rw [left] at right
    cases right
  | typed typed => exact ⟨rfl, fun _ => rfl, (Operator.commonPrim_typed typed).symm⟩

theorem unconvertible_substTypes (e : Expr) (k : Kind) :
    unconvertible (e.substTypes η) k = unconvertible e k := by
  cases e <;> rfl

/-- What a strict check lets be asserted on a type that is no type parameter: the type is an interface. -/
theorem of_assertable (hC : C.table = T) (hsources : T.HasSources) (hlenient : C.lenient = false)
    {t target : Ty} {whole : Expr} (ht : ∀ p, t ≠ .param p) (htarget : ∀ p, target ≠ .param p)
    (h : C.assertable Δ t target whole = .ok ()) :
    T.InterfaceType t ∧ (T.InterfaceType target ∨ T.implements C.fuel Δ target t = .ok true) := by
  subst hC
  have hinterface {u : Ty} {b : Bool} (hu : C.table.isInterface u = .ok b) (hb : b = true) :
      C.table.InterfaceType u := by
    subst hb
    cases u with
    | named c args => exact (hsources.namesInterface_iff hu).1 rfl
    | interface ms => trivial
    | _ => cases hu
  obtain ⟨static, hstatic, h⟩ := Answer.bind_eq_ok.1 h
  obtain rfl : t = static := by
    cases t with
    | param p => exact absurd rfl (ht p)
    | _ => exact Except.ok.inj (Answer.ofExcept_eq_ok.1 hstatic)
  obtain ⟨i, hi, h⟩ := Answer.bind_eq_ok.1 h
  rw [Answer.liftExcept_eq, Answer.ofExcept_eq_ok] at hi
  cases i with
  | true =>
    refine ⟨hinterface hi rfl, ?_⟩
    rw [if_pos rfl] at h
    obtain ⟨j, hj, h⟩ := Answer.bind_eq_ok.1 h
    rw [Answer.liftExcept_eq, Answer.ofExcept_eq_ok] at hj
    split at h
    · rename_i hor
      rw [Bool.or_eq_true] at hor
      refine .inl (hinterface hj (hor.resolve_right fun hp => ?_))
      cases target with
      | param p => exact htarget p rfl
      | _ => cases hp
    · obtain ⟨within, hwithin, h⟩ := Answer.bind_eq_ok.1 h
      cases within with
      | true => exact .inr hwithin
      | false => cases h
  | false => simp [hlenient] at h

/-! ### One lemma for each construct that names types -/

section Constructs

variable (h : C.table.WellFormed true rank) (hη : C.table.Admits true Δ η)
include h hη

theorem written_of_okType {t : Ty} (hp : t.Plain true) (hok : C.table.okType C.fuel Δ t = .ok ()) :
    t.Written (C.table.vocabulary true) Δ.names :=
  Table.written_of_okType h.lawful.hasSources hη.unprimed hp hok

/-- A settled struct literal is precise if its elements are. -/
theorem precise_structLit {c : String} {targs : List Ty} {es : List Expr} {t : Ty}
    (htype : (Ty.named c targs).Plain true)
    (hes : ∀ e ∈ es, C.PreciseIfSettled Δ η Γ Γ' e) (he : C.Settled Δ Γ (.structLit c targs es) t) :
    Precise C.table Γ' ((Expr.structLit c targs es).substTypes η) (t.close η.lookup) := by
  obtain ⟨fields, es', hok, hfields, hl, hall, rfl, heq⟩ := of_check_structLit he
  obtain rfl := (Expr.structLit.inj heq).2.2
  have hw := written_of_okType h hη htype hok
  have hsubst := hη.subst_eq_close hw
  rw [Ty.subst_named] at hsubst
  obtain ⟨hfit, hres⟩ := fields_close h hη.closing (Table.Admits.fit_of_written hw)
    (resolves_of_structFields hfields)
  have hprecise := preciseAll_of_checkAll h hη (by simpa using hl) (List.forall_mem_map.2 hfit) hes hall
  rw [List.map_map] at hprecise
  obtain ⟨ts, hlen, hts, hlen', hflows⟩ := hprecise
  rw [Expr.substTypes, Expr.substTypesAll_eq, ← hsubst]
  rw [← hsubst] at hres
  refine .structLit hres hlen hts ?_ ?_
  · simpa using hlen'
  · simpa [Function.comp_def, Slot.map] using hflows

/-- A settled call is precise if its receiver and its arguments are. -/
theorem precise_call {recv : Expr} {meth : String} {targs : List Ty} {args : List Expr} {t : Ty}
    (htargs : ∀ t ∈ targs, t.Plain true ∧ t.flat true = true)
    (hrecv : C.PreciseIfSettled Δ η Γ Γ' recv) (hargs : ∀ e ∈ args, C.PreciseIfSettled Δ η Γ Γ' e)
    (he : C.Settled Δ Γ (.call recv meth targs args) t) :
    Precise C.table Γ' ((Expr.call recv meth targs args).substTypes η) (t.close η.lookup) := by
  obtain ⟨tr, recv', S, sig, args', hrc, hS, hsig, hl, hok, hwithin, hlp, hall, rfl, heq⟩ :=
    of_check_call he
  obtain ⟨rfl, -, -, rfl⟩ := Expr.call.inj heq
  obtain ⟨hfit, hprecise⟩ := hrecv tr hrc
  have hw (t : Ty) (ht : t ∈ targs) := written_of_okType h hη (htargs t ht).1 (Table.of_okTypes hok t ht)
  have hflat (t : Ty) (ht : t ∈ targs) := (htargs t ht).2
  have htfit (t : Ty) (ht : t ∈ targs) := Table.Admits.fit_of_written (hw t ht)
  have hsfit := h.fit_of_methods (fun a b hb => (hη.models.bounds a b hb).1) hfit hS sig
    (MethodSet.mem_of_find? hsig).1
  have hall := preciseAll_of_checkAll h hη (by simpa using hlp)
    (by
      intro d hd
      obtain ⟨⟨p, i⟩, hp, rfl⟩ := List.mem_map.1 hd
      exact hsfit.fit_at hl hflat htfit
        (Signature.mem_types_param (List.fst_mem_of_mem_zipIdx hp))) hargs hall
  rw [List.map_map] at hall
  have hzip := congrArg (List.map fun p : Slot =>
    (p.ty.subst (instantiation sig.formals targs)).close η.lookup) (List.zipIdx_map_fst 0 sig.params)
  rw [List.map_map] at hzip
  obtain ⟨S', o, hS', ho, hl', -, -, hparams, hresult⟩ :=
    exists_offer_close h hη hfit hS hsig hl hflat htfit hwithin
  have htargs' : targs.map (Ty.subst η) = targs.map (Ty.close η.lookup) :=
    List.map_congr_left fun t ht => hη.subst_eq_close (hw t ht)
  obtain ⟨ts, hlen, hts, hlen', hflows⟩ := hparams ▸ (hzip ▸ hall :)
  rw [Expr.substTypes, Expr.substTypesAll_eq, htargs', hresult]
  exact .call hprecise hS' ho hl' hlen hts hlen' hflows

/-- A settled assertion is precise if what it looks at is, and is of no type parameter. -/
theorem precise_assert {e : Expr} {target t : Ty} (htarget : target.Plain true)
    (hlenient : C.lenient = false) (hconcrete : ∀ p, C.typeOf Δ Γ e ≠ .ok (.param p) ∧ target ≠ .param p)
    (hinner : C.PreciseIfSettled Δ η Γ Γ' e) (he : C.Settled Δ Γ (.assert e target) t) :
    Precise C.table Γ' ((Expr.assert e target).substTypes η) (t.close η.lookup) := by
  obtain ⟨te, inner, hok, hcheck, hassertable, rfl, heq⟩ := of_check_assert he
  obtain rfl := (Expr.assert.inj heq).1
  obtain ⟨hfit, hprecise⟩ := hinner te hcheck
  have hw := written_of_okType h hη htarget hok
  have hlook : ∀ p, te ≠ .param p := by
    rintro p rfl
    exact (hconcrete p).1 (Answer.bind_eq_ok.2 ⟨_, hcheck, rfl⟩)
  obtain ⟨hi, hpossible⟩ := of_assertable rfl h.lawful.hasSources hlenient hlook
    (fun p => (hconcrete p).2) hassertable
  rw [Expr.substTypes, hη.subst_eq_close hw]
  refine .assert hprecise (Table.interfaceType_close _ hi) ?_
  refine hpossible.imp (Table.interfaceType_close _) fun himp => ?_
  exact h.implements_close hη.models (Table.Admits.fit_of_written hw) hfit himp

end Constructs

/-- **A settled expression is precise wherever its type parameters keep within their bounds**, if no
assertion in it looks at a type parameter or names one. -/
theorem precise_of_settled (h : T.WellFormed true rank) (hη : T.Admits true Δ η) (hC : C.table = T)
    (hlenient : C.lenient = false)
    (hΓ : ∀ x t, Γ.find? x = some t → t.Fit (T.vocabulary true) Δ.names []) {e : Expr} {t : Ty}
    (hplain : e.Plain true) (hassert : C.AssertsConcretely Δ Γ e) (he : C.Settled Δ Γ e t) :
    t.Fit (T.vocabulary true) Δ.names []
      ∧ Precise T (Γ.close η.lookup) (e.substTypes η) (t.close η.lookup) := by
  refine ⟨(typed_of_check h hη hC hΓ hplain he).1, ?_⟩
  subst hC
  have hfit {e : Expr} {t : Ty} (hplain : e.Plain true) (he : C.Settled Δ Γ e t) :
      t.Fit (C.table.vocabulary true) Δ.names [] := (typed_of_check h hη rfl hΓ hplain he).1
  induction e using Expr.induction generalizing t with
  | var x =>
    obtain ⟨hx, -⟩ := of_check_var he
    refine .var ?_
    rw [Scope.find?_close, hx]
    rfl
  | structLit c targs es ih =>
    obtain ⟨htype, hes⟩ := hplain.structLit
    exact precise_structLit h hη htype (fun e he t hs =>
      ⟨hfit (hes e he) hs, ih e he (hes e he) (.of_mem hassert he) hs⟩) he
  | select e field ih =>
    obtain ⟨te, inner, fields, f, hinner, hfields, hfound, rfl, heq⟩ := of_check_select he
    obtain rfl := (Expr.select.inj heq).1
    obtain ⟨-, hres⟩ := fields_close h hη.closing (hfit hplain.select hinner)
      (resolves_of_structFields hfields)
    have hclosed : (fields.map (Slot.map (Ty.close η.lookup))).find? (fun f => f.name = field)
        = some (f.map (Ty.close η.lookup)) := by
      rw [List.find?_map]
      exact congrArg (Option.map _) hfound
    exact .select (ih hplain.select (hassert.of_part fun _ ha => ha) hinner) hres hclosed
  | call recv meth targs args ih ihs =>
    obtain ⟨hrecv, htargs, hargs⟩ := hplain.call
    have hassert' := hassert.of_part fun _ ha => List.mem_append_left _ ha
    exact precise_call h hη htargs (fun t hs => ⟨hfit hrecv hs, ih hrecv hassert' hs⟩)
      (fun e he t hs => ⟨hfit (hargs e he) hs, ihs e he (hargs e he)
        (.of_mem (fun a ha => hassert a (List.mem_append_right _ ha)) he) hs⟩) he
  | assert e target ih =>
    obtain ⟨hinner, htarget⟩ := hplain.assert
    have hassert' := hassert.of_part fun _ ha => List.mem_cons_of_mem _ ha
    exact precise_assert h hη htarget hlenient (hassert (e, target) List.mem_cons_self)
      (fun t hs => ⟨hfit hinner hs, ih hinner hassert' hs⟩) he
  | sprintf format es ih =>
    obtain ⟨es', hall, rfl, heq⟩ := of_check_sprintf he
    obtain rfl := (Expr.sprintf.inj heq).2
    have hprecise := preciseAll_of_checkAll h hη (by simp)
      (by
        rw [List.forall_mem_map]
        exact fun _ _ => .interface (by simp) (by simp))
      (fun e he t hsettled => ⟨hfit (hplain.sprintf e he) hsettled,
        ih e he (hplain.sprintf e he) (.of_mem hassert he) hsettled⟩) hall
    obtain ⟨ts, hlen, hts, hlen', hflows⟩ := hprecise
    rw [Expr.substTypes, Expr.substTypesAll_eq]
    refine .sprintf hlen hts fun t ht => ?_
    obtain ⟨d, hd⟩ := exists_mem_zip hlen' ht
    obtain ⟨_, hd', rfl⟩ := List.mem_map.1 (List.of_mem_zip hd).2
    obtain ⟨i, -, rfl⟩ := List.mem_map.1 hd'
    exact hflows _ hd
  | lit l =>
    obtain ⟨rfl, -⟩ := of_check_lit he
    refine .lit l ?_
    rw [Settled, check] at he
    split at he
    · assumption
    · cases he
  | binary op l r ihl ihr =>
    obtain ⟨hpl, hpr⟩ := hplain.binary
    obtain ⟨tl, l', tr, r', hcl, hcr, hbinary⟩ := of_check_binary he
    obtain ⟨p, q, s, l'', r'', rfl, rfl, hoperands, hresult, heq⟩ := exists_operands hbinary
    obtain ⟨-, rfl, rfl⟩ := Expr.binary.inj heq
    obtain ⟨p', q', hl, hr, hoperands⟩ :=
      hoperands.settled (settled_of_check hcl) (settled_of_check hcr)
    obtain ⟨hagree, hsame, rfl⟩ := Operands.of_settled hl hr hoperands
    obtain rfl := Operator.eq_of_resultType hresult
    exact .binary (ihl hpl (hassert.of_part fun _ ha => List.mem_append_left _ ha) hl)
      (ihr hpr (hassert.of_part fun _ ha => List.mem_append_right _ ha) hr) hagree hsame hresult
  | convert k e ih =>
    obtain ⟨p, inner, hinner, hkind, hconvertible, rfl, heq⟩ := of_check_conversion he
    obtain rfl := (Expr.convert.inj heq).2
    refine .convert (ih hplain.convert (hassert.of_part fun _ ha => ha) hinner) hkind ?_
    rw [unconvertible_substTypes]
    exact hconvertible

end Checker

end FeatherGo
