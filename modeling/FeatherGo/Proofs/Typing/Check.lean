import FeatherGo.Proofs.Answer
import FeatherGo.Typing.Expression

/-!
# What a check went through

For each form of expression, what it means that its check has an answer: what it went through
(`of_check_…`), and that no more is needed (`check_…`). Proofs about the check take it apart and put
it together by these lemmas alone.
-/

namespace FeatherGo

/-- The arguments of a list of formals are within its bounds. -/
theorem Table.implements_of_argumentsWithin {T : Table} {n : Nat} {Δ : Bounds} {place : Place}
    {η : Env Ty} {fs : List Slot} {ts : List Ty}
    (h : T.argumentsWithin n Δ place η fs ts = .ok ()) :
    ∀ p ∈ fs.zip ts, T.implements n Δ p.2 (p.1.ty.subst η) = .ok true := by
  induction fs generalizing ts with
  | nil => simp
  | cons f fs ih =>
    cases ts with
    | nil => simp
    | cons t ts =>
      obtain ⟨b, hb, h⟩ := Answer.bind_eq_ok.1 h
      cases b with
      | true => exact List.forall_mem_cons.2 ⟨hb, ih h⟩
      | false => cases h

/-- Arguments within the bounds of their formals pass the check for it, wherever they stand. -/
theorem Table.argumentsWithin_eq_ok {T : Table} {n : Nat} {Δ : Bounds} {place : Place} {η : Env Ty}
    {fs : List Slot} {ts : List Ty}
    (h : ∀ p ∈ fs.zip ts, T.implements n Δ p.2 (p.1.ty.subst η) = .ok true) :
    T.argumentsWithin n Δ place η fs ts = .ok () := by
  induction fs generalizing ts with
  | nil => rfl
  | cons f fs ih =>
    cases ts with
    | nil => rfl
    | cons t ts =>
      obtain ⟨hb, h⟩ := List.forall_mem_cons.1 h
      exact Answer.bind_eq_ok.2 ⟨true, hb, ih h⟩

namespace Checker

variable {C : Checker} {Δ : Bounds} {Γ : Scope} {t : Ty} {e' : Expr}

/-! ## Taking a check apart -/

theorem of_check_var {x : String} (h : C.check Δ Γ (.var x) = .ok (t, e')) :
    Γ.find? x = some t ∧ e' = .var x := by
  rw [check] at h
  split at h
  · rename_i t' hx
    obtain ⟨rfl, rfl⟩ := Prod.mk.inj (Answer.ok.inj h)
    exact ⟨hx, rfl⟩
  · cases h

theorem of_check_structLit {c : String} {targs : List Ty} {es : List Expr}
    (h : C.check Δ Γ (.structLit c targs es) = .ok (t, e')) :
    ∃ fields es', C.table.okType C.fuel Δ (.named c targs) = .ok ()
      ∧ C.table.structFields (.named c targs) = .ok (some fields) ∧ fields.length = es.length
      ∧ C.checkAll Δ Γ (fields.map fun f => (f.ty, .field f.name)) es = .ok es'
      ∧ t = .named c targs ∧ e' = .structLit c targs es' := by
  obtain ⟨⟨⟩, hok, h⟩ := Answer.bind_eq_ok.1 h
  obtain ⟨fields?, hfields, h⟩ := Answer.bind_eq_ok.1 h
  rw [Answer.liftExcept_eq, Answer.ofExcept_eq_ok] at hfields
  cases fields? with
  | none => cases h
  | some fields =>
    dsimp only at h
    by_cases hl : fields.length = es.length
    · rw [if_pos hl] at h
      obtain ⟨es', hall, h⟩ := Answer.bind_eq_ok.1 h
      obtain ⟨rfl, rfl⟩ := Prod.mk.inj (Answer.ok.inj h)
      exact ⟨fields, es', hok, hfields, hl, hall, rfl, rfl⟩
    · rw [if_neg hl] at h
      cases h

theorem of_check_select {e : Expr} {field : String}
    (h : C.check Δ Γ (.select e field) = .ok (t, e')) :
    ∃ te inner fields f, C.check Δ Γ e = .ok (te, inner)
      ∧ C.table.structFields te = .ok (some fields)
      ∧ fields.find? (fun f => f.name = field) = some f
      ∧ t = f.ty ∧ e' = .select inner field := by
  obtain ⟨⟨te, inner⟩, hinner, h⟩ := Answer.bind_eq_ok.1 h
  obtain ⟨fields?, hfields, h⟩ := Answer.bind_eq_ok.1 h
  rw [Answer.liftExcept_eq, Answer.ofExcept_eq_ok] at hfields
  cases fields? with
  | none => cases h
  | some fields =>
    dsimp only at h
    split at h
    · rename_i f hfound
      obtain ⟨rfl, rfl⟩ := Prod.mk.inj (Answer.ok.inj h)
      exact ⟨te, inner, fields, f, hinner, hfields, hfound, rfl, rfl⟩
    · cases h

theorem of_check_call {recv : Expr} {meth : String} {targs : List Ty} {args : List Expr}
    (h : C.check Δ Γ (.call recv meth targs args) = .ok (t, e')) :
    ∃ tr recv' S sig args', C.check Δ Γ recv = .ok (tr, recv')
      ∧ C.table.methods Δ C.fuel tr = .ok S ∧ S.find? meth = some sig
      ∧ sig.formals.length = targs.length ∧ C.table.okTypes C.fuel Δ targs = .ok ()
      ∧ (∀ p ∈ sig.formals.zip targs, C.table.implements C.fuel Δ p.2
          (p.1.ty.subst (instantiation sig.formals targs)) = .ok true)
      ∧ sig.params.length = args.length
      ∧ C.checkAll Δ Γ (sig.params.zipIdx.map fun (p, i) =>
          (p.ty.subst (instantiation sig.formals targs), .argument meth i)) args = .ok args'
      ∧ t = sig.result.subst (instantiation sig.formals targs)
      ∧ e' = .call recv' meth targs args' := by
  obtain ⟨⟨tr, recv'⟩, hrecv, h⟩ := Answer.bind_eq_ok.1 h
  obtain ⟨S, hS, h⟩ := Answer.bind_eq_ok.1 h
  dsimp only at h
  split at h
  · cases h
  · rename_i sig hsig
    by_cases hl : sig.formals.length = targs.length
    · rw [if_pos hl] at h
      obtain ⟨⟨⟩, hok, h⟩ := Answer.bind_eq_ok.1 h
      obtain ⟨⟨⟩, hwithin, h⟩ := Answer.bind_eq_ok.1 h
      by_cases hlp : sig.params.length = args.length
      · rw [if_pos hlp] at h
        obtain ⟨args', hall, h⟩ := Answer.bind_eq_ok.1 h
        obtain ⟨rfl, rfl⟩ := Prod.mk.inj (Answer.ok.inj h)
        exact ⟨tr, recv', S, sig, args', hrecv, hS, hsig, hl, hok,
          Table.implements_of_argumentsWithin hwithin, hlp, hall, rfl, rfl⟩
      · rw [if_neg hlp] at h
        cases h
    · rw [if_neg hl] at h
      cases h

theorem of_check_assert {e : Expr} {target : Ty}
    (h : C.check Δ Γ (.assert e target) = .ok (t, e')) :
    ∃ te inner, C.table.okType C.fuel Δ target = .ok () ∧ C.check Δ Γ e = .ok (te, inner)
      ∧ C.assertable Δ te target (.assert e target) = .ok ()
      ∧ t = target ∧ e' = .assert inner target := by
  obtain ⟨⟨⟩, hok, h⟩ := Answer.bind_eq_ok.1 h
  obtain ⟨⟨te, inner⟩, hinner, h⟩ := Answer.bind_eq_ok.1 h
  obtain ⟨⟨⟩, hassert, h⟩ := Answer.bind_eq_ok.1 h
  obtain ⟨rfl, rfl⟩ := Prod.mk.inj (Answer.ok.inj h)
  exact ⟨te, inner, hok, hinner, hassert, rfl, rfl⟩

theorem of_check_sprintf {format : String} {es : List Expr}
    (h : C.check Δ Γ (.sprintf format es) = .ok (t, e')) :
    ∃ es', C.checkAll Δ Γ ((List.range es.length).map fun i =>
        (.anything, .argument "fmt.Sprintf" (i + 1))) es = .ok es'
      ∧ t = .ofKind .string ∧ e' = .sprintf format es' := by
  obtain ⟨es', hall, h⟩ := Answer.bind_eq_ok.1 h
  obtain ⟨rfl, rfl⟩ := Prod.mk.inj (Answer.ok.inj h)
  exact ⟨es', hall, rfl, rfl⟩

theorem of_check_lit {l : Literal} (h : C.check Δ Γ (.lit l) = .ok (t, e')) :
    t = .prim l.prim ∧ e' = .lit l := by
  rw [check] at h
  split at h
  · obtain ⟨rfl, rfl⟩ := Prod.mk.inj (Answer.ok.inj h)
    exact ⟨rfl, rfl⟩
  · cases h

theorem of_check_binary {op : Operator} {l r : Expr}
    (h : C.check Δ Γ (.binary op l r) = .ok (t, e')) :
    ∃ tl l' tr r', C.check Δ Γ l = .ok (tl, l') ∧ C.check Δ Γ r = .ok (tr, r')
      ∧ C.binary Δ op tl l' tr r' (.binary op l r) = .ok (t, e') := by
  obtain ⟨⟨tl, l'⟩, hl, h⟩ := Answer.bind_eq_ok.1 h
  obtain ⟨⟨tr, r'⟩, hr, h⟩ := Answer.bind_eq_ok.1 h
  exact ⟨tl, l', tr, r', hl, hr, h⟩

theorem of_check_conversion {k : Kind} {e : Expr} (h : C.check Δ Γ (.convert k e) = .ok (t, e')) :
    ∃ p inner, C.check Δ Γ e = .ok (.prim p, inner)
      ∧ (p.kind = k ∨ (p.kind.isNumeric && k.isNumeric) = true) ∧ unconvertible inner k = none
      ∧ t = .ofKind k ∧ e' = .convert k inner := by
  obtain ⟨⟨te, inner⟩, hinner, h⟩ := Answer.bind_eq_ok.1 h
  dsimp only at h
  split at h
  · rename_i p
    split at h
    · rename_i hkind
      split at h
      · cases h
      · rename_i hconvertible
        obtain ⟨rfl, rfl⟩ := Prod.mk.inj (Answer.ok.inj h)
        exact ⟨p, inner, hinner, hkind, hconvertible, rfl, rfl⟩
    · cases h
  · cases h

theorem of_check_convert {k : Kind} {e : Expr} (h : C.check Δ Γ (.convert k e) = .ok (t, e')) :
    ∃ p inner, C.check Δ Γ e = .ok (.prim p, inner) ∧ t = .ofKind k ∧ e' = .convert k inner := by
  obtain ⟨p, inner, hinner, -, -, ht, he⟩ := of_check_conversion h
  exact ⟨p, inner, hinner, ht, he⟩

/-! ## Putting a check together -/

theorem check_structLit {c : String} {targs : List Ty} {es es' : List Expr} {fields : List Slot}
    (hok : C.table.okType C.fuel Δ (.named c targs) = .ok ())
    (hfields : C.table.structFields (.named c targs) = .ok (some fields))
    (hl : fields.length = es.length)
    (hall : C.checkAll Δ Γ (fields.map fun f => (f.ty, .field f.name)) es = .ok es') :
    C.check Δ Γ (.structLit c targs es) = .ok (.named c targs, .structLit c targs es') := by
  refine Answer.bind_eq_ok.2 ⟨(), hok, Answer.bind_eq_ok.2 ⟨some fields, ?_, ?_⟩⟩
  · rw [Answer.liftExcept_eq, hfields]
    rfl
  · dsimp only
    rw [if_pos hl]
    exact Answer.bind_eq_ok.2 ⟨es', hall, rfl⟩

theorem check_select {e inner : Expr} {te : Ty} {field : String} {fields : List Slot} {f : Slot}
    (he : C.check Δ Γ e = .ok (te, inner)) (hfields : C.table.structFields te = .ok (some fields))
    (hf : fields.find? (fun f => f.name = field) = some f) :
    C.check Δ Γ (.select e field) = .ok (f.ty, .select inner field) := by
  refine Answer.bind_eq_ok.2 ⟨(te, inner), he, Answer.bind_eq_ok.2 ⟨some fields, ?_, ?_⟩⟩
  · rw [Answer.liftExcept_eq, hfields]
    rfl
  · dsimp only
    rw [hf]
    rfl

theorem check_call {recv recv' : Expr} {tr : Ty} {meth : String} {targs : List Ty}
    {args args' : List Expr} {S : MethodSet} {sig : Signature}
    (hrecv : C.check Δ Γ recv = .ok (tr, recv')) (hS : C.table.methods Δ C.fuel tr = .ok S)
    (hsig : S.find? meth = some sig) (hl : sig.formals.length = targs.length)
    (hok : C.table.okTypes C.fuel Δ targs = .ok ())
    (hwithin : ∀ p ∈ sig.formals.zip targs, C.table.implements C.fuel Δ p.2
      (p.1.ty.subst (instantiation sig.formals targs)) = .ok true)
    (hlp : sig.params.length = args.length)
    (hall : C.checkAll Δ Γ (sig.params.zipIdx.map fun (p, i) =>
      (p.ty.subst (instantiation sig.formals targs), .argument meth i)) args = .ok args') :
    C.check Δ Γ (.call recv meth targs args)
      = .ok (sig.result.subst (instantiation sig.formals targs), .call recv' meth targs args') := by
  refine Answer.bind_eq_ok.2 ⟨(tr, recv'), hrecv, Answer.bind_eq_ok.2 ⟨S, hS, ?_⟩⟩
  dsimp only
  rw [hsig]
  dsimp only
  rw [if_pos hl]
  refine Answer.bind_eq_ok.2 ⟨(), hok, Answer.bind_eq_ok.2
    ⟨(), Table.argumentsWithin_eq_ok hwithin, ?_⟩⟩
  rw [if_pos hlp]
  exact Answer.bind_eq_ok.2 ⟨args', hall, rfl⟩

theorem check_assert {e inner : Expr} {te target : Ty}
    (hok : C.table.okType C.fuel Δ target = .ok ()) (he : C.check Δ Γ e = .ok (te, inner))
    (hassert : C.assertable Δ te target (.assert e target) = .ok ()) :
    C.check Δ Γ (.assert e target) = .ok (target, .assert inner target) := by
  exact Answer.bind_eq_ok.2 ⟨(), hok, Answer.bind_eq_ok.2 ⟨(te, inner), he,
    Answer.bind_eq_ok.2 ⟨(), hassert, rfl⟩⟩⟩

theorem check_sprintf {format : String} {es es' : List Expr}
    (hall : C.checkAll Δ Γ ((List.range es.length).map fun i =>
      (.anything, .argument "fmt.Sprintf" (i + 1))) es = .ok es') :
    C.check Δ Γ (.sprintf format es) = .ok (.ofKind .string, .sprintf format es') := by
  exact Answer.bind_eq_ok.2 ⟨es', hall, rfl⟩

theorem check_binary {op : Operator} {l l' r r' : Expr} {tl tr : Ty}
    (hl : C.check Δ Γ l = .ok (tl, l')) (hr : C.check Δ Γ r = .ok (tr, r'))
    (h : C.binary Δ op tl l' tr r' (.binary op l r) = .ok (t, e')) :
    C.check Δ Γ (.binary op l r) = .ok (t, e') := by
  exact Answer.bind_eq_ok.2 ⟨(tl, l'), hl, Answer.bind_eq_ok.2 ⟨(tr, r'), hr, h⟩⟩

theorem check_convert {k : Kind} {e inner : Expr} {p : Prim}
    (he : C.check Δ Γ e = .ok (.prim p, inner))
    (hkind : p.kind = k ∨ (p.kind.isNumeric && k.isNumeric) = true)
    (hconvertible : unconvertible inner k = none) :
    C.check Δ Γ (.convert k e) = .ok (.ofKind k, .convert k inner) := by
  refine Answer.bind_eq_ok.2 ⟨(.prim p, inner), he, ?_⟩
  dsimp only
  rw [if_pos hkind, hconvertible]
  rfl

end Checker

end FeatherGo
