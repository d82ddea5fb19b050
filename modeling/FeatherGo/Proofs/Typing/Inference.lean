import FeatherGo.Proofs.Typing.Rechecking

/-!
# Inference is conservative

Inference types an expression bottom up: it types the parts, puts what they were rewritten to in
their place and checks the whole. The parts are settled by then, so the check of the whole answers
as it does for the source (`Checker.infer_of_check`), and a program that passes the check keeps its
type and its checked form under inference. It keeps them under a lenient check too, which differs
only in the assertions that it refuses (`inferProgram_of_checkProgram`).
-/

namespace FeatherGo

/-- A computation goes on from what its first part ended with. -/
theorem Track.bind_of_ok {σ ε α β : Type} {x : Track σ ε α} {f : α → Track σ ε β} {s s' : σ} {a : α}
    (h : x s = (.ok a, s')) : (x >>= f) s = f a s' := by
  change x.bind f s = f a s'
  rw [Track.bind, h]

namespace Checker

variable {C : Checker} {Δ : Bounds} {Γ : Scope}

/-! ## More lenient checks -/

theorem checkAll_lenient {targets : List (Ty × Destination)} {es es' : List Expr}
    (ih : ∀ e ∈ es, ∀ t e', C.check Δ Γ e = .ok (t, e') →
      check { C with lenient := true } Δ Γ e = .ok (t, e'))
    (h : C.checkAll Δ Γ targets es = .ok es') :
    checkAll { C with lenient := true } Δ Γ targets es = .ok es' := by
  induction es generalizing targets es' with
  | nil => cases targets <;> exact h
  | cons e es ihes =>
    cases targets with
    | nil => exact h
    | cons target targets =>
      obtain ⟨ihe, ih⟩ := List.forall_mem_cons.1 ih
      obtain ⟨⟨t, inner⟩, he, h⟩ := Answer.bind_eq_ok.1 h
      obtain ⟨e', hcoerce, h⟩ := Answer.bind_eq_ok.1 h
      obtain ⟨rest, hrest, h⟩ := Answer.bind_eq_ok.1 h
      exact Answer.bind_eq_ok.2 ⟨_, ihe t inner he, Answer.bind_eq_ok.2 ⟨_, hcoerce,
        Answer.bind_eq_ok.2 ⟨_, ihes ih hrest, h⟩⟩⟩

/-- What passes a check passes the lenient one, with the same answer. -/
theorem check_lenient {e e' : Expr} {t : Ty} (h : C.check Δ Γ e = .ok (t, e')) :
    check { C with lenient := true } Δ Γ e = .ok (t, e') := by
  induction e using Expr.induction generalizing t e' with
  | var x => exact h
  | lit l => exact h
  | structLit c ts es ih =>
    obtain ⟨fields, es', hok, hfields, hl, hall, rfl, rfl⟩ := of_check_structLit h
    exact check_structLit hok hfields hl (checkAll_lenient (fun e he _ _ => ih e he) hall)
  | select e f ih =>
    obtain ⟨te, inner, fields, fd, he, hfields, hf, rfl, rfl⟩ := of_check_select h
    exact check_select (ih he) hfields hf
  | call e m ts es ih ihs =>
    obtain ⟨tr, recv', S, sig, es', hrecv, hS, hsig, hl, hok, hwithin, hlp, hall, rfl, rfl⟩ :=
      of_check_call h
    exact check_call (ih hrecv) hS hsig hl hok hwithin hlp
      (checkAll_lenient (fun e he _ _ => ihs e he) hall)
  | assert e target ih =>
    obtain ⟨te, inner, hok, he, hassert, rfl, rfl⟩ := of_check_assert h
    exact check_assert hok (ih he) (assertable_of hassert fun _ => rfl)
  | sprintf s es ih =>
    obtain ⟨es', hall, rfl, rfl⟩ := of_check_sprintf h
    exact check_sprintf (checkAll_lenient (fun e he _ _ => ih e he) hall)
  | binary op l r ihl ihr =>
    obtain ⟨tl, l', tr, r', hl, hr, h⟩ := of_check_binary h
    exact check_binary (ihl hl) (ihr hr) h
  | convert k e ih =>
    obtain ⟨p, inner, he, hkind, hconvertible, rfl, rfl⟩ := of_check_conversion h
    exact check_convert (ih he) hkind hconvertible

/-- So does a declaration. -/
theorem checkDecl_lenient {d d' : Decl} (h : C.checkDecl d = .ok d') :
    checkDecl { C with lenient := true } d = .ok d' := by
  cases d with
  | type td => exact h
  | method md =>
    obtain ⟨md', hmd', hd⟩ := Answer.bind_eq_ok.1 h
    obtain rfl := Answer.ok.inj hd
    obtain ⟨hr, hh, t, body, body', hbody, hcoerce, rfl⟩ := of_checkMethodDecl hmd'
    exact checkDecl_method hr hh (check_lenient hbody) hcoerce

/-! ## Inference -/

theorem omitted_eq_false {targs : List Ty} {formals : List Slot}
    (h : formals.length = targs.length) : omitted targs formals = false := by
  cases targs with
  | nil =>
    obtain rfl := List.eq_nil_of_length_eq_zero h
    rfl
  | cons t ts => rfl

/-- Expressions that flow into as many targets are typed. -/
theorem exists_typed {targets : List (Ty × Destination)} {es es' : List Expr}
    (hl : targets.length = es.length) (h : C.checkAll Δ Γ targets es = .ok es') :
    ∃ typed, List.Forall₂ (fun e r => C.check Δ Γ e = .ok r) es typed
      ∧ C.checkAll Δ Γ targets (typed.map (·.2)) = .ok es' := by
  induction es generalizing targets es' with
  | nil => exact ⟨[], .nil, h⟩
  | cons e es ih =>
    cases targets with
    | nil => cases hl
    | cons target targets =>
      obtain ⟨⟨t, inner⟩, he, h⟩ := Answer.bind_eq_ok.1 h
      obtain ⟨e', hcoerce, h⟩ := Answer.bind_eq_ok.1 h
      obtain ⟨rest, hrest, h⟩ := Answer.bind_eq_ok.1 h
      obtain ⟨typed, htyped, hagain⟩ := ih (Nat.succ.inj hl) hrest
      refine ⟨(t, inner) :: typed, .cons he htyped, ?_⟩
      exact Answer.bind_eq_ok.2 ⟨_, settled_of_check he, Answer.bind_eq_ok.2 ⟨_, hcoerce,
        Answer.bind_eq_ok.2 ⟨_, hagain, h⟩⟩⟩

theorem inferAll_of {es : List Expr} {typed : List (Ty × Expr)} {s : Nat}
    (htyped : List.Forall₂ (fun e r => C.check Δ Γ e = .ok r) es typed)
    (ih : ∀ e ∈ es, ∀ r, C.check Δ Γ e = .ok r → C.infer Δ Γ e s = (.ok r, s)) :
    C.inferAll Δ Γ es s = (.ok typed, s) := by
  induction htyped with
  | nil => rfl
  | cons he _ ihs =>
    obtain ⟨ihe, ih⟩ := List.forall_mem_cons.1 ih
    rw [inferAll, Track.bind_of_ok (ihe _ he), Track.bind_of_ok (ihs ih)]
    rfl

/-- **Inference gives an expression that passes the check the type that the check gives it**, and
takes no variable for it. -/
theorem infer_of_check {e : Expr} {r : Ty × Expr} (h : C.check Δ Γ e = .ok r) (s : Nat) :
    C.infer Δ Γ e s = (.ok r, s) := by
  obtain ⟨t, e'⟩ := r
  have hlift : ∀ {e : Expr} {r}, C.check Δ Γ e = .ok r →
      (liftM (C.check Δ Γ e) : Track Nat TypeError (Ty × Expr)) s = (.ok r, s) := fun h => by
    rw [h]
    rfl
  induction e using Expr.induction generalizing t e' with
  | var x => exact hlift h
  | lit l => exact hlift h
  | structLit c ts es ih =>
    obtain ⟨fields, es', hok, hfields, hl, hall, rfl, rfl⟩ := of_check_structLit h
    obtain ⟨typed, htyped, hagain⟩ := exists_typed ((List.length_map _).trans hl) hall
    obtain ⟨td, htd, -⟩ := Answer.bind_eq_ok.1 hok
    rw [Answer.liftExcept_eq, Answer.ofExcept_eq_ok, Table.applied_eq_ok] at htd
    have hdecl : C.table.typeDecl c = .ok td := by rw [Table.typeDecl, htd.1]
    have htargs : (liftM (C.table.typeDecl c) : Track Nat TypeError TypeDecl) s = (.ok td, s) := by
      rw [hdecl]
      rfl
    rw [infer, Track.bind_of_ok (inferAll_of htyped fun e he r hr => ih e he r.1 r.2 hr),
      Track.bind_of_ok htargs, omitted_eq_false htd.2]
    exact hlift (check_structLit hok hfields (by rw [List.length_map, ← htyped.length_eq, hl]) hagain)
  | select e f ih =>
    obtain ⟨te, inner, fields, fd, he, hfields, hf, rfl, rfl⟩ := of_check_select h
    rw [infer, Track.bind_of_ok (ih _ _ he)]
    exact hlift (check_select (settled_of_check he) hfields hf)
  | call e m ts es ih ihs =>
    obtain ⟨tr, recv', S, sig, es', hrecv, hS, hsig, hl, hok, hwithin, hlp, hall, rfl, rfl⟩ :=
      of_check_call h
    obtain ⟨typed, htyped, hagain⟩ := exists_typed (by simpa using hlp) hall
    have hmethods : (liftM (C.table.methods Δ C.fuel tr) : Track Nat TypeError MethodSet) s
        = (.ok S, s) := by
      rw [hS]
      rfl
    rw [infer, Track.bind_of_ok (ih _ _ hrecv)]
    refine (Track.bind_of_ok (inferAll_of htyped fun e he r hr => ihs e he r.1 r.2 hr)).trans ?_
    rw [Track.bind_of_ok hmethods, hsig]
    dsimp only
    rw [omitted_eq_false hl]
    exact hlift (check_call (settled_of_check hrecv) hS hsig hl hok hwithin
      (by rw [List.length_map, ← htyped.length_eq, hlp]) hagain)
  | assert e target ih =>
    obtain ⟨te, inner, hok, he, hassert, rfl, rfl⟩ := of_check_assert h
    rw [infer, Track.bind_of_ok (ih _ _ he)]
    exact hlift (check_assert hok (settled_of_check he) (assertable_of hassert id))
  | sprintf f es ih =>
    obtain ⟨es', hall, rfl, rfl⟩ := of_check_sprintf h
    obtain ⟨typed, htyped, hagain⟩ := exists_typed (by simp) hall
    rw [infer, Track.bind_of_ok (inferAll_of htyped fun e he r hr => ih e he r.1 r.2 hr)]
    refine hlift (check_sprintf ?_)
    rw [List.length_map, ← htyped.length_eq]
    exact hagain
  | binary op l r ihl ihr =>
    obtain ⟨tl, l', tr, r', hl, hr, h⟩ := of_check_binary h
    obtain ⟨lp, rp, p, l'', r'', rfl, rfl, hoperands, ht, rfl⟩ := exists_operands h
    rw [infer, Track.bind_of_ok (ihl _ _ hl)]
    refine (Track.bind_of_ok (ihr _ _ hr)).trans (hlift ?_)
    exact (check_binary (settled_of_check hl) (settled_of_check hr) (hoperands.binary_eq ht))
  | convert k e ih =>
    obtain ⟨p, inner, he, hkind, hconvertible, rfl, rfl⟩ := of_check_conversion h
    rw [infer, Track.bind_of_ok (ih _ _ he)]
    exact hlift (check_convert (settled_of_check he) hkind hconvertible)

/-- Declarations that pass their checks are elaborated to declarations of the same headers with the
same checks. -/
theorem elaborateDecls_of {decls checked : List Decl}
    (h : List.Forall₂ (fun d d' => C.checkDecl d = .ok d') decls checked) (s : Nat) :
    ∃ elaborated, C.elaborateDecls decls s = (.ok elaborated, s)
      ∧ List.Forall₂ Decl.SameHeader decls elaborated
      ∧ List.Forall₂ (fun d d' => C.checkDecl d = .ok d') elaborated checked := by
  induction h with
  | nil => exact ⟨[], rfl, .nil, .nil⟩
  | @cons d d' decls checked hd _ ih =>
    obtain ⟨rest, hrest, hsame, hchecked⟩ := ih
    cases d with
    | type td =>
      refine ⟨.type td :: rest, ?_, .cons (.type td) hsame, .cons hd hchecked⟩
      rw [elaborateDecls, Track.bind_of_ok hrest]
      rfl
    | method md =>
      obtain ⟨md', hmd', hd⟩ := Answer.bind_eq_ok.1 hd
      obtain rfl := Answer.ok.inj hd
      obtain ⟨hr, hh, t, body, body', hbody, hcoerce, rfl⟩ := of_checkMethodDecl hmd'
      refine ⟨.method { md with body } :: rest, ?_, .cons (.method rfl) hsame, .cons ?_ hchecked⟩
      · rw [elaborateDecls, Track.bind_of_ok (infer_of_check hbody s)]
        exact (Track.bind_of_ok hrest).trans rfl
      · exact @checkDecl_method C { md with body } _ _ _ hr hh (settled_of_check hbody) hcoerce

end Checker

/-! ## Programs -/

/-- **Inference and the lenient check are conservative**: to a program that passes the check they
give the same type and the same checked program. -/
theorem inferProgram_of_checkProgram {fuel : Nat} {p q : Program} {t : Ty}
    (h : checkProgram fuel false p = .ok (t, q)) :
    inferProgram fuel p = .ok (t, q) ∧ checkProgram fuel true p = .ok (t, q) := by
  obtain ⟨T, T', hcheck⟩ := exists_programCheck h
  obtain ⟨hacyclic, hdecls⟩ := Checker.of_checkDecls hcheck.decls
  have hprintf := printf_of_checkProgram h
  refine ⟨?_, ?_⟩
  · obtain ⟨elaborated, helab, hsame, hchecked⟩ := Checker.elaborateDecls_of hdecls 0
    have hp : checkProgram fuel false { p with decls := elaborated, main := q.main } = .ok (t, q) :=
      checkProgram_of_headers hcheck hsame hchecked (Checker.settled_of_check hcheck.main)
        hprintf.symm
    have helaborate : Checker.elaborate ⟨T, false, fuel⟩ p 0
        = (.ok { p with decls := elaborated, main := q.main }, 0) := by
      rw [Checker.elaborate, Track.bind_of_ok helab]
      exact (Track.bind_of_ok (Checker.infer_of_check hcheck.main 0)).trans rfl
    refine Answer.bind_eq_ok.2 ⟨T, Answer.ofExcept_eq_ok.2 hcheck.source,
      Answer.bind_eq_ok.2 ⟨_, Answer.ofExcept_eq_ok.2 hacyclic, ?_⟩⟩
    rw [helaborate]
    exact hp
  · refine checkProgram_of_headers hcheck (List.forall₂_same.2 fun d _ => ?_)
      (hdecls.imp fun _ _ hd => Checker.checkDecl_lenient hd) (Checker.check_lenient hcheck.main)
      hprintf.symm
    cases d with
    | type td => exact .type td
    | method md => exact .method rfl

theorem constants_inferred : ∃ t q, checkProgram 9 false (constants [.ofKind .int64]) = .ok (t, q)
    ∧ inferProgram 9 (constants [.ofKind .int64]) = .ok (t, q)
    ∧ checkProgram 9 true (constants [.ofKind .int64]) = .ok (t, q) := by
  have hcheck : (checkProgram 9 false (constants [.ofKind .int64])).any (fun _ => true) = true := by
    decide +kernel
  obtain ⟨⟨t, q⟩, hq, -⟩ := Answer.any_eq_true.1 hcheck
  exact ⟨t, q, hq, inferProgram_of_checkProgram hq⟩

end FeatherGo
