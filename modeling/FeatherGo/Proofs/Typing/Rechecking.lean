import FeatherGo.Inference.Elaborate
import FeatherGo.Proofs.Expressions.Induction
import FeatherGo.Proofs.Literals.Conversion
import FeatherGo.Proofs.Typing.Programs

/-!
# Checking what was checked

The check of an expression rewrites it: untyped constants take the representation of the place that
they flow into. What it gives back is settled (`Checker.settled_of_check`): the check types it as it
typed the source, and changes nothing more. So a checked program passes the check unchanged, and so
does a program that inference gave back (`checkProgram_settles`).

A rewritten expression may have another type than its source, that of the place; `Checker.Flow` says
which, and that it then flows into the place as it is.
-/

namespace FeatherGo

namespace Checker

variable {C : Checker} {Δ : Bounds} {Γ : Scope}

/-! ## Settled expressions -/

/-- An expression that its check gives back unchanged, with its type. -/
def Settled (C : Checker) (Δ : Bounds) (Γ : Scope) (e : Expr) (t : Ty) : Prop :=
  C.check Δ Γ e = .ok (t, e)

/-- A literal that a kind does not refuse is one that it holds. -/
theorem fits_of_unfit {l : Literal} {k : Kind} (h : unfit (.lit l) k = none) : l.fits k = true := by
  by_contra hf
  rw [unfit, if_neg hf] at h
  cases h

/-- An untyped expression that may take a kind is settled once it represents it. -/
theorem Settled.represent {e : Expr} {source k : Kind}
    (h : C.Settled Δ Γ e (.prim ⟨source, true⟩)) (hk : mayBecome e source k = true)
    (hfit : unfit e k = none) : C.Settled Δ Γ (represent e k) (.ofKind k) := by
  have hconvert : unconvertible e k = none → C.Settled Δ Γ (.convert k e) (.ofKind k) := by
    refine fun hu => check_convert h ?_ hu
    simp only [mayBecome, Bool.or_eq_true, Bool.and_eq_true, beq_iff_eq] at hk
    rcases hk with hk | ⟨⟨hs, hk⟩, -⟩
    · exact .inl hk
    · exact .inr (by rw [hs, hk]; rfl)
  cases e with
  | lit l =>
    obtain ⟨l', hl', hprim, hfits'⟩ := Literal.exists_convert (fits_of_unfit hfit)
    rw [Checker.represent, hl', Settled, check]
    dsimp only
    rw [hprim, if_pos]
    · rfl
    · rw [Bool.or_eq_true]
      exact .inr hfits'
  | _ => exact hconvert rfl

/-! ## What flows -/

theorem Flow.settled {target t t' : Ty} {e e' : Expr} (h : Flow C Δ target e t t' e')
    (he : C.Settled Δ Γ e t) : C.Settled Δ Γ e' t' := by
  cases h with
  | loose => exact he
  | typed => exact he
  | represented may fit within => exact Settled.represent he may fit

/-- Operands that were brought to a common type are settled, and have it unless neither has one. -/
theorem Operands.settled {op : Operator} {l r l' r' : Expr} {lp rp p : Prim}
    (h : Operands C Δ op l r lp rp p l' r') (hl : C.Settled Δ Γ l (.prim lp))
    (hr : C.Settled Δ Γ r (.prim rp)) : ∃ lp' rp', C.Settled Δ Γ l' (.prim lp')
      ∧ C.Settled Δ Γ r' (.prim rp') ∧ Operands C Δ op l' r' lp' rp' p l' r' := by
  cases h with
  | untyped left right => exact ⟨lp, rp, hl, hr, .untyped left right⟩
  | left left _ flows =>
    obtain ⟨t', hflow⟩ := exists_flow flows
    obtain rfl := hflow.eq_prim left
    exact ⟨lp, lp, hl, hflow.settled hr, .typed left⟩
  | right _ right flows =>
    obtain ⟨t', hflow⟩ := exists_flow flows
    obtain rfl := hflow.eq_prim right
    exact ⟨rp, rp, hflow.settled hl, hr, .typed right⟩
  | typed typed => exact ⟨_, _, hl, hr, .typed typed⟩

/-! ## Expressions -/

/-- An assertion that makes sense does so wherever it stands, also in a more lenient check. -/
theorem assertable_of {t target : Ty} {whole whole' : Expr} {b : Bool}
    (h : C.assertable Δ t target whole = .ok ()) (hb : C.lenient = true → b = true) :
    assertable { C with lenient := b } Δ t target whole' = .ok () := by
  obtain ⟨static, hstatic, h⟩ := Answer.bind_eq_ok.1 h
  obtain ⟨i, hi, h⟩ := Answer.bind_eq_ok.1 h
  refine Answer.bind_eq_ok.2 ⟨static, hstatic, Answer.bind_eq_ok.2 ⟨i, hi, ?_⟩⟩
  cases i with
  | true =>
    obtain ⟨j, hj, h⟩ := Answer.bind_eq_ok.1 h
    refine Answer.bind_eq_ok.2 ⟨j, hj, ?_⟩
    dsimp only at h ⊢
    split at h
    · rename_i htarget
      rw [if_pos htarget]
      rfl
    · rename_i htarget
      obtain ⟨within, hwithin, h⟩ := Answer.bind_eq_ok.1 h
      cases within with
      | true => exact (if_neg htarget).trans (Answer.bind_eq_ok.2 ⟨true, hwithin, rfl⟩)
      | false => cases h
  | false =>
    cases hC : C.lenient with
    | true =>
      rw [hb hC]
      rfl
    | false =>
      simp [hC] at h

theorem checkAll_again {targets : List (Ty × Destination)} {es es' : List Expr}
    (ih : ∀ e ∈ es, ∀ t e', C.check Δ Γ e = .ok (t, e') → C.Settled Δ Γ e' t)
    (hl : targets.length = es.length) (h : C.checkAll Δ Γ targets es = .ok es') :
    C.checkAll Δ Γ targets es' = .ok es' ∧ es'.length = es.length := by
  induction es generalizing targets es' with
  | nil =>
    obtain rfl := List.eq_nil_of_length_eq_zero hl
    obtain rfl := Answer.ok.inj h
    exact ⟨rfl, rfl⟩
  | cons e es ihes =>
    cases targets with
    | nil => cases hl
    | cons target targets =>
      obtain ⟨ihe, ih⟩ := List.forall_mem_cons.1 ih
      obtain ⟨⟨t, inner⟩, he, h⟩ := Answer.bind_eq_ok.1 h
      obtain ⟨e', hcoerce, h⟩ := Answer.bind_eq_ok.1 h
      obtain ⟨rest, hrest, h⟩ := Answer.bind_eq_ok.1 h
      obtain rfl := Answer.ok.inj h
      obtain ⟨t', hflow⟩ := exists_flow hcoerce
      obtain ⟨hagain, hlength⟩ := ihes ih (Nat.succ.inj hl) hrest
      refine ⟨?_, congrArg Nat.succ hlength⟩
      rw [checkAll, hflow.settled (ihe t inner he)]
      simp only [Answer.ok_bind, hflow.again target.2, hagain, Answer.pure_eq_ok]

/-- **What a check gives back is settled**: checking it again changes nothing. -/
theorem settled_of_check {e e' : Expr} {t : Ty} (h : C.check Δ Γ e = .ok (t, e')) :
    C.Settled Δ Γ e' t := by
  induction e using Expr.induction generalizing t e' with
  | var x =>
    obtain ⟨-, rfl⟩ := of_check_var h
    exact h
  | lit l =>
    obtain ⟨-, rfl⟩ := of_check_lit h
    exact h
  | structLit c ts es ih =>
    obtain ⟨fields, es', hok, hfields, hl, hall, rfl, rfl⟩ := of_check_structLit h
    obtain ⟨hagain, hlength⟩ := checkAll_again (fun e he _ _ => ih e he)
      ((List.length_map _).trans hl) hall
    exact check_structLit hok hfields (hl.trans hlength.symm) hagain
  | select e f ih =>
    obtain ⟨te, inner, fields, fd, he, hfields, hf, rfl, rfl⟩ := of_check_select h
    exact check_select (ih he) hfields hf
  | call e m ts es ih ihs =>
    obtain ⟨tr, recv', S, sig, es', hrecv, hS, hsig, hl, hok, hwithin, hlp, hall, rfl, rfl⟩ :=
      of_check_call h
    obtain ⟨hagain, hlength⟩ := checkAll_again (fun e he _ _ => ihs e he) (by simpa using hlp) hall
    exact check_call (ih hrecv) hS hsig hl hok hwithin (hlp.trans hlength.symm) hagain
  | assert e target ih =>
    obtain ⟨te, inner, hok, he, hassert, rfl, rfl⟩ := of_check_assert h
    exact check_assert hok (ih he) (assertable_of hassert id)
  | sprintf s es ih =>
    obtain ⟨es', hall, rfl, rfl⟩ := of_check_sprintf h
    obtain ⟨hagain, hlength⟩ := checkAll_again (fun e he _ _ => ih e he) (by simp) hall
    refine check_sprintf ?_
    rw [hlength]
    exact hagain
  | binary op l r ihl ihr =>
    obtain ⟨tl, l', tr, r', hl, hr, h⟩ := of_check_binary h
    obtain ⟨lp, rp, p, l'', r'', rfl, rfl, hoperands, ht, rfl⟩ := exists_operands h
    obtain ⟨lp', rp', hl', hr', hagain⟩ := hoperands.settled (ihl hl) (ihr hr)
    exact check_binary hl' hr' (hagain.binary_eq ht)
  | convert k e ih =>
    obtain ⟨p, inner, he, hkind, hconvertible, rfl, rfl⟩ := of_check_conversion h
    exact check_convert (ih he) hkind hconvertible

/-! ## Declarations -/

/-- A method is checked by the checks of its header, its body and its result. -/
theorem checkDecl_method {md : MethodDecl} {t : Ty} {body body' : Expr}
    (hr : C.table.checkReceiver C.fuel md = .ok ()) (hh : C.table.checkHeader C.fuel md = .ok ())
    (hbody : C.check md.bounds md.scope md.body = .ok (t, body))
    (hcoerce : C.coerce md.bounds t body md.sig.result (.result md.sig.name) = .ok body') :
    C.checkDecl (.method md) = .ok (.method { md with body := body' }) := by
  simp [checkDecl, checkMethodDecl, hr, hh, hbody, hcoerce]

/-- A checked declaration passes the check again, unchanged. -/
theorem checkDecl_again {d d' : Decl} (h : C.checkDecl d = .ok d') : C.checkDecl d' = .ok d' := by
  cases d with
  | type td =>
    obtain ⟨⟨⟩, -, hd⟩ := Answer.bind_eq_ok.1 h
    obtain rfl := Answer.ok.inj hd
    exact h
  | method md =>
    obtain ⟨md', hmd', hd⟩ := Answer.bind_eq_ok.1 h
    obtain rfl := Answer.ok.inj hd
    obtain ⟨hr, hh, t, body, body', hbody, hcoerce, rfl⟩ := of_checkMethodDecl hmd'
    obtain ⟨t', hflow⟩ := exists_flow hcoerce
    have hsettled := hflow.settled (settled_of_check hbody)
    exact @checkDecl_method C { md with body := body' } _ _ _ hr hh hsettled (hflow.again _)

end Checker

/-! ## Programs -/

/-- A program of the same headers has the same check, if its declarations and its main expression
do over the source's table. -/
theorem checkProgram_of_headers {fuel : Nat} {b b' : Bool} {p p' q : Program} {t : Ty} {T T' : Table}
    (h : ProgramCheck ⟨T, b, fuel⟩ p t q T') (hsame : List.Forall₂ Decl.SameHeader p.decls p'.decls)
    (hdecls : List.Forall₂ (fun d d' => Checker.checkDecl ⟨T, b', fuel⟩ d = .ok d') p'.decls q.decls)
    (hmain : Checker.check ⟨T, b', fuel⟩ [] [] p'.main = .ok (t, q.main))
    (hprintf : p'.printf = q.printf) : checkProgram fuel b' p' = .ok (t, q) := by
  obtain ⟨T'', hT'', hheaders⟩ := Table.exists_ofDecls hsame h.source
  obtain ⟨hacyclic, -⟩ := Checker.of_checkDecls h.decls
  have hchecked : Checker.checkDecls ⟨T, b', fuel⟩ p'.decls = .ok q.decls :=
    Answer.bind_eq_ok.2 ⟨_, Answer.ofExcept_eq_ok.2 hacyclic, Answer.mapM_of_forall₂ hdecls⟩
  rw [hheaders.checkDecls_eq] at hchecked
  rw [hheaders.check_eq] at hmain
  refine Answer.bind_eq_ok.2 ⟨T'', Answer.ofExcept_eq_ok.2 hT'',
    Answer.bind_eq_ok.2 ⟨_, hchecked, Answer.bind_eq_ok.2 ⟨_, hmain, ?_⟩⟩⟩
  rw [hprintf]
  rfl

theorem printf_of_checkProgram {fuel : Nat} {b : Bool} {p q : Program} {t : Ty}
    (h : checkProgram fuel b p = .ok (t, q)) : q.printf = p.printf := by
  obtain ⟨T, -, h⟩ := Answer.bind_eq_ok.1 h
  obtain ⟨decls, -, h⟩ := Answer.bind_eq_ok.1 h
  obtain ⟨r, -, h⟩ := Answer.bind_eq_ok.1 h
  rw [← (Prod.mk.inj (Answer.ok.inj h)).2]

/-- Checking a checked program again changes nothing. -/
theorem checkProgram_again {fuel : Nat} {b : Bool} {p q : Program} {t : Ty}
    (h : checkProgram fuel b p = .ok (t, q)) : checkProgram fuel b q = .ok (t, q) := by
  obtain ⟨T, T', hcheck⟩ := exists_programCheck h
  obtain ⟨-, hdecls⟩ := Checker.of_checkDecls hcheck.decls
  refine checkProgram_of_headers hcheck (hdecls.imp fun _ _ hd => Checker.sameHeader_of_checkDecl hd)
    ?_ (Checker.settled_of_check hcheck.main) rfl
  exact List.forall₂_same.2 fun d' hd' => by
    obtain ⟨d, -, hd⟩ := exists_of_mem_forall₂ hdecls.flip hd'
    exact Checker.checkDecl_again hd

/-- **Programs that a check or inference gives back pass the check unchanged.** -/
theorem checkProgram_settles (fuel : Nat) (p q : Program) (t : Ty) :
    (∀ lenient, checkProgram fuel lenient p = .ok (t, q) → checkProgram fuel lenient q = .ok (t, q))
      ∧ (inferProgram fuel p = .ok (t, q) → checkProgram fuel false q = .ok (t, q)) := by
  refine ⟨fun lenient h => checkProgram_again h, fun h => ?_⟩
  obtain ⟨T, -, h⟩ := Answer.bind_eq_ok.1 h
  obtain ⟨⟨⟩, -, h⟩ := Answer.bind_eq_ok.1 h
  obtain ⟨elaborated, -, h⟩ := Answer.bind_eq_ok.1 h
  exact checkProgram_again h

/-- A program with an untyped constant in every kind of place: an element, an argument, a result, an
operand and an argument of a format. Its generic literal is given the type arguments. -/
def constants (targs : List Ty) : Program where
  decls :=
    let any := Ty.named "Any" []
    [.type ⟨"Any", [], .anything⟩,
      .type ⟨"F", [], .struct [⟨"x", .ofKind .float32⟩]⟩,
      .type ⟨"Box", [⟨"T", any⟩], .struct [⟨"value", .param "T"⟩, ⟨"any", any⟩]⟩,
      .method ⟨"f", "F", [], ⟨"plus", [], [⟨"n", .ofKind .float32⟩], .ofKind .float64⟩,
        .lit ⟨.float 0.1, .constant .float64⟩⟩]
  main :=
    let one : Expr := .lit ⟨.int 1, .constant .int32⟩
    let tenth : Expr := .lit ⟨.float 0.1, .constant .float64⟩
    .sprintf "%v" [.call (.structLit "F" [] [one]) "plus" [] [tenth],
      .binary .add (.select (.structLit "F" [] [one]) "x") tenth,
      .structLit "Box" targs [.convert .int64 one, .binary .add one one]]
  printf := false

theorem constants_settle :
    (∃ t q, checkProgram 9 false (constants [.ofKind .int64]) = .ok (t, q)
        ∧ (q.main == (constants [.ofKind .int64]).main) = false
        ∧ checkProgram 9 false q = .ok (t, q))
      ∧ ∃ t q, inferProgram 9 (constants []) = .ok (t, q) ∧ checkProgram 9 false q = .ok (t, q) := by
  have hcheck : (checkProgram 9 false (constants [.ofKind .int64])).any
      (fun r => !(r.2.main == (constants [.ofKind .int64]).main)) = true := by decide +kernel
  have hinfer : (inferProgram 9 (constants [])).any (fun _ => true) = true := by decide +kernel
  obtain ⟨⟨t, q⟩, hq, hne⟩ := Answer.any_eq_true.1 hcheck
  obtain ⟨⟨t', q'⟩, hq', -⟩ := Answer.any_eq_true.1 hinfer
  refine ⟨⟨t, q, hq, by simpa using hne, (checkProgram_settles 9 _ q t).1 false hq⟩, t', q', hq', ?_⟩
  exact (checkProgram_settles 9 _ q' t').2 hq'

end FeatherGo
