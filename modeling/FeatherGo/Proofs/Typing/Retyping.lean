import FeatherGo.Proofs.Typing.Fuel
import FeatherGo.Proofs.Typing.Soundness

/-!
# Typing expressions again

A run may type every expression that it reaches again. Where this gives a type, it is a type that
implements the type of the main expression, or the type of an untyped constant where that is primitive
(`checkPreserved_of_checkProgram`): a place of an untyped type takes constants of every kind. It need not
give a type: a step may narrow the static type of what an assertion looks at, until the assertion counts as
impossible. The program `narrowing` takes such a step.
-/

namespace FeatherGo

variable {T : Table} {strict : Bool} {rank : String → Nat} {U : Usage}

/-- What may stand for a type implements it, but for untyped constants. -/
theorem Table.Sub.implements_or_untyped (h : T.WellFormed strict rank) {t u : Ty}
    (ht : t.Closed (T.vocabulary strict)) (hu : u.Closed (T.vocabulary strict)) (hs : T.Sub t u) :
    T.Implements t u ∨ t ≠ u ∧ ∃ k p, t = .prim (.constant k) ∧ u = .prim p := by
  rw [h.lawful.implements_iff ht.sealed hu.sealed]
  by_cases htu : t = u
  · exact .inl (.inl htu)
  · cases hs with
    | refl => exact absurd rfl htu
    | untyped k p => exact .inr ⟨htu, k, p, rfl, rfl⟩
    | interface hi hne hc => exact .inl (.inr ⟨hi, hne, hc⟩)

/-- What typing gives an expression again, of which a type stands for another one, implements that one, or
is the type of an untyped constant. -/
theorem Typed.implements_of_check (h : T.WellFormed strict rank)
    (hU : ∀ t u m ts, U.calls t u m ts → T.Sub t u) {e e' : Expr} {t t' u : Ty}
    (ht' : Typed T strict U [] e t') (hs : T.Sub t' t) (ht : t.Closed (T.vocabulary strict)) {C : Checker}
    (hC : C.table = T) (hcheck : C.check [] [] e = .ok (u, e')) :
    T.Implements u t ∨ u ≠ t ∧ ∃ k p, u = .prim (.constant k) ∧ t = .prim p := by
  have hscope : ∀ x t, Env.find? ([] : Scope) x = some t → t.Closed (T.vocabulary strict) :=
    fun _ _ hx => by cases hx
  rcases ht'.eq_of_check h hU hscope hC hcheck with rfl | ⟨p, q, rfl, rfl, hp⟩
  · exact hs.implements_or_untyped h (ht'.closed h hscope) ht
  · have hs' : T.Sub (.prim p) t := (Table.Sub.prim_iff.2 (.inr hp)).trans hs
    exact hs'.implements_or_untyped h ⟨.prim p, rfl⟩ ht

/-- An expression whose type is found again, and implements the type before, passes the check of it. -/
theorem Machine.exists_checkPreserved {t u : Ty} {e : Expr} {k : Nat}
    (htype : (Checker.mk T true k).typeOf [] [] e = .ok u) (himplements : T.Implements u t) :
    ∃ m, ∀ fuel ≥ m, (Machine.mk T fuel).checkPreserved t e = .ok () := by
  obtain ⟨m, hm⟩ := (Table.finitary_implementsBy _ _ _).eventually himplements
  refine ⟨max k m, fun fuel hfuel => ?_⟩
  have htypeOf : (Checker.mk T true fuel).typeOf [] [] e = .ok u :=
    (Checker.typeOf_below ((Nat.le_max_left ..).trans hfuel) [] [] e).ok htype
  rw [Machine.checkPreserved, htypeOf]
  by_cases he : u = t
  · simp [he]
  · have hok : T.implements fuel [] u t = .ok true := hm fuel ((Nat.le_max_right ..).trans hfuel)
    simp [he, hok]

/-- **Where an expression that a checked plain program reaches has a type again, the type is preserved**:
it is or implements the type of the main expression, unless it is the type of an untyped constant and that
is another primitive type. -/
theorem checkPreserved_of_checkProgram {fuel : Nat} {p q : Program} {t : Ty}
    (hplain : p.Plain false) (h : checkProgram fuel false p = .ok (t, q)) :
    ∃ T, Table.ofDecls q.decls = .ok T ∧ ∀ n e k u, T.Reaches q.main n e →
      (Checker.mk T true k).typeOf [] [] e = .ok u →
      (∃ m, ∀ fuel ≥ m, (Machine.mk T fuel).checkPreserved t e = .ok ())
        ∨ u ≠ t ∧ ∃ j s, u = .prim (.constant j) ∧ t = .prim s := by
  obtain ⟨T, rank, hT, hwf, hbodies, htc, hmain⟩ := checkProgram_typed hplain h
  refine ⟨T, hT, fun n e k u hr htype => ?_⟩
  have hU := supported_any hbodies
  obtain ⟨t', ht', hs⟩ := hmain.any.reaches hwf hU hr
  obtain ⟨⟨u', e'⟩, hcheck, hu⟩ := Answer.bind_eq_ok.1 htype
  obtain rfl := Answer.ok.inj hu
  exact (ht'.implements_of_check hwf hU.related hs htc rfl hcheck).imp_left
    (Machine.exists_checkPreserved htype)

theorem identityProgram_preserved : identityProgram.Plain false
    ∧ ∃ t q, checkProgram 9 false identityProgram = .ok (t, q)
      ∧ ∃ T, Table.ofDecls q.decls = .ok T ∧ ∀ n e k u, T.Reaches q.main n e →
        (Checker.mk T true k).typeOf [] [] e = .ok u →
        (∃ m, ∀ fuel ≥ m, (Machine.mk T fuel).checkPreserved t e = .ok ())
          ∨ u ≠ t ∧ ∃ j s, u = .prim (.constant j) ∧ t = .prim s := by
  have hok : (checkProgram 9 false identityProgram).any (fun _ => true) = true := by decide +kernel
  obtain ⟨⟨t, q⟩, hq, -⟩ := Answer.any_eq_true.1 hok
  exact ⟨identityProgram_plain, t, q, hq, checkPreserved_of_checkProgram identityProgram_plain hq⟩

/-- A program with an assertion that a step makes impossible. Its main expression asserts that a value
of the interface `Any` is an `A`; after one step the value is one of the interface `J`, which `A` does
not implement. -/
def narrowing : Program where
  decls :=
    let any := Ty.named "Any" []
    [.type ⟨"Any", [], .anything⟩,
      .type ⟨"J", [], .interface [.method ⟨"j", [], [], any⟩]⟩,
      .type ⟨"A", [], .struct []⟩,
      .type ⟨"B", [], .struct []⟩,
      .method ⟨"b", "B", [], ⟨"j", [], [], any⟩, .var "b"⟩,
      .method ⟨"a", "A", [], ⟨"make", [], [], .named "J" []⟩, .structLit "B" [] []⟩,
      .method ⟨"a", "A", [], ⟨"any", [], [], any⟩, .call (.var "a") "make" [] []⟩]
  main := .assert (.call (.structLit "A" [] []) "any" [] []) (.named "A" [])
  printf := false

/-- The type and the target of an assertion that cannot hold. -/
def EvalError.impossible? : EvalError → Option (Ty × Ty)
  | .type (.impossibleAssertion t target _) => some (t, target)
  | _ => none

theorem EvalError.of_impossible? {err : EvalError} {t target : Ty}
    (h : err.impossible? = some (t, target)) :
    ∃ e, err = .type (.impossibleAssertion t target e) := by
  unfold impossible? at h
  split at h
  · obtain ⟨rfl, rfl⟩ := Prod.mk.inj (Option.some.inj h)
    exact ⟨_, rfl⟩
  · cases h

/-- The program `narrowing` gets stuck after two steps; if it types its expressions again, it fails
after one. -/
theorem narrowing_retyped : ∃ run e, runProgram 9 ⟨none, false, false⟩ narrowing = .ok run
    ∧ run.steps = 2 ∧ runProgram 9 ⟨none, false, true⟩ narrowing
      = .error (.type (.impossibleAssertion (.named "J" []) (.named "A" []) e)) := by
  have hruns : (runProgram 9 ⟨none, false, false⟩ narrowing).any
      (fun run => decide (run.steps = 2)) = true := by decide +kernel
  have hfails : (runProgram 9 ⟨none, false, true⟩ narrowing).fails
      (fun err => decide (err.impossible? = some (.named "J" [], .named "A" []))) = true := by
    decide +kernel
  obtain ⟨run, hrun, hsteps⟩ := Answer.any_eq_true.1 hruns
  obtain ⟨err, herr, hfault⟩ := Answer.fails_eq_true.1 hfails
  obtain ⟨e, rfl⟩ := EvalError.of_impossible? (of_decide_eq_true hfault)
  exact ⟨run, e, hrun, of_decide_eq_true hsteps, herr⟩

end FeatherGo
