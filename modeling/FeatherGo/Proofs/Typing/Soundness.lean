import FeatherGo.Proofs.Typing.Programs
import FeatherGo.Reduction.Run

/-!
# Checked programs run well

A checked plain program never comes to a call of an unknown method, a missing field or a failed
lookup, and what it ends in implements the type of its main expression (`runsWell_of_checkProgram`).
Programs that are not plain may fail: substitution can capture a formal, and `capturing` is a program
that is checked and calls a method which `int32` does not have.
-/

namespace FeatherGo

/-! ## Runs -/

/-- An expression is reached from another one in a number of steps. -/
inductive Table.Reaches (T : Table) (start : Expr) : Nat → Expr → Prop
  | start : Reaches T start 0 start
  | step {n fuel : Nat} {e e' : Expr} {rule : Rule} (reached : Reaches T start n e)
      (step : (Machine.mk T fuel).step e = .ok (e', rule)) : Reaches T start (n + 1) e'

/-- Every expression that a typed one reaches is typed, at a subtype. -/
theorem Typed.reaches {T : Table} {strict : Bool} {rank : String → Nat} {U : Usage}
    (h : T.WellFormed strict rank) (hU : Supported T strict U) {start e : Expr} {t : Ty} {n : Nat}
    (ht : Typed T strict U [] start t) (hr : T.Reaches start n e) :
    ∃ t', Typed T strict U [] e t' ∧ T.Sub t' t := by
  induction hr with
  | start => exact ⟨t, ht, .refl t⟩
  | @step n fuel e e' rule reached step ih =>
    obtain ⟨t', ht', hs⟩ := ih
    have hlands := (ht'.step h hU (Machine.isValue_of_step step)).lands fuel
    rw [step] at hlands
    obtain ⟨t'', ht'', hs'⟩ := hlands
    exact ⟨t'', ht'', hs'.trans hs⟩

/-- What is promised of an expression that a checked program of type `t` reaches: unless it is a
value, a step comes to an end and fails only as expected; a struct value implements `t`. -/
structure Table.RunsWell (T : Table) (t : Ty) (e : Expr) : Prop where
  ends : e.isValue = false → ∃ n, ∀ fuel ≥ n, (Machine.mk T fuel).step e ≠ .unfinished
  faults : e.isValue = false →
    ∀ fuel err, (Machine.mk T fuel).step e = .error err → err.Expected
  result : ∀ c targs es, e = .structLit c targs es → e.isValue = true →
    ∃ n, ∀ fuel ≥ n, T.implements fuel [] (.named c targs) t = .ok true

/-- The usage that allows everything. -/
def Usage.any (T : Table) : Usage := .of T (fun _ => True) fun _ => True

theorem Typed.any {T : Table} {strict : Bool} {Γ : Scope} {e : Expr} {t : Ty}
    (ht : Typed T strict .written Γ e t) : Typed T strict (.any T) Γ e t := by
  refine ht.mono (fun _ _ => trivial) ?_ fun _ => trivial
  rintro t u m ts rfl
  exact ⟨.refl t, trivial, trivial⟩

/-- Bodies that are typed are typed under the usage that allows everything. -/
theorem supported_any {T : Table} {strict : Bool} (hT : T.BodiesTyped strict) :
    Supported T strict (.any T) where
  downward := Usage.downward_of T _ _
  related _ _ _ _ hc := hc.1
  bodies md args targs _ hmd ha _ _ := by
    obtain ⟨t, ht, hs⟩ := hT md hmd args targs ha
    exact ⟨t, ht.any, hs⟩

/-- **A checked program runs well**, if its type formals have ordinary names and no signature in one
of its type arguments has formals of its own. -/
theorem runsWell_of_checkProgram {fuel : Nat} {p q : Program} {t : Ty} (hplain : p.Plain false)
    (h : checkProgram fuel false p = .ok (t, q)) :
    ∃ T, Table.ofDecls q.decls = .ok T ∧ ∀ n e, T.Reaches q.main n e → T.RunsWell t e := by
  obtain ⟨T, rank, hT, hwf, hbodies, htc, hmain⟩ := checkProgram_typed hplain h
  refine ⟨T, hT, fun n e hr => ?_⟩
  have hU := supported_any hbodies
  obtain ⟨t', ht', hs⟩ := hmain.any.reaches hwf hU hr
  refine ⟨fun hv => (ht'.step hwf hU hv).ends, fun hv fuel err herr => ?_, ?_⟩
  · have hlands := (ht'.step hwf hU hv).lands fuel
    rw [herr] at hlands
    exact hlands
  · rintro c targs es rfl hv
    cases ht' with
    | structLit closed =>
      obtain ⟨b, hb, -, hk⟩ := hwf.lawful.implements_decided closed.sealed htc.sealed
      rwa [hb.2 (hs.implements hwf closed htc (by simp))] at hk

/-- The program that calls the identity method of a struct type. -/
def identityProgram : Program where
  decls := [.type ⟨"Any", [], .anything⟩, .type ⟨"A", [], .struct []⟩,
    .method ⟨"x", "A", [], ⟨"id", [⟨"T", .named "Any" []⟩], [⟨"y", .param "T"⟩], .param "T"⟩,
      .var "y"⟩]
  main := .call (.structLit "A" [] []) "id" [.named "A" []] [.structLit "A" [] []]
  printf := false

theorem identityProgram_plain : identityProgram.Plain false := by
  have hnames : ∀ a ∈ identityProgram.typeFormals,
      '\'' ∉ a.toList ∧ a.toList.head? ≠ some 'α' := by decide +kernel
  exact ⟨fun a ha => ordinaryName_of_head (hnames a ha).1 (hnames a ha).2, by decide +kernel⟩

theorem identityProgram_runsWell : identityProgram.Plain false
    ∧ ∃ t q, checkProgram 9 false identityProgram = .ok (t, q)
      ∧ ∃ T, Table.ofDecls q.decls = .ok T ∧ ∀ n e, T.Reaches q.main n e → T.RunsWell t e := by
  have hok : (checkProgram 9 false identityProgram).any (fun _ => true) = true := by decide +kernel
  obtain ⟨⟨t, q⟩, hq, -⟩ := Answer.any_eq_true.1 hok
  exact ⟨identityProgram_plain, t, q, hq, runsWell_of_checkProgram identityProgram_plain hq⟩

/-! ## Capture -/

/-- A program in which substitution captures a formal. In `go` the receiver `S2(keeper, U)` makes
`m(U Any)(y a) int32` the signature `m(U' Any)(y keeper) int32`, where `keeper` is the interface with
`k(U Any)(w U) U`. The call `m(U)` then puts `U` for `U'` in `keeper`, so the formal of `k` has to be
renamed; its new name is `U'`, which is replaced by `U` as well. -/
def capturing : Program where
  decls :=
    let any := Ty.named "Any" []
    let fooer (b : String) := Ty.named "Fooer" [.param b]
    let keeper : Ty := .interface [.method ⟨"k", [⟨"U", any⟩], [⟨"w", .param "U"⟩], .param "U"⟩]
    [.type ⟨"Any", [], .anything⟩,
      .type ⟨"Fooer", [⟨"b", any⟩], .interface [.method ⟨"foo", [], [], .param "b"⟩]⟩,
      .type ⟨"HasK", [],
        .interface [.method ⟨"k", [⟨"Q", any⟩], [⟨"w", .param "Q"⟩], .param "Q"⟩]⟩,
      .type ⟨"A", [], .struct []⟩,
      .type ⟨"K", [⟨"b", fooer "b"⟩], .struct []⟩,
      .type ⟨"S2", [⟨"a", .named "HasK" []⟩, ⟨"b", any⟩], .struct []⟩,
      .type ⟨"S1", [⟨"a", .named "HasK" []⟩], .struct []⟩,
      .method ⟨"x", "A", [], ⟨"foo", [], [], .named "A" []⟩, .var "x"⟩,
      .method ⟨"x", "K", [⟨"b", fooer "b"⟩],
        ⟨"k", [⟨"Z", any⟩], [⟨"w", .param "b"⟩], .param "b"⟩, .call (.var "w") "foo" [] []⟩,
      .method ⟨"x", "S2", [⟨"a", .named "HasK" []⟩, ⟨"b", any⟩],
        ⟨"m", [⟨"U", any⟩], [⟨"y", .param "a"⟩], .ofKind .int32⟩,
        .call (.var "y") "k" [.ofKind .int32] [.lit ⟨.int 5, .typed .int32⟩]⟩,
      .method ⟨"x", "S1", [⟨"a", .named "HasK" []⟩],
        ⟨"mk", [⟨"U", any⟩], [], .named "S2" [.param "a", .param "U"]⟩,
        .structLit "S2" [.param "a", .param "U"] []⟩,
      .method ⟨"x", "A", [], ⟨"s", [], [], .named "S1" [keeper]⟩, .structLit "S1" [keeper] []⟩,
      .method ⟨"x", "A", [], ⟨"go", [⟨"U", fooer "U"⟩], [], any⟩,
        .call (.call (.call (.var "x") "s" [] []) "mk" [.param "U"] []) "m" [.param "U"]
          [.structLit "K" [.param "U"] []]⟩]
  main := .call (.structLit "A" [] []) "go" [.named "A" []] []
  printf := false

theorem capturing_names : ∀ a ∈ capturing.typeFormals, OrdinaryName a := by
  have hnames : ∀ a ∈ capturing.typeFormals,
      '\'' ∉ a.toList ∧ a.toList.head? ≠ some 'α' := by decide +kernel
  exact fun a ha => ordinaryName_of_head (hnames a ha).1 (hnames a ha).2

/-- The expression after a number of steps. -/
def Machine.after (M : Machine) : Nat → Expr → Answer EvalError Expr
  | 0, e => .ok e
  | n + 1, e => do
    let e ← M.after n e
    return (← M.step e).1

theorem Table.reaches_of_after {T : Table} {fuel n : Nat} {start e : Expr}
    (h : (Machine.mk T fuel).after n start = .ok e) : T.Reaches start n e := by
  induction n generalizing e with
  | zero =>
    obtain rfl := Answer.ok.inj h
    exact .start
  | succ n ih =>
    obtain ⟨e', he', h⟩ := Answer.bind_eq_ok.1 h
    obtain ⟨⟨e'', rule⟩, hstep, h⟩ := Answer.bind_eq_ok.1 h
    obtain rfl := Answer.ok.inj h
    exact .step (ih he') hstep

/-- The receiver type and the name of a method that there is not. -/
def EvalError.unknownMethod? : EvalError → Option (Ty × String)
  | .type (.unknownMethod t m) => some (t, m)
  | _ => none

theorem EvalError.of_unknownMethod? {err : EvalError} {t : Ty} {m : String}
    (h : err.unknownMethod? = some (t, m)) : err = .type (.unknownMethod t m) := by
  unfold unknownMethod? at h
  split at h
  · obtain ⟨rfl, rfl⟩ := Prod.mk.inj (Option.some.inj h)
    rfl
  · cases h

/-- The program `capturing` is checked, and after five steps it calls a method that `int32` does not
have. -/
theorem capturing_unknownMethod : (∀ a ∈ capturing.typeFormals, OrdinaryName a)
    ∧ ∃ t q T e, checkProgram 20 false capturing = .ok (t, q) ∧ Table.ofDecls q.decls = .ok T
      ∧ T.Reaches q.main 5 e ∧ e.isValue = false ∧ (Machine.mk T 20).step e
        = .error (.type (.unknownMethod (.ofKind .int32) "foo")) := by
  have hrun : (checkProgram 20 false capturing).any (fun r =>
      (Answer.ofExcept (Table.ofDecls r.2.decls)).any fun T =>
        ((Machine.mk T 20).after 5 r.2.main).any fun e =>
          !e.isValue && ((Machine.mk T 20).step e).fails fun err =>
            decide (err.unknownMethod? = some (.ofKind .int32, "foo"))) = true := by decide +kernel
  obtain ⟨⟨t, q⟩, hq, hrun⟩ := Answer.any_eq_true.1 hrun
  obtain ⟨T, hT, hrun⟩ := Answer.any_eq_true.1 hrun
  obtain ⟨e, he, hrun⟩ := Answer.any_eq_true.1 hrun
  obtain ⟨hv, hrun⟩ := Bool.and_eq_true_iff.1 hrun
  obtain ⟨err, hstep, herr⟩ := Answer.fails_eq_true.1 hrun
  obtain rfl := EvalError.of_unknownMethod? (of_decide_eq_true herr)
  exact ⟨capturing_names, t, q, T, e, hq, Answer.ofExcept_eq_ok.1 hT, Table.reaches_of_after he,
    by simpa using hv, hstep⟩

end FeatherGo
