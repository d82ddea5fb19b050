import FeatherGo.Proofs.Declarations.Order
import FeatherGo.Proofs.Expressions.Redex
import FeatherGo.Reduction.Run

/-!
# Checking and running in another order

Checking stops at the first error, so the order of the declarations decides which error is reported.
It decides nothing else: what is accepted, its type, the elaborated program and every run are the same
(`checkProgram_of_perm`, `runProgram_observed`).
-/

namespace FeatherGo

open Answer (bind_eq_ok)

/-! ## Judgments -/

/-- Two answers have the same values. -/
def Answer.Trait.agreeing : Answer.Trait Bool where
  Holds x := ∀ a, x false = .ok a ↔ x true = .ok a
  ok _ _ := .rfl
  error _ _ := .rfl
  bind hx hf b := by
    rw [bind_eq_ok, bind_eq_ok]
    exact exists_congr fun a => and_congr (hx a) (hf a b)
  mapError f hx a := by
    rw [Answer.mapError_eq_ok, Answer.mapError_eq_ok]
    exact hx a

open Answer.Trait (agreeing)

namespace Table

/-- Two tables as a family. -/
def pair (T T' : Table) : Bool → Table
  | false => T
  | true => T'

namespace Reorders

variable {T T' : Table}

theorem pair_like (h : T.Reorders T') : ∀ b, (pair T T' b).Like T'
  | false => h.like
  | true => .refl T'

theorem declaredMethods (h : T.Reorders T') {F : Bool → Finder} {c : String} {args : List Ty}
    (hF : ∀ t, agreeing.Holds fun b => F b t) :
    agreeing.Holds fun b =>
      (pair T T' b).declaredMethods (F b) args ((pair T T' b).methodsOn c) [] := by
  intro S
  have hreceiver : ∀ md ∈ T.methodsOn c,
      agreeing.Holds fun b => (pair T T' b).receiverBy (F b) md.recvFormals args :=
    fun md _ => agreeing.receiverBy h.pair_like (fun t _ => hF t) fun f _ => hF _
  have hsame := agreeing.declaredMethods [] hreceiver S
  refine hsame.trans ⟨?_, ?_⟩
  · exact declaredMethods_of_perm (h.methodsOn c) (h.names.methodsOn c)
  · exact declaredMethods_of_perm (h.methodsOn c).symm (h.symm.names.methodsOn c)

/-- Method sets do not depend on the order of declarations. -/
theorem methods_agree (h : T.Reorders T') (Δ : Bounds) (n : Nat) (t : Ty) :
    agreeing.Holds fun b => (pair T T' b).methods Δ n t := by
  induction n generalizing t with
  | zero => exact fun S => ⟨nofun, nofun⟩
  | succ n ih =>
    simp only [methods_succ]
    cases t with
    | interface ms => exact agreeing.memberMethods [] fun c args _ => ih _
    | param p => exact agreeing.bind (agreeing.ofExcept _) fun t => ih t
    | named c args =>
      refine agreeing.bind (Uniform.ofExcept fun b => (h.pair_like b).resolve (.named c args))
        fun v => ?_
      cases v with
      | interface ms => exact ih _
      | _ => exact h.declaredMethods ih
    | _ => exact agreeing.ok _

/-- Typing on tables of the same declarations. -/
theorem uniform (h : T.Reorders T') (lenient : Bool) (fuel : Nat) :
    Uniform agreeing (fun _ => True) T' fun b => ⟨pair T T' b, lenient, fuel⟩ where
  like := h.pair_like
  lenient _ _ := rfl
  methods _ t := h.methods_agree _ fuel t

end Reorders

end Table

/-! ## Evaluation -/

/-- Errors of evaluation that are none of typing. -/
def EvalError.Evaluated : EvalError → Prop
  | .type _ => False
  | _ => True

/-- Typing failed, or did not finish. -/
def Answer.Faulty {α : Type} (x : Answer EvalError α) : Prop :=
  x = .unfinished ∨ ∃ c, x = .error (.type c)

/-- Two answers of evaluation are the same, or typing failed in both. -/
def Answer.Observed {α : Type} (x y : Answer EvalError α) : Prop := x = y ∨ x.Faulty ∧ y.Faulty

namespace Answer

variable {α β : Type} {x y : Answer EvalError α}

theorem Faulty.bind (h : x.Faulty) (f : α → Answer EvalError β) : (x >>= f).Faulty := by
  rcases h with rfl | ⟨c, rfl⟩
  · exact .inl rfl
  · exact .inr ⟨c, rfl⟩

theorem Faulty.ne_ok (h : x.Faulty) (a : α) : x ≠ .ok a := by
  rcases h with rfl | ⟨c, rfl⟩ <;> exact nofun

theorem Faulty.ne_error (h : x.Faulty) {e : EvalError} (he : e.Evaluated) : x ≠ .error e := by
  rcases h with rfl | ⟨c, rfl⟩
  · exact nofun
  · rintro ⟨⟩
    exact he

namespace Observed

theorem refl (x : Answer EvalError α) : Observed x x := .inl rfl

theorem ok_iff (h : Observed x y) (a : α) : x = .ok a ↔ y = .ok a := by
  rcases h with rfl | ⟨hx, hy⟩
  · exact .rfl
  · exact iff_of_false (hx.ne_ok a) (hy.ne_ok a)

theorem error_iff (h : Observed x y) {e : EvalError} (he : e.Evaluated) :
    x = .error e ↔ y = .error e := by
  rcases h with rfl | ⟨hx, hy⟩
  · exact .rfl
  · exact iff_of_false (hx.ne_error he) (hy.ne_error he)

/-- Typing that has the same values is observed to be the same. -/
theorem of_typing {x y : Answer TypeError α} (h : ∀ a, x = .ok a ↔ y = .ok a) :
    Observed (x.mapError .type) (y.mapError .type) := by
  by_cases hok : ∃ a, x = .ok a
  · obtain ⟨a, ha⟩ := hok
    exact .inl (by rw [ha, (h a).1 ha])
  · have hfaulty {z : Answer TypeError α} (hz : ∀ a, z ≠ .ok a) :
        (z.mapError EvalError.type).Faulty := by
      cases z with
      | ok a => exact absurd rfl (hz a)
      | error c => exact .inr ⟨c, rfl⟩
      | unfinished => exact .inl rfl
    exact .inr ⟨hfaulty fun a ha => hok ⟨a, ha⟩, hfaulty fun a ha => hok ⟨a, (h a).2 ha⟩⟩

theorem bind (h : Observed x y) {f g : α → Answer EvalError β} (hf : ∀ a, Observed (f a) (g a)) :
    Observed (x >>= f) (y >>= g) := by
  rcases h with rfl | ⟨hx, hy⟩
  · cases x with
    | ok a => exact hf a
    | error e => exact refl _
    | unfinished => exact refl _
  · exact .inr ⟨hx.bind f, hy.bind g⟩

end Observed

end Answer

open Answer (Observed)

namespace Machine

variable {T T' : Table}

theorem assertValue_observed (h : T.Reorders T') (fuel : Nat) (value : Expr) (target : Ty) :
    Observed ((Machine.mk T fuel).assertValue value target)
      ((Machine.mk T' fuel).assertValue value target) :=
  (Observed.of_typing ((h.uniform true fuel).implements Bounds.all_nil _ _)).bind
    fun _ => .refl _

/-- What is ready to be reduced looks at struct types, at single methods and, in an assertion, at
method sets. -/
theorem step_observed_of_ready (h : T.Reorders T') (fuel : Nat) {e : Expr} (he : e.Ready) :
    Observed ((Machine.mk T fuel).step e) ((Machine.mk T' fuel).step e) := by
  cases he with
  | assert hv target =>
    simp only [Machine.step, if_pos hv]
    exact (assertValue_observed h fuel _ _).bind fun _ => .refl _
  | select hv field =>
    have hproject (whole value : Expr) : (Machine.mk T fuel).project field whole value
        = (Machine.mk T' fuel).project field whole value := by
      cases value with
      | structLit c targs elems => simp only [project, h.like.structFields]
      | _ => rfl
    simp only [Machine.step, if_pos hv, hproject]
    exact .refl _
  | @call recv args hv hvs meth targs =>
    have hinvoke : (Machine.mk T fuel).invoke recv meth targs args
        = (Machine.mk T' fuel).invoke recv meth targs args := by
      cases recv with
      | structLit c ts elems => simp only [invoke, h.method?_eq]
      | _ => rfl
    simp only [Machine.step, hv, hvs, Bool.not_true, Bool.false_eq_true, if_false, hinvoke]
    exact .refl _
  | var x => exact .refl _
  | sprintf hvs =>
    simp only [Machine.step, if_pos hvs]
    exact .refl _
  | decided hl hd =>
    simp only [Machine.step, hl, hd, Bool.not_true, Bool.false_eq_true, if_false]
    exact .refl _
  | binary hl hd hr =>
    simp only [Machine.step, hl, hd, hr, Bool.not_true, Bool.false_eq_true, if_false]
    exact .refl _
  | convert hv =>
    simp only [Machine.step, if_pos hv]
    exact .refl _

/-- A step does not depend on the order of declarations. -/
theorem step_observed (h : T.Reorders T') (fuel : Nat) {e : Expr} (hv : e.isValue = false) :
    Observed ((Machine.mk T fuel).step e) ((Machine.mk T' fuel).step e) := by
  obtain ⟨plug, -, hplug⟩ := Expr.stepsIn_redex hv
  rw [hplug, hplug]
  exact (step_observed_of_ready h fuel (Expr.ready_redex hv)).bind fun _ => .refl _

theorem checkPreserved_observed (h : T.Reorders T') (fuel : Nat) (before : Ty) (e : Expr) :
    Observed ((Machine.mk T fuel).checkPreserved before e)
      ((Machine.mk T' fuel).checkPreserved before e) := by
  have huniform := h.uniform true fuel
  have htype := agreeing.bind (huniform.check Bounds.all_nil [] (.of_forall (fun _ => trivial) e))
    fun r => agreeing.ok r.1
  refine (Observed.of_typing htype).bind fun after => ?_
  by_cases hafter : after = before
  · simp only [if_pos hafter]
    exact .refl _
  · simp only [if_neg hafter]
    exact (Observed.of_typing (huniform.implements Bounds.all_nil after before)).bind
      fun _ => .refl _

/-- A run does not depend on the order of declarations. -/
theorem runFrom_observed (h : T.Reorders T') (fuel : Nat) (config : RunConfig) (t : Ty)
    (rounds steps : Nat) (trace : List (Rule × Expr)) (e : Expr) :
    Observed ((Machine.mk T fuel).runFrom config t rounds steps trace e)
      ((Machine.mk T' fuel).runFrom config t rounds steps trace e) := by
  induction rounds generalizing steps trace e with
  | zero =>
    unfold runFrom
    exact .refl _
  | succ rounds ih =>
    unfold runFrom
    split
    · exact .refl _
    · rename_i hv
      split
      · exact .refl _
      · rcases step_observed h fuel (e := e) (by simpa using hv) with heq | ⟨hx, hy⟩
        · rw [heq]
          rcases (Machine.mk T' fuel).step e with ⟨e', rule⟩ | fault | _
          · by_cases hp : config.checkPreservation = true
            · simp only [if_pos hp]
              exact (checkPreserved_observed h fuel t _).bind fun _ => ih ..
            · simp only [if_neg hp]
              exact ih ..
          · cases fault <;> exact .refl _
          · exact .refl _
        · rcases hx with hx | ⟨c, hx⟩ <;> rcases hy with hy | ⟨d, hy⟩ <;> rw [hx, hy]
          · exact .refl _
          · exact .inr ⟨.inl rfl, .inr ⟨d, rfl⟩⟩
          · exact .inr ⟨.inr ⟨c, rfl⟩, .inl rfl⟩
          · exact .inr ⟨.inr ⟨c, rfl⟩, .inr ⟨d, rfl⟩⟩

end Machine

/-! ## Programs -/

section Programs

variable {p : Program} {decls : List Decl}

/-- What checking makes of a declaration; one that does not check stays as it is. -/
def Checker.elaborated (C : Checker) (d : Decl) : Decl :=
  match C.checkDecl d with
  | .ok d' => d'
  | _ => d

/-- An accepted program is accepted in every order of its declarations, each of which is elaborated
as before. -/
theorem checkProgram_of_perm (hp : p.decls.Perm decls) {fuel : Nat} {lenient : Bool} {t : Ty}
    {q : Program} (h : checkProgram fuel lenient p = .ok (t, q)) :
    ∃ elaborated : Decl → Decl, q.decls = p.decls.map elaborated
      ∧ checkProgram fuel lenient { p with decls }
        = .ok (t, { q with decls := decls.map elaborated }) := by
  obtain ⟨T, hT, h⟩ := bind_eq_ok.1 h
  obtain ⟨ds, hds, h⟩ := bind_eq_ok.1 h
  obtain ⟨⟨t', main⟩, hmain, h⟩ := bind_eq_ok.1 h
  obtain ⟨⟨⟩, hacyclic, hds⟩ := bind_eq_ok.1 hds
  obtain ⟨rfl, rfl⟩ := Prod.mk.inj (Answer.ok.inj h)
  obtain ⟨T', hT', hreorders⟩ := Table.exists_ofDecls_of_perm hp (Answer.ofExcept_eq_ok.1 hT)
  have huniform := hreorders.uniform lenient fuel
  have helaborated : ∀ d ∈ p.decls,
      (Checker.mk T lenient fuel).checkDecl d = .ok ((Checker.mk T lenient fuel).elaborated d) := by
    intro d hd
    obtain ⟨d', -, hd'⟩ := exists_of_mem_forall₂ (Answer.forall₂_of_mapM hds) hd
    simp only [Checker.elaborated, hd']
  have hagree : ∀ d ∈ decls,
      (Checker.mk T' lenient fuel).checkDecl d = .ok ((Checker.mk T lenient fuel).elaborated d) := by
    intro d hd
    exact (huniform.checkDecl (.of_forall (fun _ => trivial) d) _).1 (helaborated d (hp.mem_iff.2 hd))
  refine ⟨(Checker.mk T lenient fuel).elaborated, ?_, ?_⟩
  · have hmap := Answer.mapM_eq_ok_map helaborated
    exact Answer.ok.inj (hds.symm.trans hmap)
  · refine bind_eq_ok.2 ⟨T', Answer.ofExcept_eq_ok.2 hT', ?_⟩
    refine bind_eq_ok.2 ⟨decls.map (Checker.mk T lenient fuel).elaborated, ?_, ?_⟩
    · refine bind_eq_ok.2 ⟨(), ?_, Answer.mapM_eq_ok_map hagree⟩
      obtain ⟨rank, hr⟩ := Table.checkAcyclic_eq_ok.1 (Answer.ofExcept_eq_ok.1 hacyclic)
      exact Answer.ofExcept_eq_ok.2 (Table.checkAcyclic_eq_ok.2 ⟨rank, hreorders.like.ranking hr⟩)
    · have hguarded := Expr.Guarded.of_forall (P := fun _ => True) (fun _ => trivial) p.main
      exact bind_eq_ok.2 ⟨_, (huniform.check Bounds.all_nil [] hguarded _).1 hmain, rfl⟩

theorem checkProgram_agree (hp : p.decls.Perm decls) (fuel : Nat) (lenient : Bool) :
    (∃ r, checkProgram fuel lenient p = .ok r)
      ↔ ∃ r, checkProgram fuel lenient { p with decls } = .ok r := by
  constructor
  · rintro ⟨⟨t, q⟩, h⟩
    obtain ⟨elaborated, -, h⟩ := checkProgram_of_perm hp h
    exact ⟨_, h⟩
  · rintro ⟨⟨t, q⟩, h⟩
    obtain ⟨elaborated, -, h⟩ := checkProgram_of_perm (p := { p with decls }) hp.symm h
    exact ⟨_, h⟩

/-- A program runs alike in every order of its declarations. -/
theorem runProgram_observed (hp : p.decls.Perm decls) (fuel : Nat) (config : RunConfig) :
    Observed (runProgram fuel config p) (runProgram fuel config { p with decls }) := by
  by_cases haccepted : ∃ r, checkProgram fuel false p = .ok r
  · obtain ⟨⟨t, q⟩, hq⟩ := haccepted
    obtain ⟨elaborated, hdecls, hq'⟩ := checkProgram_of_perm hp hq
    have hperm : q.decls.Perm (decls.map elaborated) := hdecls ▸ hp.map elaborated
    simp only [runProgram, hq, hq', Answer.mapError_ok, Answer.ok_bind]
    cases hT : Table.ofDecls q.decls with
    | ok T =>
      obtain ⟨T', hT', hreorders⟩ := Table.exists_ofDecls_of_perm hperm hT
      rw [hT']
      exact Machine.runFrom_observed hreorders fuel config t _ _ _ _
    | error c =>
      cases hT' : Table.ofDecls (decls.map elaborated) with
      | ok T' =>
        obtain ⟨T, hT₀, -⟩ := Table.exists_ofDecls_of_perm hperm.symm hT'
        cases hT.symm.trans hT₀
      | error c' => exact .inr ⟨.inr ⟨c, rfl⟩, .inr ⟨c', rfl⟩⟩
  · have hrefused : ¬∃ r, checkProgram fuel false { p with decls } = .ok r :=
      fun h => haccepted ((checkProgram_agree hp fuel false).2 h)
    exact (Observed.of_typing fun a =>
      iff_of_false (fun h => haccepted ⟨a, h⟩) fun h => hrefused ⟨a, h⟩).bind fun _ => .refl _

/-- **The order of declarations does not matter.** A program is accepted in every order of its
declarations or in none. The type of its main expression, its elaborated main expression and each
elaborated declaration are the same; so is every run, and every error of a run that is none of
typing. -/
theorem declarations_reorder (hp : p.decls.Perm decls) :
    (∀ fuel lenient, (∃ r, checkProgram fuel lenient p = .ok r)
        ↔ ∃ r, checkProgram fuel lenient { p with decls } = .ok r)
      ∧ (∀ fuel lenient t q t' q', checkProgram fuel lenient p = .ok (t, q) →
          checkProgram fuel lenient { p with decls } = .ok (t', q') →
          t' = t ∧ q'.main = q.main ∧ q'.printf = q.printf
            ∧ ∃ elaborated : Decl → Decl, q.decls = p.decls.map elaborated
              ∧ q'.decls = decls.map elaborated)
      ∧ ∀ fuel config,
          (∀ r, runProgram fuel config p = .ok r
            ↔ runProgram fuel config { p with decls } = .ok r)
          ∧ ∀ e : EvalError, e.Evaluated → (runProgram fuel config p = .error e
            ↔ runProgram fuel config { p with decls } = .error e) := by
  refine ⟨checkProgram_agree hp, fun fuel lenient t q t' q' h h' => ?_, fun fuel config => ?_⟩
  · obtain ⟨elaborated, hdecls, h''⟩ := checkProgram_of_perm hp h
    obtain ⟨rfl, rfl⟩ := Prod.mk.inj (Answer.ok.inj (h'.symm.trans h''))
    exact ⟨rfl, rfl, rfl, elaborated, hdecls, rfl⟩
  · have hrun := runProgram_observed hp fuel config
    exact ⟨hrun.ok_iff, fun e he => hrun.error_iff he⟩

end Programs

/-- A method that is declared before its receiver type, and is called. -/
def methodFirst : Program where
  decls := [.method ⟨"x", "A", [], ⟨"same", [], [], .named "A" []⟩, .var "x"⟩,
    .type ⟨"A", [], .struct []⟩]
  main := .call (.structLit "A" [] []) "same" [] []
  printf := false

theorem methodFirst_reordered : methodFirst.decls.Perm methodFirst.decls.reverse
    ∧ (∃ r, checkProgram 5 false methodFirst = .ok r)
    ∧ (∃ r, checkProgram 5 false { methodFirst with decls := methodFirst.decls.reverse } = .ok r)
    ∧ ∃ r : Run, r.steps = 1 ∧ runProgram 5 ⟨none, true, true⟩ methodFirst = .ok r
      ∧ runProgram 5 ⟨none, true, true⟩ { methodFirst with decls := methodFirst.decls.reverse }
        = .ok r := by
  have hperm : methodFirst.decls.Perm methodFirst.decls.reverse := (List.reverse_perm _).symm
  obtain ⟨hcheck, -, hrun⟩ := declarations_reorder hperm
  have haccepted : ∃ r, checkProgram 5 false methodFirst = .ok r := ⟨_, rfl⟩
  refine ⟨hperm, haccepted, (hcheck 5 false).1 haccepted, _, ?_, rfl, ((hrun 5 _).1 _).1 rfl⟩
  rfl

end FeatherGo
