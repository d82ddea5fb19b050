import FeatherGo.Inference.Elaborate
import FeatherGo.Proofs.Declarations.WellFormed
import FeatherGo.Proofs.Types.Avoidance
import FeatherGo.Proofs.Types.Clear

/-!
# The bounds of inferred type arguments

An explicit call checks each type argument against the bound of its formal, with all arguments in the
places of the formals. Inference puts variables in the places of the formals, what the variables stand
for in their places, and then the arguments in the places of the formals once more. The second time is
one too many where an argument mentions a type parameter of the caller that has the name of a formal of
the callee (`Shadowing.rejects`).

Both ways come to one bound if what a bound mentions is not replaced again and nothing is renamed
(`Checker.readBound_eq`). Then inference finds type arguments exactly when an explicit call with them
passes: `Checker.solveFormals_eq_ok_iff`.
-/

namespace FeatherGo

/-! ## Substituting once more -/

/-- A substitution does nothing more where it has been carried out, if what it put in stands for itself
and is not bound. -/
theorem Ty.subst_subst_self {t : Ty} {θ : Env Ty} (ht : θ.Avoids t.binders)
    (hentries : ∀ a x, θ.find? a = some x → θ.Avoids x.binders)
    (hself : ∀ b ∈ t.freeParams, ∀ a ∈ (θ.lookup b).freeParams, θ.lookup a = .param a) :
    (t.subst θ).subst θ = t.subst θ := by
  have hundisturbed := undisturbed_of_avoids ht
  apply Undisturbed.subst_eq_self
  · apply undisturbed_of_avoids
    intro a x hx q hq hmem
    rcases hundisturbed.mem_binders_subst hmem with hmem | ⟨b, y, hy, hmem⟩
    · exact ht a x hx q hq hmem
    · exact hentries b y hy a x hx q hq hmem
  · intro a ha
    obtain ⟨b, hb, ha⟩ := (hundisturbed.captureFree a).1 ha
    exact hself b hb a ha

/-! ## What inference computes -/

namespace Checker

/-- The variables that stand for formals, numbered from `first` on. -/
def formalVars (first : Nat) (formals : List Slot) : List Nat :=
  (List.range formals.length).map (first + ·)

/-- Types with the variables in the places of the formals. -/
def opening (first : Nat) (formals : List Slot) : Env Ty :=
  instantiation formals ((formalVars first formals).map .var)

/-- The constraints that arguments put on the variables: each implements its target. -/
def flows (first : Nat) (formals : List Slot) (actuals targets : List Ty) : List Constraint :=
  List.zipWith (fun actual target =>
    Constraint.subtype (actualType actual) (Ty.subst (opening first formals) target)) actuals targets

/-- What a solution gives for the formals. -/
def solution (σ : VarSubst) (first : Nat) (formals : List Slot) : List Ty :=
  (formalVars first formals).map fun v => (Ty.var v).assign σ

/-- How inference reads a bound: with the variables in the places of the formals, with what they stand
for in their places, and with the solution in the places of formals again. -/
def readBound (σ : VarSubst) (first : Nat) (formals : List Slot) (bound : Ty) : Ty :=
  ((bound.subst (opening first formals)).assign σ).subst
    (instantiation formals (solution σ first formals))

@[simp] theorem length_formalVars (first : Nat) (formals : List Slot) :
    (formalVars first formals).length = formals.length := by
  simp [formalVars]

@[simp] theorem length_solution (σ : VarSubst) (first : Nat) (formals : List Slot) :
    (solution σ first formals).length = formals.length := by
  simp [solution]

variable {C : Checker} {Δ : Bounds} {first : Nat} {formals : List Slot} {actuals targets : List Ty}
  {whole : Expr} {σ : VarSubst}

/-- A solution that leaves no variable open is read off. -/
theorem solvedVars_eq_ok {vs : List Nat} (h : ∀ v ∈ vs, ((Ty.var v).assign σ).hasVars = false) :
    solvedVars σ vs = .ok (vs.map fun v => (Ty.var v).assign σ) := by
  induction vs with
  | nil => rfl
  | cons v vs ih =>
    obtain ⟨hv, h⟩ := List.forall_mem_cons.1 h
    rw [solvedVars, hv, ih h]
    rfl

theorem solutionsWithin_eq_ok {found : List (Nat × Ty × Ty)} :
    C.solutionsWithin Δ whole found = .ok ()
      ↔ ∀ e ∈ found, C.table.implements C.fuel Δ e.2.1 e.2.2 = .ok true := by
  induction found with
  | nil => simp [solutionsWithin]
  | cons e found ih =>
    obtain ⟨v, t, bound⟩ := e
    rw [solutionsWithin, List.forall_mem_cons, ← ih]
    cases C.table.implements C.fuel Δ t bound with
    | ok b => cases b <;> simp
    | error e => simp
    | unfinished => simp

/-- Three lists in step. -/
theorem forall_mem_zip_zip {α β γ : Type} {as : List α} {bs : List β} {cs : List γ}
    (h : as.length = bs.length) {P : β → γ → Prop} :
    (∀ e ∈ as.zip (bs.zip cs), P e.2.1 e.2.2) ↔ ∀ e ∈ bs.zip cs, P e.1 e.2 := by
  induction as generalizing bs cs with
  | nil =>
    obtain rfl := List.length_eq_zero_iff.1 h.symm
    simp
  | cons a as ih =>
    cases bs with
    | nil => simp at h
    | cons b bs =>
      cases cs with
      | nil => simp
      | cons c cs =>
        simp only [List.zip_cons_cons, List.forall_mem_cons]
        exact and_congr_right fun _ => ih (by simpa using h)

/-- The types found implement bounds that are read off their formals. -/
theorem solutionsWithin_zip {ts : List Ty} (hts : ts.length = formals.length) (read : Ty → Ty) :
    C.solutionsWithin Δ whole
        ((formalVars first formals).zip (ts.zip (formals.map fun f => read f.ty))) = .ok ()
      ↔ ∀ e ∈ ts.zip formals, C.table.implements C.fuel Δ e.1 (read e.2.ty) = .ok true := by
  rw [solutionsWithin_eq_ok,
    forall_mem_zip_zip (P := fun t bound => C.table.implements C.fuel Δ t bound = .ok true)
      (by simp [hts]), List.zip_map_right, List.forall_mem_map]
  rfl

/-- Once the constraints are solved, the bounds decide. -/
theorem solveFormals_eq_ok
    (hsolve : Unifier.solve ⟨C.table, Δ, C.fuel⟩ C.fuel (flows first formals actuals targets) = .ok σ)
    (hsolved : ∀ t ∈ solution σ first formals, t.hasVars = false) {ts : List Ty} :
    C.solveFormals Δ first formals actuals targets whole = .ok ts
      ↔ ts = solution σ first formals ∧ ∀ e ∈ (solution σ first formals).zip formals,
          C.table.implements C.fuel Δ e.1 (readBound σ first formals e.2.ty) = .ok true := by
  have hread : solvedVars σ (formalVars first formals) = .ok (solution σ first formals) :=
    solvedVars_eq_ok (List.forall_mem_map.1 hsolved)
  have hrun : C.solveFormals Δ first formals actuals targets whole
      = (C.solutionsWithin Δ whole ((formalVars first formals).zip ((solution σ first formals).zip
          (formals.map fun f => readBound σ first formals f.ty)))
        >>= fun _ => .ok (solution σ first formals)) := by
    rw [solveFormals]
    change ((Unifier.solve ⟨C.table, Δ, C.fuel⟩ C.fuel
      (flows first formals actuals targets)).mapError _ >>= _) = _
    rw [hsolve, Answer.mapError_ok, Answer.ok_bind]
    change ((Answer.ofExcept (solvedVars σ (formalVars first formals))).mapError _ >>= _) = _
    rw [hread, Answer.ofExcept_ok, Answer.mapError_ok, Answer.ok_bind]
    rfl
  rw [hrun, Answer.bind_eq_ok, ← solutionsWithin_zip (length_solution σ first formals)]
  constructor
  · rintro ⟨⟨⟩, hok, hts⟩
    exact ⟨(Answer.ok.inj hts).symm, hok⟩
  · rintro ⟨rfl, hok⟩
    exact ⟨(), hok, rfl⟩

end Checker

/-! ## Both ways come to one bound -/

/-- What stands for a formal once types are assigned in the arguments. -/
theorem lookup_instantiation_assign (σ : VarSubst) (formals : List Slot) (args : List Ty) (a : String) :
    ((instantiation formals args).lookup a).assign σ
      = (instantiation formals (args.map (Ty.assign σ))).lookup a := by
  rw [Env.lookup, Env.lookup, find?_instantiation_map]
  cases (instantiation formals args).find? a <;> simp

/-- What stands for a formal after the variables are solved. -/
theorem Checker.lookup_opening (σ : VarSubst) (first : Nat) (formals : List Slot) (a : String) :
    ((opening first formals).lookup a).assign σ
      = (instantiation formals (solution σ first formals)).lookup a := by
  rw [opening, lookup_instantiation_assign, List.map_map]
  rfl

/-- A bound that inference has read is the bound with the solution in the places of the formals. -/
theorem Checker.readBound_eq {σ : VarSubst} {first : Nat} {formals : List Slot} {t : Ty}
    (hvars : t.hasVars = false)
    (ht : (instantiation formals (solution σ first formals)).Avoids t.binders)
    (hentries : ∀ x ∈ solution σ first formals,
      (instantiation formals (solution σ first formals)).Avoids x.binders)
    (hself : ∀ b ∈ t.freeParams,
      ∀ a ∈ ((instantiation formals (solution σ first formals)).lookup b).freeParams,
        (instantiation formals (solution σ first formals)).lookup a = .param a) :
    readBound σ first formals t = t.subst (instantiation formals (solution σ first formals)) := by
  have hopening : t.Undisturbed (opening first formals) := by
    apply Ty.undisturbed_of_avoids
    intro a x hx q hq
    obtain ⟨v, -, rfl⟩ := List.mem_map.1 (List.of_mem_zip (Env.mem_of_find? hx)).2
    exact absurd hq List.not_mem_nil
  have hnone : ∀ v ∈ t.vars, σ.lookup v = .var v :=
    fun v hv => absurd hv (Ty.hasVars_eq_false.1 hvars ▸ Finset.notMem_empty v)
  rw [readBound, hopening.assign_subst (Ty.undisturbed_of_avoids ht) hnone
    fun a _ => lookup_opening σ first formals a]
  apply Ty.subst_subst_self ht _ hself
  exact fun a x hx => hentries x (List.of_mem_zip (Env.mem_of_find? hx)).2

/-- **Inference checks bounds as an explicit call does**: with the constraints solved, it finds the
solution if and only if each type in it implements its bound with the whole solution in the places of
the formals. The names of the caller's type parameters do not matter, if one that stands in the argument
for a formal that a bound mentions is no other formal, and none is bound below a bound or an argument. -/
theorem Checker.solveFormals_eq_ok_iff {C : Checker} {Δ : Bounds} {first : Nat} {formals : List Slot}
    {actuals targets : List Ty} {whole : Expr} {σ : VarSubst}
    (hsolve : Unifier.solve ⟨C.table, Δ, C.fuel⟩ C.fuel (flows first formals actuals targets) = .ok σ)
    (hsolved : ∀ t ∈ solution σ first formals, t.hasVars = false)
    (hbounds : ∀ f ∈ formals, f.ty.hasVars = false)
    (hself : ∀ f ∈ formals, ∀ b ∈ f.ty.freeParams,
      ∀ a ∈ ((instantiation formals (solution σ first formals)).lookup b).freeParams,
        (instantiation formals (solution σ first formals)).lookup a = .param a)
    (hapart : ∀ t ∈ formals.map (·.ty) ++ solution σ first formals,
      (instantiation formals (solution σ first formals)).Avoids t.binders) :
    C.solveFormals Δ first formals actuals targets whole = .ok (solution σ first formals)
      ↔ ∀ e ∈ (solution σ first formals).zip formals, C.table.implements C.fuel Δ e.1
          (e.2.ty.subst (instantiation formals (solution σ first formals))) = .ok true := by
  rw [solveFormals_eq_ok hsolve hsolved]
  refine (and_iff_right rfl).trans (forall₂_congr fun e he => ?_)
  have hf : e.2 ∈ formals := (List.of_mem_zip he).2
  rw [readBound_eq (hbounds e.2 hf) _ _ (hself e.2 hf)]
  · exact hapart _ (List.mem_append_left _ (List.mem_map_of_mem hf))
  · exact fun x hx => hapart x (List.mem_append_right _ hx)

/-! ## A bound that mentions a formal -/

/-- The method `call(a Any, b Fooer(a))(x a, y b)`, where `Fooer(a)` has a method of result `a`, as
`K(a)` does. -/
def shadowing : List Decl :=
  [.type ⟨"Any", [], .anything⟩,
    .type ⟨"Fooer", [⟨"r", .named "Any" []⟩], .interface [.method ⟨"foo", [], [], .param "r"⟩]⟩,
    .type ⟨"K", [⟨"c", .named "Any" []⟩], .struct [⟨"value", .param "c"⟩]⟩,
    .method ⟨"k", "K", [⟨"c", .named "Any" []⟩], ⟨"foo", [], [], .param "c"⟩,
      .select (.var "k") "value"⟩,
    .type ⟨"S", [], .struct []⟩,
    .method ⟨"s", "S", [], ⟨"call", [⟨"a", .named "Any" []⟩, ⟨"b", .named "Fooer" [.param "a"]⟩],
      [⟨"x", .param "a"⟩, ⟨"y", .param "b"⟩], .named "Any" []⟩, .var "x"⟩]

namespace Shadowing

/-- The formals of `call`. -/
def formals : List Slot := [⟨"a", .named "Any" []⟩, ⟨"b", .named "Fooer" [.param "a"]⟩]

/-- The types of `p` and `K(p){p}`, for a value `p` of the caller's type parameter. -/
def actuals (caller : String) : List Ty := [.param caller, .named "K" [.param caller]]

/-- What these types make of the formals of `call`. -/
def found (caller : String) : VarSubst := [(0, .param caller), (1, .named "K" [.param caller])]

/-- The checks of a call of `call` by a method with one type parameter: the declarations pass, the
constraints are solved, and both types found implement their bounds. -/
def passes (caller : String) (T : Table) : Bool :=
  (Checker.checkDecls ⟨T, false, 9⟩ shadowing).any (fun _ =>
    (Unifier.solve ⟨T, [(caller, .named "Any" [])], 9⟩ 9
      (Checker.flows 0 formals (actuals caller) [.param "a", .param "b"])).any fun σ =>
        decide (σ = found caller))
  && ((Checker.solution (found caller) 0 formals).zip formals).all fun e =>
    (T.implements 9 [(caller, .named "Any" [])] e.1 (e.2.ty.subst
      (instantiation formals (Checker.solution (found caller) 0 formals)))).any id

/-- What the checks say. -/
structure Passes (caller : String) (T : Table) : Prop where
  checked : ∃ decls', Checker.checkDecls ⟨T, false, 9⟩ shadowing = .ok decls'
  solved : Unifier.solve ⟨T, [(caller, .named "Any" [])], 9⟩ 9
    (Checker.flows 0 formals (actuals caller) [.param "a", .param "b"]) = .ok (found caller)
  within : ∀ e ∈ (Checker.solution (found caller) 0 formals).zip formals,
    T.implements 9 [(caller, .named "Any" [])] e.1 (e.2.ty.subst
      (instantiation formals (Checker.solution (found caller) 0 formals))) = .ok true

theorem passes_eq_true {caller : String} {T : Table} (h : passes caller T = true) :
    Passes caller T := by
  obtain ⟨hfirst, hwithin⟩ := Bool.and_eq_true_iff.1 h
  obtain ⟨decls', hdecls, hfirst⟩ := Answer.any_eq_true.1 hfirst
  obtain ⟨σ, hσ, hfirst⟩ := Answer.any_eq_true.1 hfirst
  obtain rfl := of_decide_eq_true hfirst
  refine ⟨⟨decls', hdecls⟩, hσ, fun e he => ?_⟩
  obtain ⟨b, hb, rfl⟩ := Answer.any_eq_true.1 (List.all_eq_true.1 hwithin e he)
  exact hb

end Shadowing

/-- The caller's type parameter is named like the formal for which it stands: the call passes. -/
theorem shadowing_solveFormals : ∃ T, Table.ofDecls shadowing = .ok T ∧ Shadowing.Passes "a" T
    ∧ Checker.solveFormals ⟨T, false, 9⟩ [("a", .named "Any" [])] 0 Shadowing.formals
        (Shadowing.actuals "a") [.param "a", .param "b"] (.var "e")
      = .ok [.param "a", .named "K" [.param "a"]] := by
  have hrun : (Answer.ofExcept (Table.ofDecls shadowing)).any (Shadowing.passes "a") = true := by
    decide +kernel
  obtain ⟨T, hT, hrun⟩ := Answer.any_eq_true.1 hrun
  have hpasses := Shadowing.passes_eq_true hrun
  refine ⟨T, Answer.ofExcept_eq_ok.1 hT, hpasses, ?_⟩
  refine (Checker.solveFormals_eq_ok_iff (C := ⟨T, false, 9⟩) hpasses.solved (by decide +kernel)
    (by decide +kernel) ?_ ?_).2 hpasses.within
  · decide +kernel
  · intro t ht
    apply Env.Avoids.of_entries
    revert t
    decide +kernel

/-- The caller's type parameter is named like the other formal: the bound of `b` is read as
`Fooer(K(b))`, which `K(b)` does not implement, while it implements `Fooer(b)`. -/
theorem Shadowing.rejects : ∃ T, Table.ofDecls shadowing = .ok T ∧ Shadowing.Passes "b" T
    ∧ ∀ ts, Checker.solveFormals ⟨T, false, 9⟩ [("b", .named "Any" [])] 0 Shadowing.formals
        (Shadowing.actuals "b") [.param "a", .param "b"] (.var "e") ≠ .ok ts := by
  have hrun : (Answer.ofExcept (Table.ofDecls shadowing)).any (fun T =>
      Shadowing.passes "b" T && (T.implements 9 [("b", .named "Any" [])] (.named "K" [.param "b"])
        (.named "Fooer" [.named "K" [.param "b"]])).any (! ·)) = true := by
    decide +kernel
  obtain ⟨T, hT, hrun⟩ := Answer.any_eq_true.1 hrun
  obtain ⟨hpasses, hfails⟩ := Bool.and_eq_true_iff.1 hrun
  obtain ⟨b, hb, hfalse⟩ := Answer.any_eq_true.1 hfails
  have hpasses := Shadowing.passes_eq_true hpasses
  refine ⟨T, Answer.ofExcept_eq_ok.1 hT, hpasses, fun ts hts => ?_⟩
  have hall := ((Checker.solveFormals_eq_ok (C := ⟨T, false, 9⟩) hpasses.solved
    (by decide +kernel)).1 hts).2
  have hread : Checker.readBound (Shadowing.found "b") 0 Shadowing.formals (.named "Fooer" [.param "a"])
      = .named "Fooer" [.named "K" [.param "b"]] := by decide +kernel
  have hbound := hall (.named "K" [.param "b"], ⟨"b", .named "Fooer" [.param "a"]⟩) (by decide +kernel)
  rw [hread, hb] at hbound
  simp [Answer.ok.inj hbound] at hfalse

end FeatherGo
