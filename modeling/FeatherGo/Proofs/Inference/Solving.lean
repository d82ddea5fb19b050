import FeatherGo.Proofs.Inference.Unification
import FeatherGo.Proofs.Methods.Stable
import FeatherGo.Proofs.Typing.Uniform

/-!
# Solving settles

A subtype constraint comes down to equations, and those settle for all types: what is solved first
removes variables from the rest (`Unifier.exists_removes`). So solving settles where gathering methods
does (`Unifier.settles_solve`).

Solutions are made of parts of the types in constraints and of the signatures that these offer. A
property that passes to parts and that substitution and assignment keep therefore holds of what
solving binds variables to, if it holds of the types in the constraints (`Unifier.over_of_solve`).
-/

namespace FeatherGo

open Answer (Settles Reaches)
open Answer.Trait (settling)

namespace Unifier

open Equation

/-! ## Equations -/

/-- A finished answer to equations, which is an error or removes variables of theirs. -/
def Removes (E : List Equation) : Answer UnifyError VarSubst → Prop
  | .ok σ => Eliminates E σ
  | .error _ => True
  | .unfinished => False

theorem Removes.finished {E : List Equation} {r : Answer UnifyError VarSubst} (h : Removes E r) :
    r.Finished := by
  cases r with
  | unfinished => exact h
  | _ => trivial

theorem Removes.mono {E E' : List Equation} {r : Answer UnifyError VarSubst} (h : Removes E r)
    (hvars : vars E ⊆ vars E') : Removes E' r := by
  cases r with
  | ok σ => exact Eliminates.mono h hvars
  | _ => exact h

theorem removes_bindVar (v : Nat) (t : Ty) : Removes [(.var v, t)] (.ofExcept (bindVar v t)) := by
  rw [bindVar]
  split
  · trivial
  · rename_i h
    exact Eliminates.bind fun hv => h (Ty.occurs_eq_true.2 hv)

/-- One equation is answered on the spot, or it comes down to the equations between parts. -/
theorem solveOne_equality (a b : Ty) :
    (∃ r, Removes [(a, b)] r ∧ ∀ (U : Unifier) again, U.solveOne again (.equality a b) = r)
      ∨ ∀ (U : Unifier) again,
          U.solveOne again (.equality a b) = again (constraints (a.parts.zip b.parts)) := by
  by_cases hne : a = b
  · subst hne
    exact .inl ⟨.ok [], .nil _, fun U _ => U.solveOne_self⟩
  by_cases hvars : a.vars = ∅ ∧ b.vars = ∅
  · exact .inl ⟨.error _, trivial, fun U _ => U.solveOne_of_no_vars hne hvars.1 hvars.2⟩
  have hdecompose (U : Unifier) (again) :
      U.solveOne again (.equality a b) = U.decompose again (.equality a b) :=
    U.solveOne_of_vars hne (not_and_or.1 hvars)
  simp only [hdecompose]
  by_cases hva : ∃ v, a = .var v
  · obtain ⟨v, rfl⟩ := hva
    exact .inl ⟨_, removes_bindVar v b, fun _ _ => rfl⟩
  by_cases hvb : ∃ v, b = .var v
  · obtain ⟨v, rfl⟩ := hvb
    refine .inl ⟨_, (removes_bindVar v a).mono (vars_swap _ a).subset, fun _ _ => ?_⟩
    cases a with
    | var w => exact absurd ⟨w, rfl⟩ hva
    | _ => rfl
  by_cases halike : a.Alike b
  · exact .inr fun U _ => U.decompose_of_alike halike
  · exact .inl ⟨.error _, trivial, fun U _ =>
      U.decompose_of_not_alike (fun v h => hva ⟨v, h⟩) (fun v h => hvb ⟨v, h⟩) halike⟩

/-- **Equations are answered for good** with enough fuel, by any solvers. -/
theorem exists_removes (U : Nat → Unifier) (E : List Equation) :
    ∃ r, Removes E r ∧ Reaches (fun n => (U n).solve n (constraints E)) r := by
  match E with
  | [] => exact ⟨.ok [], .nil [], 0, fun n _ => by cases n <;> rfl⟩
  | (a, b) :: E =>
    have hfirst : ∃ r, Removes [(a, b)] r
        ∧ Reaches (fun n => (U (n + 1)).solveOne ((U (n + 1)).solve n) (.equality a b)) r := by
      rcases solveOne_equality a b with ⟨r, hr, h⟩ | h
      · exact ⟨r, hr, 0, fun n _ => h _ _⟩
      · have hvars := vars_parts_subset a b
        have hsize := size_parts_lt a b
        obtain ⟨r, hr, hparts⟩ := exists_removes (fun n => U (n + 1)) (a.parts.zip b.parts)
        exact ⟨r, hr.mono hvars, by simpa only [h] using hparts⟩
    obtain ⟨r, hr, hfirst⟩ := hfirst
    cases r with
    | unfinished => exact hr.elim
    | error c => exact ⟨.error c, trivial, .succ hfirst.bind_error⟩
    | ok σ =>
      have hσ : Eliminates [(a, b)] σ := hr
      have hsmaller := hσ.later_smaller E
      obtain ⟨r, hr, hlater⟩ := exists_removes (fun n => U (n + 1)) (E.map (Equation.assign σ))
      rw [constraints_map_assign] at hlater
      cases r with
      | unfinished => exact hr.elim
      | error c => exact ⟨.error c, trivial, .succ (hfirst.bind hlater.bind_error)⟩
      | ok outer =>
        obtain ⟨ρ, hρ, hel, -⟩ := compose_eliminates hσ hr
        exact ⟨.ok ρ, hel, .succ (hfirst.bind (hlater.bind ⟨0, fun n _ => hρ _⟩))⟩
termination_by ((vars E).card, size E)
decreasing_by
  · have hsub : vars [(a, b)] ⊆ vars ((a, b) :: E) := vars_mono (by simp)
    have hle := Finset.card_le_card (hvars.trans hsub)
    refine Prod.Lex.right' _ hle (Nat.lt_of_lt_of_le hsize ?_)
    simp [size]
  · rcases hsmaller with hlt | ⟨hle, hlt⟩
    · exact .left _ _ hlt
    · exact .right' _ hle hlt

theorem settles_equations (U : Nat → Unifier) (E : List Equation) :
    Settles fun n => (U n).solve n (constraints E) := by
  obtain ⟨r, hr, h⟩ := exists_removes U E
  exact ⟨r, hr.finished, h⟩

/-! ## Constraints -/

theorem constraints_append (E E' : List Equation) :
    constraints E ++ constraints E' = constraints (E ++ E') := by
  simp [constraints]

theorem zipWith_equality (as bs : List Ty) :
    List.zipWith Constraint.equality as bs = constraints (as.zip bs) := by
  simp [constraints, List.zip, List.map_zipWith]

/-- Two types without variables, of which the one implements the other. -/
def Implied (U : Unifier) (a b : Ty) : Prop :=
  a.hasVars = false ∧ b.hasVars = false ∧ U.table.implements U.fuel U.bounds a b = .ok true

theorem implements_eq_ok {U : Unifier} {a b : Ty} {r : Bool} :
    U.implements a b = .ok r ↔ U.table.implements U.fuel U.bounds a b = .ok r := by
  rw [implements]
  cases U.table.implements U.fuel U.bounds a b <;> simp

/-- Arguments of one name come down to equations between them, but for those of which the one implements
the other already. -/
theorem exists_of_argumentConstraints {U : Unifier} {c : Constraint} {as bs : List Ty}
    {cs : List Constraint} (h : U.argumentConstraints c as bs = .ok cs) :
    ∃ E, cs = constraints E ∧ E ⊆ as.zip bs
      ∧ ∀ e ∈ as.zip bs, e ∈ E ∨ c.isSubtype = true ∧ U.Implied e.1 e.2 := by
  have hnil {ls rs : List Ty} (h : ls.zip rs = []) :
      ∃ E, [] = constraints E ∧ E ⊆ ls.zip rs
        ∧ ∀ e ∈ ls.zip rs, e ∈ E ∨ c.isSubtype = true ∧ U.Implied e.1 e.2 :=
    ⟨[], rfl, List.nil_subset _, fun e he => by simp [h] at he⟩
  induction as generalizing bs cs with
  | nil =>
    obtain rfl : [] = cs := by cases bs <;> exact Answer.ok.inj h
    exact hnil rfl
  | cons a as ih =>
    cases bs with
    | nil =>
      obtain rfl : [] = cs := Answer.ok.inj h
      exact hnil rfl
    | cons b bs =>
      simp only [argumentConstraints] at h
      split at h
      · rename_i hcond
        obtain ⟨ok, hok, h⟩ := Answer.bind_eq_ok.1 h
        cases ok with
        | true =>
          obtain ⟨E, rfl, hE, hrest⟩ := ih h
          simp only [Bool.and_eq_true, Bool.not_eq_true'] at hcond
          refine ⟨E, rfl, List.subset_cons_of_subset _ hE, List.forall_mem_cons.2 ⟨?_, hrest⟩⟩
          exact .inr ⟨hcond.1.1, hcond.1.2, hcond.2, implements_eq_ok.1 hok⟩
        | false => cases h
      · obtain ⟨rest, hrest, h⟩ := Answer.bind_eq_ok.1 h
        obtain ⟨E, rfl, hE, hrest⟩ := ih hrest
        obtain rfl := Answer.ok.inj h
        refine ⟨(a, b) :: E, rfl, List.cons_subset_cons _ hE, List.forall_mem_cons.2 ?_⟩
        exact ⟨.inl List.mem_cons_self, fun e he => (hrest e he).imp_left (List.mem_cons_of_mem _)⟩

/-- Two signatures of one shape come down to equations between their types, renamed canonically. -/
theorem exists_of_signatureConstraints {o s : Signature} {cs : List Constraint}
    (h : signatureConstraints o s = .ok cs) :
    cs = constraints (o.canonical.types.zip s.canonical.types)
      ∧ o.formals.length = s.formals.length ∧ o.params.length = s.params.length := by
  rw [signatureConstraints] at h
  split at h
  · rename_i hlength
    obtain rfl := Except.ok.inj h
    exact ⟨zipWith_equality _ _, hlength⟩
  · cases h

/-- Equations between the types of signatures, renamed canonically, of the same names and shapes. -/
structure Matches (S W : MethodSet) (E : List Equation) : Prop where
  pairs : ∀ e ∈ E, ∃ o ∈ S, ∃ s ∈ W, e.1 ∈ o.canonical.types ∧ e.2 ∈ s.canonical.types
  found : ∀ s ∈ W, ∃ o, S.find? s.name = some o ∧ o.formals.length = s.formals.length
    ∧ o.params.length = s.params.length ∧ o.canonical.types.zip s.canonical.types ⊆ E

/-- Two method sets come down to equations between types of their signatures. -/
theorem exists_of_methodConstraints {sub : Ty} {offered wanted : MethodSet} {cs : List Constraint}
    (h : methodConstraints sub offered wanted = .ok cs) :
    ∃ E : List Equation, cs = constraints E ∧ Matches offered wanted E := by
  induction wanted generalizing cs with
  | nil => exact ⟨[], (Except.ok.inj h).symm, List.forall_mem_nil _, List.forall_mem_nil _⟩
  | cons s wanted ih =>
    simp only [methodConstraints] at h
    split at h
    · cases h
    · rename_i o ho
      obtain ⟨here, hhere, h⟩ := except_bind_eq_ok.1 h
      obtain ⟨rest, hrest, h⟩ := except_bind_eq_ok.1 h
      obtain ⟨rfl, hshape⟩ := exists_of_signatureConstraints hhere
      obtain ⟨E, rfl, hpairs, hfound⟩ := ih hrest
      obtain rfl := Except.ok.inj h
      refine ⟨_, constraints_append _ _, fun e he => ?_, List.forall_mem_cons.2 ⟨?_, fun s' hs' => ?_⟩⟩
      · rcases List.mem_append.1 he with he | he
        · exact ⟨o, (MethodSet.mem_of_find? ho).1, s, List.mem_cons_self,
            (List.of_mem_zip he).1, (List.of_mem_zip he).2⟩
        · obtain ⟨o, ho, s', hs', he⟩ := hpairs e he
          exact ⟨o, ho, s', List.mem_cons_of_mem _ hs', he⟩
      · exact ⟨o, ho, hshape.1, hshape.2, List.subset_append_left _ _⟩
      · obtain ⟨o', ho', hformals, hparams, hsub⟩ := hfound s' hs'
        exact ⟨o', ho', hformals, hparams, List.subset_append_of_subset_right _ hsub⟩

/-- How a constraint between different types comes down to equations: between the fields of structs, the
arguments of one name, or the signatures of an interface and of what should implement it. -/
inductive Reduces (U : Unifier) (c : Constraint) : List Equation → Prop
  | fields {fs gs : List Slot} (sides : c.sides = (.struct fs, .struct gs))
      (names : fs.map (·.name) = gs.map (·.name)) :
    Reduces U c ((fs.map (·.ty)).zip (gs.map (·.ty)))
  | arguments {d : String} {as bs : List Ty} {E : List Equation}
      (sides : c.sides = (.named d as, .named d bs)) (length : as.length = bs.length)
      (pairs : E ⊆ as.zip bs)
      (rest : ∀ e ∈ as.zip bs, e ∈ E ∨ c.isSubtype = true ∧ U.Implied e.1 e.2) : Reduces U c E
  | methods {S W : MethodSet} {E : List Equation} (subtype : c.isSubtype = true)
      (vars : ∀ v, c.sides.1 ≠ .var v) (interface : U.table.isInterface c.sides.2 = .ok true)
      (offered : U.table.methods U.bounds U.fuel c.sides.1 = .ok S)
      (wanted : U.table.methods U.bounds U.fuel c.sides.2 = .ok W) (matched : Matches S W E) :
    Reduces U c E

/-- A constraint is solved by binding a variable, or as the equations that it comes down to. -/
theorem of_decompose {U : Unifier} {again : List Constraint → Answer UnifyError VarSubst}
    {c : Constraint} {σ : VarSubst} (h : U.decompose again c = .ok σ) :
    (∃ v t, (c.sides = (.var v, t) ∨ c.sides = (t, .var v)) ∧ bindVar v t = .ok σ)
      ∨ ∃ E, U.Reduces c E ∧ again (constraints E) = .ok σ := by
  simp only [decompose] at h
  split at h
  · rename_i v t hsides
    exact .inl ⟨v, t, .inl hsides, Answer.ofExcept_eq_ok.1 h⟩
  · rename_i t v _ hsides
    exact .inl ⟨v, t, .inr hsides, Answer.ofExcept_eq_ok.1 h⟩
  · rename_i fs gs hsides
    split at h
    · rename_i hnames
      rw [zipWith_equality] at h
      exact .inr ⟨_, .fields hsides hnames, h⟩
    · cases h
  · rename_i sub sup hvar _ _ hsides
    split at h
    · rename_i hhead
      split at h
      · rename_i hlength
        obtain ⟨cs, hcs, h⟩ := Answer.bind_eq_ok.1 h
        obtain ⟨E, rfl, hE, hrest⟩ := exists_of_argumentConstraints hcs
        refine .inr ⟨E, ?_, h⟩
        obtain ⟨hsome, heq⟩ := hhead
        cases sub with
        | named d as =>
          cases sup with
          | named e bs =>
            obtain rfl : d = e := by simpa [Ty.head?] using heq
            exact .arguments hsides hlength hE hrest
          | _ => simp [Ty.head?] at heq
        | _ => simp [Ty.head?] at hsome
      · cases h
    · split at h
      · rename_i hsubtype
        obtain ⟨b, hb, h⟩ := Answer.bind_eq_ok.1 h
        split at h
        · rename_i htrue
          obtain ⟨wanted, hwanted, h⟩ := Answer.bind_eq_ok.1 h
          obtain ⟨offered, hoffered, h⟩ := Answer.bind_eq_ok.1 h
          obtain ⟨cs, hcs, h⟩ := Answer.bind_eq_ok.1 h
          obtain ⟨E, rfl, hE⟩ := exists_of_methodConstraints (Answer.ofExcept_eq_ok.1 hcs)
          have hb := Answer.ofExcept_eq_ok.1 (Answer.mapError_eq_ok.1 hb)
          refine .inr ⟨E, .methods hsubtype ?_ ?_ ?_ ?_ hE, h⟩
          · rw [hsides]
            exact hvar
          · rw [hsides, hb, htrue]
          · rw [hsides]
            exact Answer.mapError_eq_ok.1 hoffered
          · rw [hsides]
            exact Answer.mapError_eq_ok.1 hwanted
        · cases h
      · cases h

/-- A constraint holds as it stands, or one of its sides has variables. -/
theorem of_solveOne {U : Unifier} {again : List Constraint → Answer UnifyError VarSubst}
    {c : Constraint} {σ : VarSubst} (h : U.solveOne again c = .ok σ) :
    (c.sides.1 = c.sides.2 ∨ c.isSubtype = true ∧ U.Implied c.sides.1 c.sides.2) ∧ σ = []
      ∨ U.decompose again c = .ok σ := by
  simp only [solveOne] at h
  split at h
  · rename_i heq
    exact .inl ⟨.inl heq, (Answer.ok.inj h).symm⟩
  · split at h
    · exact .inr h
    · rename_i hvars
      rw [Bool.not_eq_true, Bool.or_eq_false_iff] at hvars
      split at h
      · rename_i hsubtype
        obtain ⟨b, hb, h⟩ := Answer.bind_eq_ok.1 h
        cases b with
        | true =>
          exact .inl ⟨.inr ⟨hsubtype, hvars.1, hvars.2, implements_eq_ok.1 hb⟩, (Answer.ok.inj h).symm⟩
        | false => cases h
      · cases h

section

variable {T : Table} {Δ : Bounds} {fuel : Nat → Nat}
variable (hm : ∀ t, Settles fun n => T.methods Δ (fuel n) t)

include hm

theorem settles_implements (t u : Ty) :
    Settles fun n => (⟨T, Δ, fuel n⟩ : Unifier).implements t u :=
  (settling.implementsBy (fun _ => .refl T) (hm t) (hm u)).mapError _

theorem settles_merge (σ outer : VarSubst) :
    Settles fun n => (⟨T, Δ, fuel n⟩ : Unifier).merge σ outer := by
  induction outer generalizing σ with
  | nil => exact .ok σ
  | cons b outer ih =>
    obtain ⟨v, t⟩ := b
    simp only [merge]
    split
    · exact ih _
    · rename_i u hu
      refine settling.ite (ih _) (settling.bind (settles_implements hm u t) fun b => ?_)
      refine settling.ite (ih _) (settling.bind (settles_implements hm t u) fun b => ?_)
      exact settling.ite (ih _) (.error _)

theorem settles_argumentConstraints (c : Constraint) (as bs : List Ty) :
    Settles fun n => (⟨T, Δ, fuel n⟩ : Unifier).argumentConstraints c as bs := by
  induction as generalizing bs with
  | nil => cases bs <;> exact .ok _
  | cons a as ih =>
    cases bs with
    | nil => exact .ok _
    | cons b bs =>
      refine settling.ite ?_ (settling.bind (ih bs) fun _ => .ok _)
      exact settling.bind (settles_implements hm a b) fun _ => settling.ite (ih bs) (.error _)

/-- A constraint that comes down to equations settles if they do. -/
theorem settles_decompose {again : Nat → List Constraint → Answer UnifyError VarSubst}
    (h : ∀ E, Settles fun n => again n (constraints E)) (c : Constraint) :
    Settles fun n => (⟨T, Δ, fuel n⟩ : Unifier).decompose (again n) c := by
  have hnamed (as bs : List Ty) : Settles fun n =>
      (⟨T, Δ, fuel n⟩ : Unifier).argumentConstraints c as bs >>= again n := by
    refine .bind (settles_argumentConstraints hm c as bs) fun cs hcs => ?_
    obtain ⟨n, hn⟩ := hcs
    obtain ⟨E, rfl, -, -⟩ := exists_of_argumentConstraints (hn n (Nat.le_refl n))
    exact h E
  have hmethods (sub : Ty) (offered wanted : MethodSet) : Settles fun n =>
      Answer.ofExcept (methodConstraints sub offered wanted) >>= again n := by
    refine .bind (settling.ofExcept _) fun cs hcs => ?_
    obtain ⟨E, rfl, -⟩ := exists_of_methodConstraints (Answer.ofExcept_eq_ok.1 hcs.eq_of_const)
    exact h E
  simp only [decompose]
  split
  · exact settling.ofExcept _
  · exact settling.ofExcept _
  · refine settling.ite ?_ (.error _)
    rw [zipWith_equality]
    exact h _
  · refine settling.ite (settling.ite (hnamed _ _) (.error _)) (settling.ite ?_ (.error _))
    refine settling.bind ((settling.ofExcept _).mapError _) fun b => settling.ite ?_ (.error _)
    exact settling.bind ((hm _).mapError _) fun wanted =>
      settling.bind ((hm _).mapError _) fun offered => hmethods _ offered wanted

theorem settles_solveOne {again : Nat → List Constraint → Answer UnifyError VarSubst}
    (h : ∀ E, Settles fun n => again n (constraints E)) (c : Constraint) :
    Settles fun n => (⟨T, Δ, fuel n⟩ : Unifier).solveOne (again n) c := by
  refine settling.ite (.ok _) (settling.ite (settles_decompose hm h c) (settling.ite ?_ (.error _)))
  exact settling.bind (settles_implements hm _ _) fun b => settling.ite (.ok _) (.error _)

/-- **Solving settles** where gathering methods does. -/
theorem settles_solve (cs : List Constraint) :
    Settles fun n => (⟨T, Δ, fuel n⟩ : Unifier).solve n cs := by
  induction hl : cs.length generalizing cs fuel with
  | zero =>
    obtain rfl := List.length_eq_zero_iff.1 hl
    exact ⟨.ok [], trivial, 0, fun n _ => by cases n <;> rfl⟩
  | succ k ih =>
    obtain ⟨c, cs, rfl⟩ := List.exists_cons_of_length_eq_add_one hl
    have hm' (t : Ty) : Settles fun n => T.methods Δ (fuel (n + 1)) t := (hm t).shift 1
    refine .succ ?_
    refine settling.bind (settles_solveOne hm' (settles_equations _) c) fun first => ?_
    refine settling.bind (ih hm' _ (by simpa using hl)) fun later => ?_
    exact settles_merge hm' _ later

end

end Unifier

/-! ## What solutions are made of -/

/-- A hereditary property that holds of type parameters and of inference variables, and that
assignment keeps. -/
structure Ty.Assignable (P : Ty → Prop) : Prop extends Ty.Hereditary P where
  param : ∀ p, P (.param p)
  var : ∀ v, P (.var v)
  assign : ∀ {t σ}, P t → (∀ v u, VarSubst.find? σ v = some u → P u) → P (t.assign σ)

/-- Variables are bound to types with a property. -/
def VarSubst.Over (P : Ty → Prop) (σ : VarSubst) : Prop := ∀ b ∈ σ, P b.2

/-- Both types of a constraint have a property. -/
def Constraint.Over (P : Ty → Prop) (c : Constraint) : Prop := P c.sides.1 ∧ P c.sides.2

variable {P : Ty → Prop}

namespace VarSubst.Over

variable {σ : VarSubst}

theorem assign (hP : Ty.Assignable P) (hσ : σ.Over P) {t : Ty} (ht : P t) : P (t.assign σ) :=
  hP.assign ht fun _ _ h => hσ _ (mem_of_find? h)

theorem insert (hσ : σ.Over P) {v : Nat} {t : Ty} (ht : P t) : Over P (insert v t σ) := by
  intro b hb
  rcases mem_insert hb with rfl | hb
  · exact ht
  · exact hσ b hb

end VarSubst.Over

theorem Constraint.Over.assign (hP : Ty.Assignable P) {σ : VarSubst} (hσ : σ.Over P)
    {c : Constraint} (hc : c.Over P) : (c.assign σ).Over P := by
  cases c <;> exact ⟨hσ.assign hP hc.1, hσ.assign hP hc.2⟩

/-- The types of a signature that is renamed canonically. -/
theorem Ty.Assignable.canonical (hP : Ty.Assignable P) {s : Signature} (hs : P s.alone) :
    ∀ t ∈ s.canonical.types, P t := by
  intro t ht
  rw [Signature.types_canonical] at ht
  obtain ⟨u, hu, rfl⟩ := List.mem_map.1 ht
  refine hP.subst (hP.of_alone hs hu) fun a x hx => ?_
  obtain ⟨q, rfl⟩ := Signature.isRenaming_relabelling _ _ a x hx
  exact hP.param q

namespace Unifier

open Equation

variable {U : Unifier} {σ : VarSubst}

theorem over_of_merge {outer ρ : VarSubst} (hσ : σ.Over P) (ho : outer.Over P)
    (h : U.merge σ outer = .ok ρ) : ρ.Over P := by
  induction outer generalizing σ with
  | nil => exact Answer.ok.inj h ▸ hσ
  | cons b outer ih =>
    obtain ⟨v, t⟩ := b
    obtain ⟨ht, ho⟩ := List.forall_mem_cons.1 ho
    simp only [merge] at h
    split at h
    · exact ih (hσ.insert ht) ho h
    · split at h
      · exact ih hσ ho h
      · obtain ⟨b, -, h⟩ := Answer.bind_eq_ok.1 h
        split at h
        · exact ih (hσ.insert ht) ho h
        · obtain ⟨b, -, h⟩ := Answer.bind_eq_ok.1 h
          split at h
          · exact ih hσ ho h
          · cases h

theorem over_of_compose (hP : Ty.Assignable P) {inner outer ρ : VarSubst} (hi : inner.Over P)
    (ho : outer.Over P) (h : U.compose outer inner = .ok ρ) : ρ.Over P := by
  refine over_of_merge (fun b hb => ?_) ho h
  obtain ⟨c, hc, rfl⟩ := List.mem_map.1 hb
  exact ho.assign hP (hi c hc)

theorem over_of_bindVar {v : Nat} {t : Ty} (ht : P t) (h : bindVar v t = .ok σ) : σ.Over P := by
  rw [bindVar] at h
  split at h
  · cases h
  · obtain rfl := Except.ok.inj h
    exact List.forall_mem_singleton.2 ht

/-- The signatures that a type with a property offers have canonical types with it. -/
def Offers (U : Unifier) (P : Ty → Prop) : Prop :=
  ∀ t S, P t → U.table.methods U.bounds U.fuel t = .ok S → ∀ s ∈ S, ∀ u ∈ s.canonical.types, P u

theorem offers_of_stable (hP : Ty.Assignable P) (hT : U.table.Stable U.bounds P) : U.Offers P :=
  fun _ _ ht hS s hs => hP.canonical (hT.of_methods ht hS s hs)

/-- A property that passes to parts and to signatures passes to the equations that a constraint comes
down to. -/
theorem Reduces.over {c : Constraint} {E : List Equation} (h : U.Reduces c E)
    (hpart : ∀ {t a}, P t → a ∈ t.parts → P a) (hU : U.Offers P) (hc : c.Over P) :
    ∀ e ∈ E, P e.1 ∧ P e.2 := by
  obtain ⟨hl, hr⟩ := hc
  have hzip {as bs : List Ty} (ha : as = c.sides.1.parts) (hb : bs = c.sides.2.parts) {e : Equation}
      (he : e ∈ as.zip bs) : P e.1 ∧ P e.2 := by
    subst ha hb
    exact ⟨hpart hl (List.of_mem_zip he).1, hpart hr (List.of_mem_zip he).2⟩
  intro e he
  cases h with
  | fields sides _ => exact hzip (by rw [sides]; rfl) (by rw [sides]; rfl) he
  | arguments sides _ pairs _ => exact hzip (by rw [sides]; rfl) (by rw [sides]; rfl) (pairs he)
  | methods _ _ _ offered wanted matched =>
    obtain ⟨o, ho, s, hs, heo, hes⟩ := matched.pairs e he
    exact ⟨hU _ _ hl offered o ho _ heo, hU _ _ hr wanted s hs _ hes⟩

theorem over_of_solveOne (hP : Ty.Assignable P) (hU : U.Offers P)
    {again : List Constraint → Answer UnifyError VarSubst}
    (h : ∀ E, (∀ e ∈ E, P e.1 ∧ P e.2) → ∀ σ, again (constraints E) = .ok σ → σ.Over P)
    {c : Constraint} (hc : c.Over P) (hσ : U.solveOne again c = .ok σ) : σ.Over P := by
  rcases of_solveOne hσ with ⟨-, rfl⟩ | hσ
  · exact fun b hb => absurd hb List.not_mem_nil
  · rcases of_decompose hσ with ⟨v, t, hsides, hσ⟩ | ⟨E, hE, hσ⟩
    · refine over_of_bindVar ?_ hσ
      obtain ⟨hl, hr⟩ := hc
      rcases hsides with hsides | hsides
      · rwa [hsides] at hr
      · rwa [hsides] at hl
    · exact h E (hE.over hP.part hU hc) σ hσ

/-- **Solving binds variables to types of the property that the types in the constraints have.** -/
theorem over_of_solve (hP : Ty.Assignable P) (hU : U.Offers P) {n : Nat}
    {cs : List Constraint} (hcs : ∀ c ∈ cs, c.Over P) (hσ : U.solve n cs = .ok σ) : σ.Over P := by
  induction n generalizing cs σ with
  | zero =>
    cases cs with
    | nil => exact Answer.ok.inj hσ ▸ fun b hb => absurd hb List.not_mem_nil
    | cons c cs => cases hσ
  | succ n ih =>
    cases cs with
    | nil => exact Answer.ok.inj hσ ▸ fun b hb => absurd hb List.not_mem_nil
    | cons c cs =>
      obtain ⟨hc, hcs⟩ := List.forall_mem_cons.1 hcs
      obtain ⟨first, hfirst, hσ⟩ := Answer.bind_eq_ok.1 hσ
      obtain ⟨later, hlater, hσ⟩ := Answer.bind_eq_ok.1 hσ
      have hfirst : first.Over P := by
        refine over_of_solveOne hP hU (fun E hE σ h => ih (fun c hc => ?_) h) hc hfirst
        obtain ⟨e, he, rfl⟩ := List.mem_map.1 hc
        exact hE e he
      refine over_of_compose hP hfirst (ih (fun c hc => ?_) hlater) hσ
      obtain ⟨d, hd, rfl⟩ := List.mem_map.1 hc
      exact (hcs d hd).assign hP hfirst

end Unifier

end FeatherGo
