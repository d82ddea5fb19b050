import FeatherGo.Proofs.Faults
import FeatherGo.Proofs.Inference.Soundness

/-!
# Solutions are idempotent

What is solved first leaves none of its variables to the constraints after it, and is made of variables of
its own constraint. So the parts of a solution bind different variables, and composing them compares no
types: solving never ends with two types for one variable, and a solution has nothing left to do where it
has been carried out (`Unifier.solve_idempotent`).

That holds below interfaces too, whose constraints come from method sets, as long as the declarations and
the bounds write no variables: then what a type offers holds none but those of the type
(`Unifier.offers_varsIn_of_open`).
-/

namespace FeatherGo

/-- The variables that a solution speaks of: those that it binds, and those of the types that it binds
them to. -/
def VarSubst.Mentions (σ : VarSubst) (v : Nat) : Prop := ∃ b ∈ σ, v = b.1 ∨ b.2.occurs v = true

/-- A variable is in one of the two types. -/
def Constraint.Mentions (c : Constraint) (v : Nat) : Prop :=
  c.sides.1.occurs v = true ∨ c.sides.2.occurs v = true

namespace Equation

variable {E : List Equation} {σ : VarSubst}

/-- No variable that a solution binds is in a type that it binds. -/
theorem Eliminates.not_occurs (h : Eliminates E σ) {b c : Nat × Ty} (hb : b ∈ σ) (hc : c ∈ σ) :
    c.2.occurs b.1 = false := by
  refine Bool.eq_false_iff.2 fun hocc => ?_
  have hnone := (h.image (h.ordered.find?_of_mem hc) b.1 (Ty.occurs_eq_true.1 hocc)).2
  rw [h.ordered.find?_of_mem hb] at hnone
  cases hnone

theorem Eliminates.mem_vars_of_mentions (h : Eliminates E σ) {v : Nat} (hv : σ.Mentions v) :
    v ∈ vars E := by
  obtain ⟨b, hb, rfl | hocc⟩ := hv
  · exact h.binds (h.ordered.find?_of_mem hb)
  · exact (h.image (h.ordered.find?_of_mem hb) v (Ty.occurs_eq_true.1 hocc)).1

theorem mem_vars_sides {cs : List Constraint} {v : Nat} :
    v ∈ vars (cs.map Constraint.sides) ↔ ∃ c ∈ cs, c.Mentions v := by
  simp [mem_vars, Constraint.Mentions, Ty.occurs_eq_true]

end Equation

namespace Unifier

open Equation

/-! ## Variables of method sets -/

/-- Where neither the declarations nor the bounds have variables, what a type offers has none but those of
the type. -/
theorem offers_varsIn_of_open {T : Table} {Δ : Bounds} {decls : List Decl}
    (hT : Table.ofDecls decls = .ok T)
    (hopen : ∀ t ∈ decls.flatMap Decl.heads ++ Δ.map (·.2), t.hasVars = false) (fuel : Nat)
    (X : Finset Nat) : Offers ⟨T, Δ, fuel⟩ (Ty.Everywhere (Ty.VarsIn X)) := by
  have hholds {t : Ty} (ht : t ∈ decls.flatMap Decl.heads ++ Δ.map (·.2)) : t.Holds (Ty.VarsIn X) := by
    refine .of_everywhere (Ty.vars_subset_iff.1 ?_)
    rw [Ty.hasVars_eq_false.1 (hopen t ht)]
    exact Finset.empty_subset X
  have hheads {d : Decl} (hd : d ∈ decls) {t : Ty} (ht : t ∈ d.heads) : t.Holds (Ty.VarsIn X) :=
    hholds (List.mem_append_left _ (List.mem_flatMap.2 ⟨d, hd, ht⟩))
  refine offers_of_conveys (fun _ _ => nofun) (fun _ η hp ht => ht.subst hp η) ?_
  refine Ty.Holds.conveys (fun _ _ => nofun) (fun _ η hp ht => ht.subst hp η) ?_ ?_ ?_
  · intro a b hb
    exact hholds (List.mem_append_right _ (List.mem_map_of_mem (Env.mem_of_find? hb)))
  · intro c td htd
    exact hheads (Table.mem_decls_of_type? hT htd) (List.mem_singleton_self _)
  · intro md hmd
    refine hheads (Table.mem_decls_of_method hT hmd) ?_
    exact List.mem_append_right _ (List.mem_singleton_self _)

/-! ## Errors other than conflicts -/

/-- An error that does not speak of two types for one variable. -/
def NoConflict (e : UnifyError) : Prop := ∀ v t u, e ≠ .conflict v t u

theorem noConflict_type (e : TypeError) : NoConflict (.type e) := by simp [NoConflict]

theorem noConflict_mismatch (a b : Ty) : NoConflict (.mismatch a b) := by simp [NoConflict]

variable {U : Unifier}

theorem noConflict_mapError {α : Type} (x : Answer TypeError α) :
    (x.mapError UnifyError.type).OnError NoConflict :=
  .mapError fun e _ => noConflict_type e

theorem noConflict_bindVar (v : Nat) (t : Ty) : (Answer.ofExcept (bindVar v t)).OnError NoConflict := by
  rw [bindVar]
  split
  · exact .error (by simp [NoConflict])
  · exact .ok _

theorem noConflict_signatureConstraints (sub sup : Signature) :
    (Answer.ofExcept (signatureConstraints sub sup)).OnError NoConflict := by
  rw [signatureConstraints]
  split
  · exact .ok _
  · exact .error (by simp [NoConflict])

theorem noConflict_methodConstraints (sub : Ty) (offered wanted : MethodSet) :
    (Answer.ofExcept (methodConstraints sub offered wanted)).OnError NoConflict := by
  induction wanted with
  | nil => exact .ok []
  | cons s wanted ih =>
    rw [methodConstraints]
    split
    · exact .error (by simp [NoConflict])
    · rename_i o _
      refine .ofExcept_bind (noConflict_signatureConstraints o s) fun here _ => ?_
      exact .ofExcept_bind ih fun _ _ => .ok _

theorem noConflict_argumentConstraints (c : Constraint) (as bs : List Ty) :
    (U.argumentConstraints c as bs).OnError NoConflict := by
  induction as generalizing bs with
  | nil => cases bs <;> exact .ok []
  | cons a as ih =>
    cases bs with
    | nil => exact .ok []
    | cons b bs =>
      refine .ite (fun _ => .bind (noConflict_mapError _) fun _ _ => ?_) fun _ => ?_
      · exact .ite (fun _ => ih bs) fun _ => .error (noConflict_mismatch _ _)
      · exact .bind (ih bs) fun _ _ => .ok _

section

variable {again : List Constraint → Answer UnifyError VarSubst}
  (hagain : ∀ cs, (again cs).OnError NoConflict)

include hagain

theorem noConflict_decompose (c : Constraint) : (U.decompose again c).OnError NoConflict := by
  have hmismatch := noConflict_mismatch c.sides.1 c.sides.2
  simp only [decompose]
  split
  · exact noConflict_bindVar _ _
  · exact noConflict_bindVar _ _
  · exact .ite (fun _ => hagain _) fun _ => .error hmismatch
  · refine .ite (fun _ => .ite (fun _ => ?_) fun _ => .error hmismatch) fun _ => ?_
    · exact .bind (noConflict_argumentConstraints c _ _) fun cs _ => hagain cs
    · refine .ite (fun _ => .bind (noConflict_mapError _) fun _ _ => ?_) fun _ => .error hmismatch
      refine .ite (fun _ => ?_) fun _ => .error hmismatch
      refine .bind (noConflict_mapError _) fun wanted _ => ?_
      refine .bind (noConflict_mapError _) fun offered _ => ?_
      exact .bind (noConflict_methodConstraints _ offered wanted) fun cs _ => hagain cs

/-- One constraint alone gives no variable two types, if those that it comes down to do not. -/
theorem noConflict_solveOne (c : Constraint) : (U.solveOne again c).OnError NoConflict := by
  refine .ite (fun _ => .ok []) fun _ => .ite (fun _ => noConflict_decompose hagain c) fun _ => ?_
  refine .ite (fun _ => ?_) fun _ => .error (noConflict_mismatch _ _)
  refine .bind (noConflict_mapError _) fun _ _ => ?_
  exact .ite (fun _ => .ok []) fun _ => .error (noConflict_mismatch _ _)

end

/-- **Solving never meets two types for one variable**: solutions are composed whose variables are
apart. -/
theorem noConflict_solve (hU : ∀ X, U.Offers (Ty.Everywhere (Ty.VarsIn X))) (n : Nat)
    (cs : List Constraint) : (U.solve n cs).OnError NoConflict := by
  induction n generalizing cs with
  | zero =>
    cases cs with
    | nil => exact .ok []
    | cons c cs => exact .unfinished
  | succ n ih =>
    cases cs with
    | nil => exact .ok []
    | cons c cs =>
      refine .bind (noConflict_solveOne ih c) fun first hfirst => ?_
      refine .bind (ih _) fun later hlater => ?_
      have hinner := eliminates_of_solveOne hU
        (fun E σ hσ => map_sides_constraints E ▸ eliminates_of_solve hU hσ) hfirst
      have houter := eliminates_of_solve hU hlater
      rw [map_sides_assign] at houter
      obtain ⟨σ, hσ, -⟩ := compose_eliminates hinner houter
      rw [hσ U]
      exact .ok σ

/-- **Solutions are idempotent.** Over declarations and bounds without inference variables, solving ends
with no conflict, and a solution binds no variable that is in a type that it binds. So applying it twice
is applying it once. It speaks of variables of the constraints alone. -/
theorem solve_idempotent {decls : List Decl} {T : Table} {Δ : Bounds}
    (hT : Table.ofDecls decls = .ok T)
    (hopen : ∀ t ∈ decls.flatMap Decl.heads ++ Δ.map (·.2), t.hasVars = false)
    (fuel n : Nat) (cs : List Constraint) :
    (∀ v t u, solve ⟨T, Δ, fuel⟩ n cs ≠ .error (.conflict v t u))
      ∧ ∀ σ, solve ⟨T, Δ, fuel⟩ n cs = .ok σ →
        (∀ b ∈ σ, ∀ c ∈ σ, c.2.occurs b.1 = false)
          ∧ (∀ t : Ty, (t.assign σ).assign σ = t.assign σ)
          ∧ ∀ v, σ.Mentions v → ∃ c ∈ cs, c.Mentions v := by
  have hU := offers_varsIn_of_open hT hopen fuel
  refine ⟨fun v t u hconflict => noConflict_solve hU n cs _ hconflict v t u rfl, fun σ hσ => ?_⟩
  have heliminates := eliminates_of_solve hU hσ
  refine ⟨fun b hb c hc => heliminates.not_occurs hb hc, heliminates.absorbs.assign, fun v hv => ?_⟩
  exact mem_vars_sides.1 (heliminates.mem_vars_of_mentions hv)

/-- What the contents of a box are, from a method that the box has to offer; and the box. -/
theorem boxing_solve_idempotent : ∃ T σ, Table.ofDecls boxing = .ok T
    ∧ (∀ t ∈ boxing.flatMap Decl.heads ++ Boxing.context.map (·.2), t.hasVars = false)
    ∧ solve ⟨T, Boxing.context, 9⟩ 9
        [.equality (.var 1) (.named "Box" [Boxing.wrapper (.var 0)]),
          .subtype (.var 1) Boxing.unwrapped] = .ok σ
    ∧ (∀ b ∈ σ, ∀ c ∈ σ, c.2.occurs b.1 = false)
    ∧ ((Ty.var 1).assign σ).assign σ = .named "Box" [Boxing.wrapper (.param "b")]
    ∧ ¬σ.Mentions 2 := by
  have hok : (Answer.ofExcept (Table.ofDecls boxing)).any (fun T =>
      (solve ⟨T, Boxing.context, 9⟩ 9
        [.equality (.var 1) (.named "Box" [Boxing.wrapper (.var 0)]),
          .subtype (.var 1) Boxing.unwrapped]).any fun σ =>
      (Ty.var 1).assign σ == .named "Box" [Boxing.wrapper (.param "b")]) = true := by
    decide +kernel
  obtain ⟨T, hT, hok⟩ := Answer.any_eq_true.1 hok
  obtain ⟨σ, hσ, hok⟩ := Answer.any_eq_true.1 hok
  have hopen : ∀ t ∈ boxing.flatMap Decl.heads ++ Boxing.context.map (·.2), t.hasVars = false := by
    decide +kernel
  obtain ⟨-, hsolved⟩ := solve_idempotent (Answer.ofExcept_eq_ok.1 hT) hopen 9 9
    [.equality (.var 1) (.named "Box" [Boxing.wrapper (.var 0)]), .subtype (.var 1) Boxing.unwrapped]
  obtain ⟨hoccurs, htwice, hvars⟩ := hsolved σ hσ
  refine ⟨T, σ, Answer.ofExcept_eq_ok.1 hT, hopen, hσ, hoccurs, ?_, fun h => ?_⟩
  · rw [htwice]
    simpa using hok
  · obtain ⟨c, hc, hmentions⟩ := hvars 2 h
    revert c
    simp only [Constraint.Mentions]
    decide +kernel

end Unifier

end FeatherGo
