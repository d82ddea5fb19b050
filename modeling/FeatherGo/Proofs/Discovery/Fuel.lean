import FeatherGo.Proofs.Discovery.Nesting
import FeatherGo.Proofs.Typing.Fuel

/-!
# Discovery with more fuel

Fuel decides whether discovery comes to an answer, never which one: the instances that it answers stay when
there is more (`discover_below`), and so does what the check of nesting says (`Table.checkNesting_below`).
-/

namespace FeatherGo

open Track (Below)

namespace Closure

variable {T : Table} {n m : Nat}

/-- What comes of typing stays if the answer of typing does. -/
theorem typing_below {α : Type} {x y : Answer TypeError α} (h : Answer.Below x y) :
    Below (typing x) (typing y) := by
  refine .lift ?_
  rcases h with rfl | rfl
  · exact .inl rfl
  · exact .refl _

section Visits

variable (hnm : n ≤ m) (Δ : Bounds) (A : Admission)

theorem addTypes_below (ts : List Ty) :
    Below (addTypes ⟨T, Δ, A, n⟩ ts) (addTypes ⟨T, Δ, A, m⟩ ts) := by
  induction ts with
  | nil => exact .refl _
  | cons t ts ih => exact (Below.refl _).bind fun _ => ih

theorem addMethods_below (ms : List MethodInstance) :
    Below (addMethods ⟨T, Δ, A, n⟩ ms) (addMethods ⟨T, Δ, A, m⟩ ms) := by
  induction ms with
  | nil => exact .refl _
  | cons i ms ih => exact (Below.refl _).bind fun _ => ih

theorem growTypes_below (ts : List Ty) :
    Below (growTypes ⟨T, Δ, A, n⟩ ts) (growTypes ⟨T, Δ, A, m⟩ ts) := by
  induction ts with
  | nil => exact .refl _
  | cons t ts ih => exact (Below.refl _).bind fun ds => (addTypes_below Δ A ds).bind fun _ => ih

include hnm

theorem addFrom_below (Γ : Scope) (e : Expr) :
    Below (addFrom ⟨T, Δ, A, n⟩ Γ e) (addFrom ⟨T, Δ, A, m⟩ Γ e) := by
  have hadd (found : Instances) : Below
      (addTypes ⟨T, Δ, A, n⟩ found.types >>= fun _ => addMethods ⟨T, Δ, A, n⟩ found.meths)
      (addTypes ⟨T, Δ, A, m⟩ found.types >>= fun _ => addMethods ⟨T, Δ, A, m⟩ found.meths) :=
    (addTypes_below Δ A _).bind fun _ => addMethods_below Δ A _
  rw [addFrom, addFrom, checker, checker]
  dsimp only
  rcases (Checker.collect_below hnm Δ Γ e : Below ((Checker.mk T true n).collect Δ Γ e) _) .empty with h | h
  · generalize (Checker.mk T true n).collect Δ Γ e .empty = r at h ⊢
    obtain ⟨r, found⟩ := r
    obtain rfl : r = .unfinished := h
    exact fun s => .inl rfl
  · rw [h]
    exact (Below.refl _).bind fun _ => hadd _

theorem implementers_below (i : MethodInstance) (ts : List Ty) :
    Below (implementers ⟨T, Δ, A, n⟩ i ts) (implementers ⟨T, Δ, A, m⟩ i ts) := by
  induction ts with
  | nil => exact .refl _
  | cons t ts ih =>
    refine .ite ?_ ih
    exact (typing_below (Table.implements_below hnm Δ _ _)).bind fun b =>
      .ite ((Below.refl _).bind fun _ => ih) ih

theorem embeddings_below (i : MethodInstance) (ts : List Ty) :
    Below (embeddings ⟨T, Δ, A, n⟩ i ts) (embeddings ⟨T, Δ, A, m⟩ i ts) := by
  induction ts with
  | nil => exact .refl _
  | cons t ts ih =>
    exact (typing_below (Table.methods_below hnm Δ _)).bind fun S => .ite ((Below.refl _).bind fun _ => ih) ih

theorem signatureTypes_below (i : MethodInstance) :
    Below (signatureTypes ⟨T, Δ, A, n⟩ i) (signatureTypes ⟨T, Δ, A, m⟩ i) := by
  refine (typing_below (Table.methods_below hnm Δ _)).bind fun S => ?_
  dsimp only
  split
  · exact .refl _
  · exact .ite (addTypes_below Δ A _) (.refl _)

theorem body_below (i : MethodInstance) (args : List Ty) (md : MethodDecl) :
    Below (body ⟨T, Δ, A, n⟩ i args md) (body ⟨T, Δ, A, m⟩ i args md) :=
  .ite (addFrom_below hnm Δ A _ _) (.refl _)

theorem bodies_below (i : MethodInstance) : Below (bodies ⟨T, Δ, A, n⟩ i) (bodies ⟨T, Δ, A, m⟩ i) := by
  unfold bodies
  split
  · refine (Below.refl _).bind fun b => .ite (.refl _) ((Below.refl _).bind fun _ => ?_)
    dsimp only
    split
    · exact .ite ((Below.refl _).bind fun b => .ite (body_below hnm Δ A _ _ _) (.refl _)) (.refl _)
    · exact .refl _
  · exact .refl _

theorem growMethod_below (types : List Ty) (i : MethodInstance) :
    Below (growMethod ⟨T, Δ, A, n⟩ types i) (growMethod ⟨T, Δ, A, m⟩ types i) := by
  have hrest : Below (signatureTypes ⟨T, Δ, A, n⟩ i >>= fun _ => bodies ⟨T, Δ, A, n⟩ i)
      (signatureTypes ⟨T, Δ, A, m⟩ i >>= fun _ => bodies ⟨T, Δ, A, m⟩ i) :=
    (signatureTypes_below hnm Δ A i).bind fun _ => bodies_below hnm Δ A i
  refine (Below.refl _).bind fun b => .ite ?_ hrest
  exact (implementers_below hnm Δ A i types).bind fun _ => (Below.refl _).bind fun us =>
    (embeddings_below hnm Δ A i us).bind fun _ => hrest

theorem growMethods_below (types : List Ty) (ms : List MethodInstance) :
    Below (growMethods ⟨T, Δ, A, n⟩ types ms) (growMethods ⟨T, Δ, A, m⟩ types ms) := by
  induction ms with
  | nil => exact .refl _
  | cons i ms ih => exact (growMethod_below hnm Δ A types i).bind fun _ => ih

theorem pass_below : Below (pass ⟨T, Δ, A, n⟩) (pass ⟨T, Δ, A, m⟩) :=
  (Below.refl _).bind fun _ => (growTypes_below Δ A _).bind fun _ => growMethods_below hnm Δ A _ _

/-- More rounds do not matter to passes that come to an end. -/
theorem runFrom_below (limit : Option Nat) {rounds rounds' : Nat} (hr : rounds ≤ rounds') (passes : Nat) :
    Below (runFrom ⟨T, Δ, A, n⟩ limit rounds passes) (runFrom ⟨T, Δ, A, m⟩ limit rounds' passes) := by
  induction rounds generalizing rounds' passes with
  | zero => exact fun s => .inl rfl
  | succ rounds ih =>
    obtain ⟨r, rfl⟩ := Nat.exists_eq_add_of_le' (Nat.lt_of_lt_of_le (Nat.succ_pos _) hr)
    refine (Below.refl _).bind fun before => (pass_below hnm Δ A).bind fun _ =>
      (Below.refl _).bind fun after => ?_
    exact .ite (.refl _) (.ite (.refl _) (ih (Nat.le_of_succ_le_succ hr) _))

theorem run_below (limit : Option Nat) : Below (run ⟨T, Δ, A, n⟩ limit) (run ⟨T, Δ, A, m⟩ limit) := by
  refine runFrom_below hnm Δ A limit (max_le_max le_rfl ?_) 0
  cases limit with
  | none => exact hnm
  | some most => exact le_rfl

end Visits

end Closure

/-- **What discovery answers stays when there is more fuel.** -/
theorem discover_below {T : Table} {n m : Nat} (hnm : n ≤ m) (main : Expr) (limit : Option Nat) :
    Answer.Below (discover n T main limit) (discover m T main limit) := by
  have hsearch : Below
      (do (Closure.ground T n).addFrom [] main; let _ ← (Closure.ground T n).run limit : Closure.Visit Unit)
      (do (Closure.ground T m).addFrom [] main; let _ ← (Closure.ground T m).run limit) :=
    (Closure.addFrom_below hnm [] .ground [] main).bind fun _ =>
      (Closure.run_below hnm [] .ground limit).bind fun _ => .refl _
  unfold discover
  dsimp only
  rcases hsearch .empty with h | h
  · generalize (do (Closure.ground T n).addFrom [] main; let _ ← (Closure.ground T n).run limit :
      Closure.Visit Unit) .empty = r at h ⊢
    obtain ⟨r, s⟩ := r
    obtain rfl : r = .unfinished := h
    exact .inl rfl
  · rw [h]
    exact .refl _

namespace Table

variable {T : Table} {n m : Nat} (hnm : n ≤ m)
include hnm

theorem typeSearch_below (td : TypeDecl) : Below (T.typeSearch n td) (T.typeSearch m td) :=
  (Below.refl _).bind fun _ => (Closure.run_below hnm _ _ _).bind fun _ => .refl _

theorem methodSearch_below (md : MethodDecl) : Below (T.methodSearch n md) (T.methodSearch m md) :=
  (Below.refl _).bind fun _ => (Below.refl _).bind fun _ => (Below.refl _).bind fun _ =>
    (Closure.addFrom_below hnm _ _ _ _).bind fun _ => (Closure.run_below hnm _ _ _).bind fun _ => .refl _

theorem checkTypeNesting_below (td : TypeDecl) :
    Answer.Below (T.checkTypeNesting n td) (T.checkTypeNesting m td) := by
  rw [checkTypeNesting_eq, checkTypeNesting_eq]
  rcases typeSearch_below hnm td .empty with h | h
  · rw [h]
    exact .inl rfl
  · rw [h]
    exact .refl _

theorem checkMethodNesting_below (md : MethodDecl) :
    Answer.Below (T.checkMethodNesting n md) (T.checkMethodNesting m md) := by
  rw [checkMethodNesting_eq, checkMethodNesting_eq]
  rcases methodSearch_below hnm md .empty with h | h
  · rw [h]
    exact .inl rfl
  · rw [h]
    exact .refl _

theorem checkTypesNesting_below (tds : List TypeDecl) :
    Answer.Below (T.checkTypesNesting n tds) (T.checkTypesNesting m tds) := by
  induction tds with
  | nil => exact .refl _
  | cons td tds ih => exact .ite ((checkTypeNesting_below hnm td).bind fun _ => ih) ih

theorem checkMethodsNesting_below (mds : List MethodDecl) :
    Answer.Below (T.checkMethodsNesting n mds) (T.checkMethodsNesting m mds) := by
  induction mds with
  | nil => exact .refl _
  | cons md mds ih => exact (checkMethodNesting_below hnm md).bind fun _ => ih

/-- **What the check of nesting says stays when there is more fuel.** -/
theorem checkNesting_below : Answer.Below (T.checkNesting n) (T.checkNesting m) :=
  (checkTypesNesting_below hnm _).bind fun _ => checkMethodsNesting_below hnm _

end Table

end FeatherGo
