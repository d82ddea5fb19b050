import FeatherGo.Expr.Subst
import FeatherGo.Proofs.Types.Substitution

/-!
# Induction over expressions

Expressions nest through lists of elements and arguments. `Expr.induction` hides the lists, and the
functions that walk lists of expressions are restated as maps.
-/

namespace FeatherGo

/-- A property of expressions that passes from the parts of an expression to the expression holds of
every expression. -/
theorem Expr.induction {P : Expr → Prop} (var : ∀ x, P (.var x))
    (structLit : ∀ c ts es, (∀ e ∈ es, P e) → P (.structLit c ts es))
    (select : ∀ e f, P e → P (.select e f))
    (call : ∀ e m ts es, P e → (∀ a ∈ es, P a) → P (.call e m ts es))
    (assert : ∀ e t, P e → P (.assert e t))
    (sprintf : ∀ s es, (∀ e ∈ es, P e) → P (.sprintf s es)) (lit : ∀ l, P (.lit l))
    (binary : ∀ op l r, P l → P r → P (.binary op l r)) (convert : ∀ k e, P e → P (.convert k e))
    (e : Expr) : P e :=
  @Expr.rec P (fun es => ∀ e ∈ es, P e) var structLit select call assert sprintf lit binary convert
    (List.forall_mem_nil P) (fun _ _ he hes => List.forall_mem_cons.2 ⟨he, hes⟩) e

namespace Expr

/-- The expressions directly inside an expression. -/
def children : Expr → List Expr
  | .var _ | .lit _ => []
  | .structLit _ _ es => es
  | .select e _ => [e]
  | .call e _ _ es => e :: es
  | .assert e _ => [e]
  | .sprintf _ es => es
  | .binary _ l r => [l, r]
  | .convert _ e => [e]

/-- A property that passes from the expressions directly inside an expression to the expression holds of
every expression. -/
theorem induction_children {P : Expr → Prop} (step : ∀ e, (∀ a ∈ e.children, P a) → P e) (e : Expr) :
    P e := by
  induction e using Expr.induction with
  | var x => exact step _ (List.forall_mem_nil P)
  | structLit c ts es ih => exact step _ ih
  | select e f ih => exact step _ (List.forall_mem_singleton.2 ih)
  | call e m ts es ih ihs => exact step _ (List.forall_mem_cons.2 ⟨ih, ihs⟩)
  | assert e t ih => exact step _ (List.forall_mem_singleton.2 ih)
  | sprintf s es ih => exact step _ ih
  | lit l => exact step _ (List.forall_mem_nil P)
  | binary op l r ihl ihr => exact step _ (List.forall_mem_cons.2 ⟨ihl, List.forall_mem_singleton.2 ihr⟩)
  | convert k e ih => exact step _ (List.forall_mem_singleton.2 ih)

theorem substTypesAll_eq (η : Env Ty) (es : List Expr) :
    substTypesAll η es = es.map (substTypes η) := by
  induction es with
  | nil => rfl
  | cons e es ih => rw [substTypesAll, ih, List.map_cons]

theorem substVarsAll_eq (env : Env Expr) (es : List Expr) :
    substVarsAll env es = es.map (substVars env) := by
  induction es with
  | nil => rfl
  | cons e es ih => rw [substVarsAll, ih, List.map_cons]

theorem areValues_iff {es : List Expr} : areValues es = true ↔ ∀ e ∈ es, e.isValue = true := by
  induction es with
  | nil => simp [areValues]
  | cons e es ih => simp [areValues, ih]

/-- The empty substitution changes no expression. -/
theorem substTypes_nil (e : Expr) : e.substTypes [] = e := by
  have hts (ts : List Ty) : ts.map (Ty.subst []) = ts := map_eq_self_iff.2 fun t _ => t.subst_nil
  induction e using Expr.induction with
  | var x => rfl
  | structLit c ts es ih => rw [substTypes, substTypesAll_eq, hts, map_eq_self_iff.2 ih]
  | select e f ih => rw [substTypes, ih]
  | call e m ts es ih ihs => rw [substTypes, substTypesAll_eq, hts, ih, map_eq_self_iff.2 ihs]
  | assert e t ih => rw [substTypes, ih, Ty.subst_nil]
  | sprintf s es ih => rw [substTypes, substTypesAll_eq, map_eq_self_iff.2 ih]
  | lit l => rfl
  | binary op l r ihl ihr => rw [substTypes, ihl, ihr]
  | convert k e ih => rw [substTypes, ih]

end Expr

end FeatherGo
