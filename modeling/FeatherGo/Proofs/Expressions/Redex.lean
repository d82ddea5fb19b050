import FeatherGo.Proofs.Answer
import FeatherGo.Proofs.Expressions.Induction
import FeatherGo.Reduction.Step

/-!
# What a step reduces

`Expr.redex` is the part of an expression that the next step reduces, and `Expr.stepsIn_redex` says
that a step of the expression is a step of that part, with the rest left as it is.
-/

namespace FeatherGo

namespace Expr

mutual

/-- The part of an expression that a step reduces: the expression itself once its parts are
values. -/
def redex : Expr → Expr
  | .var x => .var x
  | .lit l => .lit l
  | .structLit c targs elems => redexFirst (.structLit c targs elems) elems
  | .select e field => if e.isValue then .select e field else redex e
  | .call recv meth targs args =>
    if !recv.isValue then redex recv
    else if !areValues args then redexFirst (.call recv meth targs args) args
    else .call recv meth targs args
  | .assert e ty => if e.isValue then .assert e ty else redex e
  | .sprintf format args =>
    if areValues args then .sprintf format args else redexFirst (.sprintf format args) args
  | .binary op lhs rhs =>
    if !lhs.isValue then redex lhs
    else if (Machine.decided? op lhs).isSome || rhs.isValue then .binary op lhs rhs
    else redex rhs
  | .convert k e => if e.isValue then .convert k e else redex e

/-- The part of the leftmost expression that is no value; `whole` is what they are parts of. -/
def redexFirst (whole : Expr) : List Expr → Expr
  | [] => whole
  | e :: es => if e.isValue then redexFirst whole es else redex e

end

end Expr

/-- The redex of a list is that of a member, unless all are values. -/
theorem Expr.redexFirst_eq (whole : Expr) (es : List Expr) :
    (areValues es = true ∧ redexFirst whole es = whole)
      ∨ ∃ e ∈ es, e.isValue = false ∧ redexFirst whole es = e.redex := by
  induction es with
  | nil => exact .inl ⟨rfl, rfl⟩
  | cons e es ih =>
    by_cases hv : e.isValue = true
    · rw [redexFirst, if_pos hv, areValues, hv, Bool.true_and]
      rcases ih with h | ⟨e', he', h⟩
      · exact .inl h
      · exact .inr ⟨e', List.mem_cons_of_mem _ he', h⟩
    · rw [redexFirst, if_neg hv]
      exact .inr ⟨e, List.mem_cons_self, by simpa using hv, rfl⟩

/-- A list that is not made of values has a first expression that is none. -/
theorem Expr.exists_first {es : List Expr} (h : areValues es = false) :
    ∃ pre e post, es = pre ++ e :: post ∧ (∀ v ∈ pre, v.isValue = true) ∧ e.isValue = false := by
  induction es with
  | nil => simp [areValues] at h
  | cons e es ih =>
    by_cases hv : e.isValue = true
    · obtain ⟨pre, e', post, rfl, hpre, he'⟩ := ih (by simpa [areValues, hv] using h)
      exact ⟨e :: pre, e', post, rfl, List.forall_mem_cons.2 ⟨hv, hpre⟩, he'⟩
    · exact ⟨[], e, es, rfl, by simp, by simpa using hv⟩

section First

variable {pre post : List Expr} {e : Expr} (hpre : ∀ v ∈ pre, v.isValue = true)
  (he : e.isValue = false) (whole : Expr)

include hpre he

theorem Expr.redexFirst_append : redexFirst whole (pre ++ e :: post) = e.redex := by
  induction pre with
  | nil => rw [List.nil_append, redexFirst, if_neg (by simp [he])]
  | cons v pre ih =>
    rw [List.forall_mem_cons] at hpre
    rw [List.cons_append, redexFirst, if_pos hpre.1, ih hpre.2]

theorem Machine.stepFirst_append (M : Machine) : M.stepFirst whole (pre ++ e :: post) = (do
    let (e', rule) ← M.step e
    return (pre ++ e' :: post, rule)) := by
  induction pre with
  | nil =>
    rw [List.nil_append, Machine.stepFirst, if_neg (by simp [he])]
    rfl
  | cons v pre ih =>
    rw [List.forall_mem_cons] at hpre
    rw [List.cons_append, Machine.stepFirst, if_pos hpre.1, ih hpre.2]
    cases M.step e <;> rfl

end First

/-- A value takes no step. -/
theorem Machine.step_value (M : Machine) {e : Expr} (hv : e.isValue = true) :
    ∃ err, M.step e = .error err := by
  cases e with
  | lit l => exact ⟨_, rfl⟩
  | structLit c targs es =>
    have hall : ∀ es whole, Expr.areValues es = true →
        M.stepFirst whole es = .error (.notReducible whole) := by
      intro es whole hes
      induction es with
      | nil => rfl
      | cons e es ih =>
        obtain ⟨he, hes⟩ : e.isValue = true ∧ Expr.areValues es = true := by
          simpa [Expr.areValues] using hes
        rw [Machine.stepFirst, if_pos he, ih hes]
        rfl
    exact ⟨_, by rw [Machine.step, hall es _ hv]; rfl⟩
  | _ => simp [Expr.isValue] at hv

/-- What a step changes is no value. -/
theorem Machine.isValue_of_step {M : Machine} {e : Expr} {r : Expr × Rule} (h : M.step e = .ok r) :
    e.isValue = false := by
  by_contra hv
  obtain ⟨err, herr⟩ := M.step_value (by simpa using hv)
  rw [herr] at h
  cases h

namespace Expr

/-- A step of an expression is a step of a part of it, put back into the rest. -/
def StepsIn (e r : Expr) : Prop :=
  ∃ plug : Expr → Expr, plug r = e ∧ ∀ M : Machine, M.step e = (do
    let (r', rule) ← M.step r
    return (plug r', rule))

namespace StepsIn

variable {e r : Expr}

theorem refl (e : Expr) : StepsIn e e := by
  refine ⟨id, rfl, fun M => ?_⟩
  cases M.step e <;> rfl

/-- A step of a part of a part is a step of a part. -/
theorem lift (h : StepsIn e r) {f : Expr → Expr}
    (hstep : ∀ M : Machine, M.step (f e) = (do
      let (r', rule) ← M.step e
      return (f r', rule))) : StepsIn (f e) r := by
  obtain ⟨plug, rfl, hplug⟩ := h
  refine ⟨f ∘ plug, rfl, fun M => ?_⟩
  rw [hstep, hplug]
  cases M.step r <;> rfl

/-- A step of a list of parts is a step of a part. -/
theorem first {es : List Expr} {f : List Expr → Expr} {whole : Expr}
    (ih : ∀ e ∈ es, e.isValue = false → StepsIn e e.redex)
    (hes : areValues es = false) (hstep : ∀ M : Machine, M.step (f es) = (do
      let (es', rule) ← M.stepFirst whole es
      return (f es', rule))) : StepsIn (f es) (redexFirst whole es) := by
  obtain ⟨pre, e, post, rfl, hpre, he⟩ := exists_first hes
  rw [redexFirst_append hpre he]
  refine (ih e (by simp) he).lift (f := fun e' => f (pre ++ e' :: post)) fun M => ?_
  rw [hstep, Machine.stepFirst_append hpre he]
  cases M.step e <;> rfl

end StepsIn

/-- **A step of an expression that is no value is a step of its redex.** -/
theorem stepsIn_redex {e : Expr} (hv : e.isValue = false) : StepsIn e e.redex := by
  induction e using Expr.induction with
  | var x => exact .refl _
  | lit l => exact .refl _
  | structLit c targs es ih =>
    exact .first (f := fun es => .structLit c targs es) ih hv fun M => rfl
  | select e field ih =>
    by_cases he : e.isValue = true
    · rw [redex, if_pos he]
      exact .refl _
    · rw [redex, if_neg he]
      refine (ih (by simpa using he)).lift (f := fun e => .select e field) fun M => ?_
      rw [Machine.step, if_neg he]
  | call recv meth targs args ih ihs =>
    by_cases hr : recv.isValue = true
    · by_cases ha : areValues args = true
      · simp only [redex, hr, ha, Bool.not_true, Bool.false_eq_true, if_false]
        exact .refl _
      · simp only [redex, hr, ha, Bool.not_true, Bool.not_false, Bool.false_eq_true, if_false,
          if_true]
        refine .first (f := fun args => .call recv meth targs args) ihs (by simpa using ha)
          fun M => ?_
        simp only [Machine.step, hr, ha, Bool.not_true, Bool.not_false, Bool.false_eq_true,
          if_false, if_true]
    · simp only [redex, hr, Bool.not_false, if_true]
      refine (ih (by simpa using hr)).lift (f := fun recv => .call recv meth targs args) fun M => ?_
      simp only [Machine.step, hr, Bool.not_false, if_true]
  | assert e ty ih =>
    by_cases he : e.isValue = true
    · rw [redex, if_pos he]
      exact .refl _
    · rw [redex, if_neg he]
      refine (ih (by simpa using he)).lift (f := fun e => .assert e ty) fun M => ?_
      rw [Machine.step, if_neg he]
  | sprintf format args ihs =>
    by_cases ha : areValues args = true
    · rw [redex, if_pos ha]
      exact .refl _
    · rw [redex, if_neg ha]
      refine .first (f := fun args => .sprintf format args) ihs (by simpa using ha) fun M => ?_
      rw [Machine.step, if_neg ha]
  | binary op lhs rhs ihl ihr =>
    by_cases hl : lhs.isValue = true
    · by_cases hd : ((Machine.decided? op lhs).isSome || rhs.isValue) = true
      · simp only [redex, hl, hd, Bool.not_true, Bool.false_eq_true, if_false, if_true]
        exact .refl _
      · simp only [redex, hl, hd, Bool.not_true, Bool.false_eq_true, if_false]
        simp only [Bool.or_eq_true, not_or, Bool.not_eq_true, Option.isSome_eq_false_iff,
          Option.isNone_iff_eq_none] at hd
        obtain ⟨hnone, hr⟩ := hd
        refine (ihr hr).lift (f := fun rhs => .binary op lhs rhs) fun M => ?_
        simp only [Machine.step, hl, hnone, hr, Bool.not_true, Bool.not_false, Bool.false_eq_true,
          if_false, if_true]
    · simp only [redex, hl, Bool.not_false, if_true]
      refine (ihl (by simpa using hl)).lift (f := fun lhs => .binary op lhs rhs) fun M => ?_
      simp only [Machine.step, hl, Bool.not_false, if_true]
  | convert k e ih =>
    by_cases he : e.isValue = true
    · rw [redex, if_pos he]
      exact .refl _
    · rw [redex, if_neg he]
      refine (ih (by simpa using he)).lift (f := fun e => .convert k e) fun M => ?_
      rw [Machine.step, if_neg he]

/-- An expression that its own rule reduces: what the rule looks at are values. -/
inductive Ready : Expr → Prop
  | var (x : String) : Ready (.var x)
  | select {e : Expr} (value : e.isValue = true) (field : String) : Ready (.select e field)
  | call {recv : Expr} {args : List Expr} (value : recv.isValue = true)
      (values : areValues args = true) (meth : String) (targs : List Ty) :
      Ready (.call recv meth targs args)
  | assert {e : Expr} (value : e.isValue = true) (target : Ty) : Ready (.assert e target)
  | sprintf {args : List Expr} (values : areValues args = true) (format : String) :
      Ready (.sprintf format args)
  | decided {op : Operator} {lhs : Expr} {b : Bool} (left : lhs.isValue = true)
      (decided : Machine.decided? op lhs = some b) (rhs : Expr) : Ready (.binary op lhs rhs)
  | binary {op : Operator} {lhs rhs : Expr} (left : lhs.isValue = true)
      (undecided : Machine.decided? op lhs = none) (right : rhs.isValue = true) :
      Ready (.binary op lhs rhs)
  | convert {e : Expr} (value : e.isValue = true) (k : Kind) : Ready (.convert k e)

/-- The redex of an expression that is no value is reduced by its own rule. -/
theorem ready_redex {e : Expr} (hv : e.isValue = false) : e.redex.Ready := by
  have hfirst {whole : Expr} {es : List Expr} (ih : ∀ e ∈ es, e.isValue = false → e.redex.Ready)
      (hes : ¬areValues es = true) : (redexFirst whole es).Ready := by
    obtain ⟨pre, e, post, rfl, hpre, he⟩ := exists_first (by simpa using hes)
    rw [redexFirst_append hpre he]
    exact ih e (by simp) he
  have hpart {e : Expr} (ih : e.isValue = false → e.redex.Ready) (he : ¬e.isValue = true) :
      e.redex.Ready := ih (by simpa using he)
  induction e using Expr.induction with
  | var x => exact .var x
  | structLit c targs es ih => exact hfirst ih (Bool.eq_false_iff.1 hv)
  | select e field ih =>
    rw [redex]
    by_cases he : e.isValue = true
    · rw [if_pos he]
      exact .select he field
    · rw [if_neg he]
      exact hpart ih he
  | call recv meth targs args ih ihs =>
    by_cases hr : recv.isValue = true
    · by_cases ha : areValues args = true
      · simp only [redex, hr, ha, Bool.not_true, Bool.false_eq_true, if_false]
        exact .call hr ha meth targs
      · simp only [redex, hr, ha, Bool.not_true, Bool.not_false, Bool.false_eq_true, if_false,
          if_true]
        exact hfirst ihs ha
    · simp only [redex, hr, Bool.not_false, if_true]
      exact hpart ih hr
  | assert e target ih =>
    rw [redex]
    by_cases he : e.isValue = true
    · rw [if_pos he]
      exact .assert he target
    · rw [if_neg he]
      exact hpart ih he
  | sprintf format args ih =>
    rw [redex]
    by_cases ha : areValues args = true
    · rw [if_pos ha]
      exact .sprintf ha format
    · rw [if_neg ha]
      exact hfirst ih ha
  | lit l => cases hv
  | binary op lhs rhs ihl ihr =>
    by_cases hl : lhs.isValue = true
    · simp only [redex, hl, Bool.not_true, Bool.false_eq_true, if_false]
      cases hd : Machine.decided? op lhs with
      | some b => exact .decided hl hd rhs
      | none =>
        by_cases hr : rhs.isValue = true
        · rw [if_pos (by simp [hr])]
          exact .binary hl hd hr
        · rw [if_neg (by simp [hr])]
          exact hpart ihr hr
    · simp only [redex, hl, Bool.not_false, if_true]
      exact hpart ihl hl
  | convert k e ih =>
    rw [redex]
    by_cases he : e.isValue = true
    · rw [if_pos he]
      exact .convert he k
    · rw [if_neg he]
      exact hpart ih he

/-- A value is its own redex. -/
theorem redex_of_value {e : Expr} (hv : e.isValue = true) : e.redex = e := by
  cases e with
  | lit l => rfl
  | structLit c targs es =>
    rcases redexFirst_eq (.structLit c targs es) es with ⟨-, h⟩ | ⟨e, he, hne, -⟩
    · exact h
    · rw [areValues_iff.1 hv e he] at hne
      cases hne
  | _ => cases hv

/-- A call that is reduced is a call on a value. -/
theorem isValue_of_redex {e : Expr} {recv : Expr} {meth : String} {targs : List Ty}
    {args : List Expr} (h : e.redex = .call recv meth targs args) : recv.isValue = true := by
  by_cases hv : e.isValue = true
  · rw [redex_of_value hv] at h
    subst h
    cases hv
  · have hready := ready_redex (by simpa using hv)
    rw [h] at hready
    cases hready with
    | call hr => exact hr

end Expr

end FeatherGo
