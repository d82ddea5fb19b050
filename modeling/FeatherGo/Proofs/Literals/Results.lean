import FeatherGo.Literal.Operator
import FeatherGo.Proofs.Answer

/-!
# Types of results

A conversion gives a literal of its kind (`Literal.prim_of_convert`). An operator gives a literal of the type
that it promises on the common type of its operands, whether or not it is defined on their kinds
(`Operator.prim_of_apply`).
-/

namespace FeatherGo

/-- What a conversion gives is of its kind. -/
theorem Literal.prim_of_convert {l l' : Literal} {k : Kind} (h : l.convert k = some l') :
    l'.prim = .typed k := by
  unfold convert at h
  dsimp only at h
  split at h
  all_goals first
    | rw [← Option.some.inj h]
    | cases h

namespace Operator

variable {op : Operator} {p : Prim} {l r v : Literal}

/-- The operators by what they compute. -/
theorem isArithmetic_eq (op : Operator) :
    op.isArithmetic = !(op.isEquality || op.isLogical || op.isOrdering) := by
  cases op <;> rfl

/-! ## The common type of operands -/

/-- A typed operand has the common type. -/
theorem commonPrim_typed {p q : Prim} (hp : p.untyped = false) : commonPrim p q = p := by
  simp [commonPrim, hp]

/-- The common type of untyped operands is untyped. -/
theorem commonPrim_untyped {p q : Prim} (hp : p.untyped = true) (hq : q.untyped = true) :
    commonPrim p q = .constant (if q.kind.rank ≤ p.kind.rank then p.kind else q.kind) := by
  obtain ⟨j, u⟩ := p
  obtain ⟨k, w⟩ := q
  cases hp
  cases hq
  exact (apply_ite Prim.constant _ _ _).symm

/-! ## The type of a result -/

/-- The primitive type of the result on operands of a common type. -/
def resultPrim (op : Operator) (p : Prim) : Prim := if op.isArithmetic then p else .typed .bool

theorem eq_of_resultType {t : Ty} (h : op.resultType p = some t) : t = .prim (op.resultPrim p) := by
  rw [resultType] at h
  split at h
  · rw [← Option.some.inj h, resultPrim]
    split <;> rfl
  · cases h

/-- The result of an operator on payloads of a common type. -/
theorem prim_applyCommon {a b : Payload} (h : op.applyCommon p a b = .ok v) :
    v.prim = op.resultPrim p := by
  have hbool {c : Bool} (hop : op.isArithmetic = false)
      (h : Except.ok (Literal.ofBool c) = (.ok v : Except OperatorFault Literal)) :
      v.prim = op.resultPrim p := by
    rw [resultPrim, hop, ← Except.ok.inj h]
    rfl
  unfold applyCommon at h
  split at h
  · rename_i he
    exact hbool (by simp [isArithmetic_eq, he]) h
  · split at h
    · rename_i hl
      split at h
      · exact hbool (by simp [isArithmetic_eq, hl]) h
      · cases h
    · split at h
      · rename_i ho
        have hop : op.isArithmetic = false := by simp [isArithmetic_eq, ho]
        split at h
        · exact hbool hop h
        · exact hbool hop h
        · exact hbool hop h
        · cases h
      · rename_i he hl ho
        rw [resultPrim, if_pos (by simp [isArithmetic_eq, he, hl, ho])]
        split at h
        · obtain ⟨n, -, h⟩ := except_bind_eq_ok.1 h
          rw [← Except.ok.inj h]
        · rw [← Except.ok.inj h]
        · split at h
          · rw [← Except.ok.inj h]
          · cases h
        · cases h

/-- The result of an operator on literals. -/
theorem prim_of_apply (h : op.apply l r = .ok v) :
    v.prim = op.resultPrim (commonPrim l.prim r.prim) := by
  obtain ⟨l', -, h⟩ := except_bind_eq_ok.1 h
  obtain ⟨r', -, h⟩ := except_bind_eq_ok.1 h
  exact prim_applyCommon h

/-- The result of an operator has the type that it promises on the common type. -/
theorem prim_apply (h : op.apply l r = .ok v) {t : Ty}
    (ht : op.resultType (commonPrim l.prim r.prim) = some t) : t = .prim v.prim :=
  (eq_of_resultType ht).trans (congrArg Ty.prim (prim_of_apply h).symm)

end Operator

end FeatherGo
