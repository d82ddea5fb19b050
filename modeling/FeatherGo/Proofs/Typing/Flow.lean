import FeatherGo.Proofs.Literals.Results
import FeatherGo.Proofs.Typing.Check

/-!
# What flows into a place

An expression that flows into a place keeps its type or takes the representation of a kind
(`Checker.Flow`), and so does one operand beside another one of a typed primitive (`Checker.Operands`).
-/

namespace FeatherGo.Checker

variable {C : Checker} {Δ : Bounds}

/-! ## Places -/

/-- What becomes of an expression and of its type when it flows into a place of type `target`. -/
inductive Flow (C : Checker) (Δ : Bounds) (target : Ty) (e : Expr) : Ty → Ty → Expr → Prop
  /-- An untyped constant stays one in a place that asks for no type. -/
  | loose {k : Kind} {q : Prim} (place : target = .prim q) (untyped : q.untyped = true) :
      Flow C Δ target e (.prim ⟨k, true⟩) (.prim ⟨k, true⟩) e
  /-- A typed expression flows as it is. -/
  | typed {t : Ty} (typed : ∀ k, t ≠ .prim ⟨k, true⟩)
      (within : C.table.implements C.fuel Δ t target = .ok true) : Flow C Δ target e t t e
  /-- An untyped one takes the representation of a kind. -/
  | represented {source k : Kind} (may : mayBecome e source k = true) (fit : unfit e k = none)
      (within : C.table.implements C.fuel Δ (.ofKind k) target = .ok true) :
      Flow C Δ target e (.prim ⟨source, true⟩) (.ofKind k) (represent e k)

theorem implements_typed {p : Prim} (Δ : Bounds) :
    C.table.implements C.fuel Δ (.prim p) (.prim p) = .ok true := by
  show Answer.ok (decide _) = _
  rw [decide_eq_true rfl]

/-- What flows goes one of these ways. -/
theorem exists_flow {t target : Ty} {e e' : Expr} {dest : Destination}
    (h : C.coerce Δ t e target dest = .ok e') : ∃ t', Flow C Δ target e t t' e' := by
  unfold coerce at h
  dsimp only at h
  split at h
  · rename_i p
    split at h
    · rename_i ht
      obtain ⟨b, hb, h⟩ := Answer.bind_eq_ok.1 h
      cases b with
      | true =>
        obtain rfl := Answer.ok.inj h
        exact ⟨t, .typed (fun k hk => by cases ht.symm.trans hk) hb⟩
      | false => cases h
    · cases h
  · rename_i want k
    split at h
    · rename_i hwant
      obtain rfl := Answer.ok.inj h
      exact ⟨_, .loose rfl hwant⟩
    · rename_i hwant
      split at h
      · rename_i hmay
        split at h
        · cases h
        · rename_i hfit
          obtain rfl := Answer.ok.inj h
          have hprim : Ty.ofKind want.kind = .prim want := by
            rw [Bool.not_eq_true] at hwant
            rw [Ty.ofKind, Prim.typed, ← hwant]
          refine ⟨_, .represented hmay hfit ?_⟩
          rw [hprim]
          exact implements_typed Δ
      · cases h
  · rename_i k _ _
    split at h
    · cases h
    · rename_i hfit
      obtain ⟨b, hb, h⟩ := Answer.bind_eq_ok.1 h
      cases b with
      | true =>
        obtain rfl := Answer.ok.inj h
        exact ⟨_, .represented (by simp [mayBecome]) hfit hb⟩
      | false => cases h
  · rename_i huntyped _
    obtain ⟨b, hb, h⟩ := Answer.bind_eq_ok.1 h
    cases b with
    | true =>
      obtain rfl := Answer.ok.inj h
      exact ⟨t, .typed (fun k hk => huntyped k hk) hb⟩
    | false => cases h

/-- A typed expression flows as it is into what its type implements. -/
theorem coerce_typed {t target : Ty} {e : Expr} {dest : Destination}
    (ht : ∀ k, t ≠ .prim ⟨k, true⟩)
    (h : C.table.implements C.fuel Δ t target = .ok true) :
    C.coerce Δ t e target dest = .ok e := by
  unfold coerce
  dsimp only
  split
  · rename_i p
    have heq : t = .param p := by
      cases t with
      | param a => rw [of_decide_eq_true (Answer.ok.inj h)]
      | _ => cases h
    rw [if_pos heq, h]
    rfl
  · exact absurd rfl (ht _)
  · exact absurd rfl (ht _)
  · rw [h]
    rfl

namespace Flow

variable {target t t' : Ty} {e e' : Expr}

/-- What has flowed into a place flows into it again, unchanged. -/
theorem again (h : Flow C Δ target e t t' e') (dest : Destination) :
    C.coerce Δ t' e' target dest = .ok e' := by
  cases h with
  | loose place untyped =>
    subst place
    unfold coerce
    exact if_pos untyped
  | typed typed within => exact coerce_typed typed within
  | represented may fit within => exact coerce_typed (fun _ hk => by cases hk) within

/-- A place of a typed primitive gives what flows into it its type. -/
theorem eq_prim {p : Prim} (h : Flow C Δ (.prim p) e t t' e') (hp : p.untyped = false) :
    t' = .prim p := by
  have heq : ∀ t, C.table.implements C.fuel Δ t (.prim p) = .ok true → t = .prim p := by
    intro t ht
    cases t <;> exact of_decide_eq_true (Answer.ok.inj ht)
  cases h with
  | loose place untyped =>
    cases place
    rw [hp] at untyped
    cases untyped
  | typed typed within => exact heq _ within
  | represented may fit within => exact heq _ within

end Flow

/-! ## Operands -/

/-- How two operands of primitive types are brought to a common one. -/
inductive Operands (C : Checker) (Δ : Bounds) (op : Operator) (l r : Expr) :
    Prim → Prim → Prim → Expr → Expr → Prop
  | untyped {lp rp : Prim} (left : lp.untyped = true) (right : rp.untyped = true) :
      Operands C Δ op l r lp rp
        (.constant (if rp.kind.rank ≤ lp.kind.rank then lp.kind else rp.kind)) l r
  | left {lp rp : Prim} {r' : Expr} (left : lp.untyped = false) (right : rp.untyped = true)
      (flows : C.coerce Δ (.prim rp) r (.prim lp) (.operand op) = .ok r') :
      Operands C Δ op l r lp rp lp l r'
  | right {lp rp : Prim} {l' : Expr} (left : lp.untyped = true) (right : rp.untyped = false)
      (flows : C.coerce Δ (.prim lp) l (.prim rp) (.operand op) = .ok l') :
      Operands C Δ op l r lp rp rp l' r
  | typed {p : Prim} (typed : p.untyped = false) : Operands C Δ op l r p p p l r

theorem exists_operands {op : Operator} {tl tr t : Ty} {l r whole e' : Expr}
    (h : C.binary Δ op tl l tr r whole = .ok (t, e')) :
    ∃ lp rp p l' r', tl = .prim lp ∧ tr = .prim rp ∧ Operands C Δ op l r lp rp p l' r'
      ∧ op.resultType p = some t ∧ e' = .binary op l' r' := by
  unfold binary at h
  split at h
  · rename_i lp rp
    obtain ⟨⟨p, l', r'⟩, hoperands, h⟩ := Answer.bind_eq_ok.1 h
    dsimp only at h
    split at h
    · rename_i t' ht
      obtain ⟨rfl, rfl⟩ := Prod.mk.inj (Answer.ok.inj h)
      refine ⟨lp, rp, p, l', r', rfl, rfl, ?_, ht, rfl⟩
      dsimp only at hoperands
      split at hoperands
      · rename_i hlu hru
        simp only [Answer.ok.injEq, Prod.mk.injEq] at hoperands
        obtain ⟨rfl, rfl, rfl⟩ := hoperands
        exact .untyped hlu hru
      · rename_i hlu hru
        obtain ⟨r'', hcoerce, hoperands⟩ := Answer.bind_eq_ok.1 hoperands
        simp only [Answer.pure_eq_ok, Answer.ok.injEq, Prod.mk.injEq] at hoperands
        obtain ⟨rfl, rfl, rfl⟩ := hoperands
        exact .left hlu hru hcoerce
      · rename_i hlu hru
        obtain ⟨l'', hcoerce, hoperands⟩ := Answer.bind_eq_ok.1 hoperands
        simp only [Answer.pure_eq_ok, Answer.ok.injEq, Prod.mk.injEq] at hoperands
        obtain ⟨rfl, rfl, rfl⟩ := hoperands
        exact .right hlu hru hcoerce
      · rename_i hlu hru
        split at hoperands
        · rename_i heq
          subst heq
          simp only [Answer.ok.injEq, Prod.mk.injEq] at hoperands
          obtain ⟨rfl, rfl, rfl⟩ := hoperands
          exact .typed hlu
        · cases hoperands
    · cases h
  · cases h
  · cases h

namespace Operands

variable {op : Operator} {l r l' r' whole : Expr} {lp rp p : Prim} {t : Ty}

theorem binary_eq (h : Operands C Δ op l r lp rp p l' r') (ht : op.resultType p = some t) :
    C.binary Δ op (.prim lp) l (.prim rp) r whole = .ok (t, .binary op l' r') := by
  cases h with
  | untyped left right => simp [binary, left, right, ht]
  | left left right flows => simp [binary, left, right, flows, ht]
  | right left right flows => simp [binary, left, right, flows, ht]
  | typed typed => simp [binary, typed, ht]

theorem eq_commonPrim (h : Operands C Δ op l r lp rp p l' r') : p = Operator.commonPrim lp rp := by
  cases h with
  | untyped left right => rw [Operator.commonPrim_untyped left right]
  | left left => rw [Operator.commonPrim_typed left]
  | right left right => simp [Operator.commonPrim, left, right]
  | typed typed => rw [Operator.commonPrim_typed typed]

end Operands

/-- An operation is between primitive types, and has the type of the result on their common one. -/
theorem prim_of_binary {op : Operator} {tl tr t : Ty} {l r whole e' : Expr}
    (h : C.binary Δ op tl l tr r whole = .ok (t, e')) : ∃ p q, tl = .prim p ∧ tr = .prim q
      ∧ t = .prim (op.resultPrim (Operator.commonPrim p q)) := by
  obtain ⟨lp, rp, p, l', r', rfl, rfl, hoperands, ht, -⟩ := exists_operands h
  exact ⟨lp, rp, rfl, rfl, hoperands.eq_commonPrim ▸ Operator.eq_of_resultType ht⟩

end FeatherGo.Checker
