import FeatherGo.Proofs.Literals.Operators
import FeatherGo.Proofs.Typing.Rechecking

/-!
# Operators that the check accepts

An operation on constants that passes its check has a result of the type that the check gave it, or
divides by zero, if its constants are normal and their types meet
(`Checker.apply_of_check`): a typed one takes the other to its type, and untyped ones have related kinds.

The check does not ask untyped operands to have related kinds. It takes the kind of the higher rank for
the common one and accepts `true == 1`, which has no result (`Checker.unrelated_unsupported`); of a typed
and an untyped operand it does ask it. Nor does it ask a typed constant to be normal: `float64(1)` may be
written with a whole number for its payload.
-/

namespace FeatherGo.Checker

variable {C : Checker} {Δ : Bounds} {Γ : Scope}

/-- An untyped literal that flows into a place of a typed primitive becomes a normal literal of it. -/
theorem literal_of_coerce {p q : Prim} {l : Literal} {e : Expr} {dest : Destination}
    (hp : p.untyped = false) (hq : q.untyped = true)
    (h : C.coerce Δ (.prim q) (.lit l) (.prim p) dest = .ok e) :
    ∃ l', e = .lit l' ∧ l'.prim = p ∧ l'.Normal := by
  obtain ⟨t, hflow⟩ := exists_flow h
  have ht := hflow.eq_prim hp
  cases hflow with
  | loose place _ =>
    cases place
    rw [hp] at *
    contradiction
  | typed typed _ => exact absurd (by rw [← hq]) (typed q.kind)
  | @represented source k may fit _ =>
    obtain ⟨l', hl', hprim, -⟩ := Literal.exists_convert (fits_of_unfit fit)
    have hp' : Prim.typed k = p := Ty.prim.inj ht
    obtain ⟨hnormal, -⟩ := Literal.convert_normal hl'
    refine ⟨l', by rw [represent, hl'], hprim.trans hp', ?_⟩
    rwa [Literal.Normal, hprim]

/-- Literals that are brought to a common type are literals, of which it is the common type. -/
theorem Operands.literals {op : Operator} {l r : Literal} {p : Prim} {a b : Expr}
    (h : Operands C Δ op (.lit l) (.lit r) l.prim r.prim p a b) :
    ∃ l' r', a = .lit l' ∧ b = .lit r' ∧ Operator.commonPrim l'.prim r'.prim = p
      ∧ (l.NormalBeside r.prim → l'.Normal) ∧ (r.NormalBeside l.prim → r'.Normal)
      ∧ (l'.prim.kind.Related p.kind ∧ r'.prim.kind.Related p.kind ↔ l.prim.Meets r.prim) := by
  have hkept {l : Literal} {q : Prim} (hu : ¬(l.prim.untyped = true ∧ q.untyped = false))
      (h : l.NormalBeside q) : l.Normal := h.resolve_right hu
  generalize hlp : l.prim = lp at h
  generalize hrp : r.prim = rp at h
  cases h with
  | untyped left right =>
    refine ⟨l, r, rfl, rfl, ?_, hkept (by simp [right]), hkept (by simp [left]), ?_⟩
    · rw [hlp, hrp, Operator.commonPrim_untyped left right]
    · have hmeets : lp.Meets rp ↔ lp.kind.Related rp.kind :=
        ⟨fun h => h left right, fun h _ _ => h⟩
      rw [hmeets, hlp, hrp]
      dsimp only [Prim.constant]
      split
      · exact ⟨fun h => h.2.symm, fun h => ⟨.refl _, h.symm⟩⟩
      · exact ⟨fun h => h.1, fun h => ⟨h, .refl _⟩⟩
  | left left right flows =>
    obtain ⟨r', rfl, hr', hnormal⟩ := literal_of_coerce left right flows
    refine ⟨l, r', rfl, rfl, ?_, hkept (by simp [right]), fun _ => hnormal, ?_⟩
    · rw [hlp, Operator.commonPrim_typed left]
    · rw [hlp, hr']
      exact iff_of_true ⟨.refl _, .refl _⟩ fun h => absurd h (by simp [left])
  | right left right flows =>
    obtain ⟨l', rfl, hl', hnormal⟩ := literal_of_coerce right left flows
    refine ⟨l', r, rfl, rfl, ?_, fun _ => hnormal, hkept (by simp [left]), ?_⟩
    · rw [hl', Operator.commonPrim_typed right]
    · rw [hl', hrp]
      exact iff_of_true ⟨.refl _, .refl _⟩ fun _ h => absurd h (by simp [right])
  | typed typed =>
    refine ⟨l, r, rfl, rfl, ?_, hkept (by simp [hlp, typed]), hkept (by simp [hrp, typed]), ?_⟩
    · rw [hlp, Operator.commonPrim_typed typed]
    · rw [hlp, hrp]
      exact iff_of_true ⟨.refl _, .refl _⟩ fun h => absurd h (by simp [typed])

/-- **The check and the evaluation of operators agree.** An operation on constants that passes its check
is rewritten to one on constants; its result, if it has one, has the type that the check gave the
operation; and where the constants are normal, or take the form of a typed one beside them, it has a
result, normal again, or divides by zero exactly if their types meet. -/
theorem apply_of_check {op : Operator} {l r : Literal} {T : Ty} {e : Expr}
    (h : C.check Δ Γ (.binary op (.lit l) (.lit r)) = .ok (T, e)) :
    ∃ l' r', e = .binary op (.lit l') (.lit r')
      ∧ (∀ v, op.apply l' r' = .ok v → T = .prim v.prim)
      ∧ (l.NormalBeside r.prim → r.NormalBeside l.prim →
        ((op.apply l' r' = .error .divisionByZero ∨ ∃ v, op.apply l' r' = .ok v ∧ v.Normal)
          ↔ l.prim.Meets r.prim)) := by
  obtain ⟨tl, el, tr, er, hl, hr, h⟩ := of_check_binary h
  obtain ⟨rfl, rfl⟩ := of_check_lit hl
  obtain ⟨rfl, rfl⟩ := of_check_lit hr
  obtain ⟨lp, rp, p, a, b, hlp, hrp, hoperands, ht, rfl⟩ := exists_operands h
  obtain rfl := Ty.prim.inj hlp
  obtain rfl := Ty.prim.inj hrp
  obtain ⟨l', r', rfl, rfl, hp, hln, hrn, hmeets⟩ := hoperands.literals
  have hop : op.definedOn p.kind = true := by
    by_contra hop
    rw [Operator.resultType, if_neg hop] at ht
    cases ht
  refine ⟨l', r', rfl, fun v hv => Operator.prim_apply hv (hp ▸ ht), fun hl hr => ?_⟩
  rw [Operator.apply_normal_iff hp hop (hln hl) (hrn hr), hmeets]

/-- The quotient of a 32-bit number and an untyped one is of 32 bits. -/
theorem quotient_agrees : ∃ (C : Checker) (T : Ty) (e : Expr),
    C.check [] [] (.binary .div (.lit ⟨.int 7, .typed .int32⟩) (.lit ⟨.int 2, .constant .int64⟩))
        = .ok (T, e)
      ∧ ∃ l' r', e = .binary .div (.lit l') (.lit r')
        ∧ (∀ v, Operator.div.apply l' r' = .ok v → T = .prim v.prim)
        ∧ (Operator.div.apply l' r' = .error .divisionByZero
          ∨ ∃ v, Operator.div.apply l' r' = .ok v ∧ v.Normal) := by
  have h : check ⟨⟨[], []⟩, false, 0⟩ [] []
      (.binary .div (.lit ⟨.int 7, .typed .int32⟩) (.lit ⟨.int 2, .constant .int64⟩))
      = .ok (.ofKind .int32,
        .binary .div (.lit ⟨.int 7, .typed .int32⟩) (.lit ⟨.int 2, .typed .int32⟩)) := rfl
  obtain ⟨l', r', he, htype, hiff⟩ := apply_of_check h
  exact ⟨_, _, _, h, l', r', he, htype,
    (hiff (.inl (.int32 (by decide))) (.inr ⟨rfl, rfl⟩)).2 (by decide)⟩

/-- Truth and one, both untyped, are accepted as operands of `==`, which is not defined on them. -/
theorem unrelated_unsupported : ∃ (C : Checker) (l r : Literal), l.Normal ∧ r.Normal
    ∧ C.check [] [] (.binary .eq (.lit l) (.lit r))
      = .ok (.ofKind .bool, .binary .eq (.lit l) (.lit r))
    ∧ Operator.eq.apply l r = .error (.unsupported (.constant .int64)) :=
  ⟨⟨⟨[], []⟩, false, 0⟩, ⟨.bool true, .constant .bool⟩, ⟨.int 1, .constant .int64⟩, .bool true,
    .int64 1, rfl, rfl⟩

end FeatherGo.Checker
