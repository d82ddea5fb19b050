import FeatherGo.Proofs.Literals.Conversion
import FeatherGo.Proofs.Literals.Results

/-!
# Operators on literals

A literal is normal if its payload has the form that its kind stands for (`Literal.Normal`): whole
numbers at the integer kinds, those of 32 bits at `int32`, and floats at the others. Conversion makes
literals normal, and is defined on a normal one exactly if its kind is related to the target, the same or
a number as well (`Literal.convert_isSome_iff`). On normal operands of one primitive type an operator
that is defined on its kind gives a normal literal of the type it promises, unless it divides by zero
(`Operator.applyCommon_normal`).
-/

namespace FeatherGo

/-- Kinds between which constants convert: the same, or both of numbers. -/
def Kind.Related (j k : Kind) : Prop := j = k ∨ (j.isNumeric && k.isNumeric) = true

instance (j k : Kind) : Decidable (j.Related k) :=
  inferInstanceAs (Decidable (j = k ∨ (j.isNumeric && k.isNumeric) = true))

theorem Kind.Related.refl (k : Kind) : k.Related k := .inl rfl

theorem Kind.Related.symm {j k : Kind} (h : j.Related k) : k.Related j :=
  h.imp Eq.symm fun h => by rwa [Bool.and_comm]

/-- The payloads in the form that a kind stands for. -/
inductive Payload.Normal : Kind → Payload → Prop
  | bool (b : Bool) : Normal .bool (.bool b)
  | string (s : String) : Normal .string (.string s)
  | int32 {n : Int64} (kept : n.toInt32.toInt64 = n) : Normal .int32 (.int n)
  | int64 (n : Int64) : Normal .int64 (.int n)
  | float32 (x : Float) : Normal .float32 (.float x)
  | float64 (x : Float) : Normal .float64 (.float x)

namespace Literal

/-- A literal whose payload has the form of its kind. -/
def Normal (l : Literal) : Prop := l.payload.Normal l.prim.kind

/-- A literal that is normal, or takes the form of a typed one beside it. -/
def NormalBeside (l : Literal) (p : Prim) : Prop :=
  l.Normal ∨ l.prim.untyped = true ∧ p.untyped = false

theorem normal_ofBool (b : Bool) : (ofBool b).Normal := .bool b

/-- What 32 bits hold is kept by narrowing. -/
theorem toInt32_toInt64_ofInt {n : Int} (hlo : Int32.minValue.toInt ≤ n)
    (hhi : n ≤ Int32.maxValue.toInt) : (Int64.ofInt n).toInt32.toInt64 = Int64.ofInt n := by
  rw [Int64.toInt32_ofInt, Int32.toInt64_ofInt hlo hhi]

/-! ## Conversion -/

theorem convert_normal {l l' : Literal} {k : Kind} (h : l.convert k = some l') :
    l'.payload.Normal k ∧ l'.prim = .typed k := by
  obtain ⟨payload, p⟩ := l
  cases payload with
  | bool b =>
    cases k <;> cases h
    exact ⟨.bool b, rfl⟩
  | string s =>
    cases k <;> cases h
    exact ⟨.string s, rfl⟩
  | int n =>
    cases k <;> cases h
    · exact ⟨.int32 (by rw [Int32.toInt32_toInt64]), rfl⟩
    · exact ⟨.int64 n, rfl⟩
    · exact ⟨.float32 _, rfl⟩
    · exact ⟨.float64 _, rfl⟩
  | float x =>
    cases k <;> cases h
    · have hlo : Int32.minValue.toInt ≤ 0 := by decide
      have hhi : 0 ≤ Int32.maxValue.toInt := by decide
      have hc := (Binary64.denotation x).clamp_mem hlo hhi
      exact ⟨.int32 (toInt32_toInt64_ofInt hc.1 hc.2), rfl⟩
    · exact ⟨.int64 _, rfl⟩
    · exact ⟨.float32 _, rfl⟩
    · exact ⟨.float64 _, rfl⟩

/-- A normal literal converts to the related kinds. -/
theorem convert_isSome_iff {l : Literal} (h : l.Normal) (k : Kind) :
    (l.convert k).isSome ↔ l.prim.kind.Related k := by
  obtain ⟨payload, j, u⟩ := l
  unfold Normal at h
  dsimp only at h ⊢
  cases h <;> cases k <;> simp [convert, Kind.Related, Kind.isNumeric, Kind.isIntegral, Kind.isFloat]

end Literal

/-- Types of two operands that meet: a typed one imposes its type, untyped ones have related kinds. -/
def Prim.Meets (p q : Prim) : Prop :=
  p.untyped = true → q.untyped = true → p.kind.Related q.kind

instance (p q : Prim) : Decidable (p.Meets q) :=
  inferInstanceAs (Decidable (p.untyped = true → q.untyped = true → p.kind.Related q.kind))

namespace Operator

variable {op : Operator} {p : Prim} {l r v : Literal}

/-- A normal operand of a related kind is brought to a type as a normal one. -/
theorem adapt_normal (hl : l.Normal) (hp : l.prim.kind.Related p.kind) :
    ∃ l', adapt l p = .ok l' ∧ l'.Normal ∧ l'.prim = p := by
  rw [adapt]
  split
  · rename_i heq
    exact ⟨l, rfl, hl, heq⟩
  · obtain ⟨l', hl'⟩ := Option.isSome_iff_exists.1 ((Literal.convert_isSome_iff hl p.kind).2 hp)
    rw [hl']
    exact ⟨⟨l'.payload, p⟩, rfl, (Literal.convert_normal hl').1, rfl⟩

/-- A normal operand of another kind is not. -/
theorem adapt_unsupported (hl : l.Normal) (hp : ¬l.prim.kind.Related p.kind) :
    adapt l p = .error (.unsupported p) := by
  have hne : l.prim ≠ p := fun heq => hp (.inl (congrArg Prim.kind heq))
  have hnone : l.convert p.kind = none := by
    rw [← Option.not_isSome_iff_eq_none, Literal.convert_isSome_iff hl]
    exact hp
  rw [adapt, if_neg hne, hnone]

/-! ## Integers -/

/-- Arithmetic at the width of `int32` gives what 32 bits hold. -/
theorem applyInt_kept {a b n : Int64} (h : op.applyInt .int32 a b = .ok n) :
    n.toInt32.toInt64 = n := by
  unfold applyInt at h
  split at h
  · cases h
  · rw [if_pos rfl] at h
    dsimp only at h
    have hkept (m : Int32) (h : Except.ok m.toInt64 = (.ok n : Except OperatorFault Int64)) :
        n.toInt32.toInt64 = n := by
      rw [← Except.ok.inj h, Int32.toInt32_toInt64]
    split at h
    · exact hkept _ h
    · exact hkept _ h
    · exact hkept _ h
    · split at h
      · cases h
      · exact hkept _ h

/-- Integer arithmetic gives a number, unless it divides by zero, if the divisor keeps its value. -/
theorem applyInt_total {k : Kind} (hop : op.isArithmetic = true) (a : Int64) {b : Int64}
    (hb : k = .int32 → b.toInt32.toInt64 = b) :
    op.applyInt k a b = .error .divisionByZero ∨ ∃ n, op.applyInt k a b = .ok n := by
  unfold applyInt
  split
  · exact .inl rfl
  · rename_i hdiv
    right
    split
    · rename_i hk
      cases op with
      | add | sub | mul => exact ⟨_, rfl⟩
      | div =>
        have hnonzero : b.toInt32 ≠ 0 := fun h => hdiv ⟨rfl, by rw [← hb hk, h]; rfl⟩
        exact ⟨_, if_neg hnonzero⟩
      | _ => cases hop
    · cases op <;> exact ⟨_, rfl⟩

/-! ## Operands of one type -/

/-- An operator on two integers gives a number or a boolean, unless it divides by zero, if the numbers
have the form of the common kind. -/
theorem applyCommon_int {a b : Int64} (hop : op.isLogical = false)
    (hkind : ∀ n : Int64, (p.kind = .int32 → n.toInt32.toInt64 = n) → Payload.Normal p.kind (.int n))
    (hb : p.kind = .int32 → b.toInt32.toInt64 = b) :
    op.applyCommon p (.int a) (.int b) = .error .divisionByZero
      ∨ ∃ v, op.applyCommon p (.int a) (.int b) = .ok v ∧ v.Normal := by
  unfold applyCommon
  split
  · exact .inr ⟨_, rfl, Literal.normal_ofBool _⟩
  · rename_i he
    rw [if_neg (by simp [hop])]
    split
    · exact .inr ⟨_, rfl, Literal.normal_ofBool _⟩
    · rename_i ho
      have harith : op.isArithmetic = true := by simp [isArithmetic_eq, he, hop, ho]
      dsimp only
      rcases applyInt_total harith a hb with hn | ⟨n, hn⟩
      · exact .inl (by rw [hn]; rfl)
      · refine .inr ⟨⟨.int n, p⟩, by rw [hn]; rfl, hkind n fun hk => ?_⟩
        rw [hk] at hn
        exact applyInt_kept hn

/-- **An operator on normal operands of one type** gives a normal literal, unless it divides by zero. -/
theorem applyCommon_normal {a b : Payload} (hop : op.definedOn p.kind = true)
    (ha : a.Normal p.kind) (hb : b.Normal p.kind) :
    op.applyCommon p a b = .error .divisionByZero
      ∨ ∃ v, op.applyCommon p a b = .ok v ∧ v.Normal := by
  obtain ⟨k, u⟩ := p
  dsimp only at hop ha hb
  have hnumber (h : op.definedOn k = true) (hk : k ≠ .bool) : op.isLogical = false := by
    cases op <;> first | rfl | cases k <;> first | exact absurd rfl hk | cases h
  cases ha with
  | bool a =>
    cases hb with
    | bool b =>
      cases op <;> first | exact .inr ⟨_, rfl, .bool _⟩ | cases hop
  | string s =>
    cases hb with
    | string t =>
      cases op <;> first | exact .inr ⟨_, rfl, .bool _⟩ | exact .inr ⟨_, rfl, .string _⟩ | cases hop
  | int32 _ =>
    cases hb with
    | int32 kept => exact applyCommon_int (hnumber hop (by simp)) (fun _ h => .int32 (h rfl)) fun _ => kept
  | int64 a =>
    cases hb with
    | int64 b => exact applyCommon_int (hnumber hop (by simp)) (fun n _ => .int64 n) (by simp)
  | float32 x =>
    cases hb with
    | float32 y =>
      cases op <;> first | exact .inr ⟨_, rfl, .bool _⟩ | exact .inr ⟨_, rfl, .float32 _⟩ | cases hop
  | float64 x =>
    cases hb with
    | float64 y =>
      cases op <;> first | exact .inr ⟨_, rfl, .bool _⟩ | exact .inr ⟨_, rfl, .float64 _⟩ | cases hop

/-! ## Operands of their own types -/

/-- An operator on normal operands has a normal result or divides by zero exactly if their kinds are
related to the common one. -/
theorem apply_normal_iff (hp : commonPrim l.prim r.prim = p) (hop : op.definedOn p.kind = true)
    (hl : l.Normal) (hr : r.Normal) :
    (op.apply l r = .error .divisionByZero ∨ ∃ v, op.apply l r = .ok v ∧ v.Normal)
      ↔ l.prim.kind.Related p.kind ∧ r.prim.kind.Related p.kind := by
  rw [apply, hp]
  by_cases hlp : l.prim.kind.Related p.kind
  · obtain ⟨l', hl', hln, hlp'⟩ := adapt_normal hl hlp
    rw [hl']
    by_cases hrp : r.prim.kind.Related p.kind
    · obtain ⟨r', hr', hrn, hrp'⟩ := adapt_normal hr hrp
      rw [hr']
      rw [Literal.Normal, hlp'] at hln
      rw [Literal.Normal, hrp'] at hrn
      exact iff_of_true (applyCommon_normal hop hln hrn) ⟨hlp, hrp⟩
    · rw [adapt_unsupported hr hrp]
      exact iff_of_false (by rintro (h | ⟨v, h, -⟩) <;> cases h) fun h => hrp h.2
  · rw [adapt_unsupported hl hlp]
    exact iff_of_false (by rintro (h | ⟨v, h, -⟩) <;> cases h) fun h => hlp h.1

end Operator

end FeatherGo
