import FeatherGo.Proofs.Literals.Operators

/-!
# Integer arithmetic

Operators on integers compute with what the width of the common type keeps of the operands, and give what
it keeps of the exact result (`Operator.apply_integers`). The quotient cuts off toward zero.

Before a quotient is taken at 32 bits, the divisor is compared with zero as it stands. A divisor that has
the common type is not converted to it, so a number that leaves nothing in 32 bits, such as `2 ^ 32`, is
not seen to be zero, and the division that follows is by zero (`Operator.divisorLost_of_div`).
-/

namespace FeatherGo

/-! ## Widths -/

namespace Kind

/-- How many bits an integer kind has. -/
def width : Kind → Nat
  | .int32 => 32
  | _ => 64

/-- The least number of an integer kind. -/
def least (k : Kind) : Int := -2 ^ (k.width - 1)

/-- Whether a number is in the range of an integer kind, which is that of the signed numbers of its
width. -/
def Holds (k : Kind) (n : Int) : Prop := k.least ≤ n ∧ n < 2 ^ (k.width - 1)

/-- What the width of an integer kind keeps of a number: the signed number with the same low bits. -/
def narrow (k : Kind) (n : Int) : Int := n.bmod (2 ^ k.width)

variable {k : Kind}

theorem isIntegral_iff : k.isIntegral = true ↔ k = .int32 ∨ k = .int64 := by
  cases k <;> simp [isIntegral]

theorem holds_int32 {n : Int} :
    Kind.int32.Holds n ↔ Int32.minValue.toInt ≤ n ∧ n ≤ Int32.maxValue.toInt := by
  have hlo : Int32.minValue.toInt = -2147483648 := by decide
  have hhi : Int32.maxValue.toInt = 2147483647 := by decide
  simp only [Holds, least, width, hlo, hhi]
  omega

theorem holds_int64 {n : Int} :
    Kind.int64.Holds n ↔ Int64.minValue.toInt ≤ n ∧ n ≤ Int64.maxValue.toInt := by
  have hlo : Int64.minValue.toInt = -9223372036854775808 := by decide
  have hhi : Int64.maxValue.toInt = 9223372036854775807 := by decide
  simp only [Holds, least, width, hlo, hhi]
  omega

/-- What is kept is in the range. -/
theorem holds_narrow (k : Kind) (n : Int) : k.Holds (k.narrow n) := by
  have hlo := Int.le_bmod (x := n) (m := 2 ^ k.width) (by positivity)
  have hhi := Int.bmod_lt (x := n) (m := 2 ^ k.width) (by positivity)
  cases k <;> simp only [Holds, least, narrow, width] at hlo hhi ⊢ <;> omega

/-- What is in the range is kept. -/
theorem narrow_of_holds {n : Int} (h : k.Holds n) : k.narrow n = n := by
  refine Int.bmod_eq_of_le ?_ ?_
  all_goals
    obtain ⟨hlo, hhi⟩ := h
    cases k <;> simp only [least, width] at hlo hhi ⊢ <;> omega

@[simp] theorem narrow_narrow (k : Kind) (n : Int) : k.narrow (k.narrow n) = k.narrow n :=
  narrow_of_holds (k.holds_narrow n)

/-- A 64-bit payload is in the range of 64 bits. -/
theorem narrow_int64 (a : Int64) : Kind.int64.narrow a.toInt = a.toInt :=
  narrow_of_holds (holds_int64.2 ⟨a.le_toInt, a.toInt_le⟩)

theorem narrow_int32 (a : Int64) : Kind.int32.narrow a.toInt = a.toInt32.toInt :=
  (Int64.toInt_toInt32 a).symm

/-- The quotient of the least number by minus one is beyond the range by one, and the least number is what
is kept of it. -/
theorem narrow_least_tdiv (hk : k.isIntegral = true) : k.narrow (k.least.tdiv (-1)) = k.least := by
  rcases isIntegral_iff.1 hk with rfl | rfl <;> decide

end Kind

namespace Operator

/-- The exact result of an arithmetic operator; quotients are cut off toward zero. -/
def exact : Operator → Int → Int → Int
  | .add, x, y => x + y
  | .sub, x, y => x - y
  | .mul, x, y => x * y
  | _, x, y => x.tdiv y

variable {op : Operator} {k : Kind} {a b : Int64}

/-! ## Arithmetic of payloads -/

/-- Arithmetic gives what is kept of the exact result on what is kept of the operands, unless nothing is
kept of a divisor. -/
theorem applyInt_exact (hk : k.isIntegral = true) (hop : op.isArithmetic = true)
    (hb : op = .div → k.narrow b.toInt ≠ 0) :
    ∃ n, op.applyInt k a b = .ok n
      ∧ n.toInt = k.narrow (op.exact (k.narrow a.toInt) (k.narrow b.toInt)) := by
  have hzero : ¬(op = .div ∧ b = 0) := by
    rintro ⟨rfl, rfl⟩
    exact hb rfl (by cases k <;> rfl)
  rcases Kind.isIntegral_iff.1 hk with rfl | rfl
  · unfold applyInt
    rw [if_neg hzero, if_pos rfl]
    simp only [Kind.narrow_int32] at hb ⊢
    cases op with
    | add => exact ⟨_, rfl, (Int32.toInt_toInt64 _).trans (Int32.toInt_add _ _)⟩
    | sub => exact ⟨_, rfl, (Int32.toInt_toInt64 _).trans (Int32.toInt_sub _ _)⟩
    | mul => exact ⟨_, rfl, (Int32.toInt_toInt64 _).trans (Int32.toInt_mul _ _)⟩
    | div =>
      have hne : b.toInt32 ≠ 0 := fun h => hb rfl (by rw [h]; rfl)
      exact ⟨_, if_neg hne, (Int32.toInt_toInt64 _).trans (Int32.toInt_div _ _)⟩
    | _ => cases hop
  · unfold applyInt
    rw [if_neg hzero, if_neg (by decide)]
    simp only [Kind.narrow_int64]
    cases op with
    | add => exact ⟨_, rfl, Int64.toInt_add _ _⟩
    | sub => exact ⟨_, rfl, Int64.toInt_sub _ _⟩
    | mul => exact ⟨_, rfl, Int64.toInt_mul _ _⟩
    | div => exact ⟨_, rfl, Int64.toInt_div _ _⟩
    | _ => cases hop

/-- A quotient whose divisor leaves nothing fails, with the fault that the divisor as it stands gives
rise to. -/
theorem applyInt_div_of_narrow_eq_zero (hk : k.isIntegral = true) (hb : k.narrow b.toInt = 0) :
    Operator.div.applyInt k a b = .error (if b = 0 then .divisionByZero else .divisorLost) := by
  unfold applyInt
  by_cases hzero : b = 0
  · rw [if_pos ⟨rfl, hzero⟩, if_pos hzero]
  · rw [if_neg fun h => hzero h.2, if_neg hzero]
    rcases Kind.isIntegral_iff.1 hk with rfl | rfl
    · rw [Kind.narrow_int32] at hb
      rw [if_pos rfl]
      exact if_pos (Int32.toInt_inj.1 hb)
    · rw [Kind.narrow_int64] at hb
      exact absurd (Int64.toInt_inj.1 hb) hzero

/-! ## Integer literals -/

variable {p q c : Prim}

/-- An integer operand stays as it is if it has the common type, else it is narrowed to it. -/
theorem adapt_int (hc : c.kind.isIntegral = true) (a : Int64) (p : Prim) :
    ∃ a' : Int64, adapt ⟨.int a, p⟩ c = .ok ⟨.int a', c⟩
      ∧ a'.toInt = if p = c then a.toInt else c.kind.narrow a.toInt := by
  by_cases hp : p = c
  · subst hp
    exact ⟨a, if_pos rfl, (if_pos rfl).symm⟩
  · simp only [adapt, if_neg hp]
    obtain ⟨k, u⟩ := c
    rcases Kind.isIntegral_iff.1 hc with rfl | rfl
    · exact ⟨_, rfl, by rw [Int32.toInt_toInt64, Kind.narrow_int32]⟩
    · exact ⟨_, rfl, (Kind.narrow_int64 a).symm⟩

/-- The common type of integers is an integer type. -/
theorem isIntegral_commonPrim (hp : p.kind.isIntegral = true) (hq : q.kind.isIntegral = true) :
    (commonPrim p q).kind.isIntegral = true := by
  rw [commonPrim]
  split
  · exact hp
  · split
    · exact hq
    · split
      · exact hp
      · exact hq

/-- An arithmetic operator on integers computes with what the common type keeps of them. -/
theorem apply_int (op : Operator) (hc : commonPrim p q = c) (hk : c.kind.isIntegral = true)
    (hop : op.isArithmetic = true) (a b : Int64) :
    ∃ a' b' : Int64, op.apply ⟨.int a, p⟩ ⟨.int b, q⟩
        = (do return ⟨.int (← op.applyInt c.kind a' b'), c⟩)
      ∧ c.kind.narrow a'.toInt = c.kind.narrow a.toInt
      ∧ b'.toInt = if q = c then b.toInt else c.kind.narrow b.toInt := by
  obtain ⟨a', ha, ha'⟩ := adapt_int hk a p
  obtain ⟨b', hb, hb'⟩ := adapt_int hk b q
  refine ⟨a', b', ?_, ?_, hb'⟩
  · simp only [apply, hc, ha, hb]
    cases op with
    | add | sub | mul | div => rfl
    | _ => cases hop
  · rw [ha']
    split
    · rfl
    · exact Kind.narrow_narrow _ _

/-- Operators that are no arithmetic do not divide. -/
theorem apply_ne_divisorLost (hop : op.isArithmetic = false) (l r : Literal) :
    op.apply l r ≠ .error .divisorLost := by
  have hadapt (l : Literal) (p : Prim) : adapt l p ≠ .error .divisorLost := by
    rw [adapt]
    split
    · simp
    · split <;> simp
  have hcommon (p : Prim) (x y : Payload) : op.applyCommon p x y ≠ .error .divisorLost := by
    unfold applyCommon
    split
    · simp
    · split
      · split <;> simp
      · split
        · split <;> simp
        · rename_i he hl ho
          simp [isArithmetic_eq, he, hl, ho] at hop
  cases hl : adapt l (commonPrim l.prim r.prim) with
  | error e =>
    simp only [apply, hl]
    exact fun h => hadapt _ _ (hl.trans h)
  | ok l' =>
    cases hr : adapt r (commonPrim l.prim r.prim) with
    | error e =>
      simp only [apply, hl, hr]
      exact fun h => hadapt _ _ (hr.trans (congrArg _ (Except.error.inj h)))
    | ok r' =>
      simp only [apply, hl, hr]
      exact hcommon _ _ _

section Common

variable (hc : commonPrim p q = c) (hk : c.kind.isIntegral = true)

include hc hk

/-- Arithmetic on integers gives what the common type keeps of the exact result, unless it keeps nothing
of a divisor. -/
theorem apply_exact (hop : op.isArithmetic = true) (hb : op = .div → c.kind.narrow b.toInt ≠ 0) :
    ∃ n : Int64, op.apply ⟨.int a, p⟩ ⟨.int b, q⟩ = .ok ⟨.int n, c⟩
      ∧ n.toInt = c.kind.narrow (op.exact (c.kind.narrow a.toInt) (c.kind.narrow b.toInt)) := by
  obtain ⟨a', b', happly, ha, hb'⟩ := apply_int op hc hk hop a b
  have hkept : c.kind.narrow b'.toInt = c.kind.narrow b.toInt := by
    rw [hb']
    split
    · rfl
    · exact Kind.narrow_narrow _ _
  obtain ⟨n, hn, hval⟩ := applyInt_exact (a := a') (b := b') hk hop (by rwa [hkept])
  rw [ha, hkept] at hval
  exact ⟨n, by rw [happly, hn]; rfl, hval⟩

/-- A divisor of which nothing is kept is seen to be zero if it is converted or is zero as it stands. -/
theorem apply_div_of_narrow_eq_zero (hb : c.kind.narrow b.toInt = 0) :
    Operator.div.apply ⟨.int a, p⟩ ⟨.int b, q⟩
      = .error (if q = c → b = 0 then .divisionByZero else .divisorLost) := by
  obtain ⟨a', b', happly, -, hb'⟩ := apply_int .div hc hk rfl a b
  by_cases hq : q = c
  · rw [if_pos hq, Int64.toInt_inj] at hb'
    subst hb'
    rw [happly, applyInt_div_of_narrow_eq_zero hk hb]
    simp only [hq, forall_true_left]
    rfl
  · rw [if_neg hq, hb] at hb'
    obtain rfl : b' = 0 := Int64.toInt_inj.1 hb'
    rw [happly, applyInt_div_of_narrow_eq_zero hk (by simp [Kind.narrow])]
    simp only [hq, false_implies, if_true]
    rfl

theorem apply_eq_divisionByZero_iff :
    Operator.div.apply ⟨.int a, p⟩ ⟨.int b, q⟩ = .error .divisionByZero
      ↔ c.kind.narrow b.toInt = 0 ∧ (q = c → b = 0) := by
  by_cases hb : c.kind.narrow b.toInt = 0
  · rw [apply_div_of_narrow_eq_zero hc hk hb, and_iff_right hb]
    by_cases hq : q = c → b = 0 <;> simp [hq]
  · obtain ⟨n, hn, -⟩ := apply_exact (a := a) hc hk (rfl : Operator.div.isArithmetic = true) fun _ => hb
    simp [hn, hb]

/-- A number is divided by zero just if it is divided by one that has the common type and is zero only in
its width. -/
theorem apply_eq_divisorLost_iff : op.apply ⟨.int a, p⟩ ⟨.int b, q⟩ = .error .divisorLost
    ↔ op = .div ∧ c.kind.narrow b.toInt = 0 ∧ q = c ∧ b ≠ 0 := by
  cases hop : op.isArithmetic with
  | false =>
    refine iff_of_false (apply_ne_divisorLost hop _ _) ?_
    rintro ⟨rfl, -⟩
    cases hop
  | true =>
    by_cases hb : op = .div → c.kind.narrow b.toInt ≠ 0
    · obtain ⟨n, hn, -⟩ := apply_exact (a := a) hc hk hop hb
      refine iff_of_false (by simp [hn]) ?_
      rintro ⟨hdiv, hzero, -⟩
      exact hb hdiv hzero
    · push Not at hb
      obtain ⟨rfl, hb⟩ := hb
      rw [apply_div_of_narrow_eq_zero hc hk hb]
      by_cases hq : q = c → b = 0
      · refine iff_of_false (by simpa using hq) ?_
        rintro ⟨-, -, h, hne⟩
        exact hne (hq h)
      · push Not at hq
        simp [hq, hb]

end Common

/-- **Integer arithmetic is exact up to the width of the common type.** Sums, differences and products are
what it keeps of the exact result on what it keeps of the operands, and so are quotients by what is not
zero there, that of the least number by minus one too. A quotient whose divisor is zero there divides by
zero, unless the divisor has the common type and is not zero as it stands: then, and only then, is a
number divided by zero after the test for it. -/
theorem apply_integers {p q : Prim} (hp : p.kind.isIntegral = true) (hq : q.kind.isIntegral = true)
    (a b : Int64) :
    let c := commonPrim p q
    let x := c.kind.narrow a.toInt
    let y := c.kind.narrow b.toInt
    (∀ op : Operator, op.isArithmetic = true → (op = .div → y ≠ 0) →
        ∃ n : Int64, op.apply ⟨.int a, p⟩ ⟨.int b, q⟩ = .ok ⟨.int n, c⟩
          ∧ n.toInt = c.kind.narrow (op.exact x y) ∧ c.kind.Holds n.toInt)
      ∧ (x = c.kind.least → y = -1 → ∃ n : Int64,
        Operator.div.apply ⟨.int a, p⟩ ⟨.int b, q⟩ = .ok ⟨.int n, c⟩ ∧ n.toInt = c.kind.least)
      ∧ (Operator.div.apply ⟨.int a, p⟩ ⟨.int b, q⟩ = .error .divisionByZero
        ↔ y = 0 ∧ (q = c → b = 0))
      ∧ ∀ op : Operator, op.apply ⟨.int a, p⟩ ⟨.int b, q⟩ = .error .divisorLost
        ↔ op = .div ∧ y = 0 ∧ q = c ∧ b ≠ 0 := by
  intro c x y
  have hc : c.kind.isIntegral = true := isIntegral_commonPrim hp hq
  refine ⟨fun op hop hy => ?_, fun hx hy => ?_, apply_eq_divisionByZero_iff rfl hc,
    fun op => apply_eq_divisorLost_iff rfl hc⟩
  · obtain ⟨n, hn, hval⟩ := apply_exact rfl hc hop hy
    exact ⟨n, hn, hval, hval ▸ c.kind.holds_narrow _⟩
  · obtain ⟨n, hn, hval⟩ := apply_exact (a := a) (b := b) rfl hc (rfl : Operator.div.isArithmetic = true)
      fun _ h => by cases hy.symm.trans h
    refine ⟨n, hn, hval.trans ?_⟩
    rw [show c.kind.narrow a.toInt = _ from hx, show c.kind.narrow b.toInt = _ from hy]
    exact Kind.narrow_least_tdiv hc

/-- The least 32-bit number as a constant, divided by a 64-bit payload that leaves minus one in 32 bits. -/
theorem apply_least_div : Kind.int32.isIntegral = true
    ∧ ∃ n : Int64, Operator.div.apply ⟨.int (-2147483648), .constant .int32⟩ ⟨.int 4294967295, .typed .int32⟩
        = .ok ⟨.int n, .typed .int32⟩ ∧ n.toInt = -2147483648 :=
  ⟨rfl, (apply_integers (p := .constant .int32) (q := .typed .int32) rfl rfl (-2147483648) 4294967295).2.1
    (by decide) (by decide)⟩

/-- The divisor `2 ^ 32` leaves nothing in 32 bits and is no zero when it is tested. -/
theorem divisorLost_of_div :
    Kind.int32.narrow (Int64.toInt 4294967296) = 0
      ∧ Operator.div.apply ⟨.int 1, .constant .int32⟩ ⟨.int 4294967296, .constant .int32⟩
        = .error .divisorLost :=
  ⟨by decide, rfl⟩

end Operator

end FeatherGo
