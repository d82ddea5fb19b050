import FeatherGo.Proofs.Literals.Integers
import FeatherGo.Proofs.Typing.Rechecking

/-!
# The value of constants

A numeric constant is a rational number, which a double names exactly (`Denotation.value?`). An integer
kind holds a constant if its number is an integer in the range of the kind, and its conversion then keeps
the number (`Checker.constants_kept`).

The 64-bit kind takes one number more. The bound that a double is compared with is its greatest number
rounded to a double, which is `2 ^ 63`; the conversion holds that number within the range and gives the
one below it (`Literal.convert_rounded_bound`).
-/

namespace FeatherGo

/-! ## What a double denotes -/

namespace Denotation

/-- The number that is denoted, if a number is. -/
def value? : Denotation → Option ℚ
  | .finite s m e => some (signed s m * 2 ^ e)
  | _ => none

variable {d : Denotation} {m n : Nat} {e : Int}

theorem isWhole_iff : isWhole m e = true ↔ ∃ n : Nat, (m : ℚ) * 2 ^ e = n := by
  cases e with
  | ofNat k =>
    refine iff_of_true (by simp [isWhole]) ⟨m * 2 ^ k, ?_⟩
    rw [Int.ofNat_eq_natCast, zpow_natCast]
    push_cast
    rfl
  | negSucc k =>
    have hpos : (2 : ℚ) ^ (k + 1) ≠ 0 := by positivity
    have hwhole : isWhole m (.negSucc k) = true ↔ m % 2 ^ (k + 1) = 0 := by
      simp [isWhole, Int.neg_negSucc, Nat.one_shiftLeft]
    rw [hwhole, zpow_negSucc, ← Nat.dvd_iff_mod_eq_zero]
    constructor
    · rintro ⟨n, rfl⟩
      refine ⟨n, ?_⟩
      push_cast
      field_simp
    · rintro ⟨n, h⟩
      rw [mul_inv_eq_iff_eq_mul₀ hpos] at h
      exact ⟨n, by rw [Nat.mul_comm]; exact_mod_cast h⟩

/-- Of a whole number nothing is cut off. -/
theorem wholePart_eq (h : (m : ℚ) * 2 ^ e = n) : wholePart m e = n := by
  cases e with
  | ofNat k =>
    rw [Int.ofNat_eq_natCast, zpow_natCast] at h
    rw [wholePart, if_pos (by simp), Nat.shiftLeft_eq]
    exact_mod_cast h
  | negSucc k =>
    rw [zpow_negSucc, mul_inv_eq_iff_eq_mul₀ (by positivity)] at h
    have hm : m = n * 2 ^ (k + 1) := by exact_mod_cast h
    rw [wholePart, if_neg (by simp), Nat.shiftRight_eq_div_pow, hm]
    exact Nat.mul_div_cancel _ (by positivity)

/-- A number with a sign is whole if its magnitude is. -/
theorem signed_eq_iff {s : Bool} {n : Int} :
    (signed s m : ℚ) * 2 ^ e = n ↔ ∃ j : Nat, (m : ℚ) * 2 ^ e = j ∧ signed s j = n := by
  constructor
  · intro h
    have hpos : 0 ≤ (m : ℚ) * 2 ^ e := by positivity
    cases s with
    | false =>
      have hmag : (m : ℚ) * 2 ^ e = n := h
      rw [hmag] at hpos ⊢
      exact ⟨n.toNat, by exact_mod_cast (Int.toNat_of_nonneg (by exact_mod_cast hpos)).symm,
        Int.toNat_of_nonneg (by exact_mod_cast hpos)⟩
    | true =>
      have hmag : (m : ℚ) * 2 ^ e = (-n : Int) := by
        push_cast
        rw [← h, signed, if_pos rfl]
        push_cast
        ring
      rw [hmag] at hpos ⊢
      have hn : 0 ≤ -n := by exact_mod_cast hpos
      exact ⟨(-n).toNat, by exact_mod_cast (Int.toNat_of_nonneg hn).symm, by
        rw [signed, if_pos rfl, Int.toNat_of_nonneg hn, Int.neg_neg]⟩
  · rintro ⟨j, hj, rfl⟩
    cases s <;> simp [signed, hj]

/-- The integer that is denoted is the number that is. -/
theorem integer?_eq_some_iff {v : ℚ} {n : Int} (hv : d.value? = some v) :
    d.integer? = some n ↔ v = n := by
  cases d with
  | finite s m e =>
    obtain rfl := Option.some.inj hv
    rw [integer?, signed_eq_iff]
    constructor
    · intro h
      split at h
      · rename_i hwhole
        obtain ⟨j, hj⟩ := isWhole_iff.1 hwhole
        exact ⟨j, hj, by rw [← wholePart_eq hj]; exact Option.some.inj h⟩
      · cases h
    · rintro ⟨j, hj, rfl⟩
      rw [if_pos (isWhole_iff.2 ⟨j, hj⟩), wholePart_eq hj]
  | nan => cases hv
  | infinite _ => cases hv

/-- An integer is cut off only at the ends of the range. -/
theorem clamp_of_integer? {lo hi n : Int} (h : d.integer? = some n) :
    d.clamp lo hi = max lo (min hi n) := by
  cases d with
  | finite s m e =>
    rw [integer?] at h
    split at h
    · rw [clamp, Option.some.inj h]
    · cases h
  | nan => cases h
  | infinite _ => cases h

end Denotation

/-! ## The nearest number of a range -/

namespace Kind

variable {k : Kind} {n : Int}

/-- The number of the range of an integer kind next to a number. -/
def nearest (k : Kind) (n : Int) : Int := max k.least (min (2 ^ (k.width - 1) - 1) n)

theorem holds_nearest (k : Kind) (n : Int) : k.Holds (k.nearest n) := by
  cases k <;> simp only [Holds, nearest, least, width] <;> omega

theorem nearest_of_holds (h : k.Holds n) : k.nearest n = n := by
  obtain ⟨hlo, hhi⟩ := h
  rw [nearest, min_eq_right (Int.le_sub_one_of_lt hhi), max_eq_right hlo]

/-- No integer kind is wider than the one of 64 bits. -/
theorem holds_int64_of_holds (hk : k.isIntegral = true) (h : k.Holds n) : Kind.int64.Holds n := by
  rcases isIntegral_iff.1 hk with rfl | rfl
  · simp only [Holds, least, width] at h ⊢
    omega
  · exact h

end Kind

/-! ## Constants -/

/-- The number that a payload is, if it is one. -/
def Payload.number? : Payload → Option ℚ
  | .int n => some n.toInt
  | .float x => (Binary64.denotation x).value?
  | _ => none

namespace Literal

variable {l : Literal} {k : Kind} {v : ℚ}

/-- An integer kind holds a constant if its number is an integer in the range; the 64-bit kind takes the
one above its range too. -/
theorem fits_iff_holds (hk : k.isIntegral = true) (hv : l.payload.number? = some v) :
    l.fits k = true ↔ ∃ n : Int, v = n ∧ (k.Holds n ∨ k = .int64 ∧ n = 2 ^ 63) := by
  obtain ⟨payload, p⟩ := l
  cases payload with
  | int a =>
    obtain rfl := Option.some.inj hv
    have hsame : (∃ n : Int, (a.toInt : ℚ) = n ∧ (k.Holds n ∨ k = .int64 ∧ n = 2 ^ 63))
        ↔ k.Holds a.toInt := by
      constructor
      · rintro ⟨n, hn, hholds⟩
        obtain rfl : a.toInt = n := by exact_mod_cast hn
        exact hholds.resolve_right fun h => absurd h.2 (Int.ne_of_lt a.toInt_lt)
      · exact fun h => ⟨_, rfl, .inl h⟩
    rw [hsame]
    rcases Kind.isIntegral_iff.1 hk with rfl | rfl
    · rw [Kind.holds_int32]
      exact decide_eq_true_iff
    · exact iff_of_true rfl (Kind.holds_int64.2 ⟨a.le_toInt, a.toInt_le⟩)
  | float x =>
    have hint {n : Int} := Denotation.integer?_eq_some_iff (n := n) hv
    rcases Kind.isIntegral_iff.1 hk with rfl | rfl
    · simp only [fits, Option.any_eq_true, hint, decide_eq_true_eq, Kind.holds_int32, reduceCtorEq,
        false_and, or_false]
    · have hmax : Int64.maxValue.toInt = 2 ^ 63 - 1 := by decide
      simp only [fits, Option.any_eq_true, hint, decide_eq_true_eq, Kind.holds_int64, true_and]
      refine exists_congr fun n => and_congr_right fun _ => ?_
      have hmin : Int64.minValue.toInt = -2 ^ 63 := by decide
      omega
  | bool _ => cases hv
  | string _ => cases hv

/-- An integer that fits a kind is converted to itself. -/
theorem convert_int (hk : k.isIntegral = true) {a : Int64} (ha : k.Holds a.toInt) (p : Prim) :
    ∃ n : Int64, convert ⟨.int a, p⟩ k = some ⟨.int n, .typed k⟩ ∧ n.toInt = a.toInt := by
  rcases Kind.isIntegral_iff.1 hk with rfl | rfl
  · refine ⟨_, rfl, ?_⟩
    rw [Int32.toInt_toInt64, ← Kind.narrow_int32, Kind.narrow_of_holds ha]
  · exact ⟨_, rfl, rfl⟩

/-- A double that denotes an integer is converted to the number of the range next to it. -/
theorem convert_float (hk : k.isIntegral = true) {x : Float} {n : Int}
    (hn : (Binary64.denotation x).integer? = some n) (p : Prim) :
    ∃ m : Int64, convert ⟨.float x, p⟩ k = some ⟨.int m, .typed k⟩ ∧ m.toInt = k.nearest n := by
  have hwide : Kind.int64.Holds (k.nearest n) := Kind.holds_int64_of_holds hk (k.holds_nearest n)
  have hkept : (Int64.ofInt (k.nearest n)).toInt = k.nearest n :=
    Int64.toInt_ofInt.trans (Kind.narrow_of_holds hwide)
  have hclamp {lo hi : Int} (hlo : lo = k.least) (hhi : hi = 2 ^ (k.width - 1) - 1) :
      (Int64.ofInt ((Binary64.denotation x).clamp lo hi)).toInt = k.nearest n := by
    subst hlo hhi
    have hcut : (Binary64.denotation x).clamp k.least (2 ^ (k.width - 1) - 1) = k.nearest n :=
      Denotation.clamp_of_integer? hn
    rw [hcut, hkept]
  rcases Kind.isIntegral_iff.1 hk with rfl | rfl
  · exact ⟨_, rfl, hclamp (by decide) (by decide)⟩
  · exact ⟨_, rfl, hclamp (by decide) (by decide)⟩

/-- A constant that an integer kind holds is converted to an integer of the range, which is its number
unless that is above the range. -/
theorem convert_value (hk : k.isIntegral = true) (hv : l.payload.number? = some v)
    (hfits : l.fits k = true) :
    ∃ n : Int64, l.convert k = some ⟨.int n, .typed k⟩ ∧ k.Holds n.toInt
      ∧ ((n.toInt : ℚ) = v ↔ ¬(k = .int64 ∧ v = 2 ^ 63)) := by
  obtain ⟨n, hn, hholds⟩ := (fits_iff_holds hk hv).1 hfits
  have htop : v = 2 ^ 63 ↔ n = 2 ^ 63 := by
    rw [hn]
    norm_cast
  obtain ⟨payload, p⟩ := l
  cases payload with
  | int a =>
    obtain rfl : a.toInt = n := by exact_mod_cast (Option.some.inj hv).trans hn
    have hlt : a.toInt ≠ 2 ^ 63 := Int.ne_of_lt a.toInt_lt
    have hholds := hholds.resolve_right fun h => hlt h.2
    obtain ⟨m, hm, hval⟩ := convert_int hk hholds p
    exact ⟨m, hm, hval ▸ hholds, iff_of_true (by rw [hval, hn]) fun h => hlt (htop.1 h.2)⟩
  | float x =>
    have hread := Denotation.integer?_eq_some_iff (n := n) hv
    obtain ⟨m, hm, hval⟩ := convert_float hk (hread.2 hn) p
    refine ⟨m, hm, hval ▸ k.holds_nearest n, ?_⟩
    rw [htop, hval, hn, Int.cast_inj]
    rcases hholds with hholds | ⟨rfl, rfl⟩
    · refine iff_of_true (Kind.nearest_of_holds hholds) ?_
      rintro ⟨rfl, rfl⟩
      exact absurd hholds.2 (by decide)
    · exact iff_of_false (by decide) fun h => h ⟨rfl, rfl⟩
  | bool _ => cases hv
  | string _ => cases hv

end Literal

/-- A literal that flows into a place stays one: it is left as it is, or converted to a kind that holds
it. -/
theorem Checker.exists_literal_of_coerce {C : Checker} {Δ : Bounds} {t target : Ty} {l : Literal}
    {e : Expr} {dest : Destination} (h : C.coerce Δ t (.lit l) target dest = .ok e) :
    ∃ l', e = .lit l' ∧ (l' = l ∨ ∃ k, l.fits k = true ∧ l.convert k = some l') := by
  obtain ⟨t', hflow⟩ := exists_flow h
  cases hflow with
  | loose _ _ => exact ⟨l, rfl, .inl rfl⟩
  | typed _ _ => exact ⟨l, rfl, .inl rfl⟩
  | @represented source k _ fit _ =>
    have hfits := fits_of_unfit fit
    obtain ⟨l', hl', -⟩ := Literal.exists_convert hfits
    exact ⟨l', by rw [represent, hl'], .inr ⟨k, hfits, hl'⟩⟩

/-- **Constants keep their value.** An integer kind holds a constant, of the value `v`, if that is an
integer of its range, and converts it to this integer; but the 64-bit kind also takes `2 ^ 63`, which its
conversion changes. So a constant that the check lets flow into a place keeps its value where it becomes
an integer of a kind, unless it is `2 ^ 63` and becomes one of 64 bits. -/
theorem Checker.constants_kept {l : Literal} {v : ℚ} (hv : l.payload.number? = some v) :
    (∀ k : Kind, k.isIntegral = true →
      (l.fits k = true ↔ ∃ n : Int, v = n ∧ (k.Holds n ∨ k = .int64 ∧ n = 2 ^ 63))
        ∧ (l.fits k = true → ∃ n : Int64, l.convert k = some ⟨.int n, .typed k⟩ ∧ k.Holds n.toInt
          ∧ ((n.toInt : ℚ) = v ↔ ¬(k = .int64 ∧ v = 2 ^ 63))))
      ∧ ∀ (C : Checker) (Δ : Bounds) (t target : Ty) (dest : Destination) (e : Expr),
        C.coerce Δ t (.lit l) target dest = .ok e →
        ∃ l', e = .lit l' ∧ (l'.prim.kind.isIntegral = true →
          ¬(l'.prim.kind = .int64 ∧ v = 2 ^ 63) → l'.payload.number? = some v) := by
  refine ⟨fun k hk => ⟨Literal.fits_iff_holds hk hv, Literal.convert_value hk hv⟩, ?_⟩
  intro C Δ t target dest e h
  obtain ⟨l', rfl, rfl | ⟨k, hfits, hconvert⟩⟩ := exists_literal_of_coerce h
  · exact ⟨l', rfl, fun _ _ => hv⟩
  · refine ⟨l', rfl, fun hk hne => ?_⟩
    obtain ⟨l'', hl'', hprim, -⟩ := Literal.exists_convert hfits
    obtain rfl := Option.some.inj (hl''.symm.trans hconvert)
    rw [hprim] at hk hne
    obtain ⟨n, hn, -, hval⟩ := Literal.convert_value hk hv hfits
    obtain rfl := Option.some.inj (hn.symm.trans hconvert)
    exact congrArg some (hval.2 hne)

/-- The least integer of 32 bits, given as a double. -/
theorem Checker.constants_kept_least :
    let l : Literal := ⟨.float (Binary64.ofInt (-2 ^ 31)), .constant .float64⟩
    l.payload.number? = some (-2 ^ 31) ∧ l.fits .int32 = true
      ∧ ∃ n : Int64, l.convert .int32 = some ⟨.int n, .typed .int32⟩ ∧ Kind.int32.Holds n.toInt
        ∧ ((n.toInt : ℚ) = -2 ^ 31 ↔ ¬(Kind.int32 = .int64 ∧ (-2 ^ 31 : ℚ) = 2 ^ 63)) := by
  intro l
  have hd : Binary64.denotation (Binary64.ofInt (-2 ^ 31)) = .finite true (2 ^ 52) (-21) := by
    decide +kernel
  have hv : l.payload.number? = some (-2 ^ 31) := by
    rw [Payload.number?, hd, Denotation.value?, Denotation.signed]
    norm_num
  obtain ⟨hfits, hconvert⟩ := (Checker.constants_kept hv).1 .int32 rfl
  have hholds : l.fits .int32 = true := hfits.2 ⟨-2 ^ 31, by norm_num, .inl ⟨by decide, by decide⟩⟩
  exact ⟨hv, hholds, hconvert hholds⟩

/-- The double `2 ^ 63` counts as a 64-bit integer, and becomes the one below it. -/
theorem Literal.convert_rounded_bound :
    let l : Literal := ⟨.float (Binary64.ofInt (2 ^ 63)), .constant .float64⟩
    l.payload.number? = some (2 ^ 63) ∧ l.fits .int64 = true
      ∧ l.convert .int64 = some ⟨.int 9223372036854775807, .typed .int64⟩ := by
  have hd : Binary64.denotation (Binary64.ofInt (2 ^ 63)) = .finite false (2 ^ 52) 11 := by
    decide +kernel
  refine ⟨?_, ?_, ?_⟩
  · rw [Payload.number?, hd, Denotation.value?, Denotation.signed]
    norm_num
  · simp only [Literal.fits, hd]
    decide
  · simp only [Literal.convert, hd]
    rfl

end FeatherGo
