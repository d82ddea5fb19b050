import FeatherGo.Literal.Basic
import Mathlib

/-!
# Conversion of literals

A kind that holds the value of a literal takes it, and holds what it took
(`Literal.exists_convert`). The one case with an argument in it is single precision: a number
rounded to it is no greater than the greatest one of single precision, also when the comparison is
made between doubles. A mantissa of single precision has at most 24 bits, so that rounding it to a
double only shifts it up to 53.
-/

namespace FeatherGo

/-! ## Single precision -/

namespace Binary64

open Float.Model (UnpackedFloat Format totalExponent)
open Float.Model.UnpackedFloat (Sign ExtendedMantissa packComponents unpackSign Accuracy
  shiftToTargetExponent shiftToExponent unpackMantissa unpackExponent)

theorem unpackSign_packComponents {spec : Format} {s : Sign} {e : BitVec spec.exponentBits}
    {m : BitVec spec.mantissaBitsWithoutImplicit} :
    unpackSign (packComponents spec s e m) = s.toBitVec := by
  ext i hi
  obtain rfl : i = 0 := by omega
  simp [unpackSign, packComponents, BitVec.getLsbD_eq_getElem, BitVec.getLsbD_append,
    BitVec.getElem_append]

theorem ofBitVec_toBitVec (s : Sign) : Sign.ofBitVec s.toBitVec = s := by cases s <;> rfl

/-- A double with a full mantissa is unpacked as it was packed. -/
theorem unpack_pack_normal (s : Sign) {m : Nat} {e : Int} (hpos : 0 < m) (hlog : m.log2 = 52)
    (hlo : -1074 ≤ e) (hhi : e ≤ 971) :
    (Float.Model.pack (.finite s m e hpos)).unpack = .finite s m e hpos := by
  have hlow : 2 ^ 52 ≤ m := hlog ▸ Nat.log2_self_le (by omega)
  have hlt : m < 2 ^ 53 := (Nat.log2_lt (by omega)).1 (by omega)
  have hpack : UnpackedFloat.pack .binary64 (.finite s m e hpos)
      = packComponents .binary64 s (BitVec.ofNat 11 (e + 1075).toNat) (BitVec.ofNat 52 m) := by
    rw [UnpackedFloat.pack]
    have hbias : e + (Format.binary64.exponentBias : Int)
        + (Format.binary64.mantissaBitsWithoutImplicit : Int) = e + 1075 := by
      show e + 1023 + 52 = e + 1075
      omega
    simp only [hbias, hlog]
    rw [if_neg (show ¬ 2 ^ 11 ≤ (e + 1075).toNat + 1 by omega),
      if_pos (show 52 + 1 = Format.binary64.mantissaBits from rfl)]
  have hexp : (BitVec.ofNat 11 (e + 1075).toNat).toNat = (e + 1075).toNat := by
    rw [BitVec.toNat_ofNat, Nat.mod_eq_of_lt (by omega)]
  have hmant : (BitVec.ofNat 52 m).toNat = m - 2 ^ 52 := by
    rw [BitVec.toNat_ofNat]
    omega
  show UnpackedFloat.unpack .binary64 (UnpackedFloat.pack .binary64 (.finite s m e hpos)) = _
  rw [hpack, UnpackedFloat.unpack]
  simp only [Float.Model.UnpackedFloat.unpackExponent_packComponents,
    Float.Model.UnpackedFloat.unpackMantissa_packComponents, unpackSign_packComponents,
    ofBitVec_toBitVec]
  have hne : ∀ b : BitVec 11, (e + 1075).toNat ≠ b.toNat → BitVec.ofNat 11 (e + 1075).toNat ≠ b :=
    fun b hb h => hb (hexp ▸ congrArg BitVec.toNat h)
  have hones := hne (-1#11) (show _ ≠ 2047 by omega)
  have hzero := hne 0#11 (show _ ≠ 0 by omega)
  rw [if_neg hones, if_neg hzero]
  congr 1
  · rw [BitVec.toNat_append, hmant, ← Nat.shiftLeft_add_eq_or_of_lt (by omega)]
    simp only [BitVec.toNat_ofNat]
    omega
  · rw [hexp]
    show ((e + 1075).toNat : Int) - (1023 + 52) = e
    omega

theorem log2_shiftLeft {m : Nat} (h : m ≠ 0) (k : Nat) : (m <<< k).log2 = m.log2 + k := by
  induction k with
  | zero => rfl
  | succ k ih =>
    rw [Nat.shiftLeft_succ, Nat.log2_two_mul, ih, Nat.add_assoc]
    rw [Nat.shiftLeft_eq]
    positivity

theorem shiftToTargetExponent_of_eq {spec : Format} {m : Nat} {e : Int}
    (h : spec.targetExponent (totalExponent m e) = e) :
    shiftToTargetExponent spec m e .exact = (⟨m, false, false⟩, e) := by
  rw [shiftToTargetExponent, h, shiftToExponent, Int.sub_self]
  show (_, e + 0) = _
  rw [Int.add_zero]
  rfl

/-- A mantissa of at most 24 bits is not rounded: it is shifted up to 53 bits. -/
theorem round_exact (s : Sign) {m : Nat} {e : Int} (hpos : 0 < m) (hm : m < 2 ^ 24)
    (hlo : -149 ≤ e) :
    UnpackedFloat.round .binary64 s m e
      = .finite s (m <<< (52 - m.log2)) (e + m.log2 - 52)
        (by rw [Nat.shiftLeft_eq]; positivity) := by
  have hlog : m.log2 < 24 := (Nat.log2_lt (by omega)).2 hm
  have htarget : Format.binary64.targetExponent (totalExponent m e) = e + m.log2 - 52 := by
    rw [Format.targetExponent, totalExponent]
    show max (m.log2 + 1 + e - 53) (-1074) = e + m.log2 - 52
    omega
  have hshift : (e - (e + m.log2 - 52)).toNat = 52 - m.log2 := by omega
  have hlog' : (m <<< (52 - m.log2)).log2 = 52 := by
    rw [log2_shiftLeft (by omega)]
    omega
  have hexp : e - ((52 - m.log2 : Nat) : Int) = e + m.log2 - 52 := by omega
  have hcanon : Format.binary64.targetExponent
      (totalExponent (m <<< (52 - m.log2)) (e + m.log2 - 52)) = e + m.log2 - 52 := by
    rw [Format.targetExponent, totalExponent, hlog']
    show max (((52 : Nat) : Int) + 1 + (e + m.log2 - 52) - 53) (-1074) = e + m.log2 - 52
    omega
  rw [UnpackedFloat.round, htarget, Float.Model.UnpackedFloat.decreaseExponent]
  simp only [hshift, hexp]
  have hne : m <<< (52 - m.log2) ≠ 0 := by
    rw [Nat.shiftLeft_eq]
    positivity
  simp only [Float.Model.UnpackedFloat.roundWithAccuracy, shiftToTargetExponent_of_eq hcanon,
    ExtendedMantissa.roundedMantissa, ExtendedMantissa.accuracy, Accuracy.roundToNearestEven]
  exact dif_neg hne

/-- What single precision can hold: 24 bits of mantissa, exponents between -149 and 104. -/
theorem fitSingle_finite {u : UnpackedFloat} {s : Sign} {m : Nat} {e : Int} {hpos : 0 < m}
    (h : fitSingle u = .finite s m e hpos) : m < 2 ^ 24 ∧ -149 ≤ e ∧ e ≤ 104 := by
  rw [fitSingle, UnpackedFloat.unpack] at h
  generalize UnpackedFloat.pack .binary32 u = b at h
  have hbias : (Format.binary32.exponentBias : Int)
      + (Format.binary32.mantissaBitsWithoutImplicit : Int) = 150 := rfl
  have hmant : (unpackMantissa b).toNat < 2 ^ 23 := (unpackMantissa b).isLt
  have hexp : (unpackExponent b).toNat < 2 ^ 8 := (unpackExponent b).isLt
  simp only [hbias] at h
  split at h
  · split at h <;> cases h
  · rename_i hones
    have hne : (unpackExponent b).toNat ≠ 255 := fun he =>
      hones (BitVec.eq_of_toNat_eq he)
    split at h
    · rename_i hzero
      split at h
      · cases h
      · obtain ⟨-, rfl, rfl⟩ := h
        rw [hzero]
        exact ⟨by omega, by decide, by decide⟩
    · rename_i hzero
      have hne' : (unpackExponent b).toNat ≠ 0 := fun he =>
        hzero (BitVec.eq_of_toNat_eq he)
      obtain ⟨-, rfl, rfl⟩ := h
      exact ⟨BitVec.isLt _, by omega, by omega⟩

/-- A finite number of single precision, as a double. -/
theorem unpack_widen (s : Sign) {m : Nat} {e : Int} (hpos : 0 < m) (hm : m < 2 ^ 24)
    (hlo : -149 ≤ e) (hhi : e ≤ 104) :
    ∃ hpos', (widen (.finite s m e hpos)).toModel.unpack
      = .finite s (m <<< (52 - m.log2)) (e + m.log2 - 52) hpos' := by
  have hlog : m.log2 < 24 := (Nat.log2_lt (by omega)).2 hm
  have hlog' : (m <<< (52 - m.log2)).log2 = 52 := by
    rw [log2_shiftLeft (by omega)]
    omega
  refine ⟨?_, ?_⟩
  · rw [Nat.shiftLeft_eq]
    positivity
  · show (Float.Model.pack (UnpackedFloat.round .binary64 s m e)).unpack = _
    rw [round_exact s hpos hm hlo, unpack_pack_normal s _ hlog' (by omega) (by omega)]

theorem unpack_maxSingle : ∃ hpos, maxSingle.toModel.unpack
    = .finite .positive ((2 ^ 24 - 1) <<< 29) 75 hpos := by
  have h : maxSingle.toModel
      = (widen (.finite .positive (2 ^ 24 - 1) 104 (by decide))).toModel := by decide +kernel
  have hlog : (2 ^ 24 - 1).log2 = 23 := by decide +kernel
  obtain ⟨hpos, hunpack⟩ := unpack_widen .positive (m := 2 ^ 24 - 1) (e := 104) (by decide)
    (by decide) (by decide) (by decide)
  simp only [h, hunpack, hlog]
  exact ⟨by decide, rfl⟩

theorem le_iff_unpack (x y : Float) : x ≤ y ↔ x.toModel.unpack.le y.toModel.unpack = true := by
  show (decide _ = true) ↔ _
  rw [decide_eq_true_iff]
  exact Iff.rfl

theorem le_finite {m₁ m₂ : Nat} {e₁ e₂ : Int} {h₁ : 0 < m₁} {h₂ : 0 < m₂}
    (h : e₁ < e₂ ∨ e₁ = e₂ ∧ m₁ ≤ m₂) :
    UnpackedFloat.le (.finite .positive m₁ e₁ h₁) (.finite .positive m₂ e₂ h₂) = true := by
  show ((compare e₁ e₂).then (compare m₁ m₂)).isLE = true
  rcases h with h | ⟨rfl, h⟩
  · rw [Int.compare_eq_lt.2 h]
    rfl
  · rw [Int.compare_eq_eq.2 rfl]
    exact Nat.isLE_compare.2 h

/-- A number of single precision is at most the greatest one. -/
theorem widen_fitSingle_le (u : UnpackedFloat) :
    (widen (fitSingle u)).isFinite = false ∨ (widen (fitSingle u)).abs ≤ maxSingle := by
  cases h : fitSingle u with
  | notANumber => exact .inl (by decide +kernel)
  | infinity s => cases s <;> exact .inl (by decide +kernel)
  | zero s => cases s <;> exact .inr (by decide +kernel)
  | finite s m e hpos =>
    right
    obtain ⟨hm, hlo, hhi⟩ := fitSingle_finite h
    obtain ⟨hpos', hunpack⟩ := unpack_widen s hpos hm hlo hhi
    have hlog : m.log2 < 24 := (Nat.log2_lt (by omega)).2 hm
    have hlog' : (m <<< (52 - m.log2)).log2 = 52 := by
      rw [log2_shiftLeft (by omega)]
      omega
    have habs : (widen (.finite s m e hpos)).abs.toModel.unpack
        = .finite .positive (m <<< (52 - m.log2)) (e + m.log2 - 52) hpos' := by
      show (Float.Model.pack (widen (.finite s m e hpos)).toModel.unpack.abs).unpack = _
      rw [hunpack]
      exact unpack_pack_normal .positive _ hlog' (by omega) (by omega)
    obtain ⟨hmax, hunpack⟩ := unpack_maxSingle
    rw [le_iff_unpack, habs, hunpack]
    refine le_finite ?_
    by_cases he : e + m.log2 - 52 < 75
    · exact .inl he
    · refine .inr ⟨by omega, ?_⟩
      rw [show m.log2 = 23 by omega, Nat.shiftLeft_eq, Nat.shiftLeft_eq]
      exact Nat.mul_le_mul_right _ (by omega)

end Binary64

/-! ## Literals -/

/-- The nearest integer of a range that holds zero is in the range. -/
theorem Denotation.clamp_mem (d : Denotation) {lo hi : Int} (hlo : lo ≤ 0) (hhi : 0 ≤ hi) :
    lo ≤ d.clamp lo hi ∧ d.clamp lo hi ≤ hi := by
  cases d with
  | nan => exact ⟨hlo, hhi⟩
  | infinite negative =>
    have h := Int.le_trans hlo hhi
    cases negative with
    | true => exact ⟨Int.le_refl lo, h⟩
    | false => exact ⟨h, Int.le_refl hi⟩
  | finite s m e => simp only [clamp]; omega

namespace Literal

/-- A number of single precision is one that its kind holds. -/
theorem fits_widen (u : Float.Model.UnpackedFloat) (p : Prim) :
    fits ⟨.float (Binary64.widen (Binary64.fitSingle u)), p⟩ .float32 = true := by
  show (!_ || decide _) = true
  rw [Bool.or_eq_true, Bool.not_eq_true', decide_eq_true_eq]
  exact Binary64.widen_fitSingle_le u

theorem fits_toSingle {x : Float} {p : Prim} (h : fits ⟨.float x, p⟩ .float32 = true) (q : Prim) :
    fits ⟨.float (Binary64.toSingle x), q⟩ .float32 = true := by
  rw [Binary64.toSingle]
  split
  · exact fits_widen _ q
  · exact h

/-- A kind that holds the value of a literal takes it, and holds what it took. -/
theorem exists_convert {l : Literal} {k : Kind} (h : l.fits k = true) :
    ∃ l', l.convert k = some l' ∧ l'.prim = .typed k ∧ l'.fits k = true := by
  obtain ⟨payload, p⟩ := l
  have hint32 : ∀ n : Int64, Int32.minValue.toInt ≤ n.toInt ∧ n.toInt ≤ Int32.maxValue.toInt →
      fits ⟨.int n, .typed .int32⟩ .int32 = true := fun n hn => decide_eq_true hn
  cases payload with
  | bool b => cases k <;> first | exact ⟨_, rfl, rfl, rfl⟩ | cases h
  | string s => cases k <;> first | exact ⟨_, rfl, rfl, rfl⟩ | cases h
  | int n =>
    cases k with
    | int32 =>
      refine ⟨_, rfl, rfl, hint32 _ ?_⟩
      rw [Int32.toInt_toInt64]
      exact ⟨Int32.le_toInt _, Int32.toInt_le _⟩
    | float32 => exact ⟨_, rfl, rfl, fits_widen _ _⟩
    | int64 => exact ⟨_, rfl, rfl, rfl⟩
    | float64 => exact ⟨_, rfl, rfl, rfl⟩
    | bool => cases h
    | string => cases h
  | float x =>
    cases k with
    | int32 =>
      refine ⟨_, rfl, rfl, hint32 _ ?_⟩
      have hlo : Int32.minValue.toInt ≤ 0 := by decide
      have hhi : 0 ≤ Int32.maxValue.toInt := by decide
      have hc := (Binary64.denotation x).clamp_mem hlo hhi
      rw [Int64.toInt_ofInt_of_le]
      · exact hc
      · exact Int.le_trans (by decide) hc.1
      · exact Int.lt_of_le_of_lt hc.2 (by decide)
    | float32 => exact ⟨_, rfl, rfl, fits_toSingle h _⟩
    | int64 => exact ⟨_, rfl, rfl, rfl⟩
    | float64 => exact ⟨_, rfl, rfl, rfl⟩
    | bool => cases h
    | string => cases h

end Literal

end FeatherGo
