/-!
# Doubles

What a double denotes, read off its bits: not a number, an infinity, or a whole number times a
power of two. Conversions to integers and to single precision are computed from this exact value.
-/

namespace FeatherGo

open Float.Model (UnpackedFloat)

/-- What a double denotes. -/
inductive Denotation where
  | nan
  | infinite (negative : Bool)
  /-- The number `mantissa * 2 ^ exponent`, negated if `negative`; zero keeps its sign. -/
  | finite (negative : Bool) (mantissa : Nat) (exponent : Int)
deriving DecidableEq

namespace Denotation

/-- The magnitude of a finite denotation cut off after the units. -/
def wholePart (mantissa : Nat) (exponent : Int) : Nat :=
  if 0 ≤ exponent then mantissa <<< exponent.toNat else mantissa >>> (-exponent).toNat

/-- Whether `mantissa * 2 ^ exponent` is a whole number. -/
def isWhole (mantissa : Nat) (exponent : Int) : Bool :=
  decide (0 ≤ exponent) || mantissa % (1 <<< (-exponent).toNat) == 0

/-- A number with a sign. -/
def signed (negative : Bool) (n : Nat) : Int := if negative then -n else n

/-- The integer that is denoted, if an integer is. -/
def integer? : Denotation → Option Int
  | .finite s m e => if isWhole m e then some (signed s (wholePart m e)) else none
  | _ => none

/-- The integer in `[lo, hi]` nearest to the number cut off toward zero; zero for what is not a
number. -/
def clamp (lo hi : Int) : Denotation → Int
  | .nan => 0
  | .infinite negative => if negative then lo else hi
  | .finite s m e => max lo (min hi (signed s (wholePart m e)))

end Denotation

namespace Binary64

/-- Whether a sign is the negative one. -/
def isNegative : UnpackedFloat.Sign → Bool
  | .negative => true
  | .positive => false

/-- What a double denotes. -/
def denotation (x : Float) : Denotation :=
  match x.toModel.unpack with
  | .notANumber => .nan
  | .infinity s => .infinite (isNegative s)
  | .zero s => .finite (isNegative s) 0 0
  | .finite s m e _ => .finite (isNegative s) m e

/-- The double nearest to an integer. -/
def ofInt (n : Int) : Float := .ofModel (.ofInt n)

/-- The double nearest to `mantissa * 10 ^ exponent`, negated if `negative`. -/
def ofDecimal (negative : Bool) (mantissa : Nat) (exponent : Int) : Float :=
  let x := Float.ofModel (.ofScientific mantissa exponent)
  if negative then -x else x

/-- A number already rounded to single precision, as a double. -/
def widen : UnpackedFloat → Float
  | .finite s m e _ => .ofModel (.pack (UnpackedFloat.round .binary64 s m e))
  | u => .ofModel (.pack u)

/-- What remains of a rounded number in single precision: too large a one becomes infinite. -/
def fitSingle (u : UnpackedFloat) : UnpackedFloat :=
  UnpackedFloat.unpack .binary32 (UnpackedFloat.pack .binary32 u)

/-- Round a double to single precision. -/
def toSingle (x : Float) : Float :=
  match x.toModel.unpack with
  | .finite s m e _ => widen (fitSingle (UnpackedFloat.round .binary32 s m e))
  | _ => x

/-- The single-precision number nearest to an integer, rounded once. -/
def singleOfInt (n : Int) : Float := widen (fitSingle (UnpackedFloat.ofInt .binary32 n))

/-- The largest finite number of single precision. -/
def maxSingle : Float := ofInt ((1 <<< 24 - 1) <<< 104 : Nat)

end Binary64

end FeatherGo
