import FeatherGo.Number.Decimal

/-!
# JSON numbers

A number is kept as it is written: whether it has a fraction or an exponent decides whether it may
stand for an integer. As a double it can be read in two ways. The exact reading gives the nearest
double. The quick reading takes as many digits as a 64-bit word holds and scales them by powers of
ten in double arithmetic, so it may be off in the last place.
-/

namespace FeatherGo

/-- A number as it is written. -/
structure Numeral where
  negative : Bool
  written : Decimal.Written

namespace Numeral

/-- An integer. -/
def ofInt (n : Int) : Numeral := ⟨decide (n < 0), ⟨toString n.natAbs, none, none⟩⟩

/-- The text of a number. -/
def text (n : Numeral) : String := Decimal.sign n.negative ++ n.written.text

/-- The number that a digit continues another one to. -/
def push (n : Nat) (digit : Char) : Nat := 10 * n + (digit.toNat - '0'.toNat)

/-- The natural number that digits denote. -/
def ofDigits (digits : List Char) : Nat := digits.foldl push 0

/-- The exponent that is written: digits after an optional sign. -/
def exponentOf (text : String) : Int :=
  match text.toList with
  | '-' :: digits => -(ofDigits digits : Int)
  | '+' :: digits => ofDigits digits
  | digits => ofDigits digits

/-- The integer, if the number is written without fraction and exponent. Negative zero is none. -/
def toInt? (n : Numeral) : Option Int :=
  match n.written with
  | ⟨whole, none, none⟩ =>
    let magnitude := ofDigits whole.toList
    if n.negative then
      if magnitude = 0 then none else some (-magnitude)
    else
      some magnitude
  | _ => none

/-! ## The exact reading -/

/-- The nearest double, unless that is infinite. Magnitudes far out of range are not computed. -/
def toFloat? (n : Numeral) : Option Float :=
  let fraction := (n.written.fraction.getD "").toList
  let mantissa := ofDigits (n.written.whole.toList ++ fraction)
  let exponent := exponentOf (n.written.exponent.getD "") - fraction.length
  let digits := (toString mantissa).length
  if mantissa = 0 ∨ exponent + digits < -400 then
    some (Binary64.ofDecimal n.negative 0 0)
  else if 400 < exponent + digits then
    none
  else
    let x := Binary64.ofDecimal n.negative mantissa exponent
    if x.isFinite then some x else none

/-! ## The quick reading -/

/-- Continue a number by digits as long as a 64-bit word holds it; the digits after are left. -/
def fillWord (n : Nat) : List Char → Nat × List Char
  | [] => (n, [])
  | c :: cs => if push n c < UInt64.size then fillWord (push n c) cs else (n, c :: cs)

/-- The double nearest to a power of ten. -/
def tenTo (k : Nat) : Float := Binary64.ofDecimal false 1 k

/-- The greatest power of ten that is a finite double. -/
def greatestTen : Nat := 308

/-- Scale a double below `2 ^ 64` by a power of ten, unless the result is infinite. Past the
powers that are doubles themselves a division takes two rounds, and after two full ones nothing is
left. -/
def scale? (x : Float) (exponent : Int) : Option Float :=
  let k := exponent.natAbs
  if 0 ≤ exponent then
    if k ≤ greatestTen then
      let y := x * tenTo k
      if y.isInf then none else some y
    else
      if x == 0 then some x else none
  else if k ≤ greatestTen then
    some (x / tenTo k)
  else if k ≤ 2 * greatestTen then
    some (x / tenTo greatestTen / tenTo (k - greatestTen))
  else
    some 0

/-- The double that the quick reading gives. A digit before the point that the word does not take
counts as a power of ten, one after the point not at all. -/
def toFloatQuick? (n : Numeral) : Option Float :=
  let fraction := (n.written.fraction.getD "").toList
  let (word, dropped) := fillWord 0 n.written.whole.toList
  let (word, ignored) := fillWord word fraction
  let exponent := exponentOf (n.written.exponent.getD "")
    + dropped.length - (fraction.length - ignored.length : Nat)
  (scale? (Binary64.ofInt word) exponent).map fun x => if n.negative then -x else x

end Numeral

end FeatherGo
