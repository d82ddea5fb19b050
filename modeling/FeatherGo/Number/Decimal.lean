import FeatherGo.Number.Binary64

/-!
# Decimal text of doubles

`shortest` finds the decimal with the fewest digits that reads back as a given double, and of
those the nearest one; of two equally near ones the larger. A `Layout` says how such a decimal is
written: which magnitudes positionally, how whole numbers end, how an exponent looks.
`fixed` writes an exact value with a given number of places, a half going to the even neighbour.
-/

namespace FeatherGo

/-- The number `digits * 10 ^ exponent`. -/
structure Decimal where
  digits : Nat
  exponent : Int
deriving DecidableEq

namespace Decimal

/-- A fraction of naturals, the denominator positive. -/
structure Fraction where
  num : Nat
  den : Nat

/-- A natural number times a power of a base. -/
def Fraction.scaled (n base : Nat) (exponent : Int) : Fraction :=
  if 0 ≤ exponent then ⟨n * base.pow exponent.toNat, 1⟩ else ⟨n, base.pow (-exponent).toNat⟩

/-- The first `k` from `start` on, within `trials`, with `num / den < 10 ^ k`. -/
def magnitudeFrom (f : Fraction) : Nat → Int → Int
  | 0, k => k
  | trials + 1, k =>
    let bound := Fraction.scaled 1 10 k
    if f.num * bound.den < bound.num * f.den then k else magnitudeFrom f trials (k + 1)

/-- The number of digits before the point (negative for leading zeros after it): the least `k`
with `num / den < 10 ^ k`, searched from just below the estimate by binary logarithms. -/
def magnitude (f : Fraction) : Int :=
  magnitudeFrom f 8 ((((f.num.log2 : Int) - f.den.log2) * 30103).fdiv 100000 - 2)

/-- Drop trailing zeros of the digits. -/
def trim : Nat → Decimal → Decimal
  | 0, d => d
  | n + 1, d => if d.digits % 10 = 0 then trim n ⟨d.digits / 10, d.exponent + 1⟩ else d

/-- On the grid of multiples of `10 ^ q`, the neighbour of `v / den` that lies between `lo / den`
and `hi / den` (ends included if `closed`), the nearer of two and the upper of two equally near. -/
def onGrid (v lo hi den : Nat) (closed : Bool) (q : Int) : Option Nat :=
  let up := if 0 ≤ q then 1 else Nat.pow 10 (-q).toNat
  let unit := if 0 ≤ q then den * Nat.pow 10 q.toNat else den
  let below := v * up / unit
  let above := below + 1
  let belowFits := decide (lo * up < below * unit) || closed && decide (lo * up = below * unit)
  let aboveFits := decide (above * unit < hi * up) || closed && decide (above * unit = hi * up)
  if belowFits && aboveFits then
    if 2 * (v * up) < (below + above) * unit then some below else some above
  else if belowFits then some below
  else if aboveFits then some above
  else none

/-- The first hit on the grids of `n`, `n + 1`, … digits, within `trials`. -/
def firstHit (v lo hi den : Nat) (closed : Bool) (k : Int) : Nat → Nat → Option Decimal
  | 0, _ => none
  | trials + 1, n =>
    match onGrid v lo hi den closed (k - n) with
    | some d => some (trim 20 ⟨d, k - n⟩)
    | none => firstHit v lo hi den closed k trials (n + 1)

/-- The decimal with the fewest digits that reads back as `mantissa * 2 ^ exponent`, a positive
double in the form of its denotation. Seventeen digits always suffice. -/
def shortest (mantissa : Nat) (exponent : Int) : Decimal :=
  -- The reals that round to the double reach half way to its neighbours; the lower neighbour is
  -- twice as near at a power of two. All is counted in quarters of the last place.
  let down := if mantissa = 1 <<< 52 ∧ -1074 < exponent then 1 else 2
  let f := Fraction.scaled (4 * mantissa) 2 (exponent - 2)
  let scale := Fraction.scaled 1 2 (exponent - 2)
  let lo := (4 * mantissa - down) * scale.num
  let hi := (4 * mantissa + 2) * scale.num
  (firstHit f.num lo hi f.den (mantissa % 2 == 0) (magnitude f) 17 1).getD ⟨0, 0⟩

/-- How a decimal is written. -/
structure Layout where
  /-- The least position of the point, counted from before the first digit, written
  positionally. -/
  leastPoint : Int
  /-- The greatest such position. -/
  greatestPoint : Int
  /-- Whole numbers end in `.0`. -/
  pointZero : Bool
  /-- An exponent that is not negative shows a plus sign. -/
  plus : Bool
  /-- The least number of digits of an exponent. -/
  exponentWidth : Nat
  /-- The text of positive infinity; the negative one puts a minus for its first character if that
  is a plus, and before it otherwise. -/
  infinity : String

/-- Zeros. -/
def zeros (n : Nat) : String := String.ofList (List.replicate n '0')

/-- The parts of a written number: digits before and after the point, and the exponent. -/
structure Written where
  whole : String
  fraction : Option String
  exponent : Option String

/-- The text of a written number. -/
def Written.text (w : Written) : String :=
  w.whole
    ++ (match w.fraction with | some f => "." ++ f | none => "")
    ++ (match w.exponent with | some e => "e" ++ e | none => "")

/-- The digits of an exponent with its sign. -/
def Layout.exponentText (layout : Layout) (e : Int) : String :=
  let digits := toString e.natAbs
  (if e < 0 then "-" else if layout.plus then "+" else "")
    ++ zeros (layout.exponentWidth - digits.length) ++ digits

/-- Lay out a decimal. -/
def Layout.write (layout : Layout) (d : Decimal) : Written :=
  let digits := (toString d.digits).toList
  let point := d.exponent + digits.length
  if d.digits = 0 then
    ⟨"0", if layout.pointZero then some "0" else none, none⟩
  else if layout.leastPoint ≤ point ∧ point ≤ layout.greatestPoint then
    if point ≤ 0 then
      ⟨"0", some (zeros (-point).toNat ++ String.ofList digits), none⟩
    else if digits.length ≤ point then
      ⟨String.ofList digits ++ zeros (point.toNat - digits.length),
        if layout.pointZero then some "0" else none, none⟩
    else
      ⟨String.ofList (digits.take point.toNat), some (String.ofList (digits.drop point.toNat)),
        none⟩
  else
    ⟨String.ofList (digits.take 1),
      if digits.length = 1 then none else some (String.ofList (digits.drop 1)),
      some (layout.exponentText (point - 1))⟩

/-- A minus sign if needed. -/
def sign (negative : Bool) : String := if negative then "-" else ""

/-- The text of a double in a layout, with the fewest digits. -/
def Layout.render (layout : Layout) (x : Float) : String :=
  match Binary64.denotation x with
  | .nan => "NaN"
  | .infinite false => layout.infinity
  | .infinite true =>
    "-" ++ (if layout.infinity.startsWith "+" then (layout.infinity.drop 1).toString
      else layout.infinity)
  | .finite s 0 _ => sign s ++ (layout.write ⟨0, 0⟩).text
  | .finite s m e => sign s ++ (layout.write (shortest m e)).text

/-- How constants are written in programs: `1.0`, `0.0001`, `1e16`, `1.5e-7`. -/
def constant : Layout := ⟨-3, 16, true, false, 1, "inf"⟩

/-- How values are printed: `1`, `0.0001`, `1e+21`, `1.5e-07`. -/
def printed : Layout := ⟨-3, 21, false, true, 2, "+Inf"⟩

/-- The quotient rounded to the nearest natural, a half going to the even one. -/
def roundDiv (num den : Nat) : Nat :=
  let q := num / den
  let twice := 2 * (num % den)
  if twice < den then q
  else if twice = den then q + q % 2
  else q + 1

/-- The text of a double with exactly `places` digits after the point. -/
def fixed (places : Nat) (x : Float) : String :=
  match Binary64.denotation x with
  | .nan => "NaN"
  | .infinite s => sign s ++ "inf"
  | .finite s m e =>
    let f := Fraction.scaled (m * Nat.pow 10 places) 2 e
    let digits := (toString (roundDiv f.num f.den)).toList
    let padded := List.replicate (places + 1 - digits.length) '0' ++ digits
    let split := padded.length - places
    sign s ++ String.ofList (padded.take split) ++ "." ++ String.ofList (padded.drop split)

end Decimal

end FeatherGo
