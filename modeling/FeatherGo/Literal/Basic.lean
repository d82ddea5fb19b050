import FeatherGo.Number.Decimal
import FeatherGo.Text.Quoted
import FeatherGo.Ty.Basic

/-!
# Literals

A literal is a payload with a primitive type. Both integer kinds share the 64-bit payload and both
floating-point kinds the double; the type says which values are meant. `Literal.fits` tells whether
a kind holds the value of a constant, and `Literal.convert` brings it there.
-/

namespace FeatherGo

/-- What a literal carries. -/
inductive Payload where
  | bool (b : Bool)
  | int (n : Int64)
  | float (x : Float)
  | string (s : String)

/-- Equality as programs compare: floats by value, so that not-a-number differs from itself. -/
def Payload.beq : Payload → Payload → Bool
  | .bool a, .bool b => a == b
  | .int a, .int b => a == b
  | .float x, .float y => x == y
  | .string s, .string t => s == t
  | _, _ => false

instance : BEq Payload := ⟨Payload.beq⟩

/-- A primitive constant with its type, which may still be an untyped one. -/
structure Literal where
  payload : Payload
  prim : Prim

instance : BEq Literal := ⟨fun a b => a.payload == b.payload && a.prim == b.prim⟩

/-- The text of a payload. -/
def Payload.render : Payload → String
  | .bool b => if b then "true" else "false"
  | .int n => toString n.toInt
  | .float x => Decimal.constant.render x
  | .string s => Text.quote s

namespace Literal

/-- A boolean. -/
def ofBool (b : Bool) : Literal := ⟨.bool b, .typed .bool⟩

/-- A string. -/
def ofString (s : String) : Literal := ⟨.string s, .typed .string⟩

/-- The text of a literal: typed numbers are written as conversions. -/
def render (l : Literal) : String :=
  if l.prim.untyped || l.prim.kind = .bool || l.prim.kind = .string then
    l.payload.render
  else
    l.prim.kind.name ++ "(" ++ l.payload.render ++ ")"

/-- Whether a kind holds the value of a constant without loss. A float counts as a 64-bit integer
up to and including the double nearest to the greatest one. -/
def fits (l : Literal) (k : Kind) : Bool :=
  match l.payload, k with
  | .bool _, .bool => true
  | .string _, .string => true
  | .int n, .int32 => decide (Int32.minValue.toInt ≤ n.toInt ∧ n.toInt ≤ Int32.maxValue.toInt)
  | .int _, .int64 => true
  | .int _, .float32 => true
  | .int _, .float64 => true
  | .float x, .float32 => !x.isFinite || decide (x.abs ≤ Binary64.maxSingle)
  | .float _, .float64 => true
  | .float x, .int32 =>
    (Binary64.denotation x).integer?.any fun n =>
      decide (Int32.minValue.toInt ≤ n ∧ n ≤ Int32.maxValue.toInt)
  | .float x, .int64 =>
    (Binary64.denotation x).integer?.any fun n =>
      decide (Int64.minValue.toInt ≤ n ∧ n ≤ Int64.maxValue.toInt + 1)
  | _, _ => false

/-- Convert to a typed kind: integers wrap when they narrow, floats are cut off toward zero and
held within the range. Payloads of unrelated kinds do not convert. -/
def convert (l : Literal) (k : Kind) : Option Literal :=
  let result (p : Payload) : Option Literal := some ⟨p, .typed k⟩
  match l.payload, k with
  | .bool b, .bool => result (.bool b)
  | .string s, .string => result (.string s)
  | .int n, .int32 => result (.int n.toInt32.toInt64)
  | .int n, .int64 => result (.int n)
  | .int n, .float32 => result (.float (Binary64.singleOfInt n.toInt))
  | .int n, .float64 => result (.float (Binary64.ofInt n.toInt))
  | .float x, .int32 =>
    result (.int (.ofInt ((Binary64.denotation x).clamp Int32.minValue.toInt Int32.maxValue.toInt)))
  | .float x, .int64 =>
    result (.int (.ofInt ((Binary64.denotation x).clamp Int64.minValue.toInt Int64.maxValue.toInt)))
  | .float x, .float32 => result (.float (Binary64.toSingle x))
  | .float x, .float64 => result (.float x)
  | _, _ => none

/-- A typed constant of a kind, brought to the kind's representation. -/
def typed? (k : Kind) (p : Payload) : Option Literal := convert ⟨p, .constant k⟩ k

end Literal

end FeatherGo
