import FeatherGo.Json.Basic
import FeatherGo.Typing.Error

/-!
# Diagnostics

What a report on a type error shows: a code, the message, a hint, and the place in the text of the
program where the error's term first occurs. The place is found by counting bytes and shown by
counting characters, so it moves right where characters of several bytes come before it.
-/

namespace FeatherGo

namespace TypeError

/-- The stable code of an error. -/
def code : TypeError → String
  | .duplicateType .. | .duplicateMethod .. | .duplicateFormal .. | .duplicateField ..
  | .duplicateParam .. | .duplicateMember .. => "E0001"
  | .cyclicDecl .. => "E0002"
  | .badSource .. | .badBound .. | .embedNotInterface .. => "E0003"
  | .interfaceReceiver .. | .receiverArity .. | .fieldMethodClash .. => "E0004"
  | .undeclaredType .. | .unboundParam .. => "E0005"
  | .typeArity .. => "E0006"
  | .boundViolation .. => "E0007"
  | .paramAsBound .. => "E0008"
  | .unknownVariable .. => "E0009"
  | .unknownField .. | .notAStruct .. | .fieldCount .. => "E0010"
  | .unknownMethod .. | .argumentCount .. | .typeArgumentCount .. => "E0011"
  | .notAssignable .. => "E0012"
  | .assertOnConcrete .. | .impossibleAssertion .. => "E0013"
  | .operandMismatch .. | .invalidOperand .. | .invalidConversion .. | .notRepresentable .. =>
    "E0014"
  | .cannotInfer .. => "E0015"

/-- The hint for an error, if there is one. -/
def help : TypeError → Option String
  | .cyclicDecl .. => some "break the cycle with a struct field or a method signature"
  | .badBound .. => some "type parameter bounds must be interfaces or primitives"
  | .assertOnConcrete .. => some "only values of interface type can be asserted"
  | .cannotInfer .. => some "supply the type arguments explicitly"
  | .paramAsBound .. => some "type parameters cannot act as upper bounds"
  | _ => none

end TypeError

namespace Diagnostic

/-- The number of bytes before the first occurrence of a text, if it occurs. -/
def byteOffset (term : List Char) : List Char → Option Nat
  | [] => if term.isEmpty then some 0 else none
  | c :: cs =>
    if term.isPrefixOf (c :: cs) then some 0
    else (byteOffset term cs).map (· + c.utf8Size)

/-- The characters that end a line. -/
def lineEnds : List Char := ['\n', '\r', '\x0b', '\x0c', '\u0085', '\u2028', '\u2029']

/-- Line and column, both from one, of the character with a given number of characters before it. A
carriage return ends no line of its own if a line feed follows. -/
def lineColumn (source : List Char) (offset : Nat) : Nat × Nat :=
  let followed := source.zip (source.tail.map some ++ [none])
  (followed.take offset).foldl
    (fun (line, column) (c, next) =>
      if c ∈ lineEnds ∧ ¬(c = '\r' ∧ next = some '\n') then (line + 1, 1) else (line, column + 1))
    (1, 1)

/-- The bytes that a report marks: the first occurrence of the error's term, or else the start of
the text. -/
def span (source : String) (e : TypeError) : Nat × Nat :=
  let start : Nat × Nat := (0, min 1 source.utf8ByteSize)
  match e.term with
  | none => start
  | some term =>
    if term.isEmpty then start
    else
      match byteOffset term.toList source.toList with
      | some offset => (offset, offset + term.utf8ByteSize)
      | none => start

end Diagnostic

/-- A type error as a JSON object, for the program in a file. -/
def TypeError.diagnostic (file : String) (e : TypeError) : Json :=
  .obj [("code", .str e.code), ("file", .str file), ("message", .str e.message),
    ("severity", .str "error"), ("term", .ofText? e.term)]

/-- A report on a type error, drawn beside the text of the program. -/
structure Report where
  header : String
  /-- Line and column of the mark; none if it lies beyond the text. -/
  position : Option (Nat × Nat)
  help : Option String

/-- The report on an error in a program text. A mark that ends beyond the last character, counted
in characters, is not drawn, nor is the hint that belongs to it. -/
def TypeError.report (source : String) (e : TypeError) : Report :=
  let (start, stop) := Diagnostic.span source e
  let drawn := start ≤ source.length ∧ (stop ≤ start ∨ stop - 1 ≤ source.length)
  { header := "[" ++ e.code ++ "] Error: " ++ e.message
    position := if drawn then some (Diagnostic.lineColumn source.toList start) else none
    help := if drawn then e.help else none }

end FeatherGo
