import FeatherGo.Json.Basic

/-!
# Reading JSON tokens

A text is read character by character. What the reader has seen of the current token is its state;
a character either extends that token, or ends it and stands for a token of its own. A string holds
escapes of UTF-16 units: a high surrogate must be followed by a low one and neither may stand alone.
-/

namespace FeatherGo.Json

/-- A token. -/
inductive Token where
  | openArray
  | closeArray
  | openObject
  | closeObject
  | colon
  | comma
  | null
  | bool (b : Bool)
  | num (n : Numeral)
  | str (s : String)

namespace Token

/-- The token of a single character. -/
def ofChar? : Char → Option Token
  | '[' => some .openArray
  | ']' => some .closeArray
  | '\x7b' => some .openObject
  | '\x7d' => some .closeObject
  | ':' => some .colon
  | ',' => some .comma
  | _ => none

/-- The characters that may stand between tokens. -/
def isBlank (c : Char) : Bool := c == ' ' || c == '\t' || c == '\n' || c == '\r'

/-- The digits at the start of a text, of which there must be one, and the rest. -/
def digits? (cs : List Char) : Option (String × List Char) :=
  match cs.takeWhile Char.isDigit with
  | [] => none
  | ds => some (String.ofList ds, cs.dropWhile Char.isDigit)

/-- The fraction at the start of a text, if it starts with a point, and the rest. -/
def fraction? : List Char → Option (Option String × List Char)
  | '.' :: cs => (digits? cs).map fun (ds, rest) => (some ds, rest)
  | cs => some (none, cs)

/-- The exponent that makes up a text, if there is one. -/
def exponent? : List Char → Option (Option String)
  | [] => some none
  | e :: cs =>
    if e = 'e' ∨ e = 'E' then
      let (sign, cs) : String × List Char :=
        match cs with
        | '-' :: cs => ("-", cs)
        | '+' :: cs => ("+", cs)
        | cs => ("", cs)
      match digits? cs with
      | some (ds, []) => some (some (sign ++ ds))
      | _ => none
    else
      none

/-- The number that makes up a text without a minus sign: no zero before other digits. -/
def written? (cs : List Char) : Option Decimal.Written := do
  let (whole, rest) ← digits? cs
  if whole.startsWith "0" && whole ≠ "0" then
    none
  else
    let (fraction, rest) ← fraction? rest
    let exponent ← exponent? rest
    return ⟨whole, fraction, exponent⟩

/-- The number that makes up a text. -/
def numeral? : List Char → Option Numeral
  | '-' :: cs => (written? cs).map fun w => ⟨true, w⟩
  | cs => (written? cs).map fun w => ⟨false, w⟩

/-- The token that makes up a run of other characters. -/
def ofWord? (cs : List Char) : Option Token :=
  if cs = ['n', 'u', 'l', 'l'] then some .null
  else if cs = ['t', 'r', 'u', 'e'] then some (.bool true)
  else if cs = ['f', 'a', 'l', 's', 'e'] then some (.bool false)
  else (numeral? cs).map .num

/-- What has been seen of the current token; characters are kept in reverse. -/
inductive State where
  /-- Between tokens. -/
  | between
  /-- In a number or a name. -/
  | word (seen : List Char)
  /-- In a string. -/
  | text (seen : List Char)
  /-- After a backslash in a string. -/
  | escape (seen : List Char)
  /-- After a high surrogate: a backslash has to follow. -/
  | high (seen : List Char) (unit : Nat)
  /-- After a high surrogate and a backslash. -/
  | highEscape (seen : List Char) (unit : Nat)
  /-- In the four digits of a unit, after the digits of `value`. -/
  | unit (seen : List Char) (high : Option Nat) (count value : Nat)

/-- The value of a hexadecimal digit. -/
def hexValue? (c : Char) : Option Nat :=
  if '0' ≤ c ∧ c ≤ '9' then some (c.toNat - '0'.toNat)
  else if 'a' ≤ c ∧ c ≤ 'f' then some (c.toNat - 'a'.toNat + 10)
  else if 'A' ≤ c ∧ c ≤ 'F' then some (c.toNat - 'A'.toNat + 10)
  else none

/-- The state after a complete unit, if it may stand where it does. -/
def afterUnit (seen : List Char) (high : Option Nat) (unit : Nat) : Option State :=
  let isHigh := decide (0xD800 ≤ unit ∧ unit < 0xDC00)
  let isLow := decide (0xDC00 ≤ unit ∧ unit < 0xE000)
  match high with
  | none =>
    if isHigh then some (.high seen unit)
    else if isLow then none
    else some (.text (Char.ofNat unit :: seen))
  | some h =>
    if isLow then
      some (.text (Char.ofNat (0x10000 + (h - 0xD800) * 0x400 + (unit - 0xDC00)) :: seen))
    else none

/-- The state after an escape of one character. -/
def afterEscape (seen : List Char) : Char → Option State
  | '"' => some (.text ('"' :: seen))
  | '\\' => some (.text ('\\' :: seen))
  | '/' => some (.text ('/' :: seen))
  | 'b' => some (.text ('\x08' :: seen))
  | 'f' => some (.text ('\x0c' :: seen))
  | 'n' => some (.text ('\n' :: seen))
  | 'r' => some (.text ('\r' :: seen))
  | 't' => some (.text ('\t' :: seen))
  | 'u' => some (.unit seen none 0 0)
  | _ => none

/-- Read a character that belongs to no current token. -/
def start (c : Char) : State × List Token :=
  if isBlank c then (.between, [])
  else if c = '"' then (.text [], [])
  else
    match ofChar? c with
    | some t => (.between, [t])
    | none => (.word [c], [])

/-- Read one character: the state after it and the tokens that it completes. -/
def step : State → Char → Option (State × List Token)
  | .between, c => some (start c)
  | .word seen, c =>
    if isBlank c || c == '"' || (ofChar? c).isSome then do
      let t ← ofWord? seen.reverse
      let (s, ts) := start c
      return (s, t :: ts)
    else
      some (.word (c :: seen), [])
  | .text seen, c =>
    if c = '"' then some (.between, [.str (String.ofList seen.reverse)])
    else if c = '\\' then some (.escape seen, [])
    else if c.toNat < 0x20 then none
    else some (.text (c :: seen), [])
  | .escape seen, c => (afterEscape seen c).map (·, [])
  | .high seen unit, c => if c = '\\' then some (.highEscape seen unit, []) else none
  | .highEscape seen unit, c => if c = 'u' then some (.unit seen (some unit) 0 0, []) else none
  | .unit seen high count value, c => do
    let value := 16 * value + (← hexValue? c)
    if count = 3 then
      return (← afterUnit seen high value, [])
    else
      return (.unit seen high (count + 1) value, [])

/-- Read the rest of a text, onto the reversed tokens before it. -/
def readFrom : State → List Token → List Char → Option (List Token)
  | .between, read, [] => some read.reverse
  | .word seen, read, [] => (ofWord? seen.reverse).map fun t => (t :: read).reverse
  | _, _, [] => none
  | s, read, c :: cs =>
    match step s c with
    | some (s, ts) => readFrom s (ts.reverse ++ read) cs
    | none => none

/-- The tokens of a text, unless it is malformed. -/
def read? (text : String) : Option (List Token) := readFrom .between [] text.toList

end Token

end FeatherGo.Json
