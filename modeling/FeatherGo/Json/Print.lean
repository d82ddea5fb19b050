import FeatherGo.Json.Basic

/-!
# The text of JSON values

Values are printed on one line, or with every item on a line of its own, two spaces deeper than the
value it belongs to. Empty arrays and objects stay on their line.
-/

namespace FeatherGo.Json

/-- A hexadecimal digit. -/
def hexDigit (n : Nat) : Char := Nat.digitChar (n % 16)

/-- A character as it stands in a JSON string: what has to be escaped, in its shortest form. -/
def escape (c : Char) : List Char :=
  match c with
  | '"' => ['\\', '"']
  | '\\' => ['\\', '\\']
  | '\x08' => ['\\', 'b']
  | '\x0c' => ['\\', 'f']
  | '\n' => ['\\', 'n']
  | '\r' => ['\\', 'r']
  | '\t' => ['\\', 't']
  | c =>
    if c.toNat < 0x20 then ['\\', 'u', '0', '0', hexDigit (c.toNat / 16), hexDigit c.toNat]
    else [c]

/-- A JSON string. -/
def quote (s : String) : String := "\"" ++ String.ofList (s.toList.flatMap escape) ++ "\""

mutual

/-- The text of a value on one line. -/
def compress : Json → String
  | .null => "null"
  | .bool b => if b then "true" else "false"
  | .num n => n.text
  | .str s => quote s
  | .arr items => "[" ++ ",".intercalate (compressAll items) ++ "]"
  | .obj members => "\x7b" ++ ",".intercalate (compressMembers members) ++ "\x7d"

/-- The texts of some values. -/
def compressAll : List Json → List String
  | [] => []
  | j :: js => j.compress :: compressAll js

/-- The texts of some members. -/
def compressMembers : List (String × Json) → List String
  | [] => []
  | (k, j) :: ms => (quote k ++ ":" ++ j.compress) :: compressMembers ms

end

/-- The start of a line at a level. -/
def newline (level : Nat) : String := "\n" ++ String.ofList (List.replicate (2 * level) ' ')

/-- Items between brackets, each on a line of its own. -/
def spread (level : Nat) (left right : String) : List String → String
  | [] => left ++ right
  | items =>
    left ++ ",".intercalate (items.map (newline (level + 1) ++ ·)) ++ newline level ++ right

mutual

/-- The text of a value that starts at a level. -/
def prettyAt (level : Nat) : Json → String
  | .arr items => spread level "[" "]" (prettyAll (level + 1) items)
  | .obj members => spread level "\x7b" "\x7d" (prettyMembers (level + 1) members)
  | j => j.compress

/-- The texts of some values at a level. -/
def prettyAll (level : Nat) : List Json → List String
  | [] => []
  | j :: js => prettyAt level j :: prettyAll level js

/-- The texts of some members at a level. -/
def prettyMembers (level : Nat) : List (String × Json) → List String
  | [] => []
  | (k, j) :: ms => (quote k ++ ": " ++ prettyAt level j) :: prettyMembers level ms

end

/-- The text of a value over several lines. -/
def pretty (j : Json) : String := prettyAt 0 j

end FeatherGo.Json
