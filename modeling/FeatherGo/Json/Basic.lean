import FeatherGo.Json.Numeral

/-!
# JSON values

Values of the interchange format. An object keeps its members in the order they are written in, and
a repeated name is kept as well. How deeply a value nests is the number of brackets around its
innermost part.
-/

namespace FeatherGo

/-- A JSON value. An object keeps its members in order. -/
inductive Json where
  | null
  | bool (b : Bool)
  | num (n : Numeral)
  | str (s : String)
  | arr (items : List Json)
  | obj (members : List (String × Json))

namespace Json

/-- An integer. -/
def int (n : Int) : Json := .num (.ofInt n)

/-- A natural number. -/
def nat (n : Nat) : Json := int n

/-- A string or null. -/
def ofText? : Option String → Json
  | some s => .str s
  | none => .null

mutual

/-- How deeply arrays and objects nest. -/
def depth : Json → Nat
  | .arr items => 1 + depthAll items
  | .obj members => 1 + depthMembers members
  | _ => 0

/-- The greatest depth of some values. -/
def depthAll : List Json → Nat
  | [] => 0
  | j :: js => max j.depth (depthAll js)

/-- The greatest depth of the values of some members. -/
def depthMembers : List (String × Json) → Nat
  | [] => 0
  | (_, j) :: ms => max j.depth (depthMembers ms)

end

/-- A value without what nests deeper than a number of levels. An empty object stands for that: it
is what no reader asks for, so a value can be read as before unless something that is asked for has
been cut off. -/
def clip : Nat → Json → Json
  | 0, .arr _ => .obj []
  | 0, .obj _ => .obj []
  | n + 1, .arr items => .arr (items.map (clip n))
  | n + 1, .obj members => .obj (members.map fun (k, j) => (k, clip n j))
  | _, j => j

/-- The member of a name, if the object has exactly one. -/
def unique? (name : String) (members : List (String × Json)) : Option Json :=
  match members.filter fun m => m.1 = name with
  | [(_, j)] => some j
  | _ => none

/-- The value of a member, the last one of its name. -/
def member? (name : String) : Json → Option Json
  | .obj members => (members.reverse.find? fun m => m.1 = name).map (·.2)
  | _ => none

end Json

end FeatherGo
