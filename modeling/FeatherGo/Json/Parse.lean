import FeatherGo.Json.Token

/-!
# Reading JSON values

A value is read by recursive descent over the tokens of a text. Every second step at the latest
consumes a token, so twice as many steps as there are tokens are enough; nesting has no other limit.
-/

namespace FeatherGo.Json

open Token

mutual

/-- Read a value, within a number of steps; the tokens after it are left. -/
def value? : Nat → List Token → Option (Json × List Token)
  | 0, _ => none
  | n + 1, ts =>
    match ts with
    | .null :: ts => some (.null, ts)
    | .bool b :: ts => some (.bool b, ts)
    | .num k :: ts => some (.num k, ts)
    | .str s :: ts => some (.str s, ts)
    | .openArray :: .closeArray :: ts => some (.arr [], ts)
    | .openArray :: ts => (items? n ts).map fun (js, ts) => (.arr js, ts)
    | .openObject :: .closeObject :: ts => some (.obj [], ts)
    | .openObject :: ts => (members? n ts).map fun (ms, ts) => (.obj ms, ts)
    | _ => none

/-- Read items up to the end of an array. -/
def items? : Nat → List Token → Option (List Json × List Token)
  | 0, _ => none
  | n + 1, ts => do
    match ← value? n ts with
    | (j, .comma :: ts) =>
      let (js, ts) ← items? n ts
      return (j :: js, ts)
    | (j, .closeArray :: ts) => some ([j], ts)
    | _ => none

/-- Read members up to the end of an object. -/
def members? : Nat → List Token → Option (List (String × Json) × List Token)
  | 0, _ => none
  | n + 1, ts =>
    match ts with
    | .str k :: .colon :: ts => do
      match ← value? n ts with
      | (j, .comma :: ts) =>
        let (ms, ts) ← members? n ts
        return ((k, j) :: ms, ts)
      | (j, .closeObject :: ts) => some ([(k, j)], ts)
      | _ => none
    | _ => none

end

/-- The value that a text stands for, unless it is malformed. -/
def parse? (text : String) : Option Json := do
  let ts ← Token.read? text
  match ← value? (2 * ts.length + 1) ts with
  | (j, []) => some j
  | _ => none

end FeatherGo.Json
