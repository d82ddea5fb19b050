import FeatherGo.Document.Names
import FeatherGo.Json.Basic

/-!
# Reading programs from documents

The inverse of the JSON form of programs. An object may hold members that are not asked for; a
member that is asked for must occur once. A value with alternatives is an object of one member, and
one without content is a bare string. What else may stand for a value is up to the dialect of the
document. Every level of reading goes at least one bracket deeper, so the depth of the document
bounds the recursion.
-/

namespace FeatherGo.Document

/-- What is up to the document. -/
structure Dialect where
  /-- The floats that a value may stand for. -/
  float : Json → Option Float
  /-- Whether an array may stand for an object, with the members in order, and an object that holds
  null for a bare string. -/
  loose : Bool

namespace Dialect

/-- Floats are numbers, and each is the nearest double. -/
def exactFloat? : Json → Option Float
  | .num n => n.toFloat?
  | _ => none

/-- Floats are numbers in the quick reading. -/
def quickFloat? : Json → Option Float
  | .num n => n.toFloatQuick?
  | _ => none

/-- The dialect of program files. -/
def file : Dialect := ⟨quickFloat?, true⟩

/-- The members of the given names, in order. -/
def record? (d : Dialect) (names : List String) : Json → Option (List Json)
  | .obj members => names.mapM fun name => Json.unique? name members
  | .arr items => if d.loose && items.length == names.length then some items else none
  | _ => none

end Dialect

/-- A bare string or an object of one member: the alternative and its content, if any. -/
def alternative? : Json → Option (String × Option Json)
  | .str s => some (s, none)
  | .obj [(k, j)] => some (k, some j)
  | _ => none

/-- A string. -/
def decodeString? : Json → Option String
  | .str s => some s
  | _ => none

/-- A truth value. -/
def decodeBool? : Json → Option Bool
  | .bool b => some b
  | _ => none

/-- An integer. -/
def decodeInt? : Json → Option Int
  | .num n => n.toInt?
  | _ => none

/-- An integer within bounds. -/
def decodeIntIn? (lo hi : Int) (j : Json) : Option Int := do
  let n ← decodeInt? j
  if lo ≤ n ∧ n ≤ hi then some n else none

/-- A count, which a 64-bit word holds. -/
def decodeCount? (j : Json) : Option Nat := (decodeIntIn? 0 (UInt64.size - 1) j).map Int.toNat

/-- An array, item by item. -/
def decodeArray? {α : Type} (item : Json → Option α) : Json → Option (List α)
  | .arr items => items.mapM item
  | _ => none

section

variable (d : Dialect)

/-- The name of an alternative without content. -/
def decodeName? (j : Json) : Option String :=
  match alternative? j with
  | some (name, none) => some name
  | some (name, some .null) => if d.loose then some name else none
  | _ => none

/-- A kind. -/
def decodeKind? (j : Json) : Option Kind := do kindOfTag? (← decodeName? d j)

/-- An operator. -/
def decodeOperator? (j : Json) : Option Operator := do operatorOfTag? (← decodeName? d j)

/-- A primitive type. -/
def decodePrim? (j : Json) : Option Prim := do
  match ← d.record? ["tag", "untyped"] j with
  | [tag, untyped] => return ⟨← decodeKind? d tag, ← decodeBool? untyped⟩
  | _ => none

/-- A slot whose type has the given name, with a reader of types. -/
def slotWith (ty : Json → Option Ty) (label : String) (j : Json) : Option Slot := do
  match ← d.record? ["name", label] j with
  | [name, t] => return ⟨← decodeString? name, ← ty t⟩
  | _ => none

/-- A declared type applied to arguments, with a reader of types. -/
def namedWith (ty : Json → Option Ty) (j : Json) : Option (String × List Ty) := do
  match ← d.record? ["name", "args"] j with
  | [name, args] => return (← decodeString? name, ← decodeArray? ty args)
  | _ => none

/-- A signature, with a reader of types. -/
def signatureWith (ty : Json → Option Ty) (j : Json) : Option Signature := do
  match ← d.record? ["meth", "formals", "params", "ret"] j with
  | [name, formals, params, result] =>
    return ⟨← decodeString? name, ← decodeArray? (slotWith d ty "bound") formals,
      ← decodeArray? (slotWith d ty "ty") params, ← ty result⟩
  | _ => none

/-- An interface member, with a reader of types. -/
def memberWith (ty : Json → Option Ty) (j : Json) : Option Member :=
  match alternative? j with
  | some ("Sig", some s) => (signatureWith d ty s).map .method
  | some ("Embed", some n) => (namedWith d ty n).map fun (c, args) => .embed c args
  | _ => none

/-- A type, within a number of levels. -/
def tyWithin? : Nat → Json → Option Ty
  | 0, _ => none
  | n + 1, j =>
    match alternative? j with
    | some ("Param", some p) => (decodeString? p).map .param
    | some ("Named", some c) => (namedWith d (tyWithin? n) c).map fun (c, args) => .named c args
    | some ("Prim", some p) => (decodePrim? d p).map .prim
    | some ("Struct", some fs) => (decodeArray? (slotWith d (tyWithin? n) "ty") fs).map .struct
    | some ("Interface", some ms) => (decodeArray? (memberWith d (tyWithin? n)) ms).map .interface
    | some ("Var", some v) => (decodeIntIn? 0 (UInt32.size - 1) v).map fun v => .var v.toNat
    | _ => none

/-- A type. -/
def decodeTy? (j : Json) : Option Ty := tyWithin? d j.depth j

/-- A type formal. -/
def decodeFormal? (j : Json) : Option Slot := slotWith d (decodeTy? d) "bound" j

/-- A field or a value parameter. -/
def decodeSlot? (j : Json) : Option Slot := slotWith d (decodeTy? d) "ty" j

/-- A declared type applied to arguments. -/
def decodeNamed? (j : Json) : Option (String × List Ty) := namedWith d (decodeTy? d) j

/-- A signature. -/
def decodeSignature? (j : Json) : Option Signature := signatureWith d (decodeTy? d) j

/-- An interface member. -/
def decodeMember? (j : Json) : Option Member := memberWith d (decodeTy? d) j

/-- A type declaration. -/
def decodeTypeDecl? (j : Json) : Option TypeDecl := do
  match ← d.record? ["name", "formals", "source"] j with
  | [name, formals, source] =>
    return ⟨← decodeString? name, ← decodeArray? (decodeFormal? d) formals, ← decodeTy? d source⟩
  | _ => none

/-- A payload. -/
def decodePayload? (j : Json) : Option Payload :=
  match alternative? j with
  | some ("Bool", some b) => (decodeBool? b).map .bool
  | some ("Int", some n) =>
    (decodeIntIn? Int64.minValue.toInt Int64.maxValue.toInt n).map fun n => .int (.ofInt n)
  | some ("Float", some x) => (d.float x).map .float
  | some ("Str", some s) => (decodeString? s).map .string
  | _ => none

/-- A literal. -/
def decodeLiteral? (j : Json) : Option Literal := do
  match ← d.record? ["value", "prim"] j with
  | [value, prim] => return ⟨← decodePayload? d value, ← decodePrim? d prim⟩
  | _ => none

/-- An expression, within a number of levels. -/
def exprWithin? : Nat → Json → Option Expr
  | 0, _ => none
  | n + 1, j =>
    match alternative? j with
    | some ("Var", some x) => (decodeString? x).map .var
    | some ("StructLit", some j) => do
      match ← d.record? ["ty", "elems"] j with
      | [ty, elems] =>
        let (c, targs) ← decodeNamed? d ty
        return .structLit c targs (← decodeArray? (exprWithin? n) elems)
      | _ => none
    | some ("Select", some j) => do
      match ← d.record? ["expr", "field"] j with
      | [e, f] => return .select (← exprWithin? n e) (← decodeString? f)
      | _ => none
    | some ("Call", some j) => do
      match ← d.record? ["recv", "meth", "targs", "args"] j with
      | [recv, meth, targs, args] =>
        return .call (← exprWithin? n recv) (← decodeString? meth)
          (← decodeArray? (decodeTy? d) targs) (← decodeArray? (exprWithin? n) args)
      | _ => none
    | some ("Assert", some j) => do
      match ← d.record? ["expr", "ty"] j with
      | [e, t] => return .assert (← exprWithin? n e) (← decodeTy? d t)
      | _ => none
    | some ("Sprintf", some j) => do
      match ← d.record? ["format", "args"] j with
      | [format, args] =>
        return .sprintf (← decodeString? format) (← decodeArray? (exprWithin? n) args)
      | _ => none
    | some ("Lit", some l) => (decodeLiteral? d l).map .lit
    | some ("Binary", some j) => do
      match ← d.record? ["op", "lhs", "rhs"] j with
      | [op, lhs, rhs] =>
        return .binary (← decodeOperator? d op) (← exprWithin? n lhs) (← exprWithin? n rhs)
      | _ => none
    | some ("Convert", some j) => do
      match ← d.record? ["prim", "expr"] j with
      | [prim, e] => return .convert (← decodeKind? d prim) (← exprWithin? n e)
      | _ => none
    | _ => none

/-- An expression. -/
def decodeExpr? (j : Json) : Option Expr := exprWithin? d j.depth j

/-- A method declaration. -/
def decodeMethodDecl? (j : Json) : Option MethodDecl := do
  match ← d.record?
    ["recv", "recv_type", "recv_formals", "name", "formals", "params", "ret", "body"] j with
  | [recv, recvType, recvFormals, name, formals, params, result, body] =>
    let sig : Signature :=
      ⟨← decodeString? name, ← decodeArray? (decodeFormal? d) formals,
        ← decodeArray? (decodeSlot? d) params, ← decodeTy? d result⟩
    return ⟨← decodeString? recv, ← decodeString? recvType,
      ← decodeArray? (decodeFormal? d) recvFormals, sig, ← decodeExpr? d body⟩
  | _ => none

/-- A declaration. -/
def decodeDecl? (j : Json) : Option Decl :=
  match alternative? j with
  | some ("Type", some td) => (decodeTypeDecl? d td).map .type
  | some ("Meth", some md) => (decodeMethodDecl? d md).map .method
  | _ => none

/-- The names of a program's members. The last one, a flag, may be left out. -/
def programNames : Json → List String
  | .obj members =>
    if members.any (·.1 = "printf") then ["decls", "main", "printf"] else ["decls", "main"]
  | .arr [_, _, _] => ["decls", "main", "printf"]
  | _ => ["decls", "main"]

/-- A program. Without a flag, main's value is dropped. -/
def decodeProgram? (j : Json) : Option Program := do
  match ← d.record? (programNames j) j with
  | decls :: main :: flag =>
    let printf ←
      match flag with
      | flag :: _ => decodeBool? flag
      | [] => some false
    return ⟨← decodeArray? (decodeDecl? d) decls, ← decodeExpr? d main, printf⟩
  | _ => none

end

end FeatherGo.Document
