import FeatherGo.Document.Names
import FeatherGo.Json.Basic

/-!
# Programs as documents

The JSON form of programs. A value with alternatives is an object of one member, named for the
alternative. How a float is written is left open: JSON has no form for infinities.
-/

namespace FeatherGo.Document

/-- An alternative with its content. -/
def alternative (name : String) (content : Json) : Json := .obj [(name, content)]

/-- A primitive type. -/
def encodePrim (p : Prim) : Json :=
  .obj [("tag", .str (kindTag p.kind)), ("untyped", .bool p.untyped)]

mutual

/-- A type. -/
def encodeTy : Ty → Json
  | .param p => alternative "Param" (.str p)
  | .named c args =>
    alternative "Named" (.obj [("name", .str c), ("args", .arr (encodeTys args))])
  | .prim p => alternative "Prim" (encodePrim p)
  | .struct fs => alternative "Struct" (.arr (encodeSlots "ty" fs))
  | .interface ms => alternative "Interface" (.arr (encodeMembers ms))
  | .var n => alternative "Var" (.nat n)

/-- Some types. -/
def encodeTys : List Ty → List Json
  | [] => []
  | t :: ts => encodeTy t :: encodeTys ts

/-- Some slots, their types under the given name. -/
def encodeSlots (label : String) : List Slot → List Json
  | [] => []
  | ⟨x, t⟩ :: fs => .obj [("name", .str x), (label, encodeTy t)] :: encodeSlots label fs

/-- Some interface members. -/
def encodeMembers : List Member → List Json
  | [] => []
  | .method ⟨m, fs, ps, r⟩ :: ms =>
    alternative "Sig" (.obj [("meth", .str m), ("formals", .arr (encodeSlots "bound" fs)),
      ("params", .arr (encodeSlots "ty" ps)), ("ret", encodeTy r)]) :: encodeMembers ms
  | .embed c args :: ms =>
    alternative "Embed" (.obj [("name", .str c), ("args", .arr (encodeTys args))])
      :: encodeMembers ms

end

/-- A declared type applied to arguments. -/
def encodeNamed (c : String) (args : List Ty) : Json :=
  .obj [("name", .str c), ("args", .arr (encodeTys args))]

/-- A signature. -/
def encodeSignature (s : Signature) : Json :=
  .obj [("meth", .str s.name), ("formals", .arr (encodeSlots "bound" s.formals)),
    ("params", .arr (encodeSlots "ty" s.params)), ("ret", encodeTy s.result)]

section

variable (float : Float → Json)

/-- A payload. -/
def encodePayload : Payload → Json
  | .bool b => alternative "Bool" (.bool b)
  | .int n => alternative "Int" (.int n.toInt)
  | .float x => alternative "Float" (float x)
  | .string s => alternative "Str" (.str s)

/-- A literal. -/
def encodeLiteral (l : Literal) : Json :=
  .obj [("value", encodePayload float l.payload), ("prim", encodePrim l.prim)]

mutual

/-- An expression. -/
def encodeExpr : Expr → Json
  | .var x => alternative "Var" (.str x)
  | .structLit c targs elems =>
    alternative "StructLit"
      (.obj [("ty", encodeNamed c targs), ("elems", .arr (encodeExprs elems))])
  | .select e f => alternative "Select" (.obj [("expr", encodeExpr e), ("field", .str f)])
  | .call recv m targs args =>
    alternative "Call" (.obj [("recv", encodeExpr recv), ("meth", .str m),
      ("targs", .arr (encodeTys targs)), ("args", .arr (encodeExprs args))])
  | .assert e t => alternative "Assert" (.obj [("expr", encodeExpr e), ("ty", encodeTy t)])
  | .sprintf s args =>
    alternative "Sprintf" (.obj [("format", .str s), ("args", .arr (encodeExprs args))])
  | .lit l => alternative "Lit" (encodeLiteral float l)
  | .binary op l r =>
    alternative "Binary"
      (.obj [("op", .str (operatorTag op)), ("lhs", encodeExpr l), ("rhs", encodeExpr r)])
  | .convert k e =>
    alternative "Convert" (.obj [("prim", .str (kindTag k)), ("expr", encodeExpr e)])

/-- Some expressions. -/
def encodeExprs : List Expr → List Json
  | [] => []
  | e :: es => encodeExpr e :: encodeExprs es

end

/-- A declaration. -/
def encodeDecl : Decl → Json
  | .type td =>
    alternative "Type" (.obj [("name", .str td.name),
      ("formals", .arr (encodeSlots "bound" td.formals)), ("source", encodeTy td.source)])
  | .method md =>
    alternative "Meth" (.obj [("recv", .str md.recv), ("recv_type", .str md.recvType),
      ("recv_formals", .arr (encodeSlots "bound" md.recvFormals)), ("name", .str md.sig.name),
      ("formals", .arr (encodeSlots "bound" md.sig.formals)),
      ("params", .arr (encodeSlots "ty" md.sig.params)), ("ret", encodeTy md.sig.result),
      ("body", encodeExpr float md.body)])

/-- A program. -/
def encodeProgram (p : Program) : Json :=
  .obj [("decls", .arr (p.decls.map (encodeDecl float))), ("main", encodeExpr float p.main),
    ("printf", .bool p.printf)]

end

/-- How floats are written as JSON numbers: `1.0`, `0.00001`, `1e-6`, `1e16`. -/
def numberLayout : Decimal.Layout := ⟨-4, 16, true, false, 1, ""⟩

/-- A float as a JSON number; what is not finite becomes null. -/
def plainFloat (x : Float) : Json :=
  match Binary64.denotation x with
  | .finite s 0 _ => .num ⟨s, numberLayout.write ⟨0, 0⟩⟩
  | .finite s m e => .num ⟨s, numberLayout.write (Decimal.shortest m e)⟩
  | _ => .null

end FeatherGo.Document
