import FeatherGo.Ty.Basic

/-!
# The text of types

Types as they are written in programs: `List(Pair(A, b))`, `struct { f A }`,
`interface { m(a Any)(x a) a; Other }`.
-/

namespace FeatherGo

/-- A parenthesised list, or nothing for an empty one. -/
def parenthesised : List String → String
  | [] => ""
  | items => "(" ++ ", ".intercalate items ++ ")"

/-- A keyword with its block of items. -/
def block (keyword : String) : List String → String
  | [] => keyword ++ " \x7b\x7d"
  | items => keyword ++ " \x7b " ++ "; ".intercalate items ++ " \x7d"

/-- The text of a primitive type; untyped ones are written by the family of their kind. -/
def Prim.render (p : Prim) : String :=
  if p.untyped then
    "untyped " ++
      (if p.kind.isIntegral then "int" else if p.kind.isFloat then "float" else p.kind.name)
  else
    p.kind.name

mutual

/-- The text of a type. -/
def Ty.render : Ty → String
  | .param p => p
  | .named c args => c ++ parenthesised (Ty.renderAll args)
  | .prim p => p.render
  | .struct fs => block "struct" (Slot.renderAll fs)
  | .interface ms => block "interface" (Member.renderAll ms)
  | .var n => "?" ++ toString n

/-- The texts of types. -/
def Ty.renderAll : List Ty → List String
  | [] => []
  | t :: ts => t.render :: Ty.renderAll ts

/-- The texts of slots: a name and its type. -/
def Slot.renderAll : List Slot → List String
  | [] => []
  | ⟨x, t⟩ :: fs => (x ++ " " ++ t.render) :: Slot.renderAll fs

/-- The texts of interface members. -/
def Member.renderAll : List Member → List String
  | [] => []
  | .method ⟨m, fs, ps, r⟩ :: ms =>
    (m ++ parenthesised (Slot.renderAll fs)
        ++ "(" ++ ", ".intercalate (Slot.renderAll ps) ++ ") " ++ r.render)
      :: Member.renderAll ms
  | .embed c args :: ms => (c ++ parenthesised (Ty.renderAll args)) :: Member.renderAll ms

end

/-- The text of a slot. -/
def Slot.render (s : Slot) : String := s.name ++ " " ++ s.ty.render

/-- The text of a signature. -/
def Signature.render (s : Signature) : String :=
  s.name ++ parenthesised (Slot.renderAll s.formals)
    ++ "(" ++ ", ".intercalate (Slot.renderAll s.params) ++ ") " ++ s.result.render

/-- The text of an interface member. -/
def Member.render : Member → String
  | .method s => s.render
  | .embed c args => (Ty.named c args).render

end FeatherGo
