import FeatherGo.Expr.Render

/-!
# Programs

Type declarations, method declarations and a main expression, with their text.
-/

namespace FeatherGo

/-- `type Name(formals) source` -/
structure TypeDecl where
  name : String
  formals : List Slot
  source : Ty

/-- `func (recv recvType(recvFormals)) name(formals)(params) result { return body }`

The receiver formals name the receiver type's parameters anew and may bound them more strongly. -/
structure MethodDecl where
  recv : String
  recvType : String
  recvFormals : List Slot
  sig : Signature
  body : Expr

/-- A declaration. -/
inductive Decl where
  | type (td : TypeDecl)
  | method (md : MethodDecl)

/-- A program. With `printf` set, main's value is printed instead of dropped. -/
structure Program where
  decls : List Decl
  main : Expr
  printf : Bool

/-- The formals of a declaration as arguments. -/
def formalArguments (formals : List Slot) : List Ty := formals.map fun f => .param f.name

/-- The declared type applied to its own formals. -/
def TypeDecl.selfType (td : TypeDecl) : Ty := .named td.name (formalArguments td.formals)

/-- The receiver type applied to the receiver formals. -/
def MethodDecl.selfType (md : MethodDecl) : Ty :=
  .named md.recvType (formalArguments md.recvFormals)

/-- The name of what is declared. -/
def Decl.name : Decl → String
  | .type td => td.name
  | .method md => md.sig.name

/-- The text of a type declaration. -/
def TypeDecl.render (td : TypeDecl) : String :=
  "type " ++ td.name ++ parenthesised (Slot.renderAll td.formals) ++ " " ++ td.source.render

/-- The text of a method declaration. -/
def MethodDecl.render (md : MethodDecl) : String :=
  "func (" ++ md.recv ++ " " ++ md.recvType ++ parenthesised (Slot.renderAll md.recvFormals) ++ ") "
    ++ md.sig.render ++ " \x7b return " ++ md.body.render ++ " \x7d"

/-- The text of a declaration. -/
def Decl.render : Decl → String
  | .type td => td.render
  | .method md => md.render

/-- The text of a program. -/
def Program.render (p : Program) : String :=
  "package main;\n"
    ++ (if p.printf then "import \"fmt\";\n" else "")
    ++ String.join (p.decls.map fun d => d.render ++ ";\n")
    ++ (if p.printf then "func main() \x7b fmt.Printf(\"%#v\", " ++ p.main.render ++ ") \x7d"
        else "func main() \x7b _ = " ++ p.main.render ++ " \x7d")

end FeatherGo
