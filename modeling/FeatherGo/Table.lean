import FeatherGo.Typing.Error

/-!
# Declaration tables

A table holds a program's declarations in order, with at most one type of a name and at most one
method of a name on a receiver type. Every judgment looks declarations up here.
-/

namespace FeatherGo

/-- The declarations of a program, types and methods apart. -/
structure Table where
  typeDecls : List TypeDecl
  methodDecls : List MethodDecl

namespace Table

/-- The table without declarations. -/
def empty : Table := ⟨[], []⟩

/-- The declaration of a type name, if there is one. -/
def type? (T : Table) (name : String) : Option TypeDecl :=
  T.typeDecls.find? fun td => td.name = name

/-- The method of a name declared on a receiver type, if there is one. -/
def method? (T : Table) (recvType meth : String) : Option MethodDecl :=
  T.methodDecls.find? fun md => md.recvType = recvType ∧ md.sig.name = meth

/-- The methods declared on a receiver type, in order. -/
def methodsOn (T : Table) (recvType : String) : List MethodDecl :=
  T.methodDecls.filter fun md => md.recvType = recvType

/-- The declaration of a type name that must be declared. -/
def typeDecl (T : Table) (name : String) : Except TypeError TypeDecl :=
  match T.type? name with
  | some td => .ok td
  | none => .error (.undeclaredType name)

/-- Add a declaration, unless its name is taken. -/
def add (T : Table) : Decl → Except TypeError Table
  | .type td =>
    if (T.type? td.name).isSome then .error (.duplicateType td.name)
    else .ok { T with typeDecls := T.typeDecls ++ [td] }
  | .method md =>
    if (T.method? md.recvType md.sig.name).isSome then
      .error (.duplicateMethod md.recvType md.sig.name)
    else .ok { T with methodDecls := T.methodDecls ++ [md] }

/-- The table of a list of declarations, refusing the first one whose name is taken. -/
def ofDecls (decls : List Decl) : Except TypeError Table := decls.foldlM add empty

end Table

end FeatherGo
