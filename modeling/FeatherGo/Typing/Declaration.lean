import FeatherGo.Typing.Acyclic
import FeatherGo.Typing.Expression

/-!
# Typing of declarations and programs

A type declaration is checked under its own formals; a method under those of its receiver and its
own, with its body flowing into its result. `checkProgram` checks every declaration and the main
expression and gives back the program with every conversion in its place.
-/

namespace FeatherGo

/-- Whether a type may be the source of a declaration. -/
def Ty.isSource : Ty → Bool
  | .struct _ | .interface _ | .named .. => true
  | _ => false

/-- The bounding context of a method's body: the formals of its receiver and its own. -/
def MethodDecl.bounds (md : MethodDecl) : Bounds :=
  (Bounds.extend [] md.recvFormals).extend md.sig.formals

/-- The value context of a method's body: its receiver and its parameters. -/
def MethodDecl.scope (md : MethodDecl) : Scope :=
  (md.recv, md.selfType) :: md.sig.params.map fun p => (p.name, p.ty)

namespace Table

/-- A type declaration is well formed. -/
def checkTypeDecl (T : Table) (fuel : Nat) (td : TypeDecl) : Answer TypeError Unit := do
  let Δ ← T.okFormals fuel [] td.name td.formals
  if td.source.isSource then
    T.okType fuel Δ td.source
  else
    throw (.badSource td.name td.source)

/-- The receiver of a method is a declared type that is no interface, applied to as many parameters
as it takes, within its bounds. -/
def checkReceiver (T : Table) (fuel : Nat) (md : MethodDecl) : Answer TypeError Unit := do
  let td ← T.typeDecl md.recvType
  if td.formals.length ≠ md.recvFormals.length then
    throw (.receiverArity md.recvType md.sig.name td.formals.length md.recvFormals.length)
  if ← T.isInterface md.selfType then
    throw (.interfaceReceiver md.recvType md.sig.name)
  let Δ ← T.okFormals fuel [] md.sig.name md.recvFormals
  T.okType fuel Δ md.selfType

/-- A method and its receiver fit: no field has its name, its signature is well formed under the
receiver's formals, and no parameter is named like the receiver. -/
def checkHeader (T : Table) (fuel : Nat) (md : MethodDecl) : Answer TypeError Unit := do
  if ((← T.structFields md.selfType).getD []).any (·.name = md.sig.name) then
    throw (.fieldMethodClash md.recvType md.sig.name)
  T.okSignature fuel (Bounds.extend [] md.recvFormals) md.sig
  if md.sig.params.any (·.name = md.recv) then
    throw (.duplicateParam md.recv md.sig.name)

end Table

namespace Checker

/-- A method is well formed; the answer is the method with its body elaborated. -/
def checkMethodDecl (C : Checker) (md : MethodDecl) : Answer TypeError MethodDecl := do
  C.table.checkReceiver C.fuel md
  C.table.checkHeader C.fuel md
  let (t, body) ← C.check md.bounds md.scope md.body
  let body ← C.coerce md.bounds t body md.sig.result (.result md.sig.name)
  return { md with body }

/-- A declaration is well formed; the answer is the declaration, a method's body elaborated. -/
def checkDecl (C : Checker) : Decl → Answer TypeError Decl
  | .type td => do
    C.table.checkTypeDecl C.fuel td
    return .type td
  | .method md => do
    return .method (← C.checkMethodDecl md)

/-- All declarations are well formed, and none unfolds to itself. -/
def checkDecls (C : Checker) (decls : List Decl) : Answer TypeError (List Decl) := do
  C.table.checkAcyclic
  decls.mapM C.checkDecl

end Checker

/-- Check a program. The answer is the type of its main expression and the program with every body
elaborated. A lenient check lets assertions on types that are no interfaces through. -/
def checkProgram (fuel : Nat) (lenient : Bool) (p : Program) :
    Answer TypeError (Ty × Program) := do
  let C : Checker := ⟨← Table.ofDecls p.decls, lenient, fuel⟩
  let decls ← C.checkDecls p.decls
  let (t, main) ← C.check [] [] p.main
  return (t, { p with decls, main })

end FeatherGo
