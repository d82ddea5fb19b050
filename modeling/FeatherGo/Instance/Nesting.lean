import FeatherGo.Instance.Closure
import FeatherGo.Typing.Declaration

/-!
# Whether instantiation ends

The instances of each generic type and of each method are closed with its own type parameters left
open. If the same declaration comes up with one of them nested inside an argument, instances could
grow without end. A type nested too deeply for the declarations at hand shows the same. The check
is sufficient: programs that it refuses may still have finitely many instances.
-/

namespace FeatherGo

/-- Whether an argument mentions one of the formals below its outermost level. -/
def nests (args : List Ty) (formals : List Slot) : Bool :=
  args.any fun
    | .param _ => false
    | t => formals.any fun f => t.mentions f.name

/-- The types that a declaration writes, the bounds of its formals included. -/
def TypeDecl.types (td : TypeDecl) : List Ty := td.source :: td.formals.map (·.ty)

/-- The types that a method declaration writes, those of its body included. -/
def MethodDecl.types (md : MethodDecl) : List Ty :=
  (md.recvFormals ++ md.sig.formals ++ md.sig.params).map (·.ty) ++ [md.sig.result]
    ++ md.body.types

namespace Table

/-- The depth of the deepest type in the declarations, at least one. -/
def deepest (T : Table) : Nat :=
  max 1 (Ty.depthAll (T.typeDecls.flatMap TypeDecl.types ++ T.methodDecls.flatMap MethodDecl.types))

/-- How deep open instances may nest. -/
def depthBound (T : Table) : Nat := (T.deepest + 1) * (T.typeDecls.length + 1)

/-- Close open instances under a bounding context. -/
def openClosure (T : Table) (fuel : Nat) (Δ : Bounds) : Closure :=
  ⟨T, Δ, .within T.depthBound, fuel⟩

/-- A generic type does not contain itself at larger arguments. -/
def checkTypeNesting (T : Table) (fuel : Nat) (td : TypeDecl) : Answer MonoError Unit := do
  let K := T.openClosure fuel (Bounds.extend [] td.formals)
  let search : Closure.Visit Unit := do
    let _ ← K.addType td.selfType
    let _ ← K.run none
  let (outcome, s) := search Frontier.empty
  outcome
  match s.found.types.find? fun t => t.head? = some td.name ∧ nests t.arguments td.formals with
  | some t => throw (.notMonomorphisable (.contains td.selfType t))
  | none => return ()

/-- A method does not call itself at larger arguments. -/
def checkMethodNesting (T : Table) (fuel : Nat) (md : MethodDecl) : Answer MonoError Unit := do
  let K := T.openClosure fuel md.bounds
  let own : MethodInstance := ⟨md.selfType, md.sig.name, formalArguments md.sig.formals⟩
  let search : Closure.Visit Unit := do
    let _ ← K.addType md.selfType
    let _ ← K.addMethod own
    Closure.markVisited md.recvType md.sig.name
    K.addFrom md.scope md.body
    let _ ← K.run none
  let (outcome, s) := search Frontier.empty
  outcome
  let again := s.found.meths.find? fun m =>
    m.meth = md.sig.name ∧ m.recvDecl? = some md.recvType
      ∧ (nests m.recv.arguments md.recvFormals ∨ nests m.targs md.sig.formals)
  match again with
  | some m => throw (.notMonomorphisable (.reaches own m))
  | none => return ()

/-- Check some declared types, those that are generic. -/
def checkTypesNesting (T : Table) (fuel : Nat) : List TypeDecl → Answer MonoError Unit
  | [] => .ok ()
  | td :: tds => do
    if !td.formals.isEmpty then
      T.checkTypeNesting fuel td
    T.checkTypesNesting fuel tds

/-- Check some methods. -/
def checkMethodsNesting (T : Table) (fuel : Nat) : List MethodDecl → Answer MonoError Unit
  | [] => .ok ()
  | md :: mds => do
    T.checkMethodNesting fuel md
    T.checkMethodsNesting fuel mds

/-- No declaration makes instances grow without end. -/
def checkNesting (T : Table) (fuel : Nat) : Answer MonoError Unit := do
  T.checkTypesNesting fuel T.typeDecls
  T.checkMethodsNesting fuel T.methodDecls

end Table

/-- Check a program, and that its instances do not grow without end. -/
def checkProgramNesting (fuel : Nat) (p : Program) : Answer MonoError Unit := do
  let (_, checked) ← (checkProgram fuel false p).mapError .type
  let T ← (Answer.ofExcept (Table.ofDecls checked.decls)).mapError .type
  T.checkNesting fuel

end FeatherGo
