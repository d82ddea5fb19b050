import FeatherGo.Ground.Image
import FeatherGo.Instance.Nesting

/-!
# The ground form of a program

Every instance of a declared type becomes a type declaration, in order of discovery; then come the
methods of those that are no interfaces, in order of declaration: for each a placeholder, and one
method for each of its instances. The interface that placeholders return stands last.
-/

namespace FeatherGo.Ground

/-- What a ground program is made from: the declarations, the instances, fuel for method sets, and
the name of the interface that placeholders return. -/
structure Grounding where
  table : Table
  instances : Instances
  fuel : Nat
  top : String

namespace Grounding

variable [Digest]

/-- An answer of typing on the way to a ground program. -/
def typing {α : Type} (x : Answer TypeError α) : Answer MonoError α := x.mapError .type

/-- The instances of a method on a receiver type that have as many type arguments as it has
formals. -/
def instancesOf (G : Grounding) (recv : Ty) (meth : String) (formals : List Slot) :
    List MethodInstance :=
  G.instances.meths.filter fun m =>
    m.recv = recv ∧ m.meth = meth ∧ m.targs.length = formals.length

/-- The images of a signature at the type arguments of some instances. -/
def signatureImages (G : Grounding) (s : Signature) :
    List MethodInstance → Except MonoError (List Member)
  | [] => .ok []
  | m :: ms => do
    let η := instantiation s.formals m.targs
    let image ← imageSignature G.top (methodName s.name m.targs)
      (s.params.map (Slot.map (Ty.subst η))) (s.result.subst η)
    return .method image :: (← G.signatureImages s ms)

/-- The members of an interface instance: for each method the images at its instances and the
placeholder. -/
def interfaceMembers (G : Grounding) (t : Ty) : MethodSet → Except MonoError (List Member)
  | [] => .ok []
  | s :: rest => do
    let images ← G.signatureImages s (G.instancesOf t s.name s.formals)
    return images ++ .method (placeholder G.top s) :: (← G.interfaceMembers t rest)

/-- The declaration of an instance of a declared type. -/
def typeDecl (G : Grounding) (c : String) (args : List Ty) : Answer MonoError TypeDecl := do
  let t := Ty.named c args
  let source ←
    if ← typing (.ofExcept (G.table.isInterface t)) then do
      let methods ← typing (G.table.methods [] G.fuel t)
      pure (Ty.interface (← G.interfaceMembers t methods))
    else do
      monadLift (imageTy G.top (← typing (.ofExcept (G.table.underlying t))))
  return ⟨typeName c args, [], source⟩

/-- The declarations of some types. -/
def typeDecls (G : Grounding) : List Ty → Answer MonoError (List Decl)
  | [] => .ok []
  | .named c args :: ts => do
    let td ← G.typeDecl c args
    return .type td :: (← G.typeDecls ts)
  | _ :: ts => G.typeDecls ts

/-- The placeholder of a method on a receiver type, at the receiver's arguments. -/
def placeholderDecl (G : Grounding) (recvType : String) (η : Env Ty) (md : MethodDecl) :
    MethodDecl :=
  ⟨md.recv, recvType, [], placeholder G.top (md.sig.subst η), .var md.recv⟩

/-- The declarations of some instances of a method on a receiver type, at the receiver's
arguments. -/
def instanceDecls (G : Grounding) (recvType : String) (η : Env Ty) (md : MethodDecl) :
    List MethodInstance → Except MonoError (List Decl)
  | [] => .ok []
  | m :: ms => do
    let η' : Env Ty := η ++ instantiation md.sig.formals m.targs
    let sig ← imageSignature G.top (methodName md.sig.name m.targs)
      (md.sig.params.map (Slot.map (Ty.subst η'))) (md.sig.result.subst η')
    let body ← imageExpr G.top (md.body.substTypes η')
    return .method ⟨md.recv, recvType, [], sig, body⟩ :: (← G.instanceDecls recvType η md ms)

/-- The declarations of those of some methods that a type's arguments are within bounds of. -/
def methodDeclsOn (G : Grounding) (c : String) (args : List Ty) :
    List MethodDecl → Answer MonoError (List Decl)
  | [] => .ok []
  | md :: mds => do
    match ← typing (G.table.receiver G.fuel [] md.recvFormals args) with
    | none => G.methodDeclsOn c args mds
    | some η =>
      let recvType := typeName c args
      let instances ← G.instanceDecls recvType η md
        (G.instancesOf (.named c args) md.sig.name md.sig.formals)
      return .method (G.placeholderDecl recvType η md) :: instances
        ++ (← G.methodDeclsOn c args mds)

/-- The declarations of the methods of some types that are no interfaces. -/
def methodDecls (G : Grounding) : List Ty → Answer MonoError (List Decl)
  | [] => .ok []
  | .named c args :: ts => do
    if ← typing (.ofExcept (G.table.isInterface (.named c args))) then
      G.methodDecls ts
    else
      let decls ← G.methodDeclsOn c args (G.table.methodsOn c)
      return decls ++ (← G.methodDecls ts)
  | _ :: ts => G.methodDecls ts

/-- The ground program of a main expression. -/
def program (G : Grounding) (main : Expr) (printf : Bool) : Answer MonoError Program := do
  let types ← G.typeDecls G.instances.types
  let methods ← G.methodDecls G.instances.types
  let main ← imageExpr G.top main
  return ⟨types ++ methods ++ [.type ⟨G.top, [], .anything⟩], main, printf⟩

end Grounding

/-- The ground program of a table's main expression with the instances it reaches. -/
def programOf [Digest] (fuel : Nat) (T : Table) (instances : Instances) (main : Expr) (printf : Bool) :
    Answer MonoError Program :=
  Grounding.program ⟨T, instances, fuel, topFor T⟩ main printf

/-- How the ground form of a program is found. -/
structure Config where
  /-- See first that instances do not grow without end. -/
  checkNesting : Bool
  /-- The greatest number of passes over the instances. -/
  maxPasses : Option Nat

/-- Check first, and make as many passes as are needed. -/
def Config.standard : Config := ⟨true, none⟩

end Ground

/-- The ground form of a program. -/
def groundProgram [Ground.Digest] (fuel : Nat) (config : Ground.Config) (p : Program) :
    Answer MonoError Program := do
  let (_, checked) ← (checkProgram fuel false p).mapError .type
  let T ← (Answer.ofExcept (Table.ofDecls checked.decls)).mapError .type
  if config.checkNesting then
    T.checkNesting fuel
  let instances ← discover fuel T checked.main config.maxPasses
  Ground.programOf fuel T instances checked.main checked.printf

end FeatherGo
