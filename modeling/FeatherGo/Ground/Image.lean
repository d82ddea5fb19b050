import FeatherGo.Ground.Name
import FeatherGo.Instance.Error
import FeatherGo.Table

/-!
# Ground images

What types and expressions become when every instance is a declaration of its own: a declared type
at arguments becomes the type named for it, a call at type arguments the call of the method named
for it. A signature with formals becomes its placeholder, which returns the interface that asks for
nothing. Only ground types have an image.
-/

namespace FeatherGo.Ground

variable [Digest]

/-- The usual name of the interface that placeholders return. -/
def topName : String := "Top"

/-- The placeholder of a signature, with the name of the interface that it returns. -/
def placeholder (top : String) (s : Signature) : Signature :=
  ⟨placeholderName s, [], [], .named top []⟩

mutual

/-- The image of a type. -/
def imageTy (top : String) : Ty → Except MonoError Ty
  | .param p => .error (.notGround (.param p))
  | .var n => .error (.notGround (.var n))
  | .prim p => .ok (.prim p)
  | .named c args =>
    if (Ty.named c args).isGround then .ok (.named (typeName c args) [])
    else .error (.notGround (.named c args))
  | .struct fs => do
    return .struct (← imageSlots top fs)
  | .interface ms => do
    return .interface (← imageMembers top ms)

/-- The images of some slots. -/
def imageSlots (top : String) : List Slot → Except MonoError (List Slot)
  | [] => .ok []
  | ⟨x, t⟩ :: fs => do
    let t ← imageTy top t
    return ⟨x, t⟩ :: (← imageSlots top fs)

/-- The images of some interface members. -/
def imageMembers (top : String) : List Member → Except MonoError (List Member)
  | [] => .ok []
  | .method ⟨m, fs, ps, r⟩ :: ms => do
    let s ←
      if fs.isEmpty then do
        let ps ← imageSlots top ps
        pure (Signature.mk m [] ps (← imageTy top r))
      else
        pure (placeholder top ⟨m, fs, ps, r⟩)
    return .method s :: (← imageMembers top ms)
  | .embed c args :: ms => do
    return .embed (typeName c args) [] :: (← imageMembers top ms)

end

/-- The image of a signature without formals, under a new name. -/
def imageSignature (top name : String) (params : List Slot) (result : Ty) :
    Except MonoError Signature := do
  let params ← imageSlots top params
  return ⟨name, [], params, ← imageTy top result⟩

mutual

/-- The image of an expression. -/
def imageExpr (top : String) : Expr → Except MonoError Expr
  | .var x => .ok (.var x)
  | .lit l => .ok (.lit l)
  | .structLit c targs elems =>
    if targs.all Ty.isGround then do
      return .structLit (typeName c targs) [] (← imageExprs top elems)
    else
      .error (.notGround (.named c targs))
  | .call recv meth targs args =>
    match targs.find? fun t => !t.isGround with
    | some t => .error (.notGround t)
    | none => do
      let recv ← imageExpr top recv
      return .call recv (methodName meth targs) [] (← imageExprs top args)
  | .assert e ty => do
    let e ← imageExpr top e
    return .assert e (← imageTy top ty)
  | .select e field => do
    return .select (← imageExpr top e) field
  | .sprintf format args => do
    return .sprintf format (← imageExprs top args)
  | .binary op lhs rhs => do
    let lhs ← imageExpr top lhs
    return .binary op lhs (← imageExpr top rhs)
  | .convert k e => do
    return .convert k (← imageExpr top e)

/-- The images of some expressions. -/
def imageExprs (top : String) : List Expr → Except MonoError (List Expr)
  | [] => .ok []
  | e :: es => do
    let e ← imageExpr top e
    return e :: (← imageExprs top es)

end

/-- The name of the interface that placeholders return beside the given declarations. -/
def topFor (T : Table) : String := freshName topName (T.typeDecls.map (·.name))

end FeatherGo.Ground
