import FeatherGo.Ty.Basic

/-!
# What occurs in a type

The types nested in a type, its free type parameters, its inference variables and its depth. A
signature's own formals are not free in it; inference variables have no binders.
-/

namespace FeatherGo

mutual

/-- A type and every type nested in it, outermost first. -/
def Ty.preorder : Ty → List Ty
  | .param p => [.param p]
  | .prim p => [.prim p]
  | .var n => [.var n]
  | .named c args => .named c args :: Ty.preorderAll args
  | .struct fs => .struct fs :: Slot.preorderAll fs
  | .interface ms => .interface ms :: Member.preorderAll ms

/-- The types nested in a list of types, the types themselves included. -/
def Ty.preorderAll : List Ty → List Ty
  | [] => []
  | t :: ts => t.preorder ++ Ty.preorderAll ts

/-- The types nested in a list of slots. -/
def Slot.preorderAll : List Slot → List Ty
  | [] => []
  | ⟨_, t⟩ :: fs => t.preorder ++ Slot.preorderAll fs

/-- The types nested in a list of members: in a signature the bounds, the parameter types and the
result. -/
def Member.preorderAll : List Member → List Ty
  | [] => []
  | .method ⟨_, fs, ps, r⟩ :: ms =>
    Slot.preorderAll fs ++ Slot.preorderAll ps ++ r.preorder ++ Member.preorderAll ms
  | .embed _ args :: ms => Ty.preorderAll args ++ Member.preorderAll ms

end

mutual

/-- The type parameters free in a type, in order of occurrence. -/
def Ty.freeParams : Ty → List String
  | .param p => [p]
  | .prim _ | .var _ => []
  | .named _ args => Ty.freeParamsAll args
  | .struct fs => Slot.freeParamsAll fs
  | .interface ms => Member.freeParamsAll ms

/-- The type parameters free in a list of types. -/
def Ty.freeParamsAll : List Ty → List String
  | [] => []
  | t :: ts => t.freeParams ++ Ty.freeParamsAll ts

/-- The type parameters free in the types of slots. -/
def Slot.freeParamsAll : List Slot → List String
  | [] => []
  | ⟨_, t⟩ :: fs => t.freeParams ++ Slot.freeParamsAll fs

/-- The type parameters free in interface members: a signature hides its own formals. -/
def Member.freeParamsAll : List Member → List String
  | [] => []
  | .method ⟨_, fs, ps, r⟩ :: ms =>
    (Slot.freeParamsAll fs ++ Slot.freeParamsAll ps ++ r.freeParams).filter
        (fun p => p ∉ fs.map (·.name))
      ++ Member.freeParamsAll ms
  | .embed _ args :: ms => Ty.freeParamsAll args ++ Member.freeParamsAll ms

end

/-- The type parameters free in a signature. -/
def Signature.freeParams (s : Signature) : List String :=
  (Slot.freeParamsAll s.formals ++ Slot.freeParamsAll s.params ++ s.result.freeParams).filter
    (fun p => p ∉ s.formalNames)

mutual

/-- Nesting depth: a leaf counts one, each layer of arguments, fields or members adds one. -/
def Ty.depth : Ty → Nat
  | .param _ | .prim _ | .var _ => 1
  | .named _ args => 1 + Ty.depthAll args
  | .struct fs => 1 + Slot.depthAll fs
  | .interface ms => 1 + Member.depthAll ms

/-- The greatest depth in a list of types. -/
def Ty.depthAll : List Ty → Nat
  | [] => 0
  | t :: ts => max t.depth (Ty.depthAll ts)

/-- The greatest depth in the types of slots. -/
def Slot.depthAll : List Slot → Nat
  | [] => 0
  | ⟨_, t⟩ :: fs => max t.depth (Slot.depthAll fs)

/-- The greatest depth in interface members. -/
def Member.depthAll : List Member → Nat
  | [] => 0
  | .method ⟨_, fs, ps, r⟩ :: ms =>
    max (max (Slot.depthAll fs) (max (Slot.depthAll ps) r.depth)) (Member.depthAll ms)
  | .embed _ args :: ms => max (Ty.depthAll args) (Member.depthAll ms)

end

namespace Ty

/-- Whether a type parameter occurs free. -/
def mentions (t : Ty) (p : String) : Bool := decide (p ∈ t.freeParams)

/-- Whether any inference variable occurs. -/
def hasVars (t : Ty) : Bool :=
  t.preorder.any fun
    | .var _ => true
    | _ => false

/-- Whether a given inference variable occurs. -/
def occurs (t : Ty) (n : Nat) : Bool := decide (.var n ∈ t.preorder)

/-- No type parameter is free and no inference variable occurs. -/
def isGround (t : Ty) : Bool := t.freeParams.isEmpty && !t.hasVars

end Ty

end FeatherGo
