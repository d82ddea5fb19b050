import FeatherGo.Instance.Basic
import FeatherGo.Typing.Expression

/-!
# Instances written in an expression

The type of every struct literal, the receiver type and the instance of every call, and the target
of every assertion, parts first. A receiver whose type is a type parameter counts as its bound. What
was found before an error stays found.
-/

namespace FeatherGo.Checker

mutual

/-- Append the instances in an expression to those found. -/
def collect (C : Checker) (Δ : Bounds) (Γ : Scope) : Expr → Track Instances TypeError Unit
  | .var _ | .lit _ => pure ()
  | .structLit c targs elems => do
    collectAll C Δ Γ elems
    Track.update (Instances.pushType (.named c targs))
  | .select e _ => collect C Δ Γ e
  | .call recv meth targs args => do
    collect C Δ Γ recv
    collectAll C Δ Γ args
    let t ← assertedOn Δ (← C.typeOf Δ Γ recv)
    Track.update (Instances.pushType t)
    Track.update (Instances.pushMethod ⟨t, meth, targs⟩)
  | .assert e ty => do
    collect C Δ Γ e
    Track.update (Instances.pushType ty)
  | .sprintf _ args => collectAll C Δ Γ args
  | .binary _ lhs rhs => do
    collect C Δ Γ lhs
    collect C Δ Γ rhs
  | .convert _ e => collect C Δ Γ e

/-- Append the instances in some expressions. -/
def collectAll (C : Checker) (Δ : Bounds) (Γ : Scope) :
    List Expr → Track Instances TypeError Unit
  | [] => pure ()
  | e :: es => do
    collect C Δ Γ e
    collectAll C Δ Γ es

end

end FeatherGo.Checker
