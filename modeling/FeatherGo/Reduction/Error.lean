import FeatherGo.Typing.Error

/-!
# How evaluation fails

A stuck expression is an expected end of a run. Every other error would tell of a program that was
not checked before.
-/

namespace FeatherGo

/-- Why a well-formed expression cannot step. -/
inductive StuckReason where
  /-- The type of the asserted value does not implement the target. -/
  | failedAssertion (value target : Ty) (term : Expr)
  /-- The divisor of an integer division is zero. -/
  | divisionByZero (term : Expr)

/-- The wording of a reason. -/
def StuckReason.message : StuckReason → String
  | .failedAssertion value target term =>
    "assertion " ++ backquoted term.render ++ " failed: " ++ value.render ++ " does not implement "
      ++ target.render
  | .divisionByZero term => "integer division by zero in " ++ backquoted term.render

/-- Why a step has no result. -/
inductive EvalError where
  | stuck (reason : StuckReason)
  /-- The expression is a value. -/
  | notReducible (term : Expr)
  /-- A variable was not substituted. -/
  | freeVariable (name : String)
  | type (error : TypeError)
  /-- The type after a step does not implement the type before it. -/
  | preservation (before after : Ty) (term : Expr)
  /-- A divisor that does not fit 32 bits has nothing but zero in them. -/
  | divisorLost

/-- The wording of an error. -/
def EvalError.message : EvalError → String
  | .stuck reason => "stuck: " ++ reason.message
  | .notReducible term => backquoted term.render ++ " is a value and cannot step"
  | .freeVariable name => "free variable " ++ backquoted name ++ " during evaluation"
  | .type error => error.message
  | .preservation before after term =>
    "type preservation violated: " ++ backquoted term.render ++ " has type " ++ after.render
      ++ ", which does not implement " ++ before.render
  | .divisorLost => "attempt to divide by zero"

/-- Whether an error is a stuck expression. -/
def EvalError.isStuck : EvalError → Bool
  | .stuck _ => true
  | _ => false

end FeatherGo
