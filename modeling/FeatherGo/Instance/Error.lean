import FeatherGo.Instance.Basic
import FeatherGo.Reduction.Error

/-!
# How instantiation fails

That instantiation would not end is an expected answer; the witness says which instance shows it.
-/

namespace FeatherGo

/-- What shows that instantiation could go on without end. -/
inductive Witness where
  /-- A type that is nested too deeply. -/
  | tooDeep (ty : Ty) (bound : Nat)
  /-- A declared type that contains itself at larger arguments. -/
  | contains (self ty : Ty)
  /-- A method that calls itself at larger arguments. -/
  | reaches (own found : MethodInstance)

/-- The wording of a witness. -/
def Witness.render : Witness → String
  | .tooDeep ty bound =>
    "instantiation " ++ ty.render ++ " exceeds nesting depth " ++ toString bound
  | .contains self ty => self.render ++ " contains " ++ ty.render
  | .reaches own found => own.render ++ " reaches " ++ found.render

/-- Why instances, or the ground program of them, cannot be found. -/
inductive MonoError where
  | notMonomorphisable (witness : Witness)
  /-- A type has parameters or inference variables left. -/
  | notGround (ty : Ty)
  /-- The passes allowed did not reach an end. -/
  | passLimit (passes : Nat)
  /-- A program and its ground form no longer agree. -/
  | diverged (step : Nat) (generic ground : Expr)
  | type (error : TypeError)
  | eval (error : EvalError)

/-- The wording of an error. -/
def MonoError.message : MonoError → String
  | .notMonomorphisable witness => "program is not monomorphisable: " ++ witness.render
  | .notGround ty => "expected a ground type, found " ++ ty.render
  | .passLimit passes =>
    "instantiation discovery did not converge within " ++ toString passes ++ " passes"
  | .diverged step generic ground =>
    "programs diverge at step " ++ toString step ++ ":\n  generic: " ++ generic.render
      ++ "\n  ground:  " ++ ground.render
  | .type error => error.message
  | .eval error => error.message

end FeatherGo
