import FeatherGo.Reduction.Step
import FeatherGo.Typing.Declaration

/-!
# Runs

A program is checked, and the checked program runs: its main expression is reduced until it is a
value, is stuck, or has taken as many steps as allowed. A run may record its steps, and may type
every expression again to see that its type still implements main's.
-/

namespace FeatherGo

/-- Limits of a run and what it watches. -/
structure RunConfig where
  /-- The greatest number of steps; none lets the run go on to its end. -/
  maxSteps : Option Nat
  /-- Record each step. -/
  trace : Bool
  /-- Type every expression again. -/
  checkPreservation : Bool

/-- How a run ended, with the expression it had reached. -/
inductive Outcome where
  | value (e : Expr)
  | stuck (e : Expr) (reason : StuckReason)
  | stepLimit (e : Expr)

/-- A finished run: its outcome, the number of steps and those recorded. -/
structure Run where
  outcome : Outcome
  steps : Nat
  trace : List (Rule × Expr)

namespace Machine

/-- The type of an expression, assertions let through, is or implements `before`. -/
def checkPreserved (M : Machine) (before : Ty) (e : Expr) : Answer EvalError Unit := do
  let after ← ((Checker.mk M.table true M.fuel).typeOf [] [] e).mapError .type
  if after = before then
    return ()
  else if ← (M.table.implements M.fuel [] after before).mapError .type then
    return ()
  else
    throw (.preservation before after e)

/-- Whether a limit on steps is reached. -/
def limitReached (config : RunConfig) (steps : Nat) : Bool :=
  config.maxSteps.any fun limit => limit ≤ steps

/-- Run an expression of type `t` on, after a number of steps and with those recorded in reverse;
the first argument bounds the steps that are still taken. -/
def runFrom (M : Machine) (config : RunConfig) (t : Ty) :
    Nat → Nat → List (Rule × Expr) → Expr → Answer EvalError Run
  | fuel, steps, trace, e =>
    if e.isValue then .ok ⟨.value e, steps, trace.reverse⟩
    else if limitReached config steps then .ok ⟨.stepLimit e, steps, trace.reverse⟩
    else
      match fuel with
      | 0 => .unfinished
      | fuel + 1 =>
        match M.step e with
        | .unfinished => .unfinished
        | .error (.stuck reason) => .ok ⟨.stuck e reason, steps, trace.reverse⟩
        | .error fault => .error fault
        | .ok (e', rule) => do
          if config.checkPreservation then
            M.checkPreserved t e'
          M.runFrom config t fuel (steps + 1)
            (if config.trace then (rule, e') :: trace else trace) e'

end Machine

/-- Check a program and run it. A limit on steps bounds the run by itself; without one the fuel
does. -/
def runProgram (fuel : Nat) (config : RunConfig) (p : Program) : Answer EvalError Run := do
  let (t, checked) ← (checkProgram fuel false p).mapError .type
  let table ← (Answer.ofExcept (Table.ofDecls checked.decls)).mapError .type
  Machine.runFrom ⟨table, fuel⟩ config t (config.maxSteps.getD fuel) 0 [] checked.main

end FeatherGo
