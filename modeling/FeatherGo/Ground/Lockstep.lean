import FeatherGo.Ground.Program
import FeatherGo.Reduction.Run

/-!
# A program and its ground form, side by side

Both programs take their steps together. Before each step the image of the one expression must be
the other; they must become values together and get stuck together.
-/

namespace FeatherGo

namespace Ground

/-- Two machines that step together, and the name of the interface that placeholders return. -/
structure Lockstep where
  generic : Machine
  ground : Machine
  top : String

/-- Step both expressions at most a number of times, after `taken` steps; the answer is the number
of steps taken in all. -/
def Lockstep.follow [Digest] (L : Lockstep) : Nat → Nat → Expr → Expr → Answer MonoError Nat
  | left, taken, g, m => do
    let image ← imageExpr L.top g
    if !(image == m) then
      throw (.diverged taken image m)
    if g.isValue then
      return taken
    match left with
    | 0 => return taken
    | left + 1 =>
      match L.generic.step g, L.ground.step m with
      | .unfinished, _ => .unfinished
      | _, .unfinished => .unfinished
      | .ok (g', _), .ok (m', _) => L.follow left (taken + 1) g' m'
      | .error e, .error e' =>
        if !e.isStuck then throw (.eval e)
        else if !e'.isStuck then throw (.eval e')
        else return taken
      | .error e, .ok _ =>
        if e.isStuck then throw (.diverged (taken + 1) g m) else throw (.eval e)
      | .ok _, .error e =>
        if e.isStuck then throw (.diverged (taken + 1) g m) else throw (.eval e)

end Ground

/-- Check two programs and step them together; the answer is the number of steps taken. -/
def lockstep [Ground.Digest] (fuel : Nat) (generic ground : Program) (steps : Nat) :
    Answer MonoError Nat := do
  let (_, generic) ← (checkProgram fuel false generic).mapError .type
  let (_, ground) ← (checkProgram fuel false ground).mapError .type
  let T ← (Answer.ofExcept (Table.ofDecls generic.decls)).mapError .type
  let T' ← (Answer.ofExcept (Table.ofDecls ground.decls)).mapError .type
  Ground.Lockstep.follow ⟨⟨T, fuel⟩, ⟨T', fuel⟩, Ground.topFor T⟩ steps 0 generic.main ground.main

end FeatherGo
