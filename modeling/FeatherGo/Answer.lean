/-!
# Answers of bounded computations

Some judgments of the calculus recur along chains that a program may fail to bound, so they run
on fuel. An `Answer` is what such a run has to say: a value, an error, or nothing yet. Running
out of fuel is kept apart from every error, so that no error can stand for a missing answer.

`Track` adds a state that survives errors: what a failed walk had already recorded stays recorded.
-/

namespace FeatherGo

/-- What a bounded computation has to say. -/
inductive Answer (ε α : Type) where
  /-- It finished with a value. -/
  | ok (value : α)
  /-- It finished with an error. -/
  | error (cause : ε)
  /-- Its fuel ran out first. -/
  | unfinished
deriving DecidableEq

namespace Answer

variable {ε δ α β : Type}

/-- Continue with the value; errors and missing answers end the computation. -/
protected def bind : Answer ε α → (α → Answer ε β) → Answer ε β
  | .ok a, f => f a
  | .error e, _ => .error e
  | .unfinished, _ => .unfinished

instance : Monad (Answer ε) where
  pure := .ok
  bind := Answer.bind

instance : MonadExcept ε (Answer ε) where
  throw := .error
  tryCatch
    | .error e, handle => handle e
    | r, _ => r

@[simp] theorem pure_eq_ok (a : α) : (pure a : Answer ε α) = .ok a := rfl
@[simp] theorem throw_eq_error (e : ε) : (throw e : Answer ε α) = .error e := rfl
@[simp] theorem ok_bind (a : α) (f : α → Answer ε β) : (Answer.ok a >>= f) = f a := rfl
@[simp] theorem error_bind (e : ε) (f : α → Answer ε β) : (Answer.error e >>= f) = .error e := rfl
@[simp] theorem unfinished_bind (f : α → Answer ε β) :
    ((Answer.unfinished : Answer ε α) >>= f) = .unfinished := rfl

instance : LawfulMonad (Answer ε) :=
  LawfulMonad.mk' _
    (fun x => by cases x <;> rfl)
    (fun _ _ => rfl)
    (fun x _ _ => by cases x <;> rfl)

/-- An answer that never lacks fuel. -/
def ofExcept : Except ε α → Answer ε α
  | .ok a => .ok a
  | .error e => .error e

@[simp] theorem ofExcept_ok (a : α) : ofExcept (.ok a : Except ε α) = .ok a := rfl
@[simp] theorem ofExcept_error (e : ε) : ofExcept (.error e : Except ε α) = .error e := rfl

instance : MonadLift (Except ε) (Answer ε) where
  monadLift := ofExcept

/-- Rename the cause of an error. -/
def mapError (f : ε → δ) : Answer ε α → Answer δ α
  | .ok a => .ok a
  | .error e => .error (f e)
  | .unfinished => .unfinished

@[simp] theorem mapError_ok (f : ε → δ) (a : α) : (ok a).mapError f = .ok a := rfl
@[simp] theorem mapError_error (f : ε → δ) (e : ε) :
    (error e : Answer ε α).mapError f = .error (f e) := rfl
@[simp] theorem mapError_unfinished (f : ε → δ) :
    (unfinished : Answer ε α).mapError f = .unfinished := rfl

/-- A finished answer: a value or an error. -/
def Finished : Answer ε α → Prop
  | .unfinished => False
  | _ => True

end Answer

/-- A computation over a state `σ` that keeps the state it reached when it fails. -/
def Track (σ ε α : Type) : Type := σ → Answer ε α × σ

namespace Track

variable {σ ε δ α β : Type}

/-- Run the second computation on the state that the first one left. -/
protected def bind (x : Track σ ε α) (f : α → Track σ ε β) : Track σ ε β := fun s =>
  match x s with
  | (.ok a, s) => f a s
  | (.error e, s) => (.error e, s)
  | (.unfinished, s) => (.unfinished, s)

instance : Monad (Track σ ε) where
  pure a := fun s => (.ok a, s)
  bind := Track.bind

instance : MonadLift (Answer ε) (Track σ ε) where
  monadLift x := fun s => (x, s)

instance : MonadLift (Except ε) (Track σ ε) where
  monadLift x := fun s => (.ofExcept x, s)

/-- End with an error, keeping the state. -/
def fail (e : ε) : Track σ ε α := fun s => (.error e, s)

/-- The current state. -/
def state : Track σ ε σ := fun s => (.ok s, s)

/-- Change the state. -/
def update (f : σ → σ) : Track σ ε Unit := fun s => (.ok (), f s)

/-- Rename the cause of an error. -/
def mapError (f : ε → δ) (x : Track σ ε α) : Track σ δ α := fun s =>
  match x s with
  | (a, s) => (a.mapError f, s)

end Track

end FeatherGo
