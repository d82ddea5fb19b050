import FeatherGo.Proofs.Answer

/-!
# The errors that a computation may end with

`Answer.OnError Q x` says that every error of `x` has the property `Q`. What it takes for a composed
computation is said of its parts: each step may use that the steps before it had a value.
-/

namespace FeatherGo.Answer

variable {ε δ α β : Type} {Q : ε → Prop}

/-- Every error that a computation ends with has a property. -/
def OnError (Q : ε → Prop) (x : Answer ε α) : Prop := ∀ e, x = .error e → Q e

namespace OnError

theorem ok (a : α) : (Answer.ok a : Answer ε α).OnError Q := nofun

theorem unfinished : (Answer.unfinished : Answer ε α).OnError Q := nofun

theorem error {e : ε} (h : Q e) : (Answer.error e : Answer ε α).OnError Q := by
  rintro _ ⟨⟩
  exact h

theorem mono {Q' : ε → Prop} {x : Answer ε α} (hx : x.OnError Q) (h : ∀ e, Q e → Q' e) :
    x.OnError Q' := fun e he => h e (hx e he)

/-- A composed computation fails in its first part, or in the second one after a value of the first. -/
theorem bind {x : Answer ε α} {f : α → Answer ε β} (hx : x.OnError Q)
    (hf : ∀ a, x = .ok a → (f a).OnError Q) : (x >>= f).OnError Q := by
  intro e he
  cases x with
  | ok a => exact hf a rfl e he
  | error e' =>
    obtain rfl := Answer.error.inj he
    exact hx _ rfl
  | unfinished => cases he

theorem mapError {Q' : δ → Prop} {x : Answer ε α} {g : ε → δ} (hx : x.OnError fun e => Q' (g e)) :
    (x.mapError g).OnError Q' := by
  intro e he
  cases x with
  | error e' =>
    obtain rfl := Answer.error.inj he
    exact hx _ rfl
  | _ => cases he

theorem ofExcept {x : Except ε α} (hx : ∀ e, x = .error e → Q e) : (ofExcept x).OnError Q :=
  fun e he => hx e (ofExcept_eq_error.1 he)

/-- Steps that need no fuel. -/
theorem ofExcept_bind {x : Except ε α} {f : α → Except ε β} (hx : (Answer.ofExcept x).OnError Q)
    (hf : ∀ a, x = .ok a → (Answer.ofExcept (f a)).OnError Q) :
    (Answer.ofExcept (x >>= f)).OnError Q := by
  cases x with
  | ok a => exact hf a rfl
  | error e => exact error (hx e rfl)

theorem ite {c : Prop} [Decidable c] {x y : Answer ε α} (hx : c → x.OnError Q)
    (hy : ¬c → y.OnError Q) : (if c then x else y).OnError Q := by
  split
  · exact hx ‹_›
  · exact hy ‹_›

/-- A fold that needs no fuel fails in one of its steps. -/
theorem ofExcept_foldlM {f : β → α → Except ε β} {l : List α} {b : β}
    (h : ∀ b, ∀ a ∈ l, (Answer.ofExcept (f b a)).OnError Q) :
    (Answer.ofExcept (l.foldlM f b)).OnError Q := by
  induction l generalizing b with
  | nil => exact .ok b
  | cons a l ih =>
    rw [List.foldlM_cons]
    exact .ofExcept_bind (h b a List.mem_cons_self) fun b' _ =>
      ih fun b a ha => h b a (List.mem_cons_of_mem _ ha)

theorem mapM {f : α → Answer ε β} {l : List α} (h : ∀ a ∈ l, (f a).OnError Q) :
    (l.mapM f).OnError Q := by
  induction l with
  | nil => exact .ok []
  | cons a l ih =>
    rw [List.forall_mem_cons] at h
    rw [List.mapM_cons]
    exact .bind h.1 fun b _ => .bind (ih h.2) fun bs _ => .ok _

end OnError

end FeatherGo.Answer
