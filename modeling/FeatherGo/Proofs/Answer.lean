import FeatherGo.Answer
import Mathlib.Data.List.Forall2

/-!
# Answers and fuel

A computation that finished has its parts finished (`Answer.bind_eq_ok`), and an answer found with
some fuel stays when there is more: `Answer.Below` orders answers by how far they have come.
-/

namespace FeatherGo

/-- A composed computation has a value if its parts have. -/
theorem except_bind_eq_ok {ε α β : Type} {x : Except ε α} {f : α → Except ε β} {b : β} :
    (x >>= f) = .ok b ↔ ∃ a, x = .ok a ∧ f a = .ok b := by
  cases x <;> simp [bind, Except.bind]

/-- What a computation with one part gives. -/
theorem except_map_eq_ok {ε α β : Type} {x : Except ε α} {k : α → β} {b : β} :
    (do return k (← x) : Except ε β) = .ok b ↔ ∃ a, x = .ok a ∧ b = k a := by
  rw [except_bind_eq_ok]
  refine exists_congr fun a => and_congr_right' ⟨fun h => (Except.ok.inj h).symm, ?_⟩
  rintro rfl
  rfl

/-- What a computation with two parts gives. -/
theorem except_map₂_eq_ok {ε α α' β : Type} {x : Except ε α} {y : Except ε α'} {k : α → α' → β}
    {b : β} : (do let a ← x; return k a (← y) : Except ε β) = .ok b
      ↔ ∃ a a', x = .ok a ∧ y = .ok a' ∧ b = k a a' := by
  rw [except_bind_eq_ok]
  simp only [except_map_eq_ok, exists_and_left]

/-- A member of the first of two related lists has a partner in the second. -/
theorem exists_of_mem_forall₂ {α β : Type} {R : α → β → Prop} {l : List α} {l' : List β}
    (h : List.Forall₂ R l l') {a : α} (ha : a ∈ l) : ∃ b ∈ l', R a b := by
  induction h with
  | nil => exact absurd ha List.not_mem_nil
  | cons hab _ ih =>
    rcases List.mem_cons.1 ha with rfl | ha
    · exact ⟨_, List.mem_cons_self, hab⟩
    · obtain ⟨b, hb, hab⟩ := ih ha
      exact ⟨b, List.mem_cons_of_mem _ hb, hab⟩

namespace Answer

variable {ε δ α β : Type}

/-- A composed computation has a value if its parts have. -/
theorem bind_eq_ok {x : Answer ε α} {f : α → Answer ε β} {b : β} :
    (x >>= f) = .ok b ↔ ∃ a, x = .ok a ∧ f a = .ok b := by
  cases x <;> simp

@[simp] theorem liftExcept_eq (x : Except ε α) : (liftM x : Answer ε α) = ofExcept x := rfl

@[simp] theorem monadLift_eq (x : Except ε α) : (monadLift x : Answer ε α) = ofExcept x := rfl

theorem ofExcept_eq_ok {x : Except ε α} {a : α} : ofExcept x = .ok a ↔ x = .ok a := by
  cases x <;> simp

theorem ofExcept_eq_error {x : Except ε α} {e : ε} : ofExcept x = .error e ↔ x = .error e := by
  cases x <;> simp

/-- Whether there is an answer that passes a check. -/
def any (check : α → Bool) : Answer ε α → Bool
  | .ok a => check a
  | _ => false

theorem any_eq_true {x : Answer ε α} {check : α → Bool} :
    x.any check = true ↔ ∃ a, x = .ok a ∧ check a = true := by
  cases x <;> simp [any]

/-- Whether there is an error that passes a check. -/
def fails (check : ε → Bool) : Answer ε α → Bool
  | .error e => check e
  | _ => false

theorem fails_eq_true {x : Answer ε α} {check : ε → Bool} :
    x.fails check = true ↔ ∃ e, x = .error e ∧ check e = true := by
  cases x <;> simp [fails]

/-- A list is mapped if each of its elements is. -/
theorem forall₂_of_mapM {f : α → Answer ε β} {l : List α} {l' : List β} (h : l.mapM f = .ok l') :
    List.Forall₂ (fun a b => f a = .ok b) l l' := by
  induction l generalizing l' with
  | nil =>
    obtain rfl := Answer.ok.inj h
    exact .nil
  | cons a l ih =>
    rw [List.mapM_cons] at h
    obtain ⟨b, hb, h⟩ := bind_eq_ok.1 h
    obtain ⟨rest, hrest, h⟩ := bind_eq_ok.1 h
    obtain rfl := Answer.ok.inj h
    exact .cons hb (ih hrest)

theorem mapM_of_forall₂ {f : α → Answer ε β} {l : List α} {l' : List β}
    (h : List.Forall₂ (fun a b => f a = .ok b) l l') : l.mapM f = .ok l' := by
  induction h with
  | nil => rfl
  | cons hab _ ih => simp [List.mapM_cons, hab, ih]

theorem mapError_eq_ok {x : Answer ε α} {f : ε → δ} {a : α} :
    x.mapError f = .ok a ↔ x = .ok a := by
  cases x <;> simp

/-- The second answer is the first one, or the first one is missing. -/
def Below (x y : Answer ε α) : Prop := x = .unfinished ∨ x = y

namespace Below

variable {x y : Answer ε α}

theorem refl (x : Answer ε α) : Below x x := .inr rfl

theorem unfinished (y : Answer ε α) : Below .unfinished y := .inl rfl

theorem ok (h : Below x y) {a : α} (hx : x = .ok a) : y = .ok a := by
  rcases h with h | h
  · rw [h] at hx
    cases hx
  · exact h ▸ hx

theorem trans {z : Answer ε α} (h : Below x y) (h' : Below y z) : Below x z := by
  rcases h with h | h
  · exact .inl h
  · exact h ▸ h'

/-- More of the parts give more of the whole. -/
theorem bind {f g : α → Answer ε β} (h : Below x y) (hf : ∀ a, Below (f a) (g a)) :
    Below (x >>= f) (y >>= g) := by
  rcases h with rfl | rfl
  · exact .inl rfl
  · cases x with
    | ok a => exact hf a
    | error e => exact .inr rfl
    | unfinished => exact .inl rfl

end Below

end Answer

end FeatherGo
