import FeatherGo.Proofs.Answer

/-!
# Traits of families of answers

A judgment that is run with several amounts of fuel, or on several tables of the same declarations,
gives a family of answers. Two questions are asked of such a family: whether all of its members are
the same answer, and whether it settles as the fuel grows. What a judgment is made of decides both in
the same way: values and errors have the trait, and composing keeps it. An `Answer.Trait` is such a
trait, and what is proved of a judgment for every trait is proved once.
-/

namespace FeatherGo.Answer

/-- A property of families of answers that constant ones have and that composing keeps. -/
structure Trait (ι : Type) where
  /-- Whether a family has the trait. -/
  Holds : ∀ {ε α : Type}, (ι → Answer ε α) → Prop
  ok : ∀ {ε α : Type} (a : α), Holds fun _ => (.ok a : Answer ε α)
  error : ∀ {ε α : Type} (e : ε), Holds fun _ => (.error e : Answer ε α)
  bind : ∀ {ε α β : Type} {x : ι → Answer ε α} {f : ι → α → Answer ε β}, Holds x →
    (∀ a, Holds fun i => f i a) → Holds fun i => x i >>= f i
  mapError : ∀ {ε δ α : Type} {x : ι → Answer ε α} (f : ε → δ), Holds x →
    Holds fun i => (x i).mapError f

namespace Trait

variable {ι : Type} (M : Trait ι) {ε α β : Type}

theorem ofExcept (x : Except ε α) : M.Holds fun _ => Answer.ofExcept x := by
  cases x with
  | ok a => exact M.ok a
  | error e => exact M.error e

/-- A choice that does not depend on the index. -/
theorem ite {c : Prop} [Decidable c] {x y : ι → Answer ε α} (hx : M.Holds x) (hy : M.Holds y) :
    M.Holds fun i => if c then x i else y i := by
  by_cases hc : c
  · simpa only [if_pos hc] using hx
  · simpa only [if_neg hc] using hy

theorem mapM {f : ι → α → Answer ε β} {l : List α} (h : ∀ a ∈ l, M.Holds fun i => f i a) :
    M.Holds fun i => l.mapM (f i) := by
  induction l with
  | nil => exact M.ok []
  | cons a l ih =>
    rw [List.forall_mem_cons] at h
    simp only [List.mapM_cons]
    exact M.bind h.1 fun b => M.bind (ih h.2) fun bs => M.ok (b :: bs)

end Trait

/-- A list is mapped if a function says what each of its elements becomes. -/
theorem mapM_eq_ok_map {ε α β : Type} {f : α → Answer ε β} {g : α → β} {l : List α}
    (h : ∀ a ∈ l, f a = .ok (g a)) : l.mapM f = .ok (l.map g) :=
  mapM_of_forall₂ (List.forall₂_map_right_iff.2 (List.forall₂_same.2 h))

end FeatherGo.Answer
