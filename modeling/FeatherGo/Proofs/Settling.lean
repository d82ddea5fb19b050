import FeatherGo.Proofs.Traits

/-!
# Computations that settle

A computation on fuel settles if some amount of fuel decides it for good: from there on it gives one
finished answer (`Answer.Reaches`). The parts of a composed computation may need different amounts;
the greatest serves them all. A computation over a state settles from a state if with enough fuel it
always comes to one end (`Track.Settles`).
-/

namespace FeatherGo

namespace Answer

variable {ε δ α β : Type}

theorem Finished.bind {x : Answer ε α} {f : α → Answer ε β} (hx : x.Finished)
    (hf : ∀ a, (f a).Finished) : (x >>= f).Finished := by
  cases x with
  | ok a => exact hf a
  | error e => trivial
  | unfinished => exact hx

/-- With enough fuel the answer is always `r`. -/
def Reaches (x : Nat → Answer ε α) (r : Answer ε α) : Prop := ∃ n, ∀ m ≥ n, x m = r

/-- With enough fuel the answer is always the same, and not that fuel is missing. -/
def Settles (x : Nat → Answer ε α) : Prop := ∃ r : Answer ε α, r.Finished ∧ Reaches x r

namespace Reaches

variable {x : Nat → Answer ε α} {r : Answer ε α}

theorem const (r : Answer ε α) : Reaches (fun _ => r) r := ⟨0, fun _ _ => rfl⟩

/-- What a constant family reaches is what it is. -/
theorem eq_of_const {y : Answer ε α} (h : Reaches (fun _ => y) r) : y = r := by
  obtain ⟨n, hn⟩ := h
  exact hn n (Nat.le_refl n)

/-- What more fuel does not change is reached once it is given. -/
theorem of_below (h : ∀ {n m}, n ≤ m → Below (x n) (x m)) {k : Nat} {a : α} (hx : x k = .ok a) :
    Reaches x (.ok a) :=
  ⟨k, fun _ hm => (h hm).ok hx⟩

/-- One unit of fuel spent on the way does not matter. -/
theorem succ (h : Reaches (fun n => x (n + 1)) r) : Reaches x r := by
  obtain ⟨n, hn⟩ := h
  refine ⟨n + 1, fun m hm => ?_⟩
  obtain ⟨k, rfl⟩ := Nat.exists_eq_add_of_le' hm
  exact hn (k + n) (by omega)

theorem shift (h : Reaches x r) (k : Nat) : Reaches (fun n => x (n + k)) r := by
  obtain ⟨n, hn⟩ := h
  exact ⟨n, fun m hm => hn (m + k) (by omega)⟩

theorem bind {f : Nat → α → Answer ε β} {a : α} {r : Answer ε β} (h : Reaches x (.ok a))
    (hf : Reaches (fun n => f n a) r) : Reaches (fun n => x n >>= f n) r := by
  obtain ⟨n, hn⟩ := h
  obtain ⟨k, hk⟩ := hf
  refine ⟨n + k, fun m hm => ?_⟩
  have hx : x m = .ok a := hn m (by omega)
  have hr : f m a = r := hk m (by omega)
  simp only [hx, ok_bind, hr]

theorem bind_error {f : Nat → α → Answer ε β} {e : ε} (h : Reaches x (.error e)) :
    Reaches (fun n => x n >>= f n) (.error e) := by
  obtain ⟨n, hn⟩ := h
  exact ⟨n, fun m hm => by simp only [hn m hm, error_bind]⟩

theorem mapError (f : ε → δ) (h : Reaches x r) :
    Reaches (fun n => (x n).mapError f) (r.mapError f) := by
  obtain ⟨n, hn⟩ := h
  exact ⟨n, fun m hm => congrArg (Answer.mapError f) (hn m hm)⟩

end Reaches

namespace Settles

theorem ok (a : α) : Settles fun _ => (.ok a : Answer ε α) := ⟨.ok a, trivial, .const _⟩

theorem error (e : ε) : Settles fun _ => (.error e : Answer ε α) := ⟨.error e, trivial, .const _⟩

theorem succ {x : Nat → Answer ε α} (h : Settles fun n => x (n + 1)) : Settles x := by
  obtain ⟨r, hr, hx⟩ := h
  exact ⟨r, hr, hx.succ⟩

theorem shift {x : Nat → Answer ε α} (h : Settles x) (k : Nat) : Settles fun n => x (n + k) := by
  obtain ⟨r, hr, hx⟩ := h
  exact ⟨r, hr, hx.shift k⟩

/-- What follows has to settle for the value that is reached. -/
theorem bind {x : Nat → Answer ε α} {f : Nat → α → Answer ε β} (hx : Settles x)
    (hf : ∀ a, Reaches x (.ok a) → Settles fun n => f n a) : Settles fun n => x n >>= f n := by
  obtain ⟨r, hr, hx⟩ := hx
  cases r with
  | ok a =>
    obtain ⟨r, hr, hf⟩ := hf a hx
    exact ⟨r, hr, hx.bind hf⟩
  | error e => exact ⟨.error e, trivial, hx.bind_error⟩
  | unfinished => exact hr.elim

theorem mapError {x : Nat → Answer ε α} (f : ε → δ) (hx : Settles x) :
    Settles fun n => (x n).mapError f := by
  obtain ⟨r, hr, hx⟩ := hx
  refine ⟨_, ?_, hx.mapError f⟩
  cases r with
  | unfinished => exact hr.elim
  | _ => trivial

end Settles

/-- Settling is a trait of families over fuel. -/
def Trait.settling : Trait Nat where
  Holds x := Settles x
  ok := .ok
  error := .error
  bind hx hf := hx.bind fun a _ => hf a
  mapError f hx := hx.mapError f

end Answer

/-! ## Computations over a state -/

namespace Track

variable {σ ε α β : Type}

/-- With enough fuel a family of computations comes from a state to one end: to a value and a state
that meet a condition, or to an error of some kind. -/
def Settles (E : ε → Prop) (x : Nat → Track σ ε α) (s : σ) (Q : α → σ → Prop) : Prop :=
  ∃ r s', (∃ n, ∀ m ≥ n, x m s = (r, s')) ∧ match r with
    | .ok a => Q a s'
    | .error e => E e
    | .unfinished => False

namespace Settles

variable {E : ε → Prop} {s : σ} {Q : α → σ → Prop}

theorem pure {a : α} (h : Q a s) : Settles E (fun _ => Pure.pure a) s Q :=
  ⟨.ok a, s, ⟨0, fun _ _ => rfl⟩, h⟩

theorem fail {e : ε} (h : E e) : Settles E (fun _ => (Track.fail e : Track σ ε α)) s Q :=
  ⟨.error e, s, ⟨0, fun _ _ => rfl⟩, h⟩

theorem state {Q : σ → σ → Prop} (h : Q s s) :
    Settles E (fun _ => (Track.state : Track σ ε σ)) s Q :=
  ⟨.ok s, s, ⟨0, fun _ _ => rfl⟩, h⟩

theorem update {f : σ → σ} {Q : Unit → σ → Prop} (h : Q () (f s)) :
    Settles E (fun _ => (Track.update f : Track σ ε Unit)) s Q :=
  ⟨.ok (), f s, ⟨0, fun _ _ => rfl⟩, h⟩

/-- An answer within a computation leaves the state as it is. -/
theorem lift {x : Nat → Answer ε α} (hx : Answer.Settles x)
    (hE : ∀ e, Answer.Reaches x (.error e) → E e) (hQ : ∀ a, Answer.Reaches x (.ok a) → Q a s) :
    Settles E (fun n => (monadLift (x n) : Track σ ε α)) s Q := by
  obtain ⟨r, hr, hx⟩ := hx
  have hreach : ∃ n, ∀ m ≥ n, (monadLift (x m) : Track σ ε α) s = (r, s) := by
    obtain ⟨n, hn⟩ := hx
    exact ⟨n, fun m hm => congrArg (·, s) (hn m hm)⟩
  cases r with
  | ok a => exact ⟨_, _, hreach, hQ a hx⟩
  | error e => exact ⟨_, _, hreach, hE e hx⟩
  | unfinished => exact hr.elim

/-- What follows has to settle from the state that is reached. -/
theorem bind {x : Nat → Track σ ε α} {f : Nat → α → Track σ ε β} {R : β → σ → Prop}
    (hx : Settles E x s Q) (hf : ∀ a s', Q a s' → Settles E (fun n => f n a) s' R) :
    Settles E (fun n => x n >>= f n) s R := by
  obtain ⟨r, s', ⟨n, hn⟩, hr⟩ := hx
  have hbind {m : Nat} (hm : n ≤ m) : (x m >>= f m) s = match r with
      | .ok a => f m a s'
      | .error e => (.error e, s')
      | .unfinished => (.unfinished, s') := by
    change Track.bind (x m) (f m) s = _
    rw [Track.bind, hn m hm]
    cases r <;> rfl
  cases r with
  | ok a =>
    obtain ⟨r, s'', ⟨k, hk⟩, hr⟩ := hf a s' hr
    exact ⟨r, s'', ⟨n + k, fun m hm => (hbind (by omega)).trans (hk m (by omega))⟩, hr⟩
  | error e => exact ⟨.error e, s', ⟨n, fun m hm => hbind hm⟩, hr⟩
  | unfinished => exact hr.elim

theorem shift {x : Nat → Track σ ε α} (h : Settles E x s Q) (k : Nat) :
    Settles E (fun n => x (n + k)) s Q := by
  obtain ⟨r, s', ⟨n, hn⟩, hr⟩ := h
  exact ⟨r, s', ⟨n, fun m hm => hn (m + k) (by omega)⟩, hr⟩

theorem succ {x : Nat → Track σ ε α} (h : Settles E (fun n => x (n + 1)) s Q) : Settles E x s Q := by
  obtain ⟨r, s', ⟨n, hn⟩, hr⟩ := h
  refine ⟨r, s', ⟨n + 1, fun m hm => ?_⟩, hr⟩
  obtain ⟨k, rfl⟩ := Nat.exists_eq_add_of_le' hm
  exact hn (k + n) (by omega)

theorem ite {c : Prop} [Decidable c] {x y : Nat → Track σ ε α} (hx : c → Settles E x s Q)
    (hy : ¬c → Settles E y s Q) : Settles E (fun n => if c then x n else y n) s Q := by
  by_cases hc : c
  · simpa only [if_pos hc] using hx hc
  · simpa only [if_neg hc] using hy hc

theorem mono {Q' : α → σ → Prop} {x : Nat → Track σ ε α} (h : Settles E x s Q)
    (hQ : ∀ a s', Q a s' → Q' a s') : Settles E x s Q' := by
  obtain ⟨r, s', hx, hr⟩ := h
  refine ⟨r, s', hx, ?_⟩
  cases r with
  | ok a => exact hQ a s' hr
  | error e => exact hr
  | unfinished => exact hr

/-- The end is a finished answer. -/
theorem exists_end {x : Nat → Track σ ε α} (h : Settles E x s Q) :
    ∃ (r : Answer ε α) (s' : σ), r.Finished ∧ ∃ n, ∀ m ≥ n, x m s = (r, s') := by
  obtain ⟨r, s', hx, hr⟩ := h
  refine ⟨r, s', ?_, hx⟩
  cases r with
  | unfinished => exact hr
  | _ => trivial

end Settles

end Track

end FeatherGo
