import FeatherGo.Proofs.Answer
import FeatherGo.Typing.MethodSet

/-!
# Method sets without fuel

`Table.methods` runs on fuel, and more fuel keeps an answer. `Table.allMethods` is the answer that
some fuel gives, if any does. It satisfies the equation of `Table.methods` without the fuel
(`Table.allMethods_eq`), because every step of gathering methods is continuous: what it makes of the
method sets in the limit, it makes of those at some fuel already.
-/

namespace FeatherGo

/-! ## Limits of answers -/

namespace Answer

variable {ε δ α β : Type}

/-- Answers that come further with every step and never change. -/
def Chain (x : Nat → Answer ε α) : Prop := ∀ n, Below (x n) (x (n + 1))

theorem Chain.le {x : Nat → Answer ε α} (h : Chain x) {n m : Nat} (hnm : n ≤ m) :
    Below (x n) (x m) := by
  induction hnm with
  | refl => exact .refl _
  | step _ ih => exact ih.trans (h _)

open Classical in
/-- The answer that a chain comes to. -/
noncomputable def limit (x : Nat → Answer ε α) : Answer ε α :=
  if h : ∃ n, x n ≠ .unfinished then x (Classical.choose h) else .unfinished

theorem Chain.limit_eq {x : Nat → Answer ε α} (h : Chain x) {n : Nat} (hn : x n ≠ .unfinished) :
    limit x = x n := by
  have hex : ∃ n, x n ≠ .unfinished := ⟨n, hn⟩
  rw [limit, dif_pos hex]
  have hc := Classical.choose_spec hex
  rcases Nat.le_total n (Classical.choose hex) with hle | hle
  · exact ((h.le hle).resolve_left hn).symm
  · exact (h.le hle).resolve_left hc

theorem limit_eq_unfinished {x : Nat → Answer ε α} (h : ∀ n, x n = .unfinished) :
    limit x = .unfinished := by
  rw [limit, dif_neg]
  rintro ⟨n, hn⟩
  exact hn (h n)

/-- Every answer of a chain is below its limit. -/
theorem Chain.below_limit {x : Nat → Answer ε α} (h : Chain x) (n : Nat) :
    Below (x n) (limit x) := by
  by_cases hn : x n = .unfinished
  · exact .inl hn
  · exact .inr (h.limit_eq hn).symm

/-- A chain comes to a value, or reaches no end. -/
theorem Chain.exists_eq_limit {x : Nat → Answer ε α} (h : Chain x) : ∃ n, x n = limit x := by
  by_cases hex : ∃ n, x n ≠ .unfinished
  · obtain ⟨n, hn⟩ := hex
    exact ⟨n, (h.limit_eq hn).symm⟩
  · have hall : ∀ n, x n = .unfinished := fun n => Classical.byContradiction fun hn => hex ⟨n, hn⟩
    exact ⟨0, (hall 0).trans (limit_eq_unfinished hall).symm⟩

/-- From some point on a chain that comes to an answer has it. -/
theorem Chain.eventually {x : Nat → Answer ε α} (h : Chain x) (hl : limit x ≠ .unfinished) :
    ∃ n, ∀ m ≥ n, x m = limit x := by
  obtain ⟨n, hn⟩ := h.exists_eq_limit
  refine ⟨n, fun m hm => ?_⟩
  have hne : x n ≠ .unfinished := hn ▸ hl
  rw [← (h.le hm).resolve_left hne, hn]

theorem limit_const (x : Answer ε α) : limit (fun _ => x) = x := by
  by_cases hx : x = .unfinished
  · subst hx
    exact limit_eq_unfinished fun _ => rfl
  · exact Chain.limit_eq (n := 0) (fun _ => .refl _) hx

theorem limit_shift {x : Nat → Answer ε α} (h : Chain x) : limit (fun n => x (n + 1)) = limit x := by
  have hs : Chain fun n => x (n + 1) := fun n => h (n + 1)
  obtain ⟨n, hn⟩ := h.exists_eq_limit
  by_cases hl : limit x = .unfinished
  · rw [hl]
    refine limit_eq_unfinished fun m => ?_
    rcases h.below_limit (m + 1) with hm | hm
    · exact hm
    · exact hm.trans hl
  · have hne : x n ≠ .unfinished := hn ▸ hl
    have hnext : x (n + 1) = x n := ((h n).resolve_left hne).symm
    rw [hs.limit_eq (n := n) (hnext ▸ hne), hnext, hn]

theorem Chain.bind {x : Nat → Answer ε α} {f : Nat → α → Answer ε β} (hx : Chain x)
    (hf : ∀ a, Chain fun n => f n a) : Chain fun n => x n >>= f n :=
  fun n => (hx n).bind fun a => hf a n

theorem Chain.limit_bind {x : Nat → Answer ε α} {f : Nat → α → Answer ε β} (hx : Chain x)
    (hf : ∀ a, Chain fun n => f n a) :
    limit (fun n => x n >>= f n) = limit x >>= fun a => limit fun n => f n a := by
  obtain ⟨n, hn⟩ := hx.exists_eq_limit
  cases hl : limit x with
  | unfinished =>
    refine limit_eq_unfinished fun m => ?_
    rcases hx.below_limit m with hm | hm
    · simp [hm]
    · simp [hm, hl]
  | error e =>
    rw [hl] at hn
    have hb : (x n >>= f n) = .error e := by rw [hn, error_bind]
    rw [(hx.bind hf).limit_eq (n := n) (by simp [hb]), hb, error_bind]
  | ok a =>
    rw [ok_bind]
    have hvalue : ∀ m ≥ n, x m = .ok a := fun m hm => (hx.le hm).ok (hn.trans hl)
    obtain ⟨k, hk⟩ := (hf a).exists_eq_limit
    by_cases hfl : limit (fun n => f n a) = .unfinished
    · rw [hfl]
      refine limit_eq_unfinished fun m => ?_
      rcases hx.below_limit m with hm | hm
      · simp [hm]
      · rw [hm, hl, ok_bind]
        rcases (hf a).below_limit m with h | h
        · exact h
        · exact h.trans hfl
    · have hmax : (x (max n k) >>= f (max n k)) = limit fun n => f n a := by
        rw [hvalue _ (Nat.le_max_left n k), ok_bind]
        exact ((hf a).eventually hfl).elim fun j hj => by
          rcases (hf a).le (Nat.le_max_right n k) with h | h
          · exact absurd (hk ▸ h) hfl
          · exact h.symm.trans hk
      rw [(hx.bind hf).limit_eq (n := max n k) (hmax ▸ hfl), hmax]

end Answer

/-! ## Steps that pass to the limit -/

/-- Method sets of types, as they are found so far. -/
abbrev Finder := Ty → Answer TypeError MethodSet

/-- Method sets at growing fuel. -/
def Finder.Growing (F : Nat → Finder) : Prop := ∀ t, Answer.Chain fun n => F n t

/-- The method sets that growing ones come to. -/
noncomputable def Finder.limit (F : Nat → Finder) : Finder := fun t => Answer.limit fun n => F n t

/-- A computation from method sets that makes of those in the limit what it makes of those at some
fuel. -/
structure Finitary {α : Type} (G : Finder → Answer TypeError α) : Prop where
  chain : ∀ F, Finder.Growing F → Answer.Chain fun n => G (F n)
  limit : ∀ F, Finder.Growing F → Answer.limit (fun n => G (F n)) = G (Finder.limit F)

namespace Finitary

variable {α β : Type}

theorem const (x : Answer TypeError α) : Finitary fun _ => x :=
  ⟨fun _ _ _ => .refl _, fun _ _ => Answer.limit_const x⟩

theorem find (t : Ty) : Finitary fun methodsOf => methodsOf t :=
  ⟨fun _ h => h t, fun _ _ => rfl⟩

theorem bind {G : Finder → Answer TypeError α} {H : Finder → α → Answer TypeError β}
    (hG : Finitary G) (hH : ∀ a, Finitary fun methodsOf => H methodsOf a) :
    Finitary fun methodsOf => G methodsOf >>= H methodsOf where
  chain F h := (hG.chain F h).bind fun a => (hH a).chain F h
  limit F h := by
    rw [(hG.chain F h).limit_bind fun a => (hH a).chain F h, hG.limit F h]
    exact congrArg _ (funext fun a => (hH a).limit F h)

theorem ite {c : Prop} [Decidable c] {G H : Finder → Answer TypeError α} (hG : Finitary G)
    (hH : Finitary H) : Finitary fun methodsOf => if c then G methodsOf else H methodsOf := by
  by_cases hc : c
  · simpa [hc] using hG
  · simpa [hc] using hH

end Finitary

namespace Table

variable (T : Table)

theorem finitary_implementsBy (sub sup : Ty) :
    Finitary fun methodsOf => T.implementsBy methodsOf sub sup := by
  unfold implementsBy
  split
  · exact .const _
  · exact .const _
  · exact .const _
  · exact .const _
  · exact .const _
  · refine .bind (.const _) fun b => .ite ?_ (.const _)
    refine .bind (.find sup) fun wanted => .ite (.const _) ?_
    exact .bind (.find sub) fun offered => .const _

theorem finitary_withinBounds (η : Env Ty) (fs : List Slot) (ts : List Ty) :
    Finitary fun methodsOf => T.withinBounds methodsOf η fs ts := by
  induction fs generalizing ts with
  | nil => exact .const _
  | cons f fs ih =>
    cases ts with
    | nil => exact .const _
    | cons t ts =>
      exact .bind (T.finitary_implementsBy _ _) fun b => .ite (ih ts) (.const _)

theorem finitary_receiverBy (formals : List Slot) (args : List Ty) :
    Finitary fun methodsOf => T.receiverBy methodsOf formals args := by
  unfold receiverBy
  refine .ite ?_ (.const _)
  exact .bind (T.finitary_withinBounds _ _ _) fun b => .ite (.const _) (.const _)

theorem finitary_memberMethods (ms : List Member) (acc : MethodSet) :
    Finitary fun methodsOf => memberMethods methodsOf ms acc := by
  induction ms generalizing acc with
  | nil => exact .const _
  | cons m ms ih =>
    cases m with
    | method s => exact ih _
    | embed c args => exact .bind (.find _) fun E => ih _

theorem finitary_declaredMethods (args : List Ty) (mds : List MethodDecl) (acc : MethodSet) :
    Finitary fun methodsOf => T.declaredMethods methodsOf args mds acc := by
  induction mds generalizing acc with
  | nil => exact .const _
  | cons md mds ih =>
    refine .bind (T.finitary_receiverBy _ _) fun r => ?_
    cases r with
    | none => exact ih _
    | some η => exact ih _

/-- One round of gathering methods. -/
def gather (Δ : Bounds) (methodsOf : Finder) (t : Ty) : Answer TypeError MethodSet :=
  match t with
  | .interface ms => memberMethods methodsOf ms []
  | .named c args => do
    match ← T.resolve (.named c args) with
    | .interface ms => methodsOf (.interface ms)
    | _ => T.declaredMethods methodsOf args (T.methodsOn c) []
  | .param p => do methodsOf (← Δ.boundOf p)
  | .prim _ | .struct _ | .var _ => .ok []

theorem methods_succ (Δ : Bounds) (n : Nat) (t : Ty) :
    T.methods Δ (n + 1) t = T.gather Δ (T.methods Δ n) t := by
  cases t <;> rfl

theorem finitary_gather (Δ : Bounds) (t : Ty) :
    Finitary fun methodsOf => T.gather Δ methodsOf t := by
  cases t with
  | interface ms => exact finitary_memberMethods ms []
  | named c args =>
    refine .bind (.const _) fun v => ?_
    cases v with
    | interface ms => exact .find _
    | _ => exact T.finitary_declaredMethods _ _ _
  | param p => exact .bind (.const _) fun t => .find t
  | _ => exact .const _

theorem growing_methods (Δ : Bounds) : Finder.Growing (T.methods Δ) := by
  have hall : ∀ n t, Answer.Below (T.methods Δ n t) (T.methods Δ (n + 1) t) := by
    intro n
    induction n with
    | zero => exact fun t => .inl rfl
    | succ n ih =>
      intro t
      rw [methods_succ, methods_succ]
      -- A chain of two: the method sets at `n`, and from then on those at `n + 1`.
      have hgrow : Finder.Growing fun k => if k = 0 then T.methods Δ n else T.methods Δ (n + 1) := by
        intro u k
        cases k with
        | zero => exact ih u
        | succ k => exact .refl _
      exact (T.finitary_gather Δ t).chain _ hgrow 0
  exact fun t n => hall n t

/-- The methods of a type under `Δ`. -/
noncomputable def allMethods (Δ : Bounds) : Finder := Finder.limit (T.methods Δ)

/-- Gathering methods from all methods gives all methods. -/
theorem allMethods_eq (Δ : Bounds) (t : Ty) : T.allMethods Δ t = T.gather Δ (T.allMethods Δ) t := by
  have hg := T.growing_methods Δ
  rw [allMethods, ← (T.finitary_gather Δ t).limit _ hg]
  have hs := Answer.limit_shift (hg t)
  simp only [methods_succ] at hs
  exact hs.symm

variable {T} {Δ : Bounds}

/-- What is found at some fuel are all methods. -/
theorem allMethods_of_methods {n : Nat} {t : Ty} {S : MethodSet} (h : T.methods Δ n t = .ok S) :
    T.allMethods Δ t = .ok S :=
  ((T.growing_methods Δ t).below_limit n).ok h

end Table

namespace Finitary

variable {T : Table} {Δ : Bounds} {α : Type} {G : Finder → Answer TypeError α} {a : α}

/-- A computation from method sets that has a value at some fuel has it from all methods. -/
theorem of_methods (hG : Finitary G) {n : Nat} (h : G (T.methods Δ n) = .ok a) :
    G (T.allMethods Δ) = .ok a := by
  rw [Table.allMethods, ← hG.limit _ (T.growing_methods Δ)]
  exact ((hG.chain _ (T.growing_methods Δ)).below_limit n).ok h

/-- A computation that has a value from all methods has it from some fuel on. -/
theorem eventually (hG : Finitary G) (h : G (T.allMethods Δ) = .ok a) :
    ∃ n, ∀ m ≥ n, G (T.methods Δ m) = .ok a := by
  rw [Table.allMethods, ← hG.limit _ (T.growing_methods Δ)] at h
  obtain ⟨n, hn⟩ := (hG.chain _ (T.growing_methods Δ)).eventually (by simp [h])
  exact ⟨n, fun m hm => (hn m hm).trans h⟩

end Finitary

end FeatherGo
