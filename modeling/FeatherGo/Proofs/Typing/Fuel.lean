import FeatherGo.Proofs.Discovery.Visits
import FeatherGo.Proofs.Expressions.Redex
import FeatherGo.Proofs.Methods.Limit
import FeatherGo.Typing.Declaration

/-!
# Typing with more fuel

Fuel only decides whether typing comes to an answer, never which one: what is well formed, what an
expression's type is, what the check of a program answers and which instances are collected from an
expression stay when there is more (`Checker.check_below`, `checkProgram_below`, `Checker.collect_below`).
So does the step that an expression takes (`Machine.step_ok_of_le`).
-/

namespace FeatherGo

open Answer (Below)

/-- More of both branches give more of the choice. -/
theorem Answer.Below.ite {ε α : Type} {c : Prop} [Decidable c] {x y x' y' : Answer ε α}
    (h : Below x y) (h' : Below x' y') :
    Below (if c then x else x') (if c then y else y') := by
  by_cases hc : c
  · rwa [if_pos hc, if_pos hc]
  · rwa [if_neg hc, if_neg hc]

/-- More of each element give more of the list. -/
theorem Answer.Below.mapM {ε α β : Type} {f g : α → Answer ε β} {l : List α}
    (h : ∀ a ∈ l, Below (f a) (g a)) : Below (l.mapM f) (l.mapM g) := by
  induction l with
  | nil => exact .refl _
  | cons a l ih =>
    rw [List.forall_mem_cons] at h
    rw [List.mapM_cons, List.mapM_cons]
    exact h.1.bind fun b => (ih h.2).bind fun bs => .refl _

variable {T : Table} {n m : Nat}

/-- What is made of method sets stays when there is more fuel for them. -/
theorem Finitary.below {α : Type} {G : Finder → Answer TypeError α} (hG : Finitary G)
    (hnm : n ≤ m) (Δ : Bounds) : Below (G (T.methods Δ n)) (G (T.methods Δ m)) :=
  Answer.Chain.le (hG.chain _ (T.growing_methods Δ)) hnm

namespace Table

theorem methods_below (hnm : n ≤ m) (Δ : Bounds) (t : Ty) :
    Below (T.methods Δ n t) (T.methods Δ m t) :=
  (Finitary.find t).below hnm Δ

theorem implements_below (hnm : n ≤ m) (Δ : Bounds) (t u : Ty) :
    Below (T.implements n Δ t u) (T.implements m Δ t u) :=
  (T.finitary_implementsBy t u).below hnm Δ

/-! ## Well-formed types -/

theorem argumentsWithin_below (hnm : n ≤ m) (Δ : Bounds) (place : Place) (η : Env Ty)
    (fs : List Slot) (ts : List Ty) :
    Below (T.argumentsWithin n Δ place η fs ts) (T.argumentsWithin m Δ place η fs ts) := by
  induction fs generalizing ts with
  | nil => exact .refl _
  | cons f fs ih =>
    cases ts with
    | nil => exact .refl _
    | cons t ts => exact (implements_below hnm Δ _ _).bind fun b => .ite (ih ts) (.refl _)

mutual

theorem okType_below (hnm : n ≤ m) (Δ : Bounds) :
    ∀ t, Below (T.okType n Δ t) (T.okType m Δ t)
  | .param _ | .prim _ | .var _ => .refl _
  | .named _ args =>
    (Below.refl _).bind fun _ => (okTypes_below hnm Δ args).bind fun _ =>
      argumentsWithin_below hnm Δ _ _ _ _
  | .struct fs => okFields_below hnm Δ _ _ fs
  | .interface ms => okMembers_below hnm Δ _ _ ms

theorem okTypes_below (hnm : n ≤ m) (Δ : Bounds) :
    ∀ ts, Below (T.okTypes n Δ ts) (T.okTypes m Δ ts)
  | [] => .refl _
  | t :: ts => (okType_below hnm Δ t).bind fun _ => okTypes_below hnm Δ ts

theorem okFields_below (hnm : n ≤ m) (Δ : Bounds) (whole : Ty) (seen : List String) :
    ∀ fs, Below (T.okFields n Δ whole seen fs) (T.okFields m Δ whole seen fs)
  | [] => .refl _
  | ⟨_, t⟩ :: fs =>
    .ite (.refl _) ((okType_below hnm Δ t).bind fun _ => okFields_below hnm Δ whole _ fs)

theorem okMembers_below (hnm : n ≤ m) (Δ : Bounds) (whole : Ty) (seen : List String) :
    ∀ ms, Below (T.okMembers n Δ whole seen ms) (T.okMembers m Δ whole seen ms)
  | [] => .refl _
  | .method s :: ms =>
    (okSignature_below hnm Δ s).bind fun _ => (Below.refl _).bind fun _ =>
      okMembers_below hnm Δ whole _ ms
  | .embed _ args :: ms =>
    (Below.refl _).bind fun _ => (okTypes_below hnm Δ args).bind fun _ =>
      (argumentsWithin_below hnm Δ _ _ _ _).bind fun _ => (Below.refl _).bind fun _ =>
        .ite ((methods_below hnm Δ _).bind fun _ => (Below.refl _).bind fun _ =>
          okMembers_below hnm Δ whole _ ms) (.refl _)

theorem okSignature_below (hnm : n ≤ m) (Δ : Bounds) :
    ∀ s, Below (T.okSignature n Δ s) (T.okSignature m Δ s)
  | ⟨name, fs, ps, r⟩ => by
    rw [okSignature, okSignature]
    split
    · exact .refl _
    · exact (okBounds_below hnm (Δ.extend fs) fs).bind fun _ =>
        (okParams_below hnm (Δ.extend fs) name [] ps).bind fun _ => okType_below hnm (Δ.extend fs) r

theorem okBounds_below (hnm : n ≤ m) (Δ : Bounds) :
    ∀ fs, Below (T.okBounds n Δ fs) (T.okBounds m Δ fs)
  | [] => .refl _
  | ⟨_, t⟩ :: fs =>
    (okType_below hnm Δ t).bind fun _ => (Below.refl _).bind fun _ =>
      .ite (okBounds_below hnm Δ fs) (.refl _)

theorem okParams_below (hnm : n ≤ m) (Δ : Bounds) (meth : String) (seen : List String) :
    ∀ ps, Below (T.okParams n Δ meth seen ps) (T.okParams m Δ meth seen ps)
  | [] => .refl _
  | ⟨_, t⟩ :: ps =>
    .ite (.refl _) ((okType_below hnm Δ t).bind fun _ => okParams_below hnm Δ meth _ ps)

end

/-! ## Declarations -/

theorem okFormals_below (hnm : n ≤ m) (Δ : Bounds) (decl : String) (fs : List Slot) :
    Below (T.okFormals n Δ decl fs) (T.okFormals m Δ decl fs) := by
  rw [okFormals, okFormals]
  split
  · exact .refl _
  · exact (okBounds_below hnm _ fs).bind fun _ => .refl _

theorem checkTypeDecl_below (hnm : n ≤ m) (td : TypeDecl) :
    Below (T.checkTypeDecl n td) (T.checkTypeDecl m td) :=
  (okFormals_below hnm _ _ _).bind fun Δ => .ite (okType_below hnm Δ _) (.refl _)

theorem checkReceiver_below (hnm : n ≤ m) (md : MethodDecl) :
    Below (T.checkReceiver n md) (T.checkReceiver m md) := by
  refine (Below.refl _).bind fun td => .ite (.refl _) ((Below.refl _).bind fun b => ?_)
  have hbounds : Below (T.okFormals n [] md.sig.name md.recvFormals >>= fun Δ => T.okType n Δ md.selfType)
      (T.okFormals m [] md.sig.name md.recvFormals >>= fun Δ => T.okType m Δ md.selfType) :=
    (okFormals_below hnm _ _ _).bind fun Δ => okType_below hnm Δ _
  exact .ite ((Below.refl _).bind fun _ => hbounds) hbounds

theorem checkHeader_below (hnm : n ≤ m) (md : MethodDecl) :
    Below (T.checkHeader n md) (T.checkHeader m md) := by
  refine (Below.refl _).bind fun fs => .ite (.refl _) ?_
  exact (okSignature_below hnm _ _).bind fun _ => .refl _

end Table

namespace Checker

variable {lenient : Bool}

/-! ## Expressions -/

theorem coerce_below (hnm : n ≤ m) (Δ : Bounds) (t : Ty) (e : Expr) (target : Ty)
    (dest : Destination) :
    Below (coerce ⟨T, lenient, n⟩ Δ t e target dest) (coerce ⟨T, lenient, m⟩ Δ t e target dest) := by
  unfold coerce
  dsimp only
  split
  · exact .ite ((Table.implements_below hnm Δ _ _).bind fun b => .ite (.refl _) (.refl _)) (.refl _)
  · exact .refl _
  · split
    · exact .refl _
    · exact (Table.implements_below hnm Δ _ _).bind fun b => .ite (.refl _) (.refl _)
  · exact (Table.implements_below hnm Δ _ _).bind fun b => .ite (.refl _) (.refl _)

theorem binary_below (hnm : n ≤ m) (Δ : Bounds) (op : Operator) (lt : Ty) (l : Expr) (rt : Ty)
    (r whole : Expr) : Below (binary ⟨T, lenient, n⟩ Δ op lt l rt r whole)
      (binary ⟨T, lenient, m⟩ Δ op lt l rt r whole) := by
  unfold binary
  split
  · refine Below.bind ?_ fun x => .refl _
    dsimp only
    split
    · exact .refl _
    · exact (coerce_below hnm Δ _ _ _ _).bind fun _ => .refl _
    · exact (coerce_below hnm Δ _ _ _ _).bind fun _ => .refl _
    · exact .refl _
  · exact .refl _
  · exact .refl _

theorem assertable_below (hnm : n ≤ m) (Δ : Bounds) (t target : Ty) (whole : Expr) :
    Below (assertable ⟨T, lenient, n⟩ Δ t target whole)
      (assertable ⟨T, lenient, m⟩ Δ t target whole) := by
  refine (Below.refl _).bind fun static => (Below.refl _).bind fun b => .ite ?_ (.refl _)
  refine (Below.refl _).bind fun b => .ite (.refl _) ?_
  exact (Table.implements_below hnm Δ _ _).bind fun b => .ite (.refl _) (.refl _)

theorem checkAll_below_of (Δ : Bounds) (Γ : Scope) {es : List Expr}
    (hnm : n ≤ m)
    (ih : ∀ e ∈ es, Below (check ⟨T, lenient, n⟩ Δ Γ e) (check ⟨T, lenient, m⟩ Δ Γ e))
    (targets : List (Ty × Destination)) :
    Below (checkAll ⟨T, lenient, n⟩ Δ Γ targets es) (checkAll ⟨T, lenient, m⟩ Δ Γ targets es) := by
  induction es generalizing targets with
  | nil => cases targets <;> exact .refl _
  | cons e es ihes =>
    rw [List.forall_mem_cons] at ih
    cases targets with
    | nil => exact .refl _
    | cons target targets =>
      exact ih.1.bind fun r => (coerce_below hnm Δ _ _ _ _).bind fun e' =>
        (ihes ih.2 targets).bind fun _ => .refl _

/-- **The type of an expression and its elaborated form stay when there is more fuel.** -/
theorem check_below (hnm : n ≤ m) (Δ : Bounds) (Γ : Scope) (e : Expr) :
    Below (check ⟨T, lenient, n⟩ Δ Γ e) (check ⟨T, lenient, m⟩ Δ Γ e) := by
  induction e using Expr.induction with
  | var x => exact .refl _
  | lit l => exact .refl _
  | structLit c ts es ih =>
    refine (Table.okType_below hnm Δ _).bind fun _ => (Below.refl _).bind fun fields => ?_
    cases fields with
    | none => exact .refl _
    | some fields =>
      exact .ite ((checkAll_below_of Δ Γ hnm ih _).bind fun _ => .refl _) (.refl _)
  | select e f ih => exact ih.bind fun r => .refl _
  | call e meth ts es ih ihs =>
    refine ih.bind fun r => (Table.methods_below hnm Δ _).bind fun S => ?_
    dsimp only
    split
    · exact .refl _
    · refine .ite ?_ (.refl _)
      refine (Table.okTypes_below hnm Δ _).bind fun _ =>
        (Table.argumentsWithin_below hnm Δ _ _ _ _).bind fun _ => .ite ?_ (.refl _)
      exact (checkAll_below_of Δ Γ hnm ihs _).bind fun _ => .refl _
  | assert e t ih =>
    exact (Table.okType_below hnm Δ t).bind fun _ => ih.bind fun r =>
      (assertable_below hnm Δ _ _ _).bind fun _ => .refl _
  | sprintf s es ih => exact (checkAll_below_of Δ Γ hnm ih _).bind fun _ => .refl _
  | binary op l r ihl ihr =>
    exact ihl.bind fun _ => ihr.bind fun _ => binary_below hnm Δ _ _ _ _ _ _
  | convert k e ih => exact ih.bind fun r => .refl _

theorem typeOf_below (hnm : n ≤ m) (Δ : Bounds) (Γ : Scope) (e : Expr) :
    Below (typeOf ⟨T, lenient, n⟩ Δ Γ e) (typeOf ⟨T, lenient, m⟩ Δ Γ e) :=
  (check_below hnm Δ Γ e).bind fun _ => .refl _

theorem checkDecl_below (hnm : n ≤ m) (d : Decl) :
    Below (checkDecl ⟨T, lenient, n⟩ d) (checkDecl ⟨T, lenient, m⟩ d) := by
  cases d with
  | type td => exact (Table.checkTypeDecl_below hnm td).bind fun _ => .refl _
  | method md =>
    refine Below.bind ?_ fun _ => .refl _
    exact (Table.checkReceiver_below hnm md).bind fun _ => (Table.checkHeader_below hnm md).bind fun _ =>
      (check_below hnm _ _ _).bind fun r => (coerce_below hnm _ _ _ _ _).bind fun _ => .refl _

theorem checkDecls_below (hnm : n ≤ m) (decls : List Decl) :
    Below (checkDecls ⟨T, lenient, n⟩ decls) (checkDecls ⟨T, lenient, m⟩ decls) :=
  (Below.refl _).bind fun _ => .mapM fun d _ => checkDecl_below hnm d

end Checker

/-- **The check of a program stays when there is more fuel.** -/
theorem checkProgram_below (hnm : n ≤ m) (lenient : Bool) (p : Program) :
    Below (checkProgram n lenient p) (checkProgram m lenient p) :=
  (Below.refl _).bind fun _ => (Checker.checkDecls_below hnm _).bind fun _ =>
    (Checker.check_below hnm _ _ _).bind fun _ => .refl _

/-! ## Computations over a state -/

namespace Track

variable {σ ε α β : Type}

/-- From every state the second computation comes to the end of the first one, or the first one does not
come to an end. -/
def Below (x y : Track σ ε α) : Prop := ∀ s, (x s).1 = .unfinished ∨ x s = y s

namespace Below

variable {x y : Track σ ε α}

theorem refl (x : Track σ ε α) : Below x x := fun _ => .inr rfl

theorem lift {x y : Answer ε α} (h : Answer.Below x y) :
    Below (monadLift x : Track σ ε α) (monadLift y : Track σ ε α) :=
  fun s => h.imp id fun h => congrArg (·, s) h

/-- More of the parts give more of the whole. -/
theorem bind {f g : α → Track σ ε β} (h : Below x y) (hf : ∀ a, Below (f a) (g a)) :
    Below (x >>= f) (y >>= g) := by
  intro s
  change (Track.bind x f s).1 = _ ∨ Track.bind x f s = Track.bind y g s
  rw [Track.bind, Track.bind]
  rcases h s with h | h
  · generalize x s = r at h
    obtain ⟨r, s'⟩ := r
    obtain rfl : r = .unfinished := h
    exact .inl rfl
  · rw [← h]
    generalize x s = r
    obtain ⟨r, s'⟩ := r
    cases r with
    | ok a => exact hf a s'
    | error e => exact .inr rfl
    | unfinished => exact .inl rfl

theorem ite {c : Prop} [Decidable c] {x' y' : Track σ ε α} (h : Below x y) (h' : Below x' y') :
    Below (if c then x else x') (if c then y else y') := by
  by_cases hc : c
  · rwa [if_pos hc, if_pos hc]
  · rwa [if_neg hc, if_neg hc]

theorem ends (h : Below x y) {s s' : σ} {a : α} (hx : x.Ends s a s') : y.Ends s a s' := by
  rcases h s with hs | hs
  · rw [hx] at hs
    cases hs
  · exact hs.symm.trans hx

end Below

end Track

/-! ## Collected instances -/

namespace Checker

variable {lenient : Bool}

theorem collectAll_below_of {Δ : Bounds} {Γ : Scope} {es : List Expr}
    (ih : ∀ e ∈ es, Track.Below (collect ⟨T, lenient, n⟩ Δ Γ e) (collect ⟨T, lenient, m⟩ Δ Γ e)) :
    Track.Below (collectAll ⟨T, lenient, n⟩ Δ Γ es) (collectAll ⟨T, lenient, m⟩ Δ Γ es) := by
  induction es with
  | nil => exact .refl _
  | cons e es ihes =>
    rw [List.forall_mem_cons] at ih
    exact ih.1.bind fun _ => ihes ih.2

/-- **What is collected from an expression stays when there is more fuel.** -/
theorem collect_below (hnm : n ≤ m) (Δ : Bounds) (Γ : Scope) (e : Expr) :
    Track.Below (collect ⟨T, lenient, n⟩ Δ Γ e) (collect ⟨T, lenient, m⟩ Δ Γ e) := by
  induction e using Expr.induction with
  | var x => exact .refl _
  | lit l => exact .refl _
  | structLit c ts es ih => exact (collectAll_below_of ih).bind fun _ => .refl _
  | select e f ih => exact ih
  | call e meth ts es ih ihs =>
    exact ih.bind fun _ => (collectAll_below_of ihs).bind fun _ =>
      (Track.Below.lift (typeOf_below hnm Δ Γ e)).bind fun _ => .refl _
  | assert e t ih => exact ih.bind fun _ => .refl _
  | sprintf s es ih => exact collectAll_below_of ih
  | binary op l r ihl ihr => exact ihl.bind fun _ => ihr
  | convert k e ih => exact ih

theorem collect_mono (hnm : n ≤ m) {Δ : Bounds} {Γ : Scope} {e : Expr} {F F' : Instances}
    (h : (collect ⟨T, lenient, n⟩ Δ Γ e).Ends F () F') :
    (collect ⟨T, lenient, m⟩ Δ Γ e).Ends F () F' :=
  (collect_below hnm Δ Γ e).ends h

end Checker

/-! ## Steps -/

namespace Machine

theorem assertValue_below (hnm : n ≤ m) (value : Expr) (target : Ty) :
    Below ((Machine.mk T n).assertValue value target) ((Machine.mk T m).assertValue value target) := by
  have himplements := T.implements_below hnm [] value.runtimeType target
  refine Below.bind ?_ fun b => .refl _
  rcases himplements with h | h
  · rw [h]
    exact .unfinished _
  · rw [h]
    exact .refl _

/-- Only an assertion looks at fuel. -/
theorem step_below_of_ready (hnm : n ≤ m) {e : Expr} (he : e.Ready) :
    Below ((Machine.mk T n).step e) ((Machine.mk T m).step e) := by
  cases he with
  | assert hv target =>
    simp only [Machine.step, if_pos hv]
    exact (assertValue_below hnm _ _).bind fun _ => .refl _
  | var x => exact .refl _
  | select hv field =>
    simp only [Machine.step, if_pos hv]
    exact .refl _
  | call hv hvs =>
    simp only [Machine.step, hv, hvs, Bool.not_true, Bool.false_eq_true, if_false]
    exact .refl _
  | sprintf hvs =>
    simp only [Machine.step, if_pos hvs]
    exact .refl _
  | decided hl hd =>
    simp only [Machine.step, hl, hd, Bool.not_true, Bool.false_eq_true, if_false]
    exact .refl _
  | binary hl hd hr =>
    simp only [Machine.step, hl, hd, hr, Bool.not_true, Bool.false_eq_true, if_false]
    exact .refl _
  | convert hv =>
    simp only [Machine.step, if_pos hv]
    exact .refl _

/-- **A step stays when there is more fuel.** -/
theorem step_below (hnm : n ≤ m) {e : Expr} (hv : e.isValue = false) :
    Below ((Machine.mk T n).step e) ((Machine.mk T m).step e) := by
  obtain ⟨plug, -, hplug⟩ := Expr.stepsIn_redex hv
  rw [hplug, hplug]
  exact (step_below_of_ready hnm (Expr.ready_redex hv)).bind fun _ => .refl _

theorem step_ok_of_le (hnm : n ≤ m) {e : Expr} {r : Expr × Rule}
    (h : (Machine.mk T n).step e = .ok r) : (Machine.mk T m).step e = .ok r :=
  (step_below hnm (isValue_of_step h)).ok h

end Machine

end FeatherGo
