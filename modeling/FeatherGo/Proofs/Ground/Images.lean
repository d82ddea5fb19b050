import FeatherGo.Ground.Image
import FeatherGo.Proofs.Answer
import FeatherGo.Proofs.Declarations.Plain
import FeatherGo.Proofs.Expressions.Induction
import FeatherGo.Proofs.Ground.Names
import Mathlib.Data.List.Forall2

/-!
# Images of types and expressions

`Ground.Imaged` relates an expression to its image. Images are values where the expressions are, and
putting images in for variables gives the image of the result (`Ground.Imaged.substVars`).
-/

namespace FeatherGo

namespace Ground

/-! ## Types -/

theorem Nameable.isGround {t : Ty} (ht : Nameable t) : t.isGround = true := by
  induction ht with
  | named _ _ _ ih => exact Ty.isGround_named.2 ih
  | prim => rfl

variable [Digest] {top : String}

theorem imageTy_named_eq_ok {c : String} {args : List Ty} {t : Ty}
    (h : imageTy top (.named c args) = .ok t) : t = .named (typeName c args) [] := by
  rw [imageTy] at h
  split at h
  · exact (Except.ok.inj h).symm
  · cases h

/-- The images of some slots keep the names. -/
theorem imageSlots_eq_ok {fs fs' : List Slot} (h : imageSlots top fs = .ok fs') :
    fs'.map (·.name) = fs.map (·.name)
      ∧ List.Forall₂ (fun f f' => imageTy top f.ty = .ok f'.ty) fs fs' := by
  induction fs generalizing fs' with
  | nil =>
    obtain rfl := Except.ok.inj h
    exact ⟨rfl, .nil⟩
  | cons f fs ih =>
    obtain ⟨x, t⟩ := f
    obtain ⟨t', ht', h⟩ := except_bind_eq_ok.1 h
    obtain ⟨fs', hfs', h⟩ := except_bind_eq_ok.1 h
    obtain rfl := Except.ok.inj h
    obtain ⟨hnames, hall⟩ := ih hfs'
    exact ⟨by rw [List.map_cons, List.map_cons, hnames], .cons ht' hall⟩

/-- Slots of the same types have images of the same types. -/
theorem imageSlots_types {fs gs fs' gs' : List Slot} (h : imageSlots top fs = .ok fs')
    (h' : imageSlots top gs = .ok gs') (he : fs.map (·.ty) = gs.map (·.ty)) :
    fs'.map (·.ty) = gs'.map (·.ty) := by
  obtain ⟨-, hfs⟩ := imageSlots_eq_ok h
  obtain ⟨-, hgs⟩ := imageSlots_eq_ok h'
  clear h h'
  induction hfs generalizing gs gs' with
  | nil =>
    obtain rfl := List.map_eq_nil_iff.1 he.symm
    cases hgs
    rfl
  | @cons f f' fs fs' hf _ ih =>
    cases hgs with
    | nil => cases he
    | @cons g g' gs gs' hg hgs =>
      obtain ⟨hty, he⟩ := List.cons.inj he
      have heq : f'.ty = g'.ty := Except.ok.inj (hf.symm.trans ((congrArg _ hty).trans hg))
      rw [List.map_cons, List.map_cons, ih he hgs, heq]

/-! ## Expressions -/

/-- An expression has an image. -/
def Imaged (top : String) (e m : Expr) : Prop := imageExpr top e = .ok m

/-- Expressions have images, one by one. -/
def ImagedAll (top : String) : List Expr → List Expr → Prop := List.Forall₂ (Imaged top)

theorem imageExprs_eq_ok {es ms : List Expr} :
    imageExprs top es = .ok ms ↔ ImagedAll top es ms := by
  induction es generalizing ms with
  | nil =>
    constructor
    · intro h
      obtain rfl := Except.ok.inj h
      exact .nil
    · intro h
      cases h
      rfl
  | cons e es ih =>
    rw [imageExprs, except_bind_eq_ok]
    constructor
    · rintro ⟨m, hm, h⟩
      obtain ⟨ms, hms, h⟩ := except_bind_eq_ok.1 h
      obtain rfl := Except.ok.inj h
      exact .cons hm (ih.1 hms)
    · intro h
      cases h with
      | cons hm hms => exact ⟨_, hm, by rw [ih.2 hms]; rfl⟩

namespace Imaged

variable {m : Expr}

theorem var (x : String) : Imaged top (.var x) (.var x) := rfl

theorem lit (l : Literal) : Imaged top (.lit l) (.lit l) := rfl

theorem structLit_iff {c : String} {ts : List Ty} {es : List Expr} :
    Imaged top (.structLit c ts es) m ↔ ts.all Ty.isGround = true
      ∧ ∃ ms, ImagedAll top es ms ∧ m = .structLit (typeName c ts) [] ms := by
  rw [Imaged, imageExpr]
  simp only [← imageExprs_eq_ok]
  by_cases hts : ts.all Ty.isGround = true
  · rw [if_pos hts, and_iff_right hts]
    exact except_map_eq_ok
  · rw [if_neg hts]
    simp [hts]

theorem call_iff {recv : Expr} {meth : String} {ts : List Ty} {args : List Expr} :
    Imaged top (.call recv meth ts args) m ↔ ts.all Ty.isGround = true
      ∧ ∃ recv' args', Imaged top recv recv' ∧ ImagedAll top args args'
        ∧ m = .call recv' (methodName meth ts) [] args' := by
  rw [Imaged, imageExpr]
  cases hfind : ts.find? fun t => !t.isGround with
  | some t =>
    have hmem := List.mem_of_find?_eq_some hfind
    have hnot := List.find?_some hfind
    simp only [Bool.not_eq_true'] at hnot
    constructor
    · intro h
      cases h
    · rintro ⟨hts, -⟩
      rw [List.all_eq_true] at hts
      rw [hts t hmem] at hnot
      cases hnot
  | none =>
    have hts : ts.all Ty.isGround = true := by
      rw [List.all_eq_true]
      exact fun t ht => by simpa using List.find?_eq_none.1 hfind t ht
    simp only [hts, true_and, ← imageExprs_eq_ok]
    exact except_map₂_eq_ok

theorem assert_iff {e : Expr} {t : Ty} :
    Imaged top (.assert e t) m
      ↔ ∃ e' t', Imaged top e e' ∧ imageTy top t = .ok t' ∧ m = .assert e' t' :=
  except_map₂_eq_ok

theorem select_iff {e : Expr} {f : String} :
    Imaged top (.select e f) m ↔ ∃ e', Imaged top e e' ∧ m = .select e' f :=
  except_map_eq_ok

theorem sprintf_iff {s : String} {es : List Expr} :
    Imaged top (.sprintf s es) m ↔ ∃ ms, ImagedAll top es ms ∧ m = .sprintf s ms := by
  simp only [← imageExprs_eq_ok]
  exact except_map_eq_ok

theorem binary_iff {op : Operator} {l r : Expr} :
    Imaged top (.binary op l r) m
      ↔ ∃ l' r', Imaged top l l' ∧ Imaged top r r' ∧ m = .binary op l' r' :=
  except_map₂_eq_ok

theorem convert_iff {k : Kind} {e : Expr} :
    Imaged top (.convert k e) m ↔ ∃ e', Imaged top e e' ∧ m = .convert k e' :=
  except_map_eq_ok

end Imaged

theorem ImagedAll.map {f g : Expr → Expr} {es ms : List Expr} (h : ImagedAll top es ms)
    (hfg : ∀ e ∈ es, ∀ m, Imaged top e m → Imaged top (f e) (g m)) :
    ImagedAll top (es.map f) (ms.map g) := by
  induction h with
  | nil => exact .nil
  | cons hm _ ih =>
    rw [List.forall_mem_cons] at hfg
    exact .cons (hfg.1 _ hm) (ih hfg.2)

/-- Images are values where the expressions are. -/
theorem Imaged.isValue_eq {e m : Expr} (h : Imaged top e m) : m.isValue = e.isValue := by
  induction e using Expr.induction generalizing m with
  | var x => rw [← Except.ok.inj h]
  | lit l => rw [← Except.ok.inj h]
  | structLit c ts es ih =>
    obtain ⟨-, ms, hms, rfl⟩ := structLit_iff.1 h
    rw [Expr.isValue, Expr.isValue]
    induction hms with
    | nil => rfl
    | cons hm _ ihs =>
      rw [List.forall_mem_cons] at ih
      have hrest := ihs (h := structLit_iff.2 ⟨(structLit_iff.1 h).1, _, ‹_›, rfl⟩) ih.2
      rw [Expr.areValues, Expr.areValues, ih.1 hm, hrest]
  | select e f =>
    obtain ⟨e', -, rfl⟩ := select_iff.1 h
    rfl
  | call e m ts es =>
    obtain ⟨-, _, _, -, -, rfl⟩ := call_iff.1 h
    rfl
  | assert e t =>
    obtain ⟨_, _, -, -, rfl⟩ := assert_iff.1 h
    rfl
  | sprintf s es =>
    obtain ⟨_, -, rfl⟩ := sprintf_iff.1 h
    rfl
  | binary op l r =>
    obtain ⟨_, _, -, -, rfl⟩ := binary_iff.1 h
    rfl
  | convert k e =>
    obtain ⟨_, -, rfl⟩ := convert_iff.1 h
    rfl

theorem ImagedAll.areValues_eq {es ms : List Expr} (h : ImagedAll top es ms) :
    Expr.areValues ms = Expr.areValues es := by
  induction h with
  | nil => rfl
  | cons hm _ ih => rw [Expr.areValues, Expr.areValues, hm.isValue_eq, ih]

/-- **Putting images in for variables gives the image of the result.** -/
theorem Imaged.substVars {e m : Expr} (h : Imaged top e m) {env env' : Env Expr}
    (henv : ∀ x, (env.find? x = none ∧ env'.find? x = none)
      ∨ ∃ v v', env.find? x = some v ∧ env'.find? x = some v' ∧ Imaged top v v') :
    Imaged top (e.substVars env) (m.substVars env') := by
  induction e using Expr.induction generalizing m with
  | var x =>
    obtain rfl := Except.ok.inj h
    rw [Expr.substVars, Expr.substVars]
    rcases henv x with ⟨hx, hx'⟩ | ⟨v, v', hx, hx', hv⟩
    · rw [hx, hx']
      exact .var x
    · rw [hx, hx']
      exact hv
  | lit l =>
    obtain rfl := Except.ok.inj h
    exact .lit l
  | structLit c ts es ih =>
    obtain ⟨hts, ms, hms, rfl⟩ := structLit_iff.1 h
    rw [Expr.substVars, Expr.substVars, Expr.substVarsAll_eq, Expr.substVarsAll_eq]
    exact structLit_iff.2 ⟨hts, _, hms.map fun e he m hm => ih e he hm, rfl⟩
  | select e f ih =>
    obtain ⟨e', he', rfl⟩ := select_iff.1 h
    exact select_iff.2 ⟨_, ih he', rfl⟩
  | call e m ts es ih ihs =>
    obtain ⟨hts, e', ms, he', hms, rfl⟩ := call_iff.1 h
    rw [Expr.substVars, Expr.substVars, Expr.substVarsAll_eq, Expr.substVarsAll_eq]
    exact call_iff.2 ⟨hts, _, _, ih he', hms.map fun e he m hm => ihs e he hm, rfl⟩
  | assert e t ih =>
    obtain ⟨e', t', he', ht', rfl⟩ := assert_iff.1 h
    exact assert_iff.2 ⟨_, t', ih he', ht', rfl⟩
  | sprintf s es ih =>
    obtain ⟨ms, hms, rfl⟩ := sprintf_iff.1 h
    rw [Expr.substVars, Expr.substVars, Expr.substVarsAll_eq, Expr.substVarsAll_eq]
    exact sprintf_iff.2 ⟨_, hms.map fun e he m hm => ih e he hm, rfl⟩
  | binary op l r ihl ihr =>
    obtain ⟨l', r', hl', hr', rfl⟩ := binary_iff.1 h
    exact binary_iff.2 ⟨_, _, ihl hl', ihr hr', rfl⟩
  | convert k e ih =>
    obtain ⟨e', he', rfl⟩ := convert_iff.1 h
    exact convert_iff.2 ⟨_, ih he', rfl⟩

end Ground

end FeatherGo
