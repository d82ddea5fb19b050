import FeatherGo.Proofs.Expressions.Redex
import FeatherGo.Proofs.Ground.Images

/-!
# Steps of images

An expression steps as its redex does, and its image as the image of the redex
(`Ground.Imaged.parallel`): the place of the redex is told by which parts are values, and that is the same
for an expression and its image.
-/

namespace FeatherGo.Ground

variable [Digest] {top : String}

/-! ## Parts of images -/

theorem ImagedAll.middle {pre post ms : List Expr} {e : Expr}
    (h : ImagedAll top (pre ++ e :: post) ms) :
    ∃ pre' m post', ms = pre' ++ m :: post' ∧ ImagedAll top pre pre' ∧ Imaged top e m
      ∧ ImagedAll top post post' := by
  induction pre generalizing ms with
  | nil =>
    cases h with
    | cons hm hpost => exact ⟨[], _, _, rfl, .nil, hm, hpost⟩
  | cons v pre ih =>
    cases h with
    | cons hv h =>
      obtain ⟨pre', m, post', rfl, hpre, hm, hpost⟩ := ih h
      exact ⟨_ :: pre', m, post', rfl, .cons hv hpre, hm, hpost⟩

theorem ImagedAll.getElem? {es ms : List Expr} (h : ImagedAll top es ms) {i : Nat} {e : Expr}
    (hi : es[i]? = some e) : ∃ m, ms[i]? = some m ∧ Imaged top e m := by
  induction h generalizing i with
  | nil => simp at hi
  | @cons e' m es ms hm _ ih =>
    cases i with
    | zero =>
      obtain rfl : e' = e := by simpa using hi
      exact ⟨m, rfl, hm⟩
    | succ i => exact ih (by simpa using hi)

/-- Names stand for expressions and for their images at once. -/
theorem ImagedAll.find?_zip {es ms : List Expr} (h : ImagedAll top es ms) (names : List String)
    (x : String) : (Env.find? (names.zip es) x = none ∧ Env.find? (names.zip ms) x = none)
      ∨ ∃ e m, Env.find? (names.zip es) x = some e ∧ Env.find? (names.zip ms) x = some m
        ∧ Imaged top e m := by
  induction h generalizing names with
  | nil => exact .inl ⟨by simp, by simp⟩
  | @cons e m es ms hm _ ih =>
    cases names with
    | nil => exact .inl ⟨rfl, rfl⟩
    | cons n names =>
      rw [List.zip_cons_cons, List.zip_cons_cons, Env.find?, Env.find?]
      rcases ih names with ⟨he, hm'⟩ | ⟨e', m', he, hm', hi⟩
      · rw [he, hm', Option.none_or, Option.none_or]
        by_cases hn : n = x
        · rw [if_pos hn, if_pos hn]
          exact .inr ⟨e, m, rfl, rfl, hm⟩
        · rw [if_neg hn, if_neg hn]
          exact .inl ⟨rfl, rfl⟩
      · rw [he, hm', Option.some_or, Option.some_or]
        exact .inr ⟨e', m', rfl, rfl, hi⟩

/-- A value decides an operation alone where its image does. -/
theorem Imaged.decided?_eq {e m : Expr} (h : Imaged top e m) (hv : e.isValue = true)
    (op : Operator) : Machine.decided? op m = Machine.decided? op e := by
  cases e with
  | lit l => rw [← Except.ok.inj h]
  | structLit c ts es =>
    obtain ⟨-, _, -, rfl⟩ := structLit_iff.1 h
    cases op <;> rfl
  | _ => cases hv

/-! ## Steps of parts -/

/-- Two expressions step as an expression and its image do, and stay an expression and its image if
these do. -/
def Parallel (top : String) (g m r r' : Expr) : Prop :=
  Imaged top r r' ∧ ∃ plug plug' : Expr → Expr,
    (∀ M : Machine, M.step g = (do
      let (s, rule) ← M.step r
      return (plug s, rule)))
    ∧ (∀ M : Machine, M.step m = (do
      let (s, rule) ← M.step r'
      return (plug' s, rule)))
    ∧ ∀ s s', Imaged top s s' → Imaged top (plug s) (plug' s')

namespace Parallel

variable {g m r r' : Expr}

theorem refl (h : Imaged top g m) : Parallel top g m g m := by
  refine ⟨h, id, id, fun M => ?_, fun M => ?_, fun _ _ hs => hs⟩
  · cases M.step g <;> rfl
  · cases M.step m <;> rfl

/-- Steps of parts of parts are steps of parts. -/
theorem lift (h : Parallel top g m r r') (f f' : Expr → Expr)
    (hf : ∀ M : Machine, M.step (f g) = (do
      let (s, rule) ← M.step g
      return (f s, rule)))
    (hf' : ∀ M : Machine, M.step (f' m) = (do
      let (s, rule) ← M.step m
      return (f' s, rule)))
    (himage : ∀ s s', Imaged top s s' → Imaged top (f s) (f' s')) :
    Parallel top (f g) (f' m) r r' := by
  obtain ⟨hr, plug, plug', hplug, hplug', hi⟩ := h
  refine ⟨hr, f ∘ plug, f' ∘ plug', fun M => ?_, fun M => ?_, fun s s' hs => himage _ _ (hi s s' hs)⟩
  · rw [hf, hplug]
    cases M.step r <;> rfl
  · rw [hf', hplug']
    cases M.step r' <;> rfl

/-- Steps of lists of parts are steps of parts. -/
theorem first {es ms : List Expr} (hms : ImagedAll top es ms) (hes : Expr.areValues es = false)
    (ih : ∀ e ∈ es, ∀ {m}, Imaged top e m → e.isValue = false → Parallel top e m e.redex m.redex)
    (f f' : List Expr → Expr) {whole whole' : Expr}
    (hf : ∀ M : Machine, M.step (f es) = (do
      let (es', rule) ← M.stepFirst whole es
      return (f es', rule)))
    (hf' : ∀ M : Machine, M.step (f' ms) = (do
      let (ms', rule) ← M.stepFirst whole' ms
      return (f' ms', rule)))
    (himage : ∀ es ms, ImagedAll top es ms → Imaged top (f es) (f' ms)) :
    Parallel top (f es) (f' ms) (Expr.redexFirst whole es) (Expr.redexFirst whole' ms) := by
  obtain ⟨pre, e, post, rfl, hpre, he⟩ := Expr.exists_first hes
  obtain ⟨pre', m, post', rfl, hipre, hm, hipost⟩ := hms.middle
  have hpre' : ∀ v ∈ pre', v.isValue = true := by
    rw [← Expr.areValues_iff, hipre.areValues_eq, Expr.areValues_iff]
    exact hpre
  have hm' : m.isValue = false := hm.isValue_eq.trans he
  rw [Expr.redexFirst_append hpre he, Expr.redexFirst_append hpre' hm']
  refine (ih e (by simp) hm he).lift (fun s => f (pre ++ s :: post))
    (fun s => f' (pre' ++ s :: post')) (fun M => ?_) (fun M => ?_) fun s s' hs => ?_
  · rw [hf, Machine.stepFirst_append hpre he]
    cases M.step e <;> rfl
  · rw [hf', Machine.stepFirst_append hpre' hm']
    cases M.step m <;> rfl
  · exact himage _ _ (List.rel_append hipre (.cons hs hipost))

end Parallel

/-- **An expression that is no value and its image step as their redexes do.** -/
theorem Imaged.parallel {g m : Expr} (h : Imaged top g m) (hv : g.isValue = false) :
    Parallel top g m g.redex m.redex := by
  induction g using Expr.induction generalizing m with
  | var x =>
    obtain rfl := Except.ok.inj h
    exact .refl (.var x)
  | lit l => cases hv
  | structLit c targs es ih =>
    obtain ⟨hts, ms, hms, rfl⟩ := structLit_iff.1 h
    exact .first hms hv (fun e he _ hm => ih e he hm) (.structLit c targs ·)
      (.structLit (typeName c targs) [] ·) (fun M => rfl) (fun M => rfl)
      fun _ ms hms => structLit_iff.2 ⟨hts, ms, hms, rfl⟩
  | select e field ih =>
    obtain ⟨e', he', rfl⟩ := select_iff.1 h
    by_cases he : e.isValue = true
    · have hm : e'.isValue = true := he'.isValue_eq.trans he
      rw [Expr.redex, if_pos he, Expr.redex, if_pos hm]
      exact .refl h
    · have hm : ¬e'.isValue = true := he'.isValue_eq ▸ he
      rw [Expr.redex, if_neg he, Expr.redex, if_neg hm]
      exact (ih he' (by simpa using he)).lift (.select · field) (.select · field)
        (fun M => by rw [Machine.step, if_neg he]) (fun M => by rw [Machine.step, if_neg hm])
        fun _ s' hs => select_iff.2 ⟨s', hs, rfl⟩
  | call recv meth targs args ih ihs =>
    obtain ⟨hts, recv', args', hrecv, hargs, rfl⟩ := call_iff.1 h
    have hreq := hrecv.isValue_eq
    by_cases hr : recv.isValue = true
    · have haeq := hargs.areValues_eq
      by_cases ha : Expr.areValues args = true
      · simp only [Expr.redex, hreq, haeq, hr, ha, Bool.not_true, Bool.false_eq_true, if_false]
        exact .refl h
      · simp only [Expr.redex, hreq, haeq, hr, ha, Bool.not_true, Bool.not_false,
          Bool.false_eq_true, if_false, if_true]
        refine .first hargs (by simpa using ha) (fun e he _ hm => ihs e he hm)
          (.call recv meth targs ·) (.call recv' (methodName meth targs) [] ·) (fun M => ?_) (fun M => ?_)
          fun _ ms hms => call_iff.2 ⟨hts, recv', ms, hrecv, hms, rfl⟩
        · simp only [Machine.step, hr, ha, Bool.not_true, Bool.not_false, Bool.false_eq_true,
            if_false, if_true]
        · simp only [Machine.step, hreq, haeq, hr, ha, Bool.not_true, Bool.not_false,
            Bool.false_eq_true, if_false, if_true]
    · simp only [Expr.redex, hreq, hr, Bool.not_false, if_true]
      refine (ih hrecv (by simpa using hr)).lift (.call · meth targs args)
        (.call · (methodName meth targs) [] args') (fun M => ?_) (fun M => ?_)
        fun _ s' hs => call_iff.2 ⟨hts, s', args', hs, hargs, rfl⟩
      · simp only [Machine.step, hr, Bool.not_false, if_true]
      · simp only [Machine.step, hreq, hr, Bool.not_false, if_true]
  | assert e target ih =>
    obtain ⟨e', target', he', htarget, rfl⟩ := assert_iff.1 h
    by_cases he : e.isValue = true
    · have hm : e'.isValue = true := he'.isValue_eq.trans he
      rw [Expr.redex, if_pos he, Expr.redex, if_pos hm]
      exact .refl h
    · have hm : ¬e'.isValue = true := he'.isValue_eq ▸ he
      rw [Expr.redex, if_neg he, Expr.redex, if_neg hm]
      exact (ih he' (by simpa using he)).lift (.assert · target) (.assert · target')
        (fun M => by rw [Machine.step, if_neg he]) (fun M => by rw [Machine.step, if_neg hm])
        fun _ s' hs => assert_iff.2 ⟨s', target', hs, htarget, rfl⟩
  | sprintf format args ih =>
    obtain ⟨args', hargs, rfl⟩ := sprintf_iff.1 h
    have haeq := hargs.areValues_eq
    by_cases ha : Expr.areValues args = true
    · rw [Expr.redex, if_pos ha, Expr.redex, if_pos (haeq.trans ha)]
      exact .refl h
    · have ha' : ¬Expr.areValues args' = true := haeq ▸ ha
      rw [Expr.redex, if_neg ha, Expr.redex, if_neg ha']
      exact .first hargs (by simpa using ha) (fun e he _ hm => ih e he hm) (.sprintf format ·)
        (.sprintf format ·) (fun M => by rw [Machine.step, if_neg ha])
        (fun M => by rw [Machine.step, if_neg ha']) fun _ ms hms => sprintf_iff.2 ⟨ms, hms, rfl⟩
  | binary op lhs rhs ihl ihr =>
    obtain ⟨lhs', rhs', hlhs, hrhs, rfl⟩ := binary_iff.1 h
    have hleq := hlhs.isValue_eq
    by_cases hl : lhs.isValue = true
    · have hreq := hrhs.isValue_eq
      have hdeq := hlhs.decided?_eq hl op
      by_cases hd : ((Machine.decided? op lhs).isSome || rhs.isValue) = true
      · simp only [Expr.redex, hleq, hreq, hdeq, hl, hd, Bool.not_true, Bool.false_eq_true,
          if_false, if_true]
        exact .refl h
      · simp only [Expr.redex, hleq, hreq, hdeq, hl, hd, Bool.not_true, Bool.false_eq_true,
          if_false]
        simp only [Bool.or_eq_true, not_or, Bool.not_eq_true, Option.isSome_eq_false_iff,
          Option.isNone_iff_eq_none] at hd
        obtain ⟨hnone, hr⟩ := hd
        refine (ihr hrhs hr).lift (.binary op lhs ·) (.binary op lhs' ·)
          (fun M => ?_) (fun M => ?_) fun _ s' hs => binary_iff.2 ⟨lhs', s', hlhs, hs, rfl⟩
        · simp only [Machine.step, hl, hnone, hr, Bool.not_true, Bool.not_false,
            Bool.false_eq_true, if_false, if_true]
        · simp only [Machine.step, hleq, hdeq, hreq, hl, hnone, hr, Bool.not_true, Bool.not_false,
            Bool.false_eq_true, if_false, if_true]
    · simp only [Expr.redex, hleq, hl, Bool.not_false, if_true]
      refine (ihl hlhs (by simpa using hl)).lift (.binary op · rhs) (.binary op · rhs')
        (fun M => ?_) (fun M => ?_) fun _ s' hs => binary_iff.2 ⟨s', rhs', hs, hrhs, rfl⟩
      · simp only [Machine.step, hl, Bool.not_false, if_true]
      · simp only [Machine.step, hleq, hl, Bool.not_false, if_true]
  | convert k e ih =>
    obtain ⟨e', he', rfl⟩ := convert_iff.1 h
    by_cases he : e.isValue = true
    · have hm : e'.isValue = true := he'.isValue_eq.trans he
      rw [Expr.redex, if_pos he, Expr.redex, if_pos hm]
      exact .refl h
    · have hm : ¬e'.isValue = true := he'.isValue_eq ▸ he
      rw [Expr.redex, if_neg he, Expr.redex, if_neg hm]
      exact (ih he' (by simpa using he)).lift (.convert k ·) (.convert k ·)
        (fun M => by rw [Machine.step, if_neg he]) (fun M => by rw [Machine.step, if_neg hm])
        fun _ s' hs => convert_iff.2 ⟨s', hs, rfl⟩

end FeatherGo.Ground
