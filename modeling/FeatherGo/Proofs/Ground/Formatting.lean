import FeatherGo.Command.Digest
import FeatherGo.Proofs.Ground.Images
import FeatherGo.Reduction.Format

/-!
# Formatted text and ground images

A value and its image have the same text under every verb that fits structs, since elements are written
without the types of structs (`Ground.Imaged.format_eq`). A text on a fault names types: of an argument
under any other verb, and of each argument that is left over. There the image of a struct at type
arguments goes by another name, in which no parenthesis is left, whatever stands behind
(`Ground.described_append_ne`). So a format makes the same text of ground values and of their images
exactly if it describes no struct at type arguments (`Ground.sprintf_image_iff`), and `%x` of a
`Box(int32)` tells a program from its image (`Ground.sprintf_image_ne`).
-/

namespace FeatherGo

/-- The arguments that a format writes with their types: those of a verb that no struct fits, and those
that are left over. -/
def describedBy : List Char → List Expr → List Expr
  | [], args => args
  | ['%'], args => args
  | '%' :: '%' :: cs, args => describedBy cs args
  | '%' :: verb :: cs, arg :: args =>
    if verb = 'v' || isElementVerb verb then describedBy cs args else arg :: describedBy cs args
  | '%' :: _ :: cs, [] => describedBy cs []
  | _ :: cs, args => describedBy cs args

/-- Struct literals with ground type arguments, and constants, all the way down. -/
inductive GroundValue : Expr → Prop
  | lit (l : Literal) : GroundValue (.lit l)
  | structLit (c : String) {ts : List Ty} {es : List Expr} (ground : ∀ t ∈ ts, t.isGround = true)
      (elems : ∀ e ∈ es, GroundValue e) : GroundValue (.structLit c ts es)

/-- Whether a value is a struct at type arguments. -/
def Expr.isGeneric : Expr → Bool
  | .structLit _ ts _ => !ts.isEmpty
  | _ => false

namespace Ground

theorem displayAll_eq (es : List Expr) : Expr.displayAll es = es.map Expr.display := by
  induction es with
  | nil => rfl
  | cons e es ih => rw [Expr.displayAll, ih, List.map_cons]

theorem formatAll_eq (verb : Char) (es : List Expr) :
    Expr.formatAll verb es = es.map (Expr.format verb) := by
  induction es with
  | nil => rfl
  | cons e es ih => rw [Expr.formatAll, ih, List.map_cons]

/-- Names are made of characters that names keep. -/
theorem nameChar_of_mem {a d : Char} (h : d ∈ nameChar a) : nameChar d = [d] := by
  unfold nameChar at h
  split at h
  · cases h
  · rw [List.mem_singleton.1 h]
    rfl
  · rw [List.mem_singleton.1 h]
    rfl
  · rw [List.mem_singleton.1 h]
    rfl
  · rw [List.mem_singleton.1 h]
    unfold nameChar
    split <;> first | rfl | exact absurd rfl ‹_›

/-- A text with a closing parenthesis and its name differ where the name first drops or replaces a
character. -/
theorem append_ne_flatMap {l : List Char} (h : ')' ∈ l) (r r' : List Char) :
    l ++ r ≠ l.flatMap nameChar ++ r' := by
  induction l with
  | nil => cases h
  | cons c cs ih =>
    intro heq
    by_cases hc : nameChar c = [c]
    · have hcs : ')' ∈ cs := (List.mem_cons.1 h).resolve_left fun hp => by
        rw [← hp] at hc
        exact absurd hc (by decide)
      rw [List.flatMap_cons, hc] at heq
      exact ih hcs (List.cons.inj heq).2
    · have hend : 'ᐳ' ∈ (c :: cs).flatMap nameChar :=
        List.mem_flatMap.2 ⟨')', h, List.mem_singleton_self _⟩
      obtain ⟨d, ds, hds⟩ := List.exists_cons_of_ne_nil (List.ne_nil_of_mem hend)
      have hd : d ∈ (c :: cs).flatMap nameChar := hds ▸ List.mem_cons_self
      obtain ⟨a, -, hda⟩ := List.mem_flatMap.1 hd
      rw [hds] at heq
      obtain rfl : c = d := (List.cons.inj heq).1
      exact hc (nameChar_of_mem hda)

section Images

variable [Digest] {top : String}

/-! ## Images of values -/

/-- Ground values have images. -/
theorem exists_image_all {es : List Expr} (h : ∀ e ∈ es, ∃ m, Imaged top e m) :
    ∃ ms, ImagedAll top es ms := by
  induction es with
  | nil => exact ⟨[], .nil⟩
  | cons e es ih =>
    obtain ⟨he, hes⟩ := List.forall_mem_cons.1 h
    obtain ⟨m, hm⟩ := he
    obtain ⟨ms, hms⟩ := ih hes
    exact ⟨m :: ms, .cons hm hms⟩

theorem exists_image {e : Expr} (h : GroundValue e) : ∃ m, Imaged top e m := by
  induction h with
  | lit l => exact ⟨_, .lit l⟩
  | structLit c ground _ ih =>
    obtain ⟨ms, hms⟩ := exists_image_all ih
    exact ⟨_, Imaged.structLit_iff.2 ⟨List.all_eq_true.2 ground, ms, hms, rfl⟩⟩

/-- What the images of some expressions have in common with them one by one. -/
theorem ImagedAll.map_eq {α : Type} {f : Expr → α} {es ms : List Expr} (h : ImagedAll top es ms)
    (hf : ∀ e ∈ es, ∀ m, Imaged top e m → f m = f e) : ms.map f = es.map f := by
  induction h with
  | nil => rfl
  | cons hm _ ih =>
    rw [List.forall_mem_cons] at hf
    rw [List.map_cons, List.map_cons, hf.1 _ hm, ih hf.2]

namespace Imaged

variable {e m : Expr}

/-- A value and its image are displayed alike. -/
theorem display_eq (he : GroundValue e) (h : Imaged top e m) : m.display = e.display := by
  induction he generalizing m with
  | lit l => rw [← Except.ok.inj h]
  | structLit c _ _ ih =>
    obtain ⟨-, ms, hms, rfl⟩ := structLit_iff.1 h
    rw [Expr.display, Expr.display, displayAll_eq, displayAll_eq, hms.map_eq fun e he _ => ih e he]

/-- A value and its image have the same text under a verb that fits structs. -/
theorem format_eq {verb : Char} (hv : (verb = 'v' || isElementVerb verb) = true)
    (he : GroundValue e) (h : Imaged top e m) : m.format verb = e.format verb := by
  have hdisplay := h.display_eq he
  induction he generalizing m with
  | lit l => rw [← Except.ok.inj h]
  | structLit c _ elems ih =>
    obtain ⟨-, ms, hms, rfl⟩ := structLit_iff.1 h
    rw [Expr.format, Expr.format]
    split
    · exact hdisplay
    · rename_i hne
      rw [if_pos (by simpa [hne] using hv), if_pos (by simpa [hne] using hv), formatAll_eq, formatAll_eq,
        hms.map_eq fun e he _ hm => ih e he hm (hm.display_eq (elems e he))]

end Imaged

/-! ## Values with their types -/

/-- A struct at type arguments and its image are described by different texts, whatever follows. -/
theorem described_append_ne {e m : Expr} (hg : e.isGeneric = true) (h : Imaged top e m)
    (s s' : String) : e.described ++ s ≠ m.described ++ s' := by
  cases e with
  | structLit c ts es =>
    obtain ⟨-, ms, -, rfl⟩ := Imaged.structLit_iff.1 h
    have hts : ts.isEmpty = false := by simpa [Expr.isGeneric] using hg
    have hend : ')' ∈ (Ty.named c ts).render.toList := by
      cases ts with
      | nil => cases hts
      | cons t ts => simp [Ty.render, Ty.renderAll, parenthesised]
    have hname : (Ty.named (typeName c ts) []).render.toList
        = (Ty.named c ts).render.toList.flatMap nameChar := by
      rw [typeName, hts]
      simp [Ty.render, Ty.renderAll, parenthesised, nameOf]
    intro heq
    have heq := congrArg String.toList heq
    simp only [Expr.described, Expr.typeName, String.toList_append, hname, List.append_assoc] at heq
    exact append_ne_flatMap hend _ _ heq
  | _ => cases hg

/-- Other values and their images are described alike. -/
theorem described_eq {e m : Expr} (he : GroundValue e) (hg : e.isGeneric = false)
    (h : Imaged top e m) : m.described = e.described := by
  have hdisplay := h.display_eq he
  cases he with
  | lit l => rw [← Except.ok.inj h]
  | structLit c ground elems =>
    obtain ⟨-, ms, -, rfl⟩ := Imaged.structLit_iff.1 h
    obtain rfl : _ = [] := by simpa [Expr.isGeneric] using hg
    rw [Expr.described, Expr.described, hdisplay]
    rfl

/-- Under a verb that no struct fits, the texts of a value and of its image go on alike only if the value
is no struct at type arguments. -/
theorem format_append_iff {verb : Char} (hv : ¬(verb = 'v' || isElementVerb verb) = true) {e m : Expr}
    (he : GroundValue e) (h : Imaged top e m) (s s' : String) :
    e.format verb ++ s = m.format verb ++ s' ↔ e.isGeneric = false ∧ s = s' := by
  cases hg : e.isGeneric with
  | false =>
    have hdescribed := described_eq he hg h
    have hformat : m.format verb = e.format verb := by
      cases he with
      | lit l => rw [← Except.ok.inj h]
      | structLit c ground elems =>
        obtain ⟨-, ms, -, rfl⟩ := Imaged.structLit_iff.1 h
        obtain ⟨hne, helem⟩ : verb ≠ 'v' ∧ isElementVerb verb = false := by simpa using hv
        simp only [Expr.format, if_neg hne, helem, Bool.false_eq_true, if_false, Expr.misfit,
          hdescribed]
    rw [hformat, String.append_right_inj]
    simp
  | true =>
    refine iff_of_false ?_ (by simp)
    cases e with
    | structLit c ts es =>
      have hne := described_append_ne hg h
      obtain ⟨-, ms, -, rfl⟩ := Imaged.structLit_iff.1 h
      obtain ⟨hverb, helem⟩ : verb ≠ 'v' ∧ isElementVerb verb = false := by simpa using hv
      simp only [Expr.format, if_neg hverb, helem, Bool.false_eq_true, if_false, Expr.misfit,
        String.append_assoc, String.append_right_inj]
      exact hne _ _
    | _ => cases hg

/-! ## Formats -/

/-- Texts of values with their types, one after the other. -/
theorem intercalate_described {es ms : List Expr} (h : ImagedAll top es ms) (s : String)
    (heq : ", ".intercalate (es.map Expr.described) ++ s
      = ", ".intercalate (ms.map Expr.described) ++ s)
    (hes : ∀ e ∈ es, GroundValue e) : ∀ e ∈ es, e.isGeneric = false := by
  induction h with
  | nil => exact fun e he => absurd he List.not_mem_nil
  | @cons e m es ms hm hms ih =>
    obtain ⟨he, hes⟩ := List.forall_mem_cons.1 hes
    have hg : e.isGeneric = false := by
      by_contra hg
      rw [Bool.not_eq_false] at hg
      cases hms with
      | nil => exact described_append_ne hg hm s s heq
      | cons =>
        simp only [List.map_cons, String.intercalate_cons_cons, String.append_assoc] at heq
        exact described_append_ne hg hm _ _ heq
    refine List.forall_mem_cons.2 ⟨hg, ?_⟩
    cases hms with
    | nil => exact fun e he => absurd he List.not_mem_nil
    | cons =>
      refine ih ?_ hes
      simpa only [List.map_cons, String.intercalate_cons_cons, String.append_assoc,
        described_eq he hg hm, String.append_right_inj] using heq

/-- What is left over is described. -/
theorem leftOver_eq_iff {es ms : List Expr} (h : ImagedAll top es ms) (hes : ∀ e ∈ es, GroundValue e) :
    leftOver es = leftOver ms ↔ ∀ e ∈ es, e.isGeneric = false := by
  constructor
  · intro heq
    cases h with
    | nil => exact fun e he => absurd he List.not_mem_nil
    | cons hm hms =>
      rw [leftOver, leftOver, String.append_assoc, String.append_assoc, String.append_right_inj] at heq
      · exact intercalate_described (.cons hm hms) ")" heq hes
      · simp
      · simp
  · intro hg
    have hmap := h.map_eq fun e he m hm => described_eq (hes e he) (hg e he) hm
    cases h with
    | nil => rfl
    | cons =>
      rw [leftOver, leftOver, hmap]
      · simp
      · simp

/-- A format makes the same text of ground values and of their images exactly if it describes no struct
at type arguments. -/
theorem expandFormat_eq_iff {cs : List Char} {args ms : List Expr} (h : ImagedAll top args ms)
    (hargs : ∀ e ∈ args, GroundValue e) :
    expandFormat cs args = expandFormat cs ms ↔ ∀ e ∈ describedBy cs args, e.isGeneric = false := by
  induction cs, args using expandFormat.induct generalizing ms with
  | case1 args => exact leftOver_eq_iff h hargs
  | case2 args =>
    rw [expandFormat, expandFormat, String.append_right_inj]
    exact leftOver_eq_iff h hargs
  | case3 cs args ih =>
    rw [expandFormat, expandFormat, describedBy, String.append_right_inj]
    exact ih h hargs
  | case4 verb cs arg args hverb ih =>
    obtain ⟨harg, hargs⟩ := List.forall_mem_cons.1 hargs
    cases h with
    | cons hm hms =>
      rw [expandFormat.eq_4 _ _ _ _ hverb, expandFormat.eq_4 _ _ _ _ hverb, describedBy.eq_4 _ _ _ _ hverb]
      split
      · rename_i hv
        rw [hm.format_eq hv harg, String.append_right_inj]
        exact ih hms hargs
      · rename_i hv
        rw [format_append_iff hv harg hm, ih hms hargs, List.forall_mem_cons]
  | case5 verb cs hverb ih =>
    cases h
    rw [describedBy.eq_5 _ _ hverb]
    exact iff_of_true rfl ((ih .nil hargs).1 rfl)
  | case6 c cs args h₁ h₂ h₃ h₄ ih =>
    have hc : c ≠ '%' := by
      intro hc
      cases cs with
      | nil => exact h₁ hc rfl
      | cons verb cs =>
        cases args with
        | nil => exact h₄ verb cs rfl hc rfl
        | cons arg args => exact h₃ verb cs arg args rfl hc rfl
    rw [expandFormat, expandFormat, describedBy, String.append_right_inj]
    · exact ih h hargs
    all_goals simp [hc]

/-- **Formatting and ground images.** Ground values have images, and a format makes the same text of both
exactly if no argument that it describes with its type, under a verb that fits no struct or left over, is
a struct at type arguments. -/
theorem sprintf_image_iff (top format : String) {args : List Expr}
    (hargs : ∀ e ∈ args, GroundValue e) : ∃ ms, imageExprs top args = .ok ms
      ∧ (sprintf format args = sprintf format ms
        ↔ ∀ e ∈ describedBy format.toList args, e.isGeneric = false) := by
  obtain ⟨ms, hms⟩ := exists_image_all fun e he => exists_image (hargs e he)
  exact ⟨ms, imageExprs_eq_ok.2 hms, expandFormat_eq_iff hms hargs⟩

end Images

/-- A box of a number. -/
def boxed : Expr := .structLit "Box" [.prim (.typed .int32)] [.lit ⟨.int 1, .typed .int32⟩]

theorem groundValue_boxed : GroundValue boxed :=
  .structLit _ (by decide) fun _ he => List.mem_singleton.1 he ▸ .lit _

/-- A box is written without its type by `%v` and by `%d`. -/
theorem sprintf_boxed : ∃ ms, imageExprs "Top" [boxed, boxed] = .ok ms
    ∧ sprintf "%v of %d" [boxed, boxed] = sprintf "%v of %d" ms := by
  have hargs : ∀ e ∈ [boxed, boxed], GroundValue e := by simp [groundValue_boxed]
  obtain ⟨ms, hms, hiff⟩ := sprintf_image_iff "Top" "%v of %d" hargs
  exact ⟨ms, hms, hiff.2 (by decide +kernel)⟩

/-- Under `%x` it is written with its type, which has another name in the image. -/
theorem sprintf_image_ne : ∃ ms, imageExprs "Top" [boxed] = .ok ms
    ∧ sprintf "%x" [boxed] ≠ sprintf "%x" ms := by
  obtain ⟨m, hm⟩ : ∃ m, Imaged "Top" boxed m := exists_image groundValue_boxed
  have himages : ImagedAll "Top" [boxed] [m] := .cons hm .nil
  refine ⟨[m], imageExprs_eq_ok.2 himages, fun heq => ?_⟩
  have hg := (expandFormat_eq_iff himages (by simp [groundValue_boxed])).1 heq
  exact absurd (hg boxed (by simp [describedBy, isElementVerb])) (by decide)

end Ground

end FeatherGo
