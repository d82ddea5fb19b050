import FeatherGo.Proofs.Types.Parts
import FeatherGo.Ty.Render
import Mathlib.Data.List.Infix

/-!
# The texts of types

The text of a type is put together from the texts of its parts and from names, so it holds them all
(`Ty.within_of_mem_parts`).
-/

namespace FeatherGo

/-- A text is within another one. -/
def Text.Within (s text : String) : Prop := s.toList <:+: text.toList

open Text (Within)

namespace Text.Within

variable {s a b : String}

theorem refl (s : String) : Within s s := List.infix_rfl

theorem trans {t : String} (h : Within s t) (h' : Within t a) : Within s a := List.IsInfix.trans h h'

theorem left (h : Within s a) (b : String) : Within s (a ++ b) := by
  rw [Within, String.toList_append]
  exact List.IsInfix.trans h (List.infix_append' [] _ _)

theorem right (h : Within s b) (a : String) : Within s (a ++ b) := by
  rw [Within, String.toList_append]
  exact List.IsInfix.trans h (List.suffix_append _ _).isInfix

theorem intercalate {items : List String} (h : s ∈ items) (sep : String) :
    Within s (sep.intercalate items) := by
  induction items with
  | nil => exact absurd h List.not_mem_nil
  | cons x items ih =>
    cases items with
    | nil =>
      obtain rfl := List.mem_singleton.1 h
      rw [String.intercalate_singleton]
      exact .refl s
    | cons y items =>
      rw [String.intercalate_cons_cons]
      rcases List.mem_cons.1 h with rfl | h
      · exact ((refl s).left sep).left _
      · exact (ih h).right _

theorem parenthesised {items : List String} (h : s ∈ items) : Within s (parenthesised items) := by
  cases items with
  | nil => exact absurd h List.not_mem_nil
  | cons x items => exact ((intercalate h ", ").right "(").left ")"

theorem block {items : List String} (h : s ∈ items) (keyword : String) :
    Within s (block keyword items) := by
  cases items with
  | nil => exact absurd h List.not_mem_nil
  | cons x items => exact ((intercalate h "; ").right (keyword ++ " \x7b ")).left " \x7d"

theorem join {items : List String} (h : s ∈ items) : Within s (String.join items) := by
  rw [Within, String.toList_join]
  exact List.infix_of_mem_flatten (List.mem_map_of_mem h)

end Text.Within

/-! ## Types -/

theorem Ty.renderAll_eq (ts : List Ty) : Ty.renderAll ts = ts.map Ty.render := by
  induction ts with
  | nil => rfl
  | cons t ts ih => rw [Ty.renderAll, ih, List.map_cons]

theorem Slot.renderAll_eq (fs : List Slot) : Slot.renderAll fs = fs.map Slot.render := by
  induction fs with
  | nil => rfl
  | cons f fs ih =>
    obtain ⟨x, t⟩ := f
    rw [Slot.renderAll, ih, List.map_cons, Slot.render]

theorem Member.renderAll_eq (ms : List Member) : Member.renderAll ms = ms.map Member.render := by
  induction ms with
  | nil => rfl
  | cons m ms ih =>
    cases m with
    | method s =>
      obtain ⟨x, fs, ps, r⟩ := s
      rw [Member.renderAll, ih, List.map_cons, Member.render, Signature.render]
    | embed c args => rw [Member.renderAll, ih, List.map_cons, Member.render, Ty.render]

theorem Ty.mem_renderAll {ts : List Ty} {s : String} :
    s ∈ Ty.renderAll ts ↔ ∃ t ∈ ts, t.render = s := by
  rw [renderAll_eq, List.mem_map]

theorem Slot.mem_renderAll {fs : List Slot} {s : String} :
    s ∈ Slot.renderAll fs ↔ ∃ f ∈ fs, f.render = s := by
  rw [renderAll_eq, List.mem_map]

theorem Member.mem_renderAll {ms : List Member} {s : String} :
    s ∈ Member.renderAll ms ↔ ∃ m ∈ ms, m.render = s := by
  rw [renderAll_eq, List.mem_map]

theorem Slot.within (f : Slot) : Within f.ty.render f.render := (Within.refl _).right _

theorem Slot.within_renderAll {f : Slot} {fs : List Slot} (hf : f ∈ fs) {text : String}
    (h : ∀ s ∈ Slot.renderAll fs, Within s text) : Within f.ty.render text :=
  f.within.trans (h _ (Slot.mem_renderAll.2 ⟨f, hf, rfl⟩))

/-- The name of a signature and its types are within its text. -/
theorem Signature.within_name (s : Signature) : Within s.name s.render :=
  (((((Within.refl s.name).left _).left _).left _).left _).left _

theorem Signature.within {s : Signature} {t : Ty} (ht : t ∈ s.types) : Within t.render s.render := by
  rw [Signature.types, List.mem_append, List.mem_append] at ht
  rcases ht with (ht | ht) | ht
  · obtain ⟨f, hf, rfl⟩ := List.mem_map.1 ht
    refine Slot.within_renderAll hf fun x hx => ?_
    exact (((((Within.parenthesised hx).right _).left _).left _).left _).left _
  · obtain ⟨f, hf, rfl⟩ := List.mem_map.1 ht
    refine Slot.within_renderAll hf fun x hx => ?_
    exact (((Within.intercalate hx _).right _).left _).left _
  · rw [List.mem_singleton.1 ht]
    exact (Within.refl _).right _

theorem Ty.within_name (c : String) (args : List Ty) : Within c (Ty.named c args).render := by
  rw [Ty.render]
  exact (Within.refl c).left _

theorem Member.within_interface {m : Member} {ms : List Member} (hm : m ∈ ms) :
    Within m.render (Ty.interface ms).render := by
  rw [Ty.render]
  exact Within.block (Member.mem_renderAll.2 ⟨m, hm, rfl⟩) _

/-- **The text of a type holds the texts of its parts.** -/
theorem Ty.within_of_mem_parts {t a : Ty} (h : a ∈ t.parts) : Within a.render t.render := by
  have hargs {c : String} {args : List Ty} (h : a ∈ args) : Within a.render (Ty.named c args).render := by
    rw [Ty.render]
    exact (Within.parenthesised (Ty.mem_renderAll.2 ⟨a, h, rfl⟩)).right c
  cases t with
  | named c args => exact hargs h
  | struct fs =>
    obtain ⟨f, hf, rfl⟩ := List.mem_map.1 h
    rw [Ty.render]
    exact Slot.within_renderAll hf fun x hx => Within.block hx _
  | interface ms =>
    obtain ⟨m, hm, ha⟩ := List.mem_flatMap.1 h
    refine Within.trans ?_ (Member.within_interface hm)
    cases m with
    | method s => exact Signature.within ha
    | embed c args => exact hargs ha
  | _ => cases h

end FeatherGo
