import FeatherGo.Command.Digest
import FeatherGo.Proofs.Expressions.Types
import FeatherGo.Proofs.Ground.Images
import FeatherGo.Proofs.Types.Ground

/-!
# Which types and expressions have an image

Ground types and expressions have images (`Ground.exists_imageTy`, `Ground.exists_imageExpr`). The converse
needs more than the image: an embedded interface and a signature with formals are named without a look at
what is free in them (`Ty.untested`), so that a type has an image that is open only there. A type is ground
if it has an image and these types inside it are ground, and an expression writes ground types if it has an
image and they are ground in its types (`Ground.isGround_iff_image`).
-/

namespace FeatherGo

/-! ## What images are taken of without a test -/

mutual

/-- The types inside a type that its image is made from without a test: embedded interfaces, and
signatures with formals, each in an interface of its own. -/
def Ty.untested : Ty → List Ty
  | .struct fs => Slot.untestedAll fs
  | .interface ms => Member.untestedAll ms
  | .param _ | .named _ _ | .prim _ | .var _ => []

/-- Such types in some slots. -/
def Slot.untestedAll : List Slot → List Ty
  | [] => []
  | ⟨_, t⟩ :: fs => t.untested ++ Slot.untestedAll fs

/-- Such types in some interface members. -/
def Member.untestedAll : List Member → List Ty
  | [] => []
  | .method ⟨m, fs, ps, r⟩ :: ms =>
    (if fs.isEmpty then Slot.untestedAll ps ++ r.untested else [Signature.alone ⟨m, fs, ps, r⟩])
      ++ Member.untestedAll ms
  | .embed c args :: ms => .named c args :: Member.untestedAll ms

end

/-- Such types in an interface member. -/
def Member.untested : Member → List Ty
  | .method s => if s.formals.isEmpty then s.types.flatMap Ty.untested else [s.alone]
  | .embed c args => [.named c args]

theorem Slot.untestedAll_eq (fs : List Slot) :
    Slot.untestedAll fs = fs.flatMap fun f => f.ty.untested := by
  induction fs with
  | nil => rfl
  | cons f fs ih =>
    obtain ⟨x, t⟩ := f
    rw [Slot.untestedAll, ih, List.flatMap_cons]

theorem Member.untestedAll_eq (ms : List Member) :
    Member.untestedAll ms = ms.flatMap Member.untested := by
  induction ms with
  | nil => rfl
  | cons m ms ih =>
    cases m with
    | method s =>
      obtain ⟨x, fs, ps, r⟩ := s
      rw [Member.untestedAll, ih, List.flatMap_cons, Member.untested, Slot.untestedAll_eq]
      cases fs with
      | nil => simp [Signature.types, List.flatMap_map]
      | cons f fs => rfl
    | embed c args => rw [Member.untestedAll, ih, List.flatMap_cons, Member.untested]; rfl

theorem Ty.forall_untested_struct {fs : List Slot} {P : Ty → Prop} :
    (∀ u ∈ (Ty.struct fs).untested, P u) ↔ ∀ f ∈ fs, ∀ u ∈ f.ty.untested, P u := by
  rw [Ty.untested, Slot.untestedAll_eq, List.forall_mem_flatMap]

theorem Ty.forall_untested_interface {ms : List Member} {P : Ty → Prop} :
    (∀ u ∈ (Ty.interface ms).untested, P u) ↔ ∀ m ∈ ms, ∀ u ∈ m.untested, P u := by
  rw [Ty.untested, Member.untestedAll_eq, List.forall_mem_flatMap]

namespace Ground

section Images

variable [Digest] {top : String}

/-! ## Images of types -/

/-- A type has an image. -/
def HasImage (top : String) (t : Ty) : Prop := ∃ u, imageTy top t = .ok u

/-- A member has an image: a signature without formals if its types do, any other always. -/
def MemberHasImage (top : String) : Member → Prop
  | .method s => s.formals = [] → ∀ t ∈ s.types, HasImage top t
  | .embed _ _ => True

theorem exists_imageSlots {fs : List Slot} :
    (∃ fs', imageSlots top fs = .ok fs') ↔ ∀ f ∈ fs, HasImage top f.ty := by
  induction fs with
  | nil => exact iff_of_true ⟨[], rfl⟩ (List.forall_mem_nil _)
  | cons f fs ih =>
    obtain ⟨x, t⟩ := f
    rw [List.forall_mem_cons, ← ih]
    simp only [imageSlots, except_bind_eq_ok]
    constructor
    · rintro ⟨_, t', ht', fs', hfs', -⟩
      exact ⟨⟨t', ht'⟩, fs', hfs'⟩
    · rintro ⟨⟨t', ht'⟩, fs', hfs'⟩
      exact ⟨_, t', ht', fs', hfs', rfl⟩

theorem exists_imageMembers {ms : List Member} :
    (∃ ms', imageMembers top ms = .ok ms') ↔ ∀ m ∈ ms, MemberHasImage top m := by
  induction ms with
  | nil => exact iff_of_true ⟨[], rfl⟩ (List.forall_mem_nil _)
  | cons m ms ih =>
    rw [List.forall_mem_cons, ← ih]
    cases m with
    | embed c args =>
      simp only [imageMembers, except_bind_eq_ok, MemberHasImage, true_and]
      constructor
      · rintro ⟨_, ms', hms', -⟩
        exact ⟨ms', hms'⟩
      · rintro ⟨ms', hms'⟩
        exact ⟨_, ms', hms', rfl⟩
    | method s =>
      obtain ⟨x, fs, ps, r⟩ := s
      cases fs with
      | nil =>
        have htypes : (∀ t ∈ (Signature.mk x [] ps r).types, HasImage top t)
            ↔ (∀ p ∈ ps, HasImage top p.ty) ∧ HasImage top r := by
          rw [Signature.forall_types]
          simp
        simp only [imageMembers, List.isEmpty_nil, if_true, except_bind_eq_ok, MemberHasImage,
          forall_true_left, htypes, ← exists_imageSlots]
        constructor
        · rintro ⟨_, ps', hps', r', hr', _, -, ms', hms', -⟩
          exact ⟨⟨⟨ps', hps'⟩, r', hr'⟩, ms', hms'⟩
        · rintro ⟨⟨⟨ps', hps'⟩, r', hr'⟩, ms', hms'⟩
          exact ⟨_, ps', hps', r', hr', _, rfl, ms', hms', rfl⟩
      | cons f fs =>
        simp only [imageMembers, List.isEmpty_cons, Bool.false_eq_true, if_false, except_bind_eq_ok,
          MemberHasImage, reduceCtorEq, false_implies, true_and]
        constructor
        · rintro ⟨_, _, -, ms', hms', -⟩
          exact ⟨ms', hms'⟩
        · rintro ⟨ms', hms'⟩
          exact ⟨_, _, rfl, ms', hms', rfl⟩

theorem hasImage_struct {fs : List Slot} :
    HasImage top (.struct fs) ↔ ∀ f ∈ fs, HasImage top f.ty := by
  rw [← exists_imageSlots]
  simp only [HasImage, imageTy, except_bind_eq_ok]
  constructor
  · rintro ⟨_, fs', hfs', -⟩
    exact ⟨fs', hfs'⟩
  · rintro ⟨fs', hfs'⟩
    exact ⟨_, fs', hfs', rfl⟩

theorem hasImage_interface {ms : List Member} :
    HasImage top (.interface ms) ↔ ∀ m ∈ ms, MemberHasImage top m := by
  rw [← exists_imageMembers]
  simp only [HasImage, imageTy, except_bind_eq_ok]
  constructor
  · rintro ⟨_, ms', hms', -⟩
    exact ⟨ms', hms'⟩
  · rintro ⟨ms', hms'⟩
    exact ⟨_, ms', hms', rfl⟩

theorem hasImage_named {c : String} {args : List Ty} :
    HasImage top (.named c args) ↔ (Ty.named c args).isGround = true := by
  rw [HasImage, imageTy]
  split
  · exact iff_of_true ⟨_, rfl⟩ ‹_›
  · refine iff_of_false ?_ ‹_›
    rintro ⟨_, h⟩
    cases h

/-- **A type is ground** if it has an image and what that takes without a test is ground. -/
theorem isGround_iff_hasImage (top : String) (t : Ty) : t.isGround = true
    ↔ HasImage top t ∧ ∀ u ∈ t.untested, u.isGround = true := by
  induction t using Ty.induction with
  | param p =>
    refine iff_of_false (by simp [Ty.isGround, Ty.freeParams]) ?_
    rintro ⟨⟨_, h⟩, -⟩
    cases h
  | var n =>
    refine iff_of_false (by simp [Ty.isGround, Ty.hasVars, Ty.preorder]) ?_
    rintro ⟨⟨_, h⟩, -⟩
    cases h
  | prim p => exact iff_of_true rfl ⟨⟨_, rfl⟩, List.forall_mem_nil _⟩
  | named c args => rw [hasImage_named, Ty.untested, and_iff_left (List.forall_mem_nil _)]
  | struct fs ih =>
    rw [Ty.isGround_struct, hasImage_struct, Ty.forall_untested_struct]
    exact (forall₂_congr ih).trans forall₂_and
  | interface ms ih =>
    rw [Ty.isGround_interface, hasImage_interface, Ty.forall_untested_interface]
    refine (forall₂_congr fun m hm => ?_).trans forall₂_and
    cases m with
    | embed c args =>
      rw [Member.ground_embed, Member.untested, List.forall_mem_singleton]
      exact (and_iff_right trivial).symm
    | method s =>
      by_cases hs : s.formals = []
      · rw [Member.ground_method hs, Member.untested, if_pos (by simp [hs]), List.forall_mem_flatMap,
          MemberHasImage, imp_iff_right hs]
        exact (forall₂_congr (ih _ hm)).trans forall₂_and
      · rw [Member.untested, if_neg (by simpa using hs), List.forall_mem_singleton,
          Signature.isGround_alone]
        exact (and_iff_right fun h => absurd h hs).symm

/-- Ground types have images. -/
theorem exists_imageTy (top : String) {t : Ty} (h : t.isGround = true) : HasImage top t :=
  ((isGround_iff_hasImage top t).1 h).1

/-! ## Images of expressions -/

theorem exists_imagedAll {es : List Expr} :
    (∃ ms, ImagedAll top es ms) ↔ ∀ e ∈ es, ∃ m, Imaged top e m := by
  induction es with
  | nil => exact iff_of_true ⟨[], .nil⟩ (List.forall_mem_nil _)
  | cons e es ih =>
    rw [List.forall_mem_cons, ← ih]
    constructor
    · rintro ⟨_, h⟩
      cases h with
      | cons hm hms => exact ⟨⟨_, hm⟩, _, hms⟩
    · rintro ⟨⟨m, hm⟩, ms, hms⟩
      exact ⟨_, .cons hm hms⟩

theorem exists_imaged_structLit {c : String} {ts : List Ty} {es : List Expr} :
    (∃ m, Imaged top (.structLit c ts es) m)
      ↔ (∀ t ∈ ts, t.isGround = true) ∧ ∃ ms, ImagedAll top es ms := by
  simp only [Imaged.structLit_iff, List.all_eq_true]
  grind

theorem exists_imaged_select {e : Expr} {f : String} :
    (∃ m, Imaged top (.select e f) m) ↔ ∃ m, Imaged top e m := by
  simp only [Imaged.select_iff]
  grind

theorem exists_imaged_call {e : Expr} {name : String} {ts : List Ty} {es : List Expr} :
    (∃ m, Imaged top (.call e name ts es) m)
      ↔ (∀ t ∈ ts, t.isGround = true) ∧ (∃ m, Imaged top e m) ∧ ∃ ms, ImagedAll top es ms := by
  simp only [Imaged.call_iff, List.all_eq_true]
  grind

theorem exists_imaged_assert {e : Expr} {t : Ty} :
    (∃ m, Imaged top (.assert e t) m) ↔ (∃ m, Imaged top e m) ∧ HasImage top t := by
  simp only [Imaged.assert_iff, HasImage]
  grind

theorem exists_imaged_sprintf {s : String} {es : List Expr} :
    (∃ m, Imaged top (.sprintf s es) m) ↔ ∃ ms, ImagedAll top es ms := by
  simp only [Imaged.sprintf_iff]
  grind

theorem exists_imaged_binary {op : Operator} {l r : Expr} :
    (∃ m, Imaged top (.binary op l r) m) ↔ (∃ m, Imaged top l m) ∧ ∃ m, Imaged top r m := by
  simp only [Imaged.binary_iff]
  grind

theorem exists_imaged_convert {k : Kind} {e : Expr} :
    (∃ m, Imaged top (.convert k e) m) ↔ ∃ m, Imaged top e m := by
  simp only [Imaged.convert_iff]
  grind

/-- **The types that an expression writes are ground** if it has an image and what that takes of them
without a test is ground. -/
theorem types_isGround_iff_imaged (top : String) (e : Expr) : (∀ t ∈ e.types, t.isGround = true)
    ↔ (∃ m, Imaged top e m) ∧ ∀ t ∈ e.types, ∀ u ∈ t.untested, u.isGround = true := by
  have hall {es : List Expr} (ih : ∀ e ∈ es, (∀ t ∈ e.types, t.isGround = true)
        ↔ (∃ m, Imaged top e m) ∧ ∀ t ∈ e.types, ∀ u ∈ t.untested, u.isGround = true) :
      (∀ t ∈ Expr.typesAll es, t.isGround = true) ↔ (∃ ms, ImagedAll top es ms)
        ∧ ∀ t ∈ Expr.typesAll es, ∀ u ∈ t.untested, u.isGround = true := by
    rw [Expr.typesAll_eq, List.forall_mem_flatMap, List.forall_mem_flatMap, exists_imagedAll]
    exact (forall₂_congr ih).trans forall₂_and
  induction e using Expr.induction with
  | var x => exact iff_of_true (List.forall_mem_nil _) ⟨⟨_, .var x⟩, List.forall_mem_nil _⟩
  | lit l => exact iff_of_true (List.forall_mem_nil _) ⟨⟨_, .lit l⟩, List.forall_mem_nil _⟩
  | structLit c ts es ih =>
    rw [Expr.types, List.forall_mem_cons, List.forall_mem_cons, hall ih, exists_imaged_structLit,
      Ty.isGround_named, and_assoc]
    exact and_congr_right' (and_congr_right' (and_iff_right (List.forall_mem_nil _)).symm)
  | select e f ih =>
    rw [exists_imaged_select]
    exact ih
  | call e m ts es ih ihs =>
    -- Type arguments are tested whole, so nothing that they write is left to ask for.
    have hts (h : ∀ t ∈ ts, t.isGround = true) : ∀ t ∈ ts, ∀ u ∈ t.untested, u.isGround = true :=
      fun t ht => ((isGround_iff_hasImage top t).1 (h t ht)).2
    simp only [Expr.types, List.forall_mem_append, hall ihs, ih, exists_imaged_call]
    tauto
  | assert e t ih =>
    simp only [Expr.types, List.forall_mem_append, List.forall_mem_singleton, exists_imaged_assert]
    exact (and_congr ih (isGround_iff_hasImage top t)).trans and_and_and_comm
  | sprintf s es ih =>
    rw [Expr.types, hall ih, exists_imaged_sprintf]
  | binary op l r ihl ihr =>
    simp only [Expr.types, List.forall_mem_append, exists_imaged_binary]
    exact (and_congr ihl ihr).trans and_and_and_comm
  | convert k e ih =>
    rw [exists_imaged_convert]
    exact ih

/-- Expressions that write ground types have images. -/
theorem exists_imageExpr (top : String) {e : Expr} (h : ∀ t ∈ e.types, t.isGround = true) :
    ∃ m, imageExpr top e = .ok m :=
  ((types_isGround_iff_imaged top e).1 h).1

/-- **A type or an expression is ground just if it has an image and what that takes of types without a
test is ground.** An expression is ground if the types that it writes are. -/
theorem isGround_iff_image (top : String) :
    (∀ t : Ty, t.isGround = true
        ↔ (∃ u, imageTy top t = .ok u) ∧ ∀ u ∈ t.untested, u.isGround = true)
      ∧ ∀ e : Expr, (∀ t ∈ e.types, t.isGround = true)
        ↔ (∃ m, imageExpr top e = .ok m) ∧ ∀ t ∈ e.types, ∀ u ∈ t.untested, u.isGround = true :=
  ⟨isGround_iff_hasImage top, types_isGround_iff_imaged top⟩

end Images

/-- An interface that embeds an open one has an image and is open. -/
theorem image_of_open :
    let t : Ty := .interface [.embed "Box" [.param "a"]]
    (∃ u, imageTy topName t = .ok u) ∧ t.isGround = false :=
  ⟨⟨_, rfl⟩, by decide⟩

end Ground

end FeatherGo
