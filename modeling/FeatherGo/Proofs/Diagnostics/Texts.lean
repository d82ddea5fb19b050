import FeatherGo.Proofs.Expressions.Types
import FeatherGo.Proofs.Types.Texts
import FeatherGo.Typing.Diagnostic

/-!
# Texts within the text of a program

What a program is made of has its text within the text of the program: its expressions
(`Program.Part.within`), the types that it writes (`Program.Writes.within`), and the names at their heads.
The search for a text finds it where it is within another one, and marks it there
(`Diagnostic.exists_span`).
-/

namespace FeatherGo

open Text (Within)

/-! ## Expressions -/

namespace Expr

theorem renderAll_eq (es : List Expr) : renderAll es = es.map render := by
  induction es with
  | nil => rfl
  | cons e es ih => rw [renderAll, ih, List.map_cons]

theorem within_operand (e : Expr) (text : String) : Within text (e.operand text) := by
  cases e with
  | binary op l r => exact ((Within.refl text).right _).left _
  | _ => exact .refl text

theorem within_structLit (c : String) (ts : List Ty) (es : List Expr) :
    Within (Ty.named c ts).render (structLit c ts es).render := by
  rw [render]
  exact (((Within.refl _).left _).left _).left _

theorem within_call (e : Expr) (m : String) (ts : List Ty) (es : List Expr) :
    Within m (call e m ts es).render := by
  rw [render]
  exact (((((Within.refl m).right _).left _).left _).left _).left _

theorem within_select (e : Expr) (f : String) : Within f (select e f).render := by
  rw [render]
  exact (Within.refl f).right _

theorem within_lit (l : Literal) : Within l.payload.render (lit l).render := by
  rw [render, Literal.render]
  split
  · exact .refl _
  · exact ((Within.refl _).right _).left _

/-- **The text of an expression holds the texts of its parts.** -/
theorem within_of_mem_children {e a : Expr} (h : a ∈ e.children) : Within a.render e.render := by
  have hall {es : List Expr} (h : a ∈ es) : a.render ∈ renderAll es := by
    rw [renderAll_eq]
    exact List.mem_map_of_mem h
  cases e with
  | structLit c ts es =>
    rw [render]
    exact ((Within.intercalate (hall h) _).right _).left _
  | select e f =>
    rw [List.mem_singleton.1 h, render]
    exact ((Within.refl _).left _).left _
  | call e m ts es =>
    rw [render]
    rcases List.mem_cons.1 h with rfl | h
    · exact ((((((Within.refl _).left _).left _).left _).left _).left _).left _
    · exact ((Within.intercalate (hall h) _).right _).left _
  | assert e t =>
    rw [List.mem_singleton.1 h, render]
    exact (((Within.refl _).left _).left _).left _
  | sprintf s es =>
    rw [render]
    exact ((Within.intercalate (List.mem_cons_of_mem _ (hall h)) _).right _).left _
  | binary op l r =>
    rw [render]
    rcases List.mem_cons.1 h with rfl | h
    · exact ((((within_operand _ _).left _).left _).left _).left _
    · rw [List.mem_singleton.1 h]
      exact (within_operand _ _).right _
  | convert k e =>
    rw [List.mem_singleton.1 h, render]
    exact ((Within.refl _).right _).left _
  | _ => cases h

theorem within_of_mem_headTypes {e : Expr} {t : Ty} (h : t ∈ e.headTypes) :
    Within t.render e.render := by
  cases e with
  | structLit c ts es => exact List.mem_singleton.1 h ▸ within_structLit c ts es
  | call e m ts es =>
    rw [render]
    have hts := Within.parenthesised (Ty.mem_renderAll.2 ⟨t, h, rfl⟩)
    exact (((hts.right _).left _).left _).left _
  | assert e u =>
    rw [List.mem_singleton.1 h, render]
    exact ((Within.refl _).right _).left _
  | _ => cases h

end Expr

/-! ## Programs -/

theorem TypeDecl.within_name (td : TypeDecl) : Within td.name td.render :=
  ((((Within.refl td.name).right _).left _).left _).left _

theorem TypeDecl.within_source (td : TypeDecl) : Within td.source.render td.render :=
  (Within.refl _).right _

theorem TypeDecl.within_formal (td : TypeDecl) {f : Slot} (hf : f ∈ td.formals) :
    Within f.ty.render td.render :=
  Slot.within_renderAll hf fun _ hx => (((Within.parenthesised hx).right _).left _).left _

theorem MethodDecl.within_body (md : MethodDecl) : Within md.body.render md.render :=
  ((Within.refl _).right _).left _

theorem MethodDecl.within_sig (md : MethodDecl) : Within md.sig.render md.render :=
  ((((Within.refl _).right _).left _).left _).left _

theorem MethodDecl.within_recvType (md : MethodDecl) : Within md.recvType md.render :=
  (((((((Within.refl md.recvType).right _).left _).left _).left _).left _).left _).left _

theorem MethodDecl.within_formal (md : MethodDecl) {f : Slot} (hf : f ∈ md.recvFormals) :
    Within f.ty.render md.render :=
  Slot.within_renderAll hf fun _ hx =>
    ((((((Within.parenthesised hx).right _).left _).left _).left _).left _).left _

namespace Program

variable {p : Program}

/-- The expressions that a program is made of. -/
inductive Part (p : Program) : Expr → Prop
  | main : Part p p.main
  | body {md : MethodDecl} (declared : .method md ∈ p.decls) : Part p md.body
  | child {e a : Expr} (whole : Part p e) (part : a ∈ e.children) : Part p a

/-- The types that a program writes. -/
inductive Writes (p : Program) : Ty → Prop
  | expr {e : Expr} {t : Ty} (expr : p.Part e) (head : t ∈ e.headTypes) : Writes p t
  | source {td : TypeDecl} (declared : .type td ∈ p.decls) : Writes p td.source
  | formal {td : TypeDecl} {f : Slot} (declared : .type td ∈ p.decls) (formal : f ∈ td.formals) :
    Writes p f.ty
  | receiver {md : MethodDecl} {f : Slot} (declared : .method md ∈ p.decls)
      (formal : f ∈ md.recvFormals) : Writes p f.ty
  | signature {md : MethodDecl} {t : Ty} (declared : .method md ∈ p.decls) (type : t ∈ md.sig.types) :
    Writes p t
  | part {t a : Ty} (whole : Writes p t) (part : a ∈ t.parts) : Writes p a
  | embed {ms : List Member} {c : String} {args : List Ty} (whole : Writes p (.interface ms))
      (embedded : .embed c args ∈ ms) : Writes p (.named c args)

theorem within_main (p : Program) : Within p.main.render p.render := by
  refine Within.right ?_ _
  split
  · exact ((Within.refl _).right _).left _
  · exact ((Within.refl _).right _).left _

theorem within_decl {d : Decl} (hd : d ∈ p.decls) : Within d.render p.render := by
  have hline : Within d.render (d.render ++ ";\n") := (Within.refl _).left _
  have hjoin : Within (d.render ++ ";\n") (String.join (p.decls.map fun d => d.render ++ ";\n")) :=
    Within.join (List.mem_map_of_mem (f := fun d => d.render ++ ";\n") hd)
  exact ((hline.trans hjoin).right _).left _

theorem within_type {td : TypeDecl} (h : .type td ∈ p.decls) : Within td.render p.render := by
  simpa only [Decl.render] using within_decl h

theorem within_method {md : MethodDecl} (h : .method md ∈ p.decls) : Within md.render p.render := by
  simpa only [Decl.render] using within_decl h

theorem Part.within {e : Expr} (h : p.Part e) : Within e.render p.render := by
  induction h with
  | main => exact p.within_main
  | @body md declared => exact md.within_body.trans (within_method declared)
  | child _ part ih => exact (Expr.within_of_mem_children part).trans ih

/-- **A type that a program writes has its text within the text of the program.** -/
theorem Writes.within {t : Ty} (h : p.Writes t) : Within t.render p.render := by
  induction h with
  | expr expr head => exact (Expr.within_of_mem_headTypes head).trans expr.within
  | @source td declared => exact td.within_source.trans (within_type declared)
  | @formal td f declared formal => exact (td.within_formal formal).trans (within_type declared)
  | @receiver md f declared formal => exact (md.within_formal formal).trans (within_method declared)
  | @signature md t declared type =>
    exact ((Signature.within type).trans md.within_sig).trans (within_method declared)
  | part _ part ih => exact (Ty.within_of_mem_parts part).trans ih
  | embed _ embedded ih => exact (Member.within_interface embedded).trans ih

/-- A text that an expression or a type of the program has as it is written. -/
def Spells (p : Program) (s : String) : Prop :=
  (∃ e, p.Part e ∧ e.render = s) ∨ ∃ t, p.Writes t ∧ t.render = s

theorem Spells.within {s : String} (h : p.Spells s) : Within s p.render := by
  rcases h with ⟨e, he, rfl⟩ | ⟨t, ht, rfl⟩
  · exact he.within
  · exact ht.within

theorem Part.writes {e : Expr} (h : p.Part e) {t : Ty} (ht : t ∈ e.types) : p.Writes t := by
  induction e using Expr.induction_children with
  | step e ih =>
    rcases Expr.mem_types_iff.1 ht with ht | ⟨a, ha, ht⟩
    · exact .expr h ht
    · exact ih a ha (h.child ha) ht

theorem Writes.preorder {t u : Ty} (h : p.Writes t) (hu : u ∈ t.preorder) : p.Writes u := by
  induction t using Ty.induction_parts with
  | step t ih =>
    rcases Ty.mem_preorder.1 hu with rfl | ⟨a, ha, hu⟩
    · exact h
    · exact ih a ha (h.part ha) hu

end Program

/-! ## The mark of a diagnostic -/

namespace Diagnostic

/-- How many bytes some characters take. -/
def bytes (cs : List Char) : Nat := (cs.map Char.utf8Size).sum

theorem utf8ByteSize_eq (s : String) : s.utf8ByteSize = bytes s.toList := by
  rw [← String.ofList_toList (s := s)]
  generalize s.toList = cs
  induction cs with
  | nil => rfl
  | cons c cs ih => simp_all [String.ofList_cons, bytes]

/-- A text stands in another one with these characters before and after it, and nowhere earlier. -/
structure First (term source before after : List Char) : Prop where
  source_eq : source = before ++ term ++ after
  le : ∀ before' after', source = before' ++ term ++ after' → before.length ≤ before'.length

/-- The search finds a text where it stands first within another one. -/
theorem exists_byteOffset {term source : List Char} (h : term <:+: source) :
    ∃ before after, First term source before after ∧ byteOffset term source = some (bytes before) := by
  induction source with
  | nil =>
    obtain rfl := List.infix_nil.1 h
    exact ⟨[], [], ⟨rfl, fun _ _ _ => Nat.zero_le _⟩, rfl⟩
  | cons c source ih =>
    rw [byteOffset]
    split
    · rename_i hprefix
      obtain ⟨after, hafter⟩ := List.isPrefixOf_iff_prefix.1 hprefix
      exact ⟨[], after, ⟨hafter.symm, fun _ _ _ => Nat.zero_le _⟩, rfl⟩
    · rename_i hprefix
      rw [List.isPrefixOf_iff_prefix] at hprefix
      obtain ⟨before, after, hfirst, hoffset⟩ := ih ((List.infix_cons_iff.1 h).resolve_left hprefix)
      refine ⟨c :: before, after, ⟨by rw [hfirst.source_eq]; rfl, fun before' after' h' => ?_⟩, ?_⟩
      · cases before' with
        | nil => exact absurd ⟨after', h'.symm⟩ hprefix
        | cons c' before' => exact Nat.succ_le_succ (hfirst.le before' after' (List.cons.inj h').2)
      · rw [hoffset, Option.map_some, bytes, bytes, List.map_cons, List.sum_cons, Nat.add_comm]

/-- **The mark covers the term of an error**, where the term is within the text. -/
theorem exists_span {source s : String} {e : TypeError} (hterm : e.term = some s) (hne : s ≠ "")
    (h : Within s source) :
    ∃ before after, First s.toList source.toList before after
      ∧ span source e = (bytes before, bytes before + bytes s.toList) := by
  obtain ⟨before, after, hfirst, hoffset⟩ := exists_byteOffset h
  refine ⟨before, after, hfirst, ?_⟩
  have hempty : s.isEmpty = false := by simpa using hne
  simp only [span, hterm, hempty, hoffset, utf8ByteSize_eq]
  rfl

theorem bytes_eq_length {cs : List Char} (h : ∀ c ∈ cs, c.utf8Size = 1) : bytes cs = cs.length := by
  rw [bytes, List.map_congr_left h, List.map_const', List.sum_replicate_nat, Nat.mul_one]

/-- The mark is drawn where it starts, when all characters take one byte. -/
theorem position_eq {source : String} {before term after : List Char} {e : TypeError}
    (hsource : source.toList = before ++ term ++ after)
    (hspan : span source e = (bytes before, bytes before + bytes term))
    (hone : ∀ c ∈ source.toList, c.utf8Size = 1) :
    (e.report source).position = some (lineColumn source.toList before.length) := by
  have hbefore : bytes before = before.length := bytes_eq_length fun c hc => hone c (by simp [hsource, hc])
  have hterm : bytes term = term.length := bytes_eq_length fun c hc => hone c (by simp [hsource, hc])
  have hlength : source.length = before.length + term.length + after.length := by
    rw [← String.length_toList, hsource, List.length_append, List.length_append]
  have hdrawn : before.length ≤ source.length ∧ (before.length + term.length ≤ before.length
      ∨ before.length + term.length - 1 ≤ source.length) := by omega
  simp only [TypeError.report, hspan, hbefore, hterm, if_pos hdrawn]

end Diagnostic

end FeatherGo
