import FeatherGo.Proofs.Expressions.Types
import FeatherGo.Proofs.Types.Everywhere
import FeatherGo.Proofs.Types.Fit
import FeatherGo.Typing.Declaration

/-!
# Guarded types

Checking a signature extends the context by its formals, so what is to hold of every bound in a context
has to hold of the bounds of every signature that is nested in a type. A type is guarded by a property
if it does (`Ty.Guarded`), and a declaration if the types that it writes are.
-/

namespace FeatherGo

/-- The bounds of all signatures nested in a type are of a certain form. -/
def Ty.Guarded (P : Ty → Prop) (t : Ty) : Prop :=
  t.Everywhere fun u => ∀ s, .method s ∈ u.members → ∀ f ∈ s.formals, P f.ty

namespace Ty.Guarded

variable {P : Ty → Prop}

theorem of_forall (h : ∀ t, P t) (t : Ty) : t.Guarded P := fun _ _ _ _ _ _ => h _

theorem of_mem_parts {t a : Ty} (h : t.Guarded P) (ha : a ∈ t.parts) : a.Guarded P :=
  Everywhere.of_mem_parts h ha

theorem args {c : String} {args : List Ty} (h : (Ty.named c args).Guarded P) :
    ∀ a ∈ args, a.Guarded P := fun _ ha => h.of_mem_parts ha

theorem fields {fs : List Slot} (h : (Ty.struct fs).Guarded P) : ∀ f ∈ fs, f.ty.Guarded P :=
  fun _ hf => h.of_mem_parts (List.mem_map_of_mem hf)

theorem members {ms : List Member} (h : (Ty.interface ms).Guarded P) :
    ∀ m ∈ ms, ∀ t ∈ m.types, t.Guarded P := fun m hm _ ht =>
  h.of_mem_parts (List.mem_flatMap.2 ⟨m, hm, ht⟩)

theorem bounds {ms : List Member} (h : (Ty.interface ms).Guarded P) {s : Signature}
    (hs : .method s ∈ ms) : ∀ f ∈ s.formals, P f.ty := Everywhere.self h s hs

theorem alone {s : Signature} : s.alone.Guarded P
    ↔ (∀ f ∈ s.formals, P f.ty) ∧ ∀ t ∈ s.types, t.Guarded P := by
  have hparts : s.alone.parts = s.types := by simp [Signature.alone, Member.types]
  have hself : (∀ s', .method s' ∈ s.alone.members → ∀ f ∈ s'.formals, P f.ty)
      ↔ ∀ f ∈ s.formals, P f.ty := by
    simp [Signature.alone, Ty.members]
  rw [Guarded, Everywhere.iff_parts, hparts, hself]
  rfl

/-- A type that lists no signatures is guarded if its parts are. -/
theorem of_parts {t : Ty} (hm : t.members = []) (h : ∀ a ∈ t.parts, a.Guarded P) : t.Guarded P :=
  Everywhere.iff_parts.2 ⟨fun _ hs => absurd (hm ▸ hs) List.not_mem_nil, h⟩

theorem named {c : String} {args : List Ty} (h : ∀ a ∈ args, a.Guarded P) :
    (Ty.named c args).Guarded P := of_parts rfl h

theorem param (P : Ty → Prop) (p : String) : (Ty.param p).Guarded P :=
  of_parts rfl (List.forall_mem_nil _)

theorem prim (P : Ty → Prop) (p : Prim) : (Ty.prim p).Guarded P :=
  of_parts rfl (List.forall_mem_nil _)

theorem var (P : Ty → Prop) (v : Nat) : (Ty.var v).Guarded P :=
  of_parts rfl (List.forall_mem_nil _)

/-- A flat type holds no bounds. -/
theorem of_flat {strict : Bool} {t : Ty} (h : t.flat strict = true) : t.Guarded P := by
  induction t using Ty.induction_parts with
  | step t ih =>
    cases t with
    | named c args =>
      rw [Ty.flat, Ty.flatAll_iff] at h
      exact named fun a ha => ih a ha (h a ha)
    | struct fs =>
      rw [Ty.flat, Bool.and_eq_true, Slot.flatAll_iff] at h
      refine of_parts rfl fun a ha => ih a ha ?_
      obtain ⟨f, hf, rfl⟩ := List.mem_map.1 ha
      exact h.2 f hf
    | interface ms =>
      rw [Ty.flat, Bool.and_eq_true, Member.flatAll_iff] at h
      refine Everywhere.iff_parts.2 ⟨fun s hs f hf => ?_, fun a ha => ih a ha ?_⟩
      · rw [List.map_eq_nil_iff.1 (h.2 _ hs).1] at hf
        cases hf
      · obtain ⟨m, hm, ha⟩ := List.mem_flatMap.1 ha
        exact (h.2 m hm).2 a ha
    | param p => exact param P p
    | prim p => exact prim P p
    | var v => exact var P v

/-- Substitution of guarded types keeps types guarded if it keeps the form of bounds. -/
theorem subst {P : Ty → Prop} (hP : ∀ t η, P t → P (t.subst η)) {t : Ty} (ht : t.Guarded P)
    {η : Env Ty} (hη : ∀ a x, η.find? a = some x → x.Guarded P) : (t.subst η).Guarded P := by
  refine Everywhere.subst_of (fun p => (param P p).self) (fun t η hp ht s hs f hf => ?_) ht hη
  obtain ⟨s, hmem, rfl⟩ := exists_of_method_mem_members_subst hp hs
  obtain ⟨g, hg, he | he⟩ := Signature.exists_of_mem_formals_subst hf
  · exact he ▸ hP _ _ (ht s hmem g hg)
  · exact he ▸ hP _ _ (hP _ _ (ht s hmem g hg))

end Ty.Guarded

/-- The types that an expression writes are guarded. -/
abbrev Expr.Guarded (P : Ty → Prop) : Expr → Prop := Expr.Over (Ty.Guarded P) fun _ => True

/-- The bounds of formals are of a certain form, and guarded. -/
def GuardedFormals (P : Ty → Prop) (fs : List Slot) : Prop := ∀ f ∈ fs, P f.ty ∧ f.ty.Guarded P

/-- The types that a type declaration writes are guarded. -/
structure TypeDecl.Guarded (P : Ty → Prop) (td : TypeDecl) : Prop where
  formals : GuardedFormals P td.formals
  source : td.source.Guarded P

/-- The types that a method writes are guarded. -/
structure MethodDecl.Guarded (P : Ty → Prop) (md : MethodDecl) : Prop where
  recvFormals : GuardedFormals P md.recvFormals
  formals : ∀ f ∈ md.sig.formals, P f.ty
  types : ∀ t ∈ md.sig.types, t.Guarded P
  body : md.body.Guarded P

/-- The types that a declaration writes are guarded. -/
def Decl.Guarded (P : Ty → Prop) : Decl → Prop
  | .type td => td.Guarded P
  | .method md => md.Guarded P

theorem Expr.Guarded.of_forall {P : Ty → Prop} (h : ∀ t, P t) (e : Expr) : e.Guarded P :=
  ⟨fun t _ => Ty.Guarded.of_forall h t, fun _ _ => trivial⟩

theorem Decl.Guarded.of_forall {P : Ty → Prop} (h : ∀ t, P t) (d : Decl) : d.Guarded P := by
  have hty : ∀ t : Ty, t.Guarded P := Ty.Guarded.of_forall h
  cases d with
  | type td => exact ⟨fun _ _ => ⟨h _, hty _⟩, hty _⟩
  | method md =>
    exact ⟨fun _ _ => ⟨h _, hty _⟩, fun _ _ => h _, fun _ _ => hty _, .of_forall h md.body⟩

theorem Ty.guarded_self (P : Ty → Prop) (c : String) (fs : List Slot) :
    (Ty.named c (formalArguments fs)).Guarded P := by
  refine Guarded.named fun a ha => ?_
  obtain ⟨f, -, rfl⟩ := List.mem_map.1 ha
  exact .param P f.name

/-- The bounds in a context are of a certain form. -/
def Bounds.All (P : Ty → Prop) (Δ : Bounds) : Prop := ∀ b ∈ Δ, P b.2

theorem Bounds.all_nil {P : Ty → Prop} : Bounds.All P [] := fun _ hb => absurd hb List.not_mem_nil

theorem Bounds.All.extend {P : Ty → Prop} {Δ : Bounds} (h : Δ.All P) {fs : List Slot}
    (hfs : ∀ f ∈ fs, P f.ty) : (Δ.extend fs).All P := by
  intro b hb
  rcases List.mem_append.1 hb with hb | hb
  · exact h b hb
  · obtain ⟨f, hf, rfl⟩ := List.mem_map.1 hb
    exact hfs f hf

namespace MethodDecl.Guarded

variable {P : Ty → Prop} {md : MethodDecl}

/-- The context of a method's body. -/
theorem all_bounds (h : md.Guarded P) : md.bounds.All P ∧ md.bounds.All (Ty.Guarded P) :=
  ⟨.extend (Bounds.all_nil.extend fun f hf => (h.recvFormals f hf).1) h.formals,
    .extend (Bounds.all_nil.extend fun f hf => (h.recvFormals f hf).2) fun _ hf =>
      h.types _ (Signature.mem_types_formal hf)⟩

/-- The scope of a method's body. -/
theorem of_scope (h : md.Guarded P) {x : String} {t : Ty} (hx : md.scope.find? x = some t) :
    t.Guarded P := by
  rcases List.mem_cons.1 (Env.mem_of_find? hx) with he | hmem
  · exact (Prod.mk.inj he).2 ▸ Ty.guarded_self _ _ _
  · obtain ⟨p, hp, he⟩ := List.mem_map.1 hmem
    exact (Prod.mk.inj he).2 ▸ h.types _ (Signature.mem_types_param hp)

end MethodDecl.Guarded

end FeatherGo
