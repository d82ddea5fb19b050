import FeatherGo.Proofs.Types.Alpha

/-!
# Signatures that closing and renaming treat alike

Once type arguments bring in signatures with formals of their own, renaming the formals around them may
give a nested formal the name of one around it, and closing such a signature no longer shows which of
the two was meant. A steady signature is one where this does no harm: its closed form and its types at
canonical names say the same. What substitution makes of a scoped signature is steady
(`Signature.Scoped.steady_subst`), and steady signatures that agree still agree once they are closed
(`Signature.Open.alphaEq_close`).

`Ty.Open` puts together what is known of a type at open type arguments: its type parameters are in
scope, and the signatures that it lists, or that its type arguments list, are steady.
-/

namespace FeatherGo

variable {V : Vocabulary} {θ : Env Ty} {ρ : String → Ty} {scope scope' stems : List String}

/-! ## Steady signatures -/

/-- Closing a signature and giving its formals canonical names may change places. -/
def Signature.Steady (ρ : String → Ty) (s : Signature) : Prop :=
  (s.close ρ).canonical.types = s.typesAt ρ ((canonicalNames s.formals.length).map .param)

/-- Entries that are scoped and closed give sealed types. -/
theorem Sealing.closing (hρ : Sealing V scope' ρ) (hθ : θ.Scoped V false scope scope') :
    Sealing V scope (θ.closing ρ) where
  text a := by
    rw [Env.closing]
    cases θ.find? a with
    | none => exact hρ.text a
    | some x => exact Ty.text_close hρ.text x
  sealed a ha := by
    rw [Env.closing]
    cases hx : θ.find? a with
    | none => exact hρ.sealed a (hθ.rest a ha hx)
    | some x => exact (hθ.entries a x hx scope' [] fun _ hb => hb).sealed hρ

namespace Signature

variable {s o : Signature}

theorem Scoped.steady (h : s.Scoped V true scope stems) (hρ : Sealing V scope ρ) : s.Steady ρ := by
  have hcanonical := (h.close hρ).types_canonical (text_close hρ.text s)
  have hl : (s.close ρ).formals.length = s.formals.length := by simp [Signature.close]
  rw [Steady, hcanonical, hl]
  exact h.typesAt_close (fun a ha => (hρ.sealed a ha).freeParams_eq_nil) hρ.text _ (by simp)

/-- What substitution makes of a scoped signature is steady. -/
theorem Scoped.steady_subst (h : s.Scoped V true scope stems) (hsc : ScopeProper scope stems)
    (hdom : ∀ a x, θ.find? a = some x → Unprimed a ∨ stem a ∈ stems)
    (hθ : θ.Scoped V false scope scope') (hρ : Sealing V scope' ρ) : (s.subst θ).Steady ρ := by
  have hl : (s.subst θ).formals.length = s.formals.length := by
    simpa using congrArg List.length (s.map_stem_formalNames_subst θ)
  calc ((s.subst θ).close ρ).canonical.types
      = (s.close (θ.closing ρ)).canonical.types := by rw [h.close_subst hsc hdom]
    _ = s.typesAt (θ.closing ρ) ((canonicalNames s.formals.length).map .param) :=
        h.steady (hρ.closing hθ)
    _ = (s.subst θ).typesAt ρ ((canonicalNames s.formals.length).map .param) :=
        (h.typesAt_subst hsc hdom ρ (by simp)).symm
    _ = _ := by rw [hl]

/-- A scoped signature that is steady. -/
structure Open (V : Vocabulary) (ρ : String → Ty) (scope : List String) (s : Signature) : Prop where
  inner : s.Scoped V false scope []
  steady : s.Steady ρ

/-- **Signatures that agree still agree once they are closed.** -/
theorem Open.alphaEq_close (hs : s.Open V ρ scope) (ho : o.Open V ρ scope)
    (hsc : ∀ a ∈ scope, Uncanonical a) (h : o.alphaEq s = true) :
    (o.close ρ).alphaEq (s.close ρ) = true := by
  obtain ⟨hn, hf, hp, -⟩ := alphaEq_iff.1 h
  refine alphaEq_iff.2 ⟨hn, by simpa [Signature.close] using hf, by simpa [Signature.close] using hp, ?_⟩
  rw [ho.steady, hs.steady, hf]
  exact hs.inner.typesAt_of_alphaEq ho.inner hsc h ρ (by simp)

end Signature

/-! ## Types at open type arguments -/

/-- The signatures that a type lists, or that its type arguments list, are steady. -/
inductive Ty.Steady (ρ : String → Ty) : Ty → Prop
  | param (a : String) : Steady ρ (.param a)
  | named {c : String} {args : List Ty} (inner : ∀ a ∈ args, Steady ρ a) : Steady ρ (.named c args)
  | prim (p : Prim) : Steady ρ (.prim p)
  | struct (fs : List Slot) : Steady ρ (.struct fs)
  | interface {ms : List Member} (methods : ∀ s, Member.method s ∈ ms → s.Steady ρ)
      (embeds : ∀ c args, Member.embed c args ∈ ms → ∀ a ∈ args, Steady ρ a) :
      Steady ρ (.interface ms)
  | var (n : Nat) : Steady ρ (.var n)

/-- A type at open type arguments. -/
structure Ty.Open (V : Vocabulary) (ρ : String → Ty) (scope : List String) (t : Ty) : Prop where
  inner : t.Scoped V false scope []
  steady : t.Steady ρ

namespace Ty.Open

theorem args {c : String} {args : List Ty} (h : (Ty.named c args).Open V ρ scope) :
    ∀ a ∈ args, a.Open V ρ scope := by
  obtain ⟨inner, steady⟩ := h
  cases inner with
  | named _ inner =>
    cases steady with
    | named steady => exact fun a ha => ⟨inner a ha, steady a ha⟩

variable {ms : List Member}

theorem method (h : (Ty.interface ms).Open V ρ scope) {s : Signature} (hm : Member.method s ∈ ms) :
    s.Open V ρ scope := by
  obtain ⟨inner, steady⟩ := h
  cases inner with
  | interface sound inner =>
    cases steady with
    | interface methods _ => exact ⟨⟨sound _ hm, inner _ hm⟩, methods s hm⟩

theorem embed (h : (Ty.interface ms).Open V ρ scope) {c : String} {args : List Ty}
    (hm : Member.embed c args ∈ ms) : (Ty.named c args).Open V ρ scope ∧ V.embeds c := by
  obtain ⟨inner, steady⟩ := h
  cases inner with
  | interface sound inner =>
    cases steady with
    | interface _ embeds =>
      obtain ⟨he, hh⟩ := sound _ hm
      exact ⟨⟨.named hh (inner _ hm), .named (embeds c args hm)⟩, he⟩

end Ty.Open

/-- The entries of a substitution are open types, and what it leaves in scope stays in scope. -/
structure Env.Open (V : Vocabulary) (ρ : String → Ty) (θ : Env Ty) (scope scope' : List String) :
    Prop where
  entries : ∀ a x, θ.find? a = some x → x.Open V ρ scope'
  rest : ∀ a ∈ scope, θ.find? a = none → a ∈ scope'

theorem Env.Open.inner (h : θ.Open V ρ scope scope') : θ.Scoped V false scope scope' where
  entries a x hx _ _ hw := (h.entries a x hx).inner.mono hw fun hf => absurd hf (by simp)
  rest := h.rest

/-- A scoped type at open type arguments is open. -/
theorem Ty.Scoped.open_subst {t : Ty} (h : t.Scoped V true scope stems)
    (hsc : ScopeProper scope stems)
    (hdom : ∀ a x, θ.find? a = some x → Unprimed a ∨ stem a ∈ stems)
    (hθ : θ.Open V ρ scope scope') (hρ : Sealing V scope' ρ) : (t.subst θ).Open V ρ scope' := by
  refine ⟨h.loose.subst hθ.inner fun _ _ ha => ha, ?_⟩
  induction t using Ty.induction with
  | param a =>
    rw [Ty.subst_param]
    cases hx : θ.find? a with
    | none => exact .param a
    | some x => exact (hθ.entries a x hx).steady
  | named c args ih =>
    rw [Ty.subst_named]
    cases h with
    | named _ inner => exact .named (List.forall_mem_map.2 fun a ha => ih a ha (inner a ha))
  | prim p => exact .prim p
  | struct fs =>
    rw [Ty.subst_struct]
    exact .struct _
  | interface ms ih =>
    rw [Ty.subst_interface]
    cases h with
    | interface sound inner =>
      refine .interface (fun s hs => ?_) fun c args hm => ?_
      · obtain ⟨m, hm, he⟩ := List.mem_map.1 hs
        cases m with
        | method s' =>
          obtain rfl := Member.method.inj he
          exact Signature.Scoped.steady_subst ⟨sound _ hm, inner _ hm⟩ hsc hdom hθ.inner hρ
        | embed c args => simp at he
      · obtain ⟨m, hm', he⟩ := List.mem_map.1 hm
        cases m with
        | method s => simp at he
        | embed c' args' =>
          rw [Member.subst_embed] at he
          obtain ⟨-, rfl⟩ := Member.embed.inj he
          exact List.forall_mem_map.2 fun a ha => ih _ hm' a ha (inner _ hm' a ha)
  | var n => exact .var n

/-- A scoped type is open where its type parameters stand for sealed types. -/
theorem Ty.Scoped.opened {t : Ty} (h : t.Scoped V true scope stems) (hsc : ScopeProper scope stems)
    (hρ : Sealing V scope ρ) : t.Open V ρ scope := by
  rw [← t.subst_nil]
  exact h.open_subst hsc (fun _ _ hx => nomatch hx) ⟨fun _ _ hx => (nomatch hx), fun _ ha _ => ha⟩ hρ

theorem Signature.Scoped.open_subst {s : Signature} (h : s.Scoped V true scope stems)
    (hsc : ScopeProper scope stems)
    (hdom : ∀ a x, θ.find? a = some x → Unprimed a ∨ stem a ∈ stems)
    (hθ : θ.Open V ρ scope scope') (hρ : Sealing V scope' ρ) : (s.subst θ).Open V ρ scope' :=
  ⟨h.loose.subst hθ.inner fun _ _ ha => ha, h.steady_subst hsc hdom hθ.inner hρ⟩

end FeatherGo
