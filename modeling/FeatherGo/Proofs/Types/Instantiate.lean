import FeatherGo.Proofs.Types.Scoped

/-!
# Closing and substitution

Substituting flat types keeps a type fitting (`Ty.Fit.subst`), and closing the result is closing the
type by the closed entries (`Ty.Fit.close_subst`). Like all facts on substitution in signatures the
first goes by induction on depth: renaming formals is a substitution in the types inside.
-/

namespace FeatherGo

/-! ## Substitution keeps a type fitting -/

/-- The entries of a substitution are flat and fit, and what it leaves in scope stays in scope. -/
structure Env.Fit (V : Vocabulary) (θ : Env Ty) (scope scope' stems' : List String) : Prop where
  entries : ∀ a x, θ.find? a = some x → x.flat V.strict = true ∧ x.Fit V scope' stems'
  rest : ∀ a ∈ scope, θ.find? a = none → a ∈ scope'

namespace Env.Fit

variable {V : Vocabulary} {θ : Env Ty} {scope scope' stems' : List String}

/-- Under formals that keep their names. -/
theorem visible (h : θ.Fit V scope scope' stems') (s : Signature) (stems : List String) :
    (s.visible θ).Fit V (s.formalNames ++ scope) (s.formalNames ++ scope') stems where
  entries a x hx := by
    rw [Signature.find?_visible] at hx
    by_cases ha : a ∈ s.formalNames
    · simp [ha] at hx
    · obtain ⟨hflat, hfit⟩ := h.entries a x (by simpa [ha] using hx)
      exact ⟨hflat, hfit.weaken hflat fun b hb => List.mem_append_right _ hb⟩
  rest a ha hx := by
    by_cases hf : a ∈ s.formalNames
    · exact List.mem_append_left _ hf
    · rw [Signature.find?_visible, if_neg hf] at hx
      exact List.mem_append_right _ (h.rest a ((List.mem_append.1 ha).resolve_left hf) hx)

/-- Formals take new names. -/
theorem relabelling (V : Vocabulary) {names fresh scope stems : List String}
    (h : names.length = fresh.length) :
    (Signature.relabelling names fresh).Fit V (names ++ scope)
      (fresh ++ scope.filter fun a => a ∉ names) stems where
  entries a x hx := by
    obtain ⟨⟨f, n⟩, hm, he⟩ := List.mem_map.1 (Env.mem_of_find? hx)
    obtain ⟨rfl, rfl⟩ := Prod.mk.inj he
    exact ⟨rfl, .param (List.mem_append_left _ (List.of_mem_zip hm).2)⟩
  rest a ha hx := by
    have hn := (Signature.find?_relabelling_eq_none h).1 hx
    refine List.mem_append_right _ (List.mem_filter.2 ⟨?_, by simpa using hn⟩)
    exact (List.mem_append.1 ha).resolve_left hn

/-- Under formals that have taken new names. -/
theorem visible_fresh (h : θ.Fit V scope scope' stems') (s : Signature)
    (fresh stems : List String) :
    (s.visible θ).Fit V (fresh ++ scope.filter fun a => a ∉ s.formalNames) (fresh ++ scope')
      stems where
  entries a x hx := by
    rw [Signature.find?_visible] at hx
    by_cases ha : a ∈ s.formalNames
    · simp [ha] at hx
    · obtain ⟨hflat, hfit⟩ := h.entries a x (by simpa [ha] using hx)
      exact ⟨hflat, hfit.weaken hflat fun b hb => List.mem_append_right _ hb⟩
  rest a ha hx := by
    rcases List.mem_append.1 ha with ha | ha
    · exact List.mem_append_left _ ha
    · obtain ⟨hs, hf⟩ := List.mem_filter.1 ha
      rw [Signature.find?_visible, if_neg (by simpa using hf)] at hx
      exact List.mem_append_right _ (h.rest a hs hx)

end Env.Fit

/-- Renaming formals to names of the same stems keeps a member proper. -/
theorem Member.Proper.of_stems {V : Vocabulary} {stems stems' : List String} {s s' : Signature}
    (h : (Member.method s).Proper V stems)
    (hn : s'.formalNames.map stem = s.formalNames.map stem) (hs : ∀ a ∈ stems', a ∈ stems) :
    (Member.method s').Proper V stems' := by
  refine ⟨hn ▸ h.1, fun f hf => ?_⟩
  have hmem : stem f ∈ s.formalNames.map stem := hn ▸ List.mem_map_of_mem hf
  obtain ⟨g, hg, he⟩ := List.mem_map.1 hmem
  obtain ⟨hst, hu⟩ := h.2 g hg
  exact ⟨fun hm => hst (he ▸ hs _ hm), fun i hi => hu i (he.trans hi)⟩

/-- Types of one signature fit under its formals, and go on to fit when it is substituted in: this is
the step for signatures in the induction on depth. -/
theorem Signature.fit_subst_of {V : Vocabulary} {θ : Env Ty} {s : Signature}
    {scope scope' stems stems' : List String} {n : Nat}
    (ih : ∀ (t : Ty) (θ : Env Ty) (scope scope' stems stems' : List String), t.depth ≤ n →
      t.Fit V scope stems → θ.Fit V scope scope' stems' → (∀ a ∈ stems', a ∈ stems) →
      (t.subst θ).Fit V scope' stems')
    (hd : ∀ t ∈ s.types, t.depth ≤ n)
    (h : ∀ t ∈ s.types, t.Fit V (s.formalNames ++ scope) (s.formalNames.map stem ++ stems))
    (hθ : θ.Fit V scope scope' stems') (hs : ∀ a ∈ stems', a ∈ stems) :
    ∀ t ∈ (s.subst θ).types,
      t.Fit V ((s.subst θ).formalNames ++ scope') (s.formalNames.map stem ++ stems') := by
  have hs' : ∀ a ∈ s.formalNames.map stem ++ stems', a ∈ s.formalNames.map stem ++ stems :=
    fun a ha => (List.mem_append.1 ha).elim (List.mem_append_left _)
      fun ha => List.mem_append_right _ (hs a ha)
  by_cases hc : ∃ f ∈ s.formalNames, f ∈ s.imported θ
  · obtain ⟨f, hf, hi⟩ := hc
    rw [Signature.subst_of_capture hf hi]
    intro t ht
    simp only [Signature.types_map, Signature.types_rename, List.map_map, List.mem_map,
      Function.comp_apply] at ht
    obtain ⟨u, hu, rfl⟩ := ht
    rw [Signature.formalNames_map, Signature.formalNames_rename _ Signature.length_freshFor]
    have hr := Signature.isRenaming_relabelling s.formalNames (s.freshFor θ)
    have hren : (u.subst (Signature.relabelling s.formalNames (s.freshFor θ))).Fit V
        (s.freshFor θ ++ scope.filter fun a => a ∉ s.formalNames)
        (s.formalNames.map stem ++ stems) :=
      ih u _ _ _ _ _ (hd u hu) (h u hu)
        (Env.Fit.relabelling V (Signature.length_freshFor).symm) fun a ha => ha
    exact ih _ _ _ _ _ _ ((Ty.depth_substAt_le hr _ _ _).2 (hd u hu)) hren
      (hθ.visible_fresh s _ _) hs'
  · rw [Signature.subst_of_apart fun f hf hi => hc ⟨f, hf, hi⟩]
    intro t ht
    rw [Signature.types_map, List.mem_map] at ht
    obtain ⟨u, hu, rfl⟩ := ht
    rw [Signature.formalNames_map]
    exact ih u _ _ _ _ _ (hd u hu) (h u hu) (hθ.visible s _) hs'

/-- Flat entries keep a flat type flat. -/
theorem Ty.flat_subst {strict : Bool} {t : Ty} {θ : Env Ty} (h : t.flat strict = true)
    (hθ : ∀ a x, θ.find? a = some x → x.flat strict = true) : (t.subst θ).flat strict = true := by
  induction t using Ty.induction generalizing θ with
  | param a =>
    rw [Ty.subst_param]
    cases ha : θ.find? a with
    | some x => exact hθ a x ha
    | none => rfl
  | named c args ih =>
    rw [Ty.subst_named, Ty.flat_named, List.forall_mem_map]
    exact fun t ht => ih t ht (Ty.flat_named.1 h t ht) hθ
  | prim p => exact h
  | struct fs ih =>
    obtain ⟨hst, h⟩ := Ty.flat_struct.1 h
    rw [Ty.subst_struct, Ty.flat_struct, List.forall_mem_map]
    exact ⟨hst, fun f hf => ih f hf (h f hf) hθ⟩
  | interface ms ih =>
    obtain ⟨hst, h⟩ := Ty.flat_interface.1 h
    rw [Ty.subst_interface, Ty.flat_interface, List.forall_mem_map]
    refine ⟨hst, fun m hm => ?_⟩
    obtain ⟨hn, h⟩ := h m hm
    cases m with
    | method s =>
      have hn : s.formalNames = [] := hn
      rw [Member.subst_method, Signature.subst_of_apart (by simp [hn])]
      refine ⟨by simpa [Member.formalNames] using hn, fun t ht => ?_⟩
      simp only [Member.types, Signature.types_map, List.mem_map] at ht
      obtain ⟨u, hu, rfl⟩ := ht
      refine ih _ hm u hu (h u hu) fun a x hx => ?_
      rw [Signature.find?_visible, hn, if_neg List.not_mem_nil] at hx
      exact hθ a x hx
    | embed c args =>
      refine ⟨rfl, fun t ht => ?_⟩
      obtain ⟨u, hu, rfl⟩ := List.mem_map.1 ht
      exact ih _ hm u hu (h u hu) hθ
  | var n => exact h

theorem Ty.Fit.subst {V : Vocabulary} {t : Ty} {θ : Env Ty}
    {scope scope' stems stems' : List String} (h : t.Fit V scope stems)
    (hθ : θ.Fit V scope scope' stems') (hs : ∀ a ∈ stems', a ∈ stems) :
    (t.subst θ).Fit V scope' stems' := by
  suffices hall : ∀ (n : Nat) (t : Ty) (θ : Env Ty) (scope scope' stems stems' : List String),
      t.depth ≤ n → t.Fit V scope stems → θ.Fit V scope scope' stems' →
      (∀ a ∈ stems', a ∈ stems) → (t.subst θ).Fit V scope' stems' from
    hall t.depth t θ scope scope' stems stems' (Nat.le_refl _) h hθ hs
  intro n
  induction n with
  | zero =>
    intro t _ _ _ _ _ hd
    have := t.depth_pos
    omega
  | succ n ih =>
    intro t θ scope scope' stems stems' hd h hθ hs
    cases h with
    | @param _ _ a mem =>
      rw [Ty.subst_param]
      cases ha : θ.find? a with
      | some x => exact (hθ.entries a x ha).2
      | none => exact .param (hθ.rest a mem ha)
    | named head flat fit =>
      rw [Ty.depth_named_le] at hd
      rw [Ty.subst_named]
      refine .named (by simpa using head) ?_ ?_ <;> rw [List.forall_mem_map]
      · exact fun a ha => Ty.flat_subst (flat a ha) fun b x hx => (hθ.entries b x hx).1
      · exact fun a ha => ih a θ _ _ _ _ (hd a ha) (fit a ha) hθ hs
    | prim p => exact .prim p
    | struct fit =>
      rw [Ty.depth_struct_le] at hd
      rw [Ty.subst_struct]
      refine .struct fun f hf => ?_
      obtain ⟨g, hg, rfl⟩ := List.mem_map.1 hf
      exact ih g.ty θ _ _ _ _ (hd g hg) (fit g hg) hθ hs
    | interface proper fit =>
      rw [Ty.depth_interface_le] at hd
      rw [Ty.subst_interface]
      refine .interface ?_ ?_ <;> rw [List.forall_mem_map] <;> intro m hm
      · cases m with
        | method s =>
          exact (proper _ hm).of_stems (s.map_stem_formalNames_subst θ) hs
        | embed c args =>
          obtain ⟨he, hh, hflat⟩ := (proper _ hm).mono hs
          refine ⟨he, by simpa using hh, ?_⟩
          rw [List.forall_mem_map]
          exact fun a ha => Ty.flat_subst (hflat a ha) fun b x hx => (hθ.entries b x hx).1
      · cases m with
        | method s =>
          have hstep := Signature.fit_subst_of ih (hd _ hm) (fit _ hm) hθ hs
          rw [← s.map_stem_formalNames_subst θ] at hstep
          exact hstep
        | embed c args =>
          intro t ht
          obtain ⟨u, hu, rfl⟩ := List.mem_map.1 ht
          exact ih u θ _ _ _ _ (hd _ hm u hu) (fit _ hm u hu) hθ hs
    | var v => exact .var v

/-- Closing a substituted type is closing the type by the closed entries. -/
theorem Ty.Fit.close_subst {V : Vocabulary} {t : Ty} {θ : Env Ty} {scope stems : List String}
    (h : t.Fit V scope stems) (hsc : ScopeProper scope stems)
    (hdom : ∀ a x, θ.find? a = some x → Unprimed a ∨ stem a ∈ stems) (ρ : String → Ty) :
    (t.subst θ).close ρ = t.close (θ.closing ρ) :=
  h.scoped.close_subst hsc hdom ρ

end FeatherGo
