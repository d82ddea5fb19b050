import FeatherGo.Proofs.Types.Instantiate

/-!
# Closed types

A sealed type is scoped in the empty scope and is a text; a closed one fits there. Closing a type that
fits by closed flat types gives a closed type, closing a scoped one by sealed types a sealed one.
Closing twice is closing once (`Ty.Scoped.close_close`), and on texts substitution of sealed types is
closing (`Ty.Scoped.subst_eq_close`).
-/

namespace FeatherGo

/-- Nested formals are unprimed, as in programs. -/
def Ty.Text (t : Ty) : Prop := t.close .param = t

/-- What a substitution gives for a type parameter. -/
def Env.lookup (θ : Env Ty) (a : String) : Ty := (θ.find? a).getD (.param a)

/-! ## Texts -/

theorem shield_param (names : List String) (h : ∀ a ∈ names, Unprimed a) :
    shield Ty.param names = Ty.param := by
  funext a
  rw [shield]
  split
  · rename_i ha
    rw [h a ha]
  · rfl

namespace Ty.Text

theorem named {c : String} {args : List Ty} (h : (Ty.named c args).Text) :
    ∀ a ∈ args, a.Text := by
  rw [Ty.Text, Ty.close_named, Ty.named.injEq] at h
  exact map_eq_self_iff.1 h.2

theorem struct {fs : List Slot} (h : (Ty.struct fs).Text) : ∀ f ∈ fs, f.ty.Text := by
  rw [Ty.Text, Ty.close_struct, Ty.struct.injEq] at h
  intro f hf
  have h := map_eq_self_iff.1 h f hf
  obtain ⟨x, t⟩ := f
  exact (Slot.mk.inj h).2

theorem embed {ms : List Member} (h : (Ty.interface ms).Text) {c : String} {args : List Ty}
    (hm : Member.embed c args ∈ ms) : ∀ a ∈ args, a.Text := by
  rw [Ty.Text, Ty.close_interface, Ty.interface.injEq] at h
  have h := map_eq_self_iff.1 h _ hm
  exact map_eq_self_iff.1 (Member.embed.inj h).2

theorem formals {ms : List Member} (h : (Ty.interface ms).Text) {s : Signature}
    (hm : Member.method s ∈ ms) : ∀ a ∈ s.formalNames, Unprimed a := by
  rw [Ty.Text, Ty.close_interface, Ty.interface.injEq] at h
  have h := Member.method.inj (map_eq_self_iff.1 h _ hm)
  have hn : s.formalNames.map stem = s.formalNames := by
    rw [← Signature.formalNames_close, h]
  exact map_eq_self_iff.1 hn

theorem types {ms : List Member} (h : (Ty.interface ms).Text) {s : Signature}
    (hm : Member.method s ∈ ms) : ∀ t ∈ s.types, t.Text := by
  have hf := h.formals hm
  rw [Ty.Text, Ty.close_interface, Ty.interface.injEq] at h
  have h := congrArg Signature.types (Member.method.inj (map_eq_self_iff.1 h _ hm))
  rw [Signature.types_close, shield_param _ hf] at h
  exact map_eq_self_iff.1 h

end Ty.Text

theorem Ty.text_param (a : String) : (Ty.param a).Text := rfl

/-- Closing gives nested formals their stems, which are unprimed. -/
theorem Ty.text_close {ρ : String → Ty} (hρ : ∀ a, (ρ a).Text) (t : Ty) : (t.close ρ).Text := by
  rw [Ty.Text]
  induction t using Ty.induction generalizing ρ with
  | param a => exact hρ a
  | named c args ih =>
    rw [Ty.close_named, Ty.close_named, List.map_map, Ty.named.injEq]
    exact ⟨rfl, List.map_congr_left fun a ha => ih a ha hρ⟩
  | prim p => rfl
  | struct fs ih =>
    rw [Ty.close_struct, Ty.close_struct, List.map_map, Ty.struct.injEq]
    refine List.map_congr_left fun f hf => ?_
    simp only [Function.comp_apply, Slot.map, ih f hf hρ]
  | interface ms ih =>
    rw [Ty.close_interface, Ty.close_interface, List.map_map, Ty.interface.injEq]
    refine List.map_congr_left fun m hm => ?_
    rw [Function.comp_apply]
    cases m with
    | method s =>
      refine congrArg Member.method (Signature.ext_types rfl ?_ ?_ ?_)
      · simp [Function.comp_def]
      · simp [Signature.close, Slot.map, Function.comp_def]
      · rw [Signature.types_close, Signature.types_close, Signature.formalNames_close,
          shield_param _ (by simpa using fun a _ => unprimed_stem a), List.map_map]
        refine List.map_congr_left fun u hu => ih _ hm u hu fun a => ?_
        rw [shield]
        split
        · rfl
        · exact hρ a
    | embed c args =>
      rw [Member.close, Member.close, List.map_map, Member.embed.injEq]
      exact ⟨rfl, List.map_congr_left fun a ha => ih _ hm a ha hρ⟩
  | var n => rfl

/-! ## Sealed types -/

/-- A type of values without regard to what its type arguments hold: no free type parameters, and
nested formals as in programs. -/
structure Ty.Sealed (V : Vocabulary) (t : Ty) : Prop where
  inner : t.Scoped V false [] []
  text : t.Text

namespace Ty.Sealed

variable {V : Vocabulary} {t : Ty}

theorem freeParams_eq_nil (h : t.Sealed V) : t.freeParams = [] :=
  List.eq_nil_iff_forall_not_mem.2 fun _ ha => List.not_mem_nil (h.inner.mem_scope ha)

theorem ne_param (h : t.Sealed V) (a : String) : t ≠ .param a := by
  rintro rfl
  have hmem := h.freeParams_eq_nil
  simp [Ty.freeParams] at hmem

theorem close_eq (h : t.Sealed V) (ρ : String → Ty) : t.close ρ = t :=
  (Ty.close_congr_of_freeParams_eq_nil h.freeParams_eq_nil ρ .param).trans h.text

end Ty.Sealed

/-! ## Closed types -/

/-- A type of values: no free type parameters, and nested formals as in programs. -/
structure Ty.Closed (V : Vocabulary) (t : Ty) : Prop where
  fit : t.Fit V [] []
  text : t.Text

theorem scopeProper_nil (stems : List String) : ScopeProper [] stems := fun _ h =>
  absurd h List.not_mem_nil

theorem Ty.Closed.sealed {V : Vocabulary} {t : Ty} (h : t.Closed V) : t.Sealed V :=
  ⟨h.fit.scoped.loose, h.text⟩

namespace Ty.Closed

variable {V : Vocabulary} {t : Ty}

theorem freeParams_eq_nil (h : t.Closed V) : t.freeParams = [] := h.sealed.freeParams_eq_nil

theorem ne_param (h : t.Closed V) (a : String) : t ≠ .param a := h.sealed.ne_param a

theorem close_eq (h : t.Closed V) (ρ : String → Ty) : t.close ρ = t := h.sealed.close_eq ρ

theorem args {c : String} {args : List Ty} (h : (Ty.named c args).Closed V) :
    ∀ a ∈ args, a.Closed V ∧ a.flat V.strict = true := by
  obtain ⟨hfit, htext⟩ := h
  cases hfit with
  | named head flat fit => exact fun a ha => ⟨⟨fit a ha, htext.named a ha⟩, flat a ha⟩

end Ty.Closed

/-- What type parameters in scope stand for: closed flat types. -/
structure Closing (V : Vocabulary) (scope : List String) (ρ : String → Ty) : Prop where
  text : ∀ a, (ρ a).Text
  closed : ∀ a ∈ scope, (ρ a).Closed V
  flat : ∀ a ∈ scope, (ρ a).flat V.strict = true

/-- Flat values keep a flat type flat. -/
theorem Ty.flat_close {strict : Bool} {t : Ty} {ρ : String → Ty} (h : t.flat strict = true)
    (hρ : ∀ a ∈ t.freeParams, (ρ a).flat strict = true) : (t.close ρ).flat strict = true := by
  induction t using Ty.induction generalizing ρ with
  | param a => exact hρ a (by simp [Ty.freeParams])
  | named c args ih =>
    rw [Ty.close_named, Ty.flat_named, List.forall_mem_map]
    refine fun t ht => ih t ht (Ty.flat_named.1 h t ht) fun a ha => hρ a ?_
    rw [Ty.freeParams, Ty.mem_freeParamsAll]
    exact ⟨t, ht, ha⟩
  | prim p => exact h
  | struct fs ih =>
    obtain ⟨hst, h⟩ := Ty.flat_struct.1 h
    rw [Ty.close_struct, Ty.flat_struct, List.forall_mem_map]
    refine ⟨hst, fun f hf => ih f hf (h f hf) fun a ha => hρ a ?_⟩
    rw [Ty.freeParams, Slot.mem_freeParamsAll]
    exact ⟨f, hf, ha⟩
  | interface ms ih =>
    obtain ⟨hst, h⟩ := Ty.flat_interface.1 h
    rw [Ty.close_interface, Ty.flat_interface, List.forall_mem_map]
    refine ⟨hst, fun m hm => ?_⟩
    obtain ⟨hn, h⟩ := h m hm
    have hρ : ∀ a ∈ m.freeParams, (ρ a).flat strict = true := by
      intro a ha
      apply hρ a
      rw [Ty.freeParams, Member.mem_freeParamsAll]
      exact ⟨m, hm, ha⟩
    cases m with
    | method s =>
      have hn : s.formalNames = [] := hn
      refine ⟨by simp [Member.close, Member.formalNames, hn], fun t ht => ?_⟩
      simp only [Member.close, Member.types, Signature.types_close, List.mem_map] at ht
      obtain ⟨u, hu, rfl⟩ := ht
      refine ih _ hm u hu (h u hu) fun a ha => ?_
      rw [shield, hn, if_neg List.not_mem_nil]
      exact hρ a (Signature.mem_freeParams.2 ⟨by simp [hn], u, hu, ha⟩)
    | embed c args =>
      refine ⟨rfl, fun t ht => ?_⟩
      obtain ⟨u, hu, rfl⟩ := List.mem_map.1 ht
      exact ih _ hm u hu (h u hu) fun a ha => hρ a (Ty.mem_freeParamsAll.2 ⟨u, hu, ha⟩)
  | var n => exact h

theorem Ty.Fit.close {V : Vocabulary} {t : Ty} {ρ : String → Ty}
    {scope scope' stems stems' : List String} (h : t.Fit V scope stems)
    (hflat : ∀ a ∈ scope, (ρ a).flat V.strict = true)
    (hfit : ∀ a ∈ scope, (ρ a).Fit V scope' stems') (hs : ∀ a ∈ stems', a ∈ stems) :
    (t.close ρ).Fit V scope' stems' := by
  induction h generalizing ρ scope' stems' with
  | param mem => exact hfit _ mem
  | named head flat fit ih =>
    rw [Ty.close_named]
    refine .named (by simpa using head) ?_ ?_ <;> rw [List.forall_mem_map]
    · exact fun a ha => Ty.flat_close (flat a ha) fun b hb => hflat b ((fit a ha).mem_scope hb)
    · exact fun a ha => ih a ha hflat hfit hs
  | prim p => exact .prim p
  | struct _ ih =>
    rw [Ty.close_struct]
    refine .struct ?_
    rw [List.forall_mem_map]
    exact fun f hf => ih f hf hflat hfit hs
  | interface proper fit ih =>
    rw [Ty.close_interface]
    refine .interface ?_ ?_ <;> rw [List.forall_mem_map] <;> intro m hm
    · cases m with
      | method s => exact (proper _ hm).of_stems (by simp [Function.comp_def]) hs
      | embed c args =>
        obtain ⟨he, hh, hargs⟩ := (proper _ hm).mono hs
        refine ⟨he, by simpa using hh, ?_⟩
        rw [List.forall_mem_map]
        exact fun a ha => Ty.flat_close (hargs a ha) fun b hb =>
          hflat b (((fit _ hm a ha).mem_scope hb))
    · cases m with
      | method s =>
        simp only [Member.close, Member.types, Signature.types_close, List.forall_mem_map,
          Member.formalNames, Signature.formalNames_close, List.map_map]
        rw [show stem ∘ stem = stem from funext stem_stem]
        refine fun u hu => ih _ hm u hu ?_ ?_ ?_
        · intro a ha
          rw [shield]
          split
          · rfl
          · rename_i hf
            exact hflat a ((List.mem_append.1 ha).resolve_left hf)
        · intro a ha
          rw [shield]
          split
          · rename_i hf
            exact .param (List.mem_append_left _ (List.mem_map_of_mem hf))
          · rename_i hf
            have hmem := (List.mem_append.1 ha).resolve_left hf
            exact (hfit a hmem).weaken (hflat a hmem) fun b hb => List.mem_append_right _ hb
        · exact fun a ha => (List.mem_append.1 ha).elim (List.mem_append_left _)
            fun ha => List.mem_append_right _ (hs a ha)
      | embed c args =>
        intro t ht
        obtain ⟨u, hu, rfl⟩ := List.mem_map.1 ht
        exact ih _ hm u hu hflat hfit hs
  | var n => exact .var n

theorem Ty.Fit.closed {V : Vocabulary} {t : Ty} {ρ : String → Ty} {scope stems : List String}
    (h : t.Fit V scope stems) (hρ : Closing V scope ρ) : (t.close ρ).Closed V where
  fit := h.close hρ.flat (fun a ha => (hρ.closed a ha).fit) fun _ ha => absurd ha List.not_mem_nil
  text := Ty.text_close hρ.text t

/-! ## Closing gives sealed types -/

/-- What type parameters in scope stand for: sealed types. -/
structure Sealing (V : Vocabulary) (scope : List String) (ρ : String → Ty) : Prop where
  text : ∀ a, (ρ a).Text
  sealed : ∀ a ∈ scope, (ρ a).Sealed V

theorem Closing.sealing {V : Vocabulary} {scope : List String} {ρ : String → Ty}
    (h : Closing V scope ρ) : Sealing V scope ρ :=
  ⟨h.text, fun a ha => (h.closed a ha).sealed⟩

/-- Closing gives types that are scoped where what type parameters stand for is. -/
theorem Ty.Scoped.close {V : Vocabulary} {apart : Bool} {t : Ty} {ρ : String → Ty}
    {scope scope' stems stems' : List String} (h : t.Scoped V apart scope stems)
    (hρ : ∀ a ∈ scope, ∀ wider stems, (∀ b ∈ scope', b ∈ wider) → (ρ a).Scoped V false wider stems) :
    (t.close ρ).Scoped V false scope' stems' := by
  induction h generalizing ρ scope' stems' with
  | param mem => exact hρ _ mem _ _ fun _ hb => hb
  | named head _ ih =>
    rw [Ty.close_named]
    refine .named (by simpa using head) ?_
    rw [List.forall_mem_map]
    exact fun a ha => ih a ha hρ
  | prim p => exact .prim p
  | struct _ ih =>
    rw [Ty.close_struct]
    refine .struct ?_
    rw [List.forall_mem_map]
    exact fun f hf => ih f hf hρ
  | interface sound _ ih =>
    rw [Ty.close_interface]
    refine .interface ?_ ?_ <;> rw [List.forall_mem_map] <;> intro m hm
    · have hsound := sound m hm
      cases m with
      | method s =>
        refine ⟨?_, fun f hf => ⟨fun ha => absurd ha (by simp), ?_⟩⟩
        · rw [Signature.formalNames_close, List.map_map, show stem ∘ stem = stem from funext stem_stem]
          exact hsound.1
        · rw [Signature.formalNames_close] at hf
          obtain ⟨g, hg, rfl⟩ := List.mem_map.1 hf
          intro i hi
          exact (hsound.2 g hg).2 i ((stem_stem g).symm.trans hi)
      | embed c args => simpa [Member.Sound, Member.close] using hsound
    · cases m with
      | method s =>
        simp only [Member.close, Member.types, Signature.types_close, List.forall_mem_map,
          Member.formalNames, Signature.formalNames_close]
        refine fun u hu => ih _ hm u hu fun a ha wider stems hw => ?_
        rw [shield]
        split
        · rename_i hf
          exact .param (hw _ (List.mem_append_left _ (List.mem_map_of_mem hf)))
        · rename_i hf
          exact hρ a ((List.mem_append.1 ha).resolve_left hf) _ _
            fun b hb => hw b (List.mem_append_right _ hb)
      | embed c args =>
        intro t ht
        obtain ⟨u, hu, rfl⟩ := List.mem_map.1 ht
        exact ih _ hm u hu hρ
  | var n => exact .var n

/-- A scoped type is sealed once its type parameters stand for sealed types. -/
theorem Ty.Scoped.sealed {V : Vocabulary} {apart : Bool} {t : Ty} {ρ : String → Ty}
    {scope stems : List String} (h : t.Scoped V apart scope stems) (hρ : Sealing V scope ρ) :
    (t.close ρ).Sealed V where
  inner := h.close fun a ha _ _ _ =>
    (hρ.sealed a ha).inner.mono (fun _ hb => absurd hb List.not_mem_nil) fun hf => absurd hf (by simp)
  text := Ty.text_close hρ.text t

/-! ## Substitution on texts -/

/-- On a text, substituting types whose free parameters are canonical, or that have none, is
closing: no nested formal is mentioned. -/
theorem Ty.Scoped.subst_eq_close {V : Vocabulary} {apart : Bool} {t : Ty} {θ : Env Ty}
    {scope stems : List String} (h : t.Scoped V apart scope stems) (ht : t.Text)
    (hθ : ∀ a x, θ.find? a = some x → ∀ q ∈ x.freeParams, ∃ i, q = Signature.canonicalName i) :
    t.subst θ = t.close θ.lookup := by
  induction h generalizing θ with
  | param mem => rfl
  | named _ _ ih =>
    rw [Ty.subst_named, Ty.close_named, Ty.named.injEq]
    exact ⟨rfl, List.map_congr_left fun a ha => ih a ha (ht.named a ha) hθ⟩
  | prim p => rfl
  | struct _ ih =>
    rw [Ty.subst_struct, Ty.close_struct, Ty.struct.injEq]
    refine List.map_congr_left fun f hf => ?_
    rw [Slot.map, Slot.map, ih f hf (ht.struct f hf) hθ]
  | interface sound _ ih =>
    rw [Ty.subst_interface, Ty.close_interface, Ty.interface.injEq]
    refine List.map_congr_left fun m hm => ?_
    cases m with
    | method s =>
      have hu := ht.formals hm
      have hapart : ∀ f ∈ s.formalNames, f ∉ s.imported θ := by
        intro f hf hi
        obtain ⟨a, x, -, hx, hq⟩ := Signature.mem_imported.1 hi
        obtain ⟨i, hi⟩ := hθ a x hx f hq
        exact ((sound _ hm).2 f hf).2 i ((hu f hf).trans hi)
      rw [Member.subst_method, Member.close, Member.method.injEq, Signature.subst_of_apart hapart]
      refine Signature.ext_types rfl ?_ ?_ ?_
      · rw [Signature.formalNames_map, Signature.formalNames_close]
        exact (map_eq_self_iff.2 hu).symm
      · simp [Signature.close, Slot.map, Function.comp_def]
      · rw [Signature.types_map, Signature.types_close]
        refine List.map_congr_left fun u hmem => ?_
        rw [ih _ hm u hmem (ht.types hm u hmem) ?_]
        · refine Ty.close_congr fun a _ => ?_
          rw [Env.lookup, Signature.find?_visible, shield]
          by_cases ha : a ∈ s.formalNames
          · have hstem : stem a = a := hu a ha
            simp [ha, hstem]
          · simp [ha, Env.lookup]
        · intro a x hx
          rw [Signature.find?_visible] at hx
          by_cases ha : a ∈ s.formalNames
          · simp [ha] at hx
          · exact hθ a x (by simpa [ha] using hx)
    | embed c args =>
      rw [Member.subst_embed, Member.close, Member.embed.injEq]
      exact ⟨rfl, List.map_congr_left fun a ha => ih _ hm a ha (ht.embed hm a ha) hθ⟩
  | var n => rfl

theorem Ty.Fit.subst_eq_close {V : Vocabulary} {t : Ty} {θ : Env Ty} {scope stems : List String}
    (h : t.Fit V scope stems) (ht : t.Text)
    (hθ : ∀ a x, θ.find? a = some x → ∀ q ∈ x.freeParams, ∃ i, q = Signature.canonicalName i) :
    t.subst θ = t.close θ.lookup :=
  h.scoped.subst_eq_close ht hθ

/-- Closing what comes of canonical names is closing by the closed entries, whatever the formals of
nested signatures are: none of them is mentioned. -/
theorem Ty.Scoped.close_subst_canonical {V : Vocabulary} {apart : Bool} {t : Ty} {θ : Env Ty}
    {scope stems : List String} (h : t.Scoped V apart scope stems)
    (hθ : ∀ a x, θ.find? a = some x → ∀ q ∈ x.freeParams, ∃ i, q = Signature.canonicalName i)
    (ρ : String → Ty) : (t.subst θ).close ρ = t.close (θ.closing ρ) := by
  induction h generalizing θ ρ with
  | param mem => rfl
  | named _ _ ih =>
    rw [Ty.subst_named, Ty.close_named, Ty.close_named, List.map_map, Ty.named.injEq]
    exact ⟨rfl, List.map_congr_left fun a ha => ih a ha hθ ρ⟩
  | prim p => rfl
  | struct _ ih =>
    rw [Ty.subst_struct, Ty.close_struct, Ty.close_struct, List.map_map, Ty.struct.injEq]
    refine List.map_congr_left fun f hf => ?_
    simp only [Function.comp_apply, Slot.map, ih f hf hθ ρ]
  | interface sound _ ih =>
    rw [Ty.subst_interface, Ty.close_interface, Ty.close_interface, List.map_map, Ty.interface.injEq]
    refine List.map_congr_left fun m hm => ?_
    rw [Function.comp_apply]
    cases m with
    | method s =>
      have hapart : ∀ f ∈ s.formalNames, f ∉ s.imported θ := by
        intro f hf hi
        obtain ⟨a, x, -, hx, hq⟩ := Signature.mem_imported.1 hi
        obtain ⟨i, rfl⟩ := hθ a x hx f hq
        exact ((sound _ hm).2 _ hf).2 i (Signature.stem_canonicalName i)
      have hinside := Signature.inside_shield (θ := θ) (rfl : s.formalNames.map stem = _) ρ
      rw [Member.subst_method, Signature.subst_of_apart hapart]
      refine congrArg Member.method (Signature.close_ext rfl ?_ ?_ ?_)
      · rw [Signature.formalNames_map]
      · exact Signature.map_name_params_map _ _
      · rw [Signature.types_map, Signature.formalNames_map, List.map_map]
        refine List.map_congr_left fun u hu => ?_
        rw [Function.comp_apply, ih _ hm u hu fun a x hx => ?_]
        · exact Ty.close_congr fun a _ => hinside.visible hapart a
        · rw [Signature.find?_visible] at hx
          by_cases ha : a ∈ s.formalNames
          · simp [ha] at hx
          · exact hθ a x (by simpa [ha] using hx)
    | embed c args =>
      rw [Member.subst_embed, Member.close, Member.close, List.map_map, Member.embed.injEq]
      exact ⟨rfl, List.map_congr_left fun a ha => ih _ hm a ha hθ ρ⟩
  | var n => rfl

/-- Closing twice is closing once, if what the first closing leaves open are stems of formals around
the type. -/
theorem Ty.Scoped.close_close {V : Vocabulary} {t : Ty} {σ : String → Ty} {scope stems : List String}
    (h : t.Scoped V true scope stems) (hσ : ∀ a ∈ scope, ∀ q ∈ (σ a).freeParams, q ∈ stems)
    (ρ : String → Ty) : (t.close σ).close ρ = t.close fun a => (σ a).close ρ := by
  induction h generalizing σ ρ with
  | param mem => rfl
  | named _ _ ih =>
    rw [Ty.close_named, Ty.close_named, Ty.close_named, List.map_map, Ty.named.injEq]
    exact ⟨rfl, List.map_congr_left fun a ha => ih a ha hσ ρ⟩
  | prim p => rfl
  | struct _ ih =>
    rw [Ty.close_struct, Ty.close_struct, Ty.close_struct, List.map_map, Ty.struct.injEq]
    refine List.map_congr_left fun f hf => ?_
    simp only [Function.comp_apply, Slot.map, ih f hf hσ ρ]
  | interface sound inner ih =>
    rw [Ty.close_interface, Ty.close_interface, Ty.close_interface, List.map_map,
      Ty.interface.injEq]
    refine List.map_congr_left fun m hm => ?_
    rw [Function.comp_apply]
    cases m with
    | method s =>
      refine congrArg Member.method (Signature.ext_types rfl ?_ ?_ ?_)
      · simp [Function.comp_def]
      · simp [Signature.close, Slot.map, Function.comp_def]
      · rw [Signature.types_close, Signature.types_close, Signature.types_close,
          Signature.formalNames_close, List.map_map]
        refine List.map_congr_left fun u hu => ?_
        rw [Function.comp_apply, ih _ hm u hu ?_]
        · refine Ty.close_congr fun a ha => ?_
          rw [shield, shield]
          by_cases hf : a ∈ s.formalNames
          · rw [if_pos hf, if_pos hf, Ty.close_param, shield, stem_stem,
              if_pos (List.mem_map_of_mem hf)]
          · rw [if_neg hf, if_neg hf]
            refine Ty.close_congr fun q hq => ?_
            have hmem : a ∈ _ := (List.mem_append.1 ((inner _ hm u hu).mem_scope ha)).resolve_left hf
            have hst := hσ a hmem q hq
            rw [shield, if_neg]
            rintro hn
            obtain ⟨f, hf, rfl⟩ := List.mem_map.1 hn
            exact ((sound _ hm).2 f hf).1 rfl hst
        · intro a ha q hq
          rw [shield] at hq
          split at hq
          · rename_i hf
            rw [Ty.freeParams, List.mem_singleton] at hq
            exact List.mem_append_left _ (hq ▸ List.mem_map_of_mem hf)
          · rename_i hf
            exact List.mem_append_right _ (hσ a ((List.mem_append.1 ha).resolve_left hf) q hq)
    | embed c args =>
      rw [Member.close, Member.close, Member.close, List.map_map, Member.embed.injEq]
      exact ⟨rfl, List.map_congr_left fun a ha => ih _ hm a ha hσ ρ⟩
  | var n => rfl

end FeatherGo
