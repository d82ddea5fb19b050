import FeatherGo.Proofs.Types.Fit

/-!
# Scoped types

What a type has to be for substitution in it to be told apart from capture. A scoped type has its free
type parameters in scope, and the formals of every signature in it have stems of their own; where the
formals of nested signatures are also apart from those around them, as in types that programs write,
closing what was substituted is closing by the closed entries, whatever the entries are
(`Ty.Scoped.close_subst`). Types that fit are scoped in this stronger sense (`Ty.Fit.scoped`).

Both facts go by induction on depth, since renaming the formals of a signature is a substitution in the
types inside it.
-/

namespace FeatherGo

/-! ## Renaming formals -/

namespace Signature

theorem find?_relabelling_isSome {names fresh : List String} (h : names.length = fresh.length)
    {a : String} : ((relabelling names fresh).find? a).isSome ↔ a ∈ names := by
  rw [Env.find?_isSome, Env.names, relabelling, List.map_map]
  have hfst : (names.zip fresh).map (fun p => p.1) = names := List.map_fst_zip (Nat.le_of_eq h)
  exact hfst.symm ▸ Iff.rfl

/-- A renaming goes by position. -/
theorem of_find?_relabelling {names fresh : List String} {a : String} {x : Ty}
    (hx : (relabelling names fresh).find? a = some x) :
    ∃ (i : Nat) (q : String), names[i]? = some a ∧ fresh[i]? = some q ∧ x = .param q := by
  obtain ⟨⟨f, n⟩, hm, he⟩ := List.mem_map.1 (Env.mem_of_find? hx)
  obtain ⟨rfl, rfl⟩ := Prod.mk.inj he
  obtain ⟨i, hi⟩ := List.mem_iff_getElem?.1 hm
  obtain ⟨hf, hn⟩ := List.getElem?_zip_eq_some.1 hi
  exact ⟨i, n, hf, hn, rfl⟩

theorem find?_relabelling_eq_none {names fresh : List String} (h : names.length = fresh.length)
    {a : String} : (relabelling names fresh).find? a = none ↔ a ∉ names := by
  rw [← find?_relabelling_isSome h]
  cases (relabelling names fresh).find? a <;> simp

end Signature

/-- The value parameters of a signature keep their names under substitution. -/
theorem Signature.map_name_params_subst (η : Env Ty) (s : Signature) :
    (s.subst η).params.map (·.name) = s.params.map (·.name) := by
  by_cases hc : ∃ f ∈ s.formalNames, f ∈ s.imported η
  · obtain ⟨f, hf, hi⟩ := hc
    rw [subst_of_capture hf hi]
    exact (map_name_params_map _ _).trans (map_name_params_renameWith _)
  · rw [subst_of_apart fun f hf hi => hc ⟨f, hf, hi⟩, map_name_params_map]

/-- The formals of a signature keep their stems under substitution. -/
theorem Signature.map_stem_formalNames_subst (η : Env Ty) (s : Signature) :
    (s.subst η).formalNames.map stem = s.formalNames.map stem := by
  by_cases hc : ∃ f ∈ s.formalNames, f ∈ s.imported η
  · obtain ⟨f, hf, hi⟩ := hc
    rw [Signature.subst_of_capture hf hi, Signature.formalNames_map,
      Signature.formalNames_rename _ Signature.length_freshFor, Signature.map_stem_freshFor]
  · rw [Signature.subst_of_apart fun f hf hi => hc ⟨f, hf, hi⟩, Signature.formalNames_map]

/-! ## Scoped types -/

/-- What an interface member has to satisfy apart from its types: its formals have stems of their own,
apart from those around if this is asked for, and what it embeds may be embedded. -/
def Member.Sound (V : Vocabulary) (apart : Bool) (stems : List String) : Member → Prop
  | .method s =>
    (s.formalNames.map stem).Nodup
      ∧ ∀ f ∈ s.formalNames, (apart = true → stem f ∉ stems) ∧ Uncanonical f
  | .embed c args => V.embeds c ∧ V.heads c args.length

/-- A type is scoped under formals of given stems: its free type parameters are in scope, its names are
in the vocabulary, and its members are sound. -/
inductive Ty.Scoped (V : Vocabulary) (apart : Bool) : List String → List String → Ty → Prop
  | param {scope stems : List String} {a : String} (mem : a ∈ scope) :
    Scoped V apart scope stems (.param a)
  | named {scope stems : List String} {c : String} {args : List Ty}
      (head : V.heads c args.length) (inner : ∀ a ∈ args, Scoped V apart scope stems a) :
    Scoped V apart scope stems (.named c args)
  | prim {scope stems : List String} (p : Prim) : Scoped V apart scope stems (.prim p)
  | struct {scope stems : List String} {fs : List Slot}
      (inner : ∀ f ∈ fs, Scoped V apart scope stems f.ty) : Scoped V apart scope stems (.struct fs)
  | interface {scope stems : List String} {ms : List Member}
      (sound : ∀ m ∈ ms, m.Sound V apart stems)
      (inner : ∀ m ∈ ms, ∀ t ∈ m.types,
        Scoped V apart (m.formalNames ++ scope) (m.formalNames.map stem ++ stems) t) :
    Scoped V apart scope stems (.interface ms)
  | var {scope stems : List String} (n : Nat) : Scoped V apart scope stems (.var n)

section Scoped

variable {V : Vocabulary} {apart : Bool} {scope scope' stems stems' : List String} {t : Ty}

theorem Member.Proper.sound {m : Member} (h : m.Proper V stems) : m.Sound V true stems := by
  cases m with
  | method s => exact ⟨h.1, fun f hf => ⟨fun _ => (h.2 f hf).1, (h.2 f hf).2⟩⟩
  | embed c args => exact ⟨h.1, h.2.1⟩

theorem Ty.Fit.scoped (h : t.Fit V scope stems) : t.Scoped V true scope stems := by
  induction h with
  | param mem => exact .param mem
  | named head _ _ ih => exact .named head ih
  | prim p => exact .prim p
  | struct _ ih => exact .struct ih
  | interface proper _ ih => exact .interface (fun m hm => (proper m hm).sound) ih
  | var n => exact .var n

theorem Member.Sound.mono {m : Member} (h : m.Sound V apart stems)
    (hs : apart = true → ∀ a ∈ stems', a ∈ stems) : m.Sound V apart stems' := by
  cases m with
  | method s => exact ⟨h.1, fun f hf => ⟨fun ha hm => (h.2 f hf).1 ha (hs ha _ hm), (h.2 f hf).2⟩⟩
  | embed c args => exact h

/-- Renaming formals to names of the same stems keeps a member sound. -/
theorem Member.Sound.of_stems {s s' : Signature} (h : (Member.method s).Sound V apart stems)
    (hn : s'.formalNames.map stem = s.formalNames.map stem)
    (hs : apart = true → ∀ a ∈ stems', a ∈ stems) : (Member.method s').Sound V apart stems' := by
  refine ⟨hn ▸ h.1, fun f hf => ?_⟩
  have hmem : stem f ∈ s.formalNames.map stem := hn ▸ List.mem_map_of_mem hf
  obtain ⟨g, hg, he⟩ := List.mem_map.1 hmem
  obtain ⟨hst, hu⟩ := h.2 g hg
  exact ⟨fun ha hm => hst ha (he ▸ hs ha _ hm), fun i hi => hu i (he.trans hi)⟩

theorem ScopeProper.under {m : Member} (h : ScopeProper scope stems)
    (hm : m.Sound V apart stems) :
    ScopeProper (m.formalNames ++ scope) (m.formalNames.map stem ++ stems) := by
  intro a ha
  rcases List.mem_append.1 ha with ha | ha
  · refine ⟨?_, .inr (List.mem_append_left _ (List.mem_map_of_mem ha))⟩
    cases m with
    | method s => exact (hm.2 a ha).2
    | embed c args => exact absurd ha List.not_mem_nil
  · exact ⟨(h a ha).1, (h a ha).2.imp_right (List.mem_append_right _)⟩

namespace Ty.Scoped

/-- What a scoped interface embeds may be embedded, and is scoped. -/
theorem embedded {ms : List Member} {c : String} {args : List Ty}
    (h : (Ty.interface ms).Scoped V apart scope stems) (hm : .embed c args ∈ ms) :
    V.embeds c ∧ (Ty.named c args).Scoped V apart scope stems := by
  cases h with
  | interface sound inner => exact ⟨(sound _ hm).1, .named (sound _ hm).2 (inner _ hm)⟩

/-- The free type parameters of a scoped type are in scope. -/
theorem mem_scope (h : t.Scoped V apart scope stems) {a : String} (ha : a ∈ t.freeParams) :
    a ∈ scope := by
  induction h with
  | param mem =>
    rw [Ty.freeParams, List.mem_singleton] at ha
    exact ha ▸ mem
  | named _ _ ih =>
    rw [Ty.freeParams, Ty.mem_freeParamsAll] at ha
    obtain ⟨u, hu, ha⟩ := ha
    exact ih u hu ha
  | prim p => simp [Ty.freeParams] at ha
  | struct _ ih =>
    rw [Ty.freeParams, Slot.mem_freeParamsAll] at ha
    obtain ⟨f, hf, ha⟩ := ha
    exact ih f hf ha
  | interface _ _ ih =>
    rw [Ty.freeParams, Member.mem_freeParamsAll] at ha
    obtain ⟨m, hm, ha⟩ := ha
    cases m with
    | method s =>
      obtain ⟨hn, u, hu, ha⟩ := Signature.mem_freeParams.1 ha
      exact (List.mem_append.1 (ih _ hm u hu ha)).resolve_left hn
    | embed c args =>
      obtain ⟨u, hu, ha⟩ := Ty.mem_freeParamsAll.1 ha
      exact (List.mem_append.1 (ih _ hm u hu ha)).resolve_left List.not_mem_nil
  | var n => simp [Ty.freeParams] at ha

/-- The scope may change beyond the free type parameters; the stems around matter only to formals that
have to be apart from them. -/
theorem mono (h : t.Scoped V apart scope stems) (hs : ∀ a ∈ scope, a ∈ scope')
    (hst : apart = true → ∀ a ∈ stems', a ∈ stems) : t.Scoped V apart scope' stems' := by
  induction h generalizing scope' stems' with
  | param mem => exact .param (hs _ mem)
  | named head _ ih => exact .named head fun a ha => ih a ha hs hst
  | prim p => exact .prim p
  | struct _ ih => exact .struct fun f hm => ih f hm hs hst
  | interface sound _ ih =>
    refine .interface (fun m hm => (sound m hm).mono hst) fun m hm u hu => ih m hm u hu ?_ ?_
    · intro a ha
      exact (List.mem_append.1 ha).elim (List.mem_append_left _)
        fun ha => List.mem_append_right _ (hs a ha)
    · intro happ a ha
      exact (List.mem_append.1 ha).elim (List.mem_append_left _)
        fun ha => List.mem_append_right _ (hst happ a ha)
  | var n => exact .var n

/-- What is asked of nested formals may be dropped. -/
theorem loose (h : t.Scoped V apart scope stems) : t.Scoped V false scope [] := by
  have hfalse : t.Scoped V false scope stems := by
    induction h with
    | param mem => exact .param mem
    | named head _ ih => exact .named head ih
    | prim p => exact .prim p
    | struct _ ih => exact .struct ih
    | interface sound _ ih =>
      refine .interface (fun m hm => ?_) ih
      have hm := sound m hm
      cases m with
      | method s => exact ⟨hm.1, fun f hf => ⟨fun ha => absurd ha (by simp), (hm.2 f hf).2⟩⟩
      | embed c args => exact hm
    | var n => exact .var n
  exact hfalse.mono (fun _ ha => ha) fun ha => absurd ha (by simp)

end Ty.Scoped

/-- The free type parameters of a type that fits are in scope. -/
theorem Ty.Fit.mem_scope (h : t.Fit V scope stems) {a : String} (ha : a ∈ t.freeParams) : a ∈ scope :=
  h.scoped.mem_scope ha

end Scoped

/-! ## Substitution keeps a type scoped -/

/-- The entries of a substitution are scoped, under whatever formals, and what it leaves in scope stays
in scope. -/
structure Env.Scoped (V : Vocabulary) (apart : Bool) (θ : Env Ty) (scope scope' : List String) :
    Prop where
  entries : ∀ a x, θ.find? a = some x → ∀ wider stems, (∀ b ∈ scope', b ∈ wider) →
    x.Scoped V apart wider stems
  rest : ∀ a ∈ scope, θ.find? a = none → a ∈ scope'

namespace Env.Scoped

variable {V : Vocabulary} {apart : Bool} {θ : Env Ty} {scope scope' : List String}

/-- Under formals of given names, which are what the signature hides or what its formals became. -/
theorem visible (h : θ.Scoped V apart scope scope') (s : Signature) {names within : List String}
    (hwithin : ∀ a ∈ within, a ∈ names ∨ a ∈ scope ∧ a ∉ s.formalNames) :
    (s.visible θ).Scoped V apart within (names ++ scope') where
  entries a x hx wider stems hw := by
    rw [Signature.find?_visible] at hx
    by_cases ha : a ∈ s.formalNames
    · simp [ha] at hx
    · exact h.entries a x (by simpa [ha] using hx) wider stems
        fun b hb => hw b (List.mem_append_right _ hb)
  rest a ha hx := by
    rcases hwithin a ha with ha | ⟨ha, hf⟩
    · exact List.mem_append_left _ ha
    · rw [Signature.find?_visible, if_neg hf] at hx
      exact List.mem_append_right _ (h.rest a ha hx)

/-- Formals take new names. -/
theorem relabelling {names fresh scope : List String} (h : names.length = fresh.length) :
    (Signature.relabelling names fresh).Scoped V apart (names ++ scope)
      (fresh ++ scope.filter fun a => a ∉ names) where
  entries a x hx wider stems hw := by
    obtain ⟨⟨f, n⟩, hm, he⟩ := List.mem_map.1 (Env.mem_of_find? hx)
    obtain ⟨rfl, rfl⟩ := Prod.mk.inj he
    exact .param (hw n (List.mem_append_left _ (List.of_mem_zip hm).2))
  rest a ha hx := by
    have hn := (Signature.find?_relabelling_eq_none h).1 hx
    refine List.mem_append_right _ (List.mem_filter.2 ⟨?_, by simpa using hn⟩)
    exact (List.mem_append.1 ha).resolve_left hn

end Env.Scoped

/-- Types of one signature that are scoped under its formals go on to be so when it is substituted in:
this is the step for signatures in the induction on depth. -/
theorem Signature.scoped_subst_of {V : Vocabulary} {apart : Bool} {θ : Env Ty} {s : Signature}
    {scope scope' stems stems' : List String} {n : Nat}
    (ih : ∀ (t : Ty) (θ : Env Ty) (scope scope' stems stems' : List String), t.depth ≤ n →
      t.Scoped V apart scope stems → θ.Scoped V apart scope scope' →
      (apart = true → ∀ a ∈ stems', a ∈ stems) → (t.subst θ).Scoped V apart scope' stems')
    (hd : ∀ t ∈ s.types, t.depth ≤ n)
    (h : ∀ t ∈ s.types, t.Scoped V apart (s.formalNames ++ scope) (s.formalNames.map stem ++ stems))
    (hθ : θ.Scoped V apart scope scope') (hs : apart = true → ∀ a ∈ stems', a ∈ stems) :
    ∀ t ∈ (s.subst θ).types,
      t.Scoped V apart ((s.subst θ).formalNames ++ scope') (s.formalNames.map stem ++ stems') := by
  have hs' : apart = true → ∀ a ∈ s.formalNames.map stem ++ stems',
      a ∈ s.formalNames.map stem ++ stems :=
    fun happ a ha => (List.mem_append.1 ha).elim (List.mem_append_left _)
      fun ha => List.mem_append_right _ (hs happ a ha)
  by_cases hc : ∃ f ∈ s.formalNames, f ∈ s.imported θ
  · obtain ⟨f, hf, hi⟩ := hc
    rw [Signature.subst_of_capture hf hi]
    intro t ht
    simp only [Signature.types_map, Signature.types_rename, List.map_map, List.mem_map,
      Function.comp_apply] at ht
    obtain ⟨u, hu, rfl⟩ := ht
    rw [Signature.formalNames_map, Signature.formalNames_rename _ Signature.length_freshFor]
    have hr := Signature.isRenaming_relabelling s.formalNames (s.freshFor θ)
    have hren : (u.subst (Signature.relabelling s.formalNames (s.freshFor θ))).Scoped V apart
        (s.freshFor θ ++ scope.filter fun a => a ∉ s.formalNames)
        (s.formalNames.map stem ++ stems) :=
      ih u _ _ _ _ _ (hd u hu) (h u hu) (.relabelling (Signature.length_freshFor).symm)
        fun _ _ ha => ha
    refine ih _ _ _ _ _ _ ((Ty.depth_substAt_le hr _ _ _).2 (hd u hu)) hren
      (hθ.visible s fun a ha => ?_) hs'
    refine (List.mem_append.1 ha).imp_right fun ha => ?_
    simpa using List.mem_filter.1 ha
  · rw [Signature.subst_of_apart fun f hf hi => hc ⟨f, hf, hi⟩]
    intro t ht
    rw [Signature.types_map, List.mem_map] at ht
    obtain ⟨u, hu, rfl⟩ := ht
    rw [Signature.formalNames_map]
    refine ih u _ _ _ _ _ (hd u hu) (h u hu) (hθ.visible s fun a ha => ?_) hs'
    by_cases hf : a ∈ s.formalNames
    · exact .inl hf
    · exact .inr ⟨(List.mem_append.1 ha).resolve_left hf, hf⟩

theorem Ty.Scoped.subst {V : Vocabulary} {apart : Bool} {t : Ty} {θ : Env Ty}
    {scope scope' stems stems' : List String} (h : t.Scoped V apart scope stems)
    (hθ : θ.Scoped V apart scope scope') (hs : apart = true → ∀ a ∈ stems', a ∈ stems) :
    (t.subst θ).Scoped V apart scope' stems' := by
  suffices hall : ∀ (n : Nat) (t : Ty) (θ : Env Ty) (scope scope' stems stems' : List String),
      t.depth ≤ n → t.Scoped V apart scope stems → θ.Scoped V apart scope scope' →
      (apart = true → ∀ a ∈ stems', a ∈ stems) → (t.subst θ).Scoped V apart scope' stems' from
    hall t.depth t θ scope scope' stems stems' (Nat.le_refl _) h hθ hs
  intro n
  induction n with
  | zero =>
    intro t _ _ _ _ _ hd
    have := t.depth_pos
    omega
  | succ n ih =>
    intro t θ scope scope' stems stems' hd h hθ hs
    cases h with
    | @param _ _ a mem =>
      rw [Ty.subst_param]
      cases ha : θ.find? a with
      | some x => exact hθ.entries a x ha _ _ fun _ hb => hb
      | none => exact .param (hθ.rest a mem ha)
    | named head inner =>
      rw [Ty.depth_named_le] at hd
      rw [Ty.subst_named]
      refine .named (by simpa using head) ?_
      rw [List.forall_mem_map]
      exact fun a ha => ih a θ _ _ _ _ (hd a ha) (inner a ha) hθ hs
    | prim p => exact .prim p
    | struct inner =>
      rw [Ty.depth_struct_le] at hd
      rw [Ty.subst_struct]
      refine .struct fun f hf => ?_
      obtain ⟨g, hg, rfl⟩ := List.mem_map.1 hf
      exact ih g.ty θ _ _ _ _ (hd g hg) (inner g hg) hθ hs
    | interface sound inner =>
      rw [Ty.depth_interface_le] at hd
      rw [Ty.subst_interface]
      refine .interface ?_ ?_ <;> rw [List.forall_mem_map] <;> intro m hm
      · cases m with
        | method s => exact (sound _ hm).of_stems (s.map_stem_formalNames_subst θ) hs
        | embed c args => simpa [Member.Sound] using (sound _ hm)
      · cases m with
        | method s =>
          have hstep := Signature.scoped_subst_of ih (hd _ hm) (inner _ hm) hθ hs
          rw [← s.map_stem_formalNames_subst θ] at hstep
          exact hstep
        | embed c args =>
          intro t ht
          obtain ⟨u, hu, rfl⟩ := List.mem_map.1 ht
          exact ih u θ _ _ _ _ (hd _ hm u hu) (inner _ hm u hu) hθ hs
    | var v => exact .var v

/-! ## Closing what was substituted -/

/-- The closing that a substitution followed by a closing amounts to. -/
def Env.closing (θ : Env Ty) (ρ : String → Ty) (a : String) : Ty :=
  ((θ.find? a).getD (.param a)).close ρ

/-- Closed signatures agree if names, stems and closed types do. -/
theorem Signature.close_ext {ρ σ : String → Ty} {s s' : Signature} (hm : s.name = s'.name)
    (hf : s.formalNames.map stem = s'.formalNames.map stem)
    (hp : s.params.map (·.name) = s'.params.map (·.name))
    (ht : s.types.map (Ty.close (shield ρ s.formalNames))
      = s'.types.map (Ty.close (shield σ s'.formalNames))) : s.close ρ = s'.close σ := by
  refine Signature.ext_types hm ?_ ?_ ?_
  · simpa using hf
  · simpa [Signature.close, Slot.map, Function.comp_def] using hp
  · simpa using ht

/-- Two closings inside a signature and what substitution makes of it: they agree on formals of one
position, and past the formals the second is a closing and the first closes the entries by it. -/
structure Signature.Inside (θ : Env Ty) (ρ : String → Ty) (names names' : List String)
    (σ σ' : String → Ty) : Prop where
  formal : ∀ (i : Nat) (f f' : String), names[i]? = some f → names'[i]? = some f' → σ f = σ' f'
  outer : ∀ a, a ∉ names → σ a = θ.closing ρ a
  outer' : ∀ a, a ∉ names' → σ' a = ρ a

theorem Signature.inside_shield {θ : Env Ty} {names names' : List String}
    (h : names'.map stem = names.map stem) (ρ : String → Ty) :
    Signature.Inside θ ρ names names' (shield (θ.closing ρ) names) (shield ρ names') where
  formal i f f' hf hf' := by
    have hs := congrArg (·[i]?) h
    rw [shield, shield, if_pos (List.mem_of_getElem? hf), if_pos (List.mem_of_getElem? hf')]
    exact congrArg Ty.param (by simpa [hf, hf'] using hs.symm)
  outer a ha := if_neg ha
  outer' a ha := if_neg ha

/-- Inside a signature whose formals keep their names, the visible entries close as all do. -/
theorem Signature.Inside.visible {θ : Env Ty} {s : Signature} {ρ σ σ' : String → Ty}
    (h : Signature.Inside θ ρ s.formalNames s.formalNames σ σ')
    (hf : ∀ f ∈ s.formalNames, f ∉ s.imported θ) (a : String) :
    (s.visible θ).closing σ' a = σ a := by
  rw [Env.closing, Signature.find?_visible]
  by_cases ha : a ∈ s.formalNames
  · obtain ⟨i, hi⟩ := List.mem_iff_getElem?.1 ha
    rw [if_pos ha, Option.getD_none, Ty.close_param, h.formal i a a hi hi]
  · rw [if_neg ha, h.outer a ha, Env.closing]
    cases hx : θ.find? a with
    | none => exact h.outer' a ha
    | some x =>
      refine Ty.close_congr fun q hq => h.outer' q fun hmem => ?_
      exact hf q hmem (Signature.mem_imported.2 ⟨a, x, ha, hx, hq⟩)

/-- Inside a signature whose formals were renamed, closing undoes the renaming. -/
theorem Signature.Inside.relabelling {V : Vocabulary} {θ : Env Ty} {s : Signature}
    {scope stems : List String} {ρ σ σ' : String → Ty}
    (h : Signature.Inside θ ρ s.formalNames (s.freshFor θ) σ σ') (hsc : ScopeProper scope stems)
    (hp : (Member.method s).Sound V true stems)
    (hdom : ∀ a x, θ.find? a = some x → Unprimed a ∨ stem a ∈ stems) {a : String}
    (ha : a ∈ s.formalNames ++ scope) :
    (Signature.relabelling s.formalNames (s.freshFor θ)).closing ((s.visible θ).closing σ') a
      = σ a := by
  -- What renaming made is neither in scope nor replaced, for its stem is that of a formal here.
  have happart (q : String) (hq : q ∈ s.freshFor θ) (hn : q ∉ s.formalNames)
      (hor : Unprimed q ∨ stem q ∈ stems) : False := by
    rcases Signature.of_mem_freshFor hq with hprime | ⟨hmem, -⟩
    · rcases hor with hu | hst
      · exact hprime hu
      · have hmem : stem q ∈ s.formalNames.map stem :=
          Signature.map_stem_freshFor (η := θ) ▸ List.mem_map_of_mem hq
        obtain ⟨f, hf, he⟩ := List.mem_map.1 hmem
        exact (hp.2 f hf).1 rfl (he ▸ hst)
    · exact hn hmem
  rw [Env.closing]
  by_cases hf : a ∈ s.formalNames
  · have hsome := (Signature.find?_relabelling_isSome
      (Signature.length_freshFor (η := θ)).symm).2 hf
    obtain ⟨x, hx⟩ := Option.isSome_iff_exists.1 hsome
    obtain ⟨i, q, hi, hqi, rfl⟩ := Signature.of_find?_relabelling hx
    have hq := List.mem_of_getElem? hqi
    have hnone : (s.visible θ).find? q = none := by
      rw [Signature.find?_visible]
      by_cases hqf : q ∈ s.formalNames
      · rw [if_pos hqf]
      · rw [if_neg hqf]
        cases hy : θ.find? q with
        | none => rfl
        | some y => exact (happart q hq hqf (hdom q y hy)).elim
    rw [hx, Option.getD_some, Ty.close_param, Env.closing, hnone, Option.getD_none, Ty.close_param,
      h.formal i a q hi hqi]
  · have hnone := (Signature.find?_relabelling_eq_none
      (Signature.length_freshFor (η := θ)).symm).2 hf
    have hfresh : a ∉ s.freshFor θ := fun hmem =>
      happart a hmem hf (hsc a ((List.mem_append.1 ha).resolve_left hf)).2
    rw [hnone, Option.getD_none, Ty.close_param, Env.closing, Signature.find?_visible, if_neg hf,
      h.outer a hf, Env.closing]
    cases hx : θ.find? a with
    | none => exact h.outer' a hfresh
    | some x =>
      refine Ty.close_congr fun q hq => h.outer' q fun hmem => ?_
      exact Signature.freshFor_notMem hmem (Signature.mem_imported.2 ⟨a, x, hf, hx, hq⟩)

/-- Closing the types of a substituted signature is closing the types of the signature. This is the
step for signatures in the induction on depth. -/
theorem Signature.map_close_types_subst_of {V : Vocabulary} {θ : Env Ty} {s : Signature}
    {scope stems : List String} {n : Nat}
    (ih : ∀ (t : Ty) (θ : Env Ty) (ρ : String → Ty) (scope stems : List String), t.depth ≤ n →
      t.Scoped V true scope stems → ScopeProper scope stems →
      (∀ a x, θ.find? a = some x → Unprimed a ∨ stem a ∈ stems) →
      (t.subst θ).close ρ = t.close (θ.closing ρ))
    (hd : ∀ t ∈ s.types, t.depth ≤ n) (hp : (Member.method s).Sound V true stems)
    (h : ∀ t ∈ s.types, t.Scoped V true (s.formalNames ++ scope) (s.formalNames.map stem ++ stems))
    (hsc : ScopeProper scope stems)
    (hdom : ∀ a x, θ.find? a = some x → Unprimed a ∨ stem a ∈ stems) {ρ σ σ' : String → Ty}
    (hσ : Signature.Inside θ ρ s.formalNames (s.subst θ).formalNames σ σ') :
    (s.subst θ).types.map (Ty.close σ') = s.types.map (Ty.close σ) := by
  have hsc' := hsc.under hp
  have hvis : ∀ a x, (s.visible θ).find? a = some x →
      Unprimed a ∨ stem a ∈ s.formalNames.map stem ++ stems := by
    intro a x hx
    rw [find?_visible] at hx
    by_cases hf : a ∈ s.formalNames
    · simp [hf] at hx
    · rw [if_neg hf] at hx
      exact (hdom a x hx).imp_right (List.mem_append_right _)
  by_cases hc : ∃ f ∈ s.formalNames, f ∈ s.imported θ
  · obtain ⟨f, hf, hi⟩ := hc
    have hr := isRenaming_relabelling s.formalNames (s.freshFor θ)
    rw [subst_of_capture hf hi] at hσ ⊢
    rw [formalNames_map, formalNames_rename _ length_freshFor] at hσ
    rw [types_map, types_rename, List.map_map, List.map_map]
    refine List.map_congr_left fun u hu => ?_
    simp only [Function.comp_apply]
    have hren : (u.subst (relabelling s.formalNames (s.freshFor θ))).Scoped V true
        (s.freshFor θ ++ scope.filter fun a => a ∉ s.formalNames)
        (s.formalNames.map stem ++ stems) :=
      (h u hu).subst (.relabelling (length_freshFor).symm) fun _ _ ha => ha
    have hscr : ScopeProper (s.freshFor θ ++ scope.filter fun a => a ∉ s.formalNames)
        (s.formalNames.map stem ++ stems) := by
      intro a ha
      rcases List.mem_append.1 ha with ha | ha
      · have hmem : stem a ∈ s.formalNames.map stem :=
          map_stem_freshFor (η := θ) ▸ List.mem_map_of_mem ha
        obtain ⟨g, hg, he⟩ := List.mem_map.1 hmem
        exact ⟨fun i hi => (hp.2 g hg).2 i (he.trans hi), .inr (List.mem_append_left _ hmem)⟩
      · exact hsc' a (List.mem_append_right _ (List.mem_filter.1 ha).1)
    have hdr : (u.subst (relabelling s.formalNames (s.freshFor θ))).depth ≤ n :=
      (Ty.depth_substAt_le hr _ _ _).2 (hd u hu)
    rw [ih _ _ _ _ _ hdr hren hscr hvis, ih u _ _ _ _ (hd u hu) (h u hu) hsc' ?_]
    · exact Ty.close_congr fun a ha => hσ.relabelling hsc hp hdom ((h u hu).mem_scope ha)
    · intro a x hx
      have hmem := (find?_relabelling_isSome (length_freshFor (η := θ)).symm).1
        (Option.isSome_iff_exists.2 ⟨x, hx⟩)
      exact .inr (List.mem_append_left _ (List.mem_map_of_mem hmem))
  · have hf : ∀ f ∈ s.formalNames, f ∉ s.imported θ := fun f hf hi => hc ⟨f, hf, hi⟩
    rw [subst_of_apart hf] at hσ ⊢
    rw [formalNames_map] at hσ
    rw [types_map, List.map_map]
    refine List.map_congr_left fun u hu => ?_
    rw [Function.comp_apply, ih u _ _ _ _ (hd u hu) (h u hu) hsc' hvis]
    exact Ty.close_congr fun a _ => hσ.visible hf a

/-- **Closing a substituted type is closing the type by the closed entries.** -/
theorem Ty.Scoped.close_subst {V : Vocabulary} {t : Ty} {θ : Env Ty} {scope stems : List String}
    (h : t.Scoped V true scope stems) (hsc : ScopeProper scope stems)
    (hdom : ∀ a x, θ.find? a = some x → Unprimed a ∨ stem a ∈ stems) (ρ : String → Ty) :
    (t.subst θ).close ρ = t.close (θ.closing ρ) := by
  suffices hall : ∀ (n : Nat) (t : Ty) (θ : Env Ty) (ρ : String → Ty) (scope stems : List String),
      t.depth ≤ n → t.Scoped V true scope stems → ScopeProper scope stems →
      (∀ a x, θ.find? a = some x → Unprimed a ∨ stem a ∈ stems) →
      (t.subst θ).close ρ = t.close (θ.closing ρ) from
    hall t.depth t θ ρ scope stems (Nat.le_refl _) h hsc hdom
  intro n
  induction n with
  | zero =>
    intro t _ _ _ _ hd
    have := t.depth_pos
    omega
  | succ n ih =>
    intro t θ ρ scope stems hd h hsc hdom
    cases h with
    | param mem => rfl
    | named head inner =>
      rw [Ty.depth_named_le] at hd
      rw [Ty.subst_named, Ty.close_named, Ty.close_named, List.map_map, Ty.named.injEq]
      exact ⟨rfl, List.map_congr_left fun a ha => ih a θ ρ _ _ (hd a ha) (inner a ha) hsc hdom⟩
    | prim p => rfl
    | struct inner =>
      rw [Ty.depth_struct_le] at hd
      rw [Ty.subst_struct, Ty.close_struct, Ty.close_struct, List.map_map, Ty.struct.injEq]
      refine List.map_congr_left fun f hf => ?_
      simp only [Function.comp_apply, Slot.map, ih f.ty θ ρ _ _ (hd f hf) (inner f hf) hsc hdom]
    | interface sound inner =>
      rw [Ty.depth_interface_le] at hd
      rw [Ty.subst_interface, Ty.close_interface, Ty.close_interface, List.map_map,
        Ty.interface.injEq]
      refine List.map_congr_left fun m hm => ?_
      rw [Function.comp_apply]
      cases m with
      | method s =>
        have hstems := s.map_stem_formalNames_subst θ
        have htypes := Signature.map_close_types_subst_of ih (hd _ hm) (sound _ hm) (inner _ hm) hsc
          hdom (Signature.inside_shield hstems ρ)
        exact congrArg Member.method
          (Signature.close_ext (Signature.name_subst θ s) hstems (s.map_name_params_subst θ) htypes)
      | embed c args =>
        rw [Member.subst_embed, Member.close, Member.close, List.map_map, Member.embed.injEq]
        exact ⟨rfl, List.map_congr_left fun a ha =>
          ih a θ ρ _ _ (hd _ hm a ha) (inner _ hm a ha) hsc hdom⟩
    | var v => rfl

/-- Closing the types of a substituted signature is closing the types of the signature. -/
theorem Signature.map_close_types_subst {V : Vocabulary} {θ : Env Ty} {s : Signature}
    {scope stems : List String} (hp : (Member.method s).Sound V true stems)
    (h : ∀ t ∈ s.types, t.Scoped V true (s.formalNames ++ scope) (s.formalNames.map stem ++ stems))
    (hsc : ScopeProper scope stems)
    (hdom : ∀ a x, θ.find? a = some x → Unprimed a ∨ stem a ∈ stems) {ρ σ σ' : String → Ty}
    (hσ : Signature.Inside θ ρ s.formalNames (s.subst θ).formalNames σ σ') :
    (s.subst θ).types.map (Ty.close σ') = s.types.map (Ty.close σ) :=
  map_close_types_subst_of (fun _ _ ρ _ _ _ h hsc hdom => h.close_subst hsc hdom ρ)
    (Ty.depthAll_le.1 (Nat.le_refl (Ty.depthAll s.types))) hp h hsc hdom hσ

end FeatherGo
