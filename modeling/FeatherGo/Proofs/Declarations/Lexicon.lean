import FeatherGo.Proofs.Declarations.Checked

/-!
# Names that types are made of

A `Lexicon` says which names a type may hold. Substitution makes up no name but by adding primes to a
formal, so types over a lexicon that is closed under primes stay over it (`Ty.Over.subst`). A type
that passes its check is over a lexicon that holds the names it writes (`Table.over_of_okType`).
-/

namespace FeatherGo

/-- Which names a type may hold. -/
structure Lexicon where
  /-- Names of types, methods, fields and value parameters. -/
  name : String → Prop
  /-- Names of type parameters. -/
  param : String → Prop

/-- A prime does not lead out of the names of type parameters. -/
def Lexicon.Primes (L : Lexicon) : Prop := ∀ a, L.param a → L.param (a ++ "'")

/-! ## The names in a type -/

/-- The names at the head of an interface member, but for type formals. -/
def Member.labels : Member → List String
  | .method s => s.name :: s.params.map (·.name)
  | .embed c _ => [c]

/-- The names at the head of a type, but for type parameters. -/
def Ty.labels : Ty → List String
  | .named c _ => [c]
  | .struct fs => fs.map (·.name)
  | .interface ms => ms.flatMap Member.labels
  | _ => []

/-- The type parameter that a type is, or those that it binds at its head. -/
def Ty.parameters : Ty → List String
  | .param a => [a]
  | t => t.bound

/-- A type holds names of a lexicon alone. -/
def Ty.Over (L : Lexicon) (t : Ty) : Prop :=
  ∀ u ∈ t.preorder, (∀ a ∈ u.labels, L.name a) ∧ ∀ a ∈ u.parameters, L.param a

/-- An interface member holds names of a lexicon alone. -/
structure Member.Over (L : Lexicon) (m : Member) : Prop where
  labels : ∀ a ∈ m.labels, L.name a
  formals : ∀ a ∈ m.formalNames, L.param a
  types : ∀ t ∈ m.types, t.Over L

/-- A signature holds names of a lexicon alone. -/
abbrev Signature.Over (L : Lexicon) (s : Signature) : Prop := (Member.method s).Over L

section Heads

variable {L : Lexicon}

theorem Ty.over_param {a : String} : (Ty.param a).Over L ↔ L.param a := by
  simp [Ty.Over, Ty.preorder, Ty.labels, Ty.parameters]

theorem Ty.over_prim (p : Prim) : (Ty.prim p).Over L := by
  simp [Ty.Over, Ty.preorder, Ty.labels, Ty.parameters, Ty.bound]

theorem Ty.over_var (n : Nat) : (Ty.var n).Over L := by
  simp [Ty.Over, Ty.preorder, Ty.labels, Ty.parameters, Ty.bound]

theorem Ty.over_named {c : String} {args : List Ty} :
    (Ty.named c args).Over L ↔ L.name c ∧ ∀ a ∈ args, a.Over L := by
  rw [Ty.Over, Ty.preorder, List.forall_mem_cons]
  constructor
  · rintro ⟨⟨hc, -⟩, h⟩
    exact ⟨hc c List.mem_cons_self, fun a ha u hu => h u (Ty.mem_preorderAll.2 ⟨a, ha, hu⟩)⟩
  · rintro ⟨hc, h⟩
    refine ⟨⟨fun a ha => List.mem_singleton.1 ha ▸ hc, fun a ha => absurd ha List.not_mem_nil⟩, ?_⟩
    intro u hu
    obtain ⟨a, ha, hu⟩ := Ty.mem_preorderAll.1 hu
    exact h a ha u hu

theorem Ty.over_struct {fs : List Slot} :
    (Ty.struct fs).Over L ↔ (∀ f ∈ fs, L.name f.name) ∧ ∀ f ∈ fs, f.ty.Over L := by
  rw [Ty.Over, Ty.preorder, List.forall_mem_cons]
  constructor
  · rintro ⟨⟨hnames, -⟩, h⟩
    exact ⟨fun f hf => hnames _ (List.mem_map_of_mem hf),
      fun f hf u hu => h u (Slot.mem_preorderAll.2 ⟨f, hf, hu⟩)⟩
  · rintro ⟨hnames, h⟩
    refine ⟨⟨List.forall_mem_map.2 hnames, fun a ha => absurd ha List.not_mem_nil⟩, ?_⟩
    intro u hu
    obtain ⟨f, hf, hu⟩ := Slot.mem_preorderAll.1 hu
    exact h f hf u hu

theorem Ty.over_interface {ms : List Member} :
    (Ty.interface ms).Over L ↔ ∀ m ∈ ms, m.Over L := by
  simp only [Ty.Over, Ty.preorder, List.forall_mem_cons, Ty.labels, Ty.parameters, Ty.bound,
    List.mem_flatMap, forall_exists_index, and_imp]
  constructor
  · rintro ⟨⟨hl, hf⟩, h⟩ m hm
    exact ⟨fun a ha => hl a m hm ha, fun a ha => hf a m hm ha,
      fun t ht u hu => h u (Member.mem_preorderAll.2 ⟨m, hm, t, ht, hu⟩)⟩
  · intro h
    refine ⟨⟨fun a m hm ha => (h m hm).labels a ha, fun a m hm ha => (h m hm).formals a ha⟩, ?_⟩
    intro u hu
    obtain ⟨m, hm, t, ht, hu⟩ := Member.mem_preorderAll.1 hu
    exact (h m hm).types t ht u hu

/-- The type parameters that are free in a type are in its lexicon. -/
theorem Ty.Over.of_mem_freeParams {t : Ty} (h : t.Over L) {a : String} (ha : a ∈ t.freeParams) :
    L.param a := by
  induction t using Ty.induction with
  | param b =>
    obtain rfl := List.mem_singleton.1 ha
    exact Ty.over_param.1 h
  | named c args ih =>
    obtain ⟨t, ht, ha⟩ := Ty.mem_freeParamsAll.1 ha
    exact ih t ht ((Ty.over_named.1 h).2 t ht) ha
  | prim p => cases ha
  | struct fs ih =>
    obtain ⟨f, hf, ha⟩ := Slot.mem_freeParamsAll.1 ha
    exact ih f hf ((Ty.over_struct.1 h).2 f hf) ha
  | interface ms ih =>
    obtain ⟨m, hm, ha⟩ := Member.mem_freeParamsAll.1 ha
    have hover := Ty.over_interface.1 h m hm
    cases m with
    | method s =>
      obtain ⟨-, t, ht, ha⟩ := Signature.mem_freeParams.1 ha
      exact ih _ hm t ht (hover.types t ht) ha
    | embed c args =>
      obtain ⟨t, ht, ha⟩ := Ty.mem_freeParamsAll.1 ha
      exact ih _ hm t ht (hover.types t ht) ha
  | var n => cases ha

/-- The type formals that a type binds are in its lexicon. -/
theorem Ty.Over.of_mem_binders {t : Ty} (h : t.Over L) {a : String} (ha : a ∈ t.binders) :
    L.param a := by
  obtain ⟨u, hu, ha⟩ := List.mem_flatMap.1 ha
  cases u with
  | interface ms => exact (h _ hu).2 a ha
  | _ => cases ha

end Heads

/-! ## Substitution -/

namespace Lexicon.Primes

variable {L : Lexicon}

theorem primedIn (hL : L.Primes) {name : String} (h : L.param name) (taken : List String) (n : Nat) :
    L.param (primedIn taken n name) := by
  induction n generalizing name with
  | zero => exact h
  | succ n ih =>
    rw [FeatherGo.primedIn]
    split
    · exact ih (hL _ h)
    · exact h

theorem freshNames (hL : L.Primes) {free taken names : List String} (h : ∀ a ∈ names, L.param a) :
    ∀ a ∈ Signature.freshNames free taken names, L.param a := by
  induction names generalizing taken with
  | nil => exact fun a ha => absurd ha List.not_mem_nil
  | cons f fs ih =>
    rw [List.forall_mem_cons] at h
    rw [Signature.freshNames]
    split
    · exact List.forall_mem_cons.2 ⟨hL.primedIn (hL _ h.1) _ _, ih h.2⟩
    · exact List.forall_mem_cons.2 ⟨h.1, ih h.2⟩

end Lexicon.Primes

/-- The entries of a substitution hold names of a lexicon alone. -/
def Env.Over (L : Lexicon) (η : Env Ty) : Prop := ∀ a x, η.find? a = some x → x.Over L

section Subst

variable {L : Lexicon} {η : Env Ty}

theorem Env.Over.visible (h : η.Over L) (s : Signature) : (s.visible η).Over L := by
  intro a x hx
  rw [Signature.find?_visible] at hx
  split at hx
  · cases hx
  · exact h a x hx

theorem Env.over_relabelling {names fresh : List String} (h : ∀ a ∈ fresh, L.param a) :
    Env.Over L (Signature.relabelling names fresh) := by
  intro a x hx
  obtain ⟨⟨f, n⟩, hmem, he⟩ := List.mem_map.1 (Env.mem_of_find? hx)
  obtain rfl := (Prod.mk.inj he).2
  exact Ty.over_param.2 (h n (List.of_mem_zip hmem).2)

/-- Substitution keeps a signature over a lexicon if it does so with its types. -/
theorem Signature.over_subst_of (hL : L.Primes) {s : Signature} (hs : s.Over L) (hη : η.Over L)
    (ih : ∀ t ∈ s.types, ∀ θ r : Env Ty, θ.Over L → r.Over L → r.IsRenaming →
      (t.subst θ).Over L ∧ ((t.subst r).subst θ).Over L) : (s.subst η).Over L := by
  have hfresh : ∀ a ∈ s.freshFor η, L.param a := hL.freshNames hs.formals
  have hrel : Env.Over L (relabelling s.formalNames (s.freshFor η)) := Env.over_relabelling hfresh
  have hrename := isRenaming_relabelling s.formalNames (s.freshFor η)
  by_cases hc : ∃ f ∈ s.formalNames, f ∈ s.imported η
  · obtain ⟨f, hf, hi⟩ := hc
    rw [subst_of_capture hf hi]
    refine ⟨?_, fun a ha => ?_, fun t ht => ?_⟩
    · have hlabels := hs.labels
      simp only [Member.labels, name_map, map_name_params_map, rename, renameWith] at hlabels ⊢
      exact hlabels
    · rw [Member.formalNames, formalNames_map, formalNames_rename _ length_freshFor] at ha
      exact hfresh a ha
    · simp only [Member.types, types_map, types_rename, List.map_map, List.mem_map] at ht
      obtain ⟨u, hu, rfl⟩ := ht
      exact (ih u hu _ _ (hη.visible s) hrel hrename).2
  · rw [subst_of_apart fun f hf hi => hc ⟨f, hf, hi⟩]
    refine ⟨?_, fun a ha => ?_, fun t ht => ?_⟩
    · have hlabels := hs.labels
      simp only [Member.labels, name_map, map_name_params_map] at hlabels ⊢
      exact hlabels
    · rw [Member.formalNames, formalNames_map] at ha
      exact hs.formals a ha
    · simp only [Member.types, types_map, List.mem_map] at ht
      obtain ⟨u, hu, rfl⟩ := ht
      exact (ih u hu _ _ (hη.visible s) hrel hrename).1

/-- **Substitution keeps types over a lexicon that is closed under primes.** -/
theorem Ty.Over.subst (hL : L.Primes) {t : Ty} (ht : t.Over L) (hη : η.Over L) :
    (t.subst η).Over L := by
  -- Renaming keeps the depth of a type, so the induction is on that.
  suffices hall : ∀ (n : Nat) (t : Ty) (η : Env Ty), t.depth ≤ n → t.Over L → η.Over L →
      (t.subst η).Over L from hall t.depth t η (Nat.le_refl _) ht hη
  intro n
  induction n with
  | zero =>
    intro t _ hd
    have := t.depth_pos
    omega
  | succ n ih =>
    intro t η hd ht hη
    cases t with
    | param a =>
      rw [Ty.subst_param]
      cases ha : η.find? a with
      | some x => exact hη a x ha
      | none => exact ht
    | named c args =>
      rw [Ty.depth_named_le] at hd
      obtain ⟨hc, hargs⟩ := Ty.over_named.1 ht
      rw [Ty.subst_named, Ty.over_named, List.forall_mem_map]
      exact ⟨hc, fun a ha => ih a η (hd a ha) (hargs a ha) hη⟩
    | prim p => exact ht
    | struct fs =>
      rw [Ty.depth_struct_le] at hd
      obtain ⟨hnames, hfs⟩ := Ty.over_struct.1 ht
      rw [Ty.subst_struct, Ty.over_struct, List.forall_mem_map, List.forall_mem_map]
      exact ⟨hnames, fun f hf => ih f.ty η (hd f hf) (hfs f hf) hη⟩
    | interface ms =>
      rw [Ty.depth_interface_le] at hd
      rw [Ty.over_interface] at ht
      rw [Ty.subst_interface, Ty.over_interface, List.forall_mem_map]
      intro m hm
      have hdm := hd m hm
      have hover := ht m hm
      cases m with
      | method s =>
        refine Signature.over_subst_of hL hover hη fun t ht θ r hθ hr hrename => ?_
        have hdepth : (t.subst r).depth ≤ n :=
          (Ty.depth_substAt_le hrename t.depth n t).2 (hdm t ht)
        have hsub := ih t r (hdm t ht) (hover.types t ht) hr
        exact ⟨ih t θ (hdm t ht) (hover.types t ht) hθ, ih _ θ hdepth hsub hθ⟩
      | embed c args =>
        refine ⟨hover.labels, hover.formals, fun t ht => ?_⟩
        obtain ⟨u, hu, rfl⟩ := List.mem_map.1 ht
        exact ih u η (hdm u hu) (hover.types u hu) hη
    | var v => exact ht

theorem Signature.Over.subst (hL : L.Primes) {s : Signature} (hs : s.Over L) (hη : η.Over L) :
    (s.subst η).Over L :=
  Signature.over_subst_of hL hs hη fun _ ht _ _ hθ hr _ =>
    ⟨(hs.types _ ht).subst hL hθ, ((hs.types _ ht).subst hL hr).subst hL hθ⟩

theorem Env.Over.append {θ : Env Ty} (h : η.Over L) (h' : θ.Over L) : Env.Over L (η ++ θ) := by
  intro a x hx
  rw [Env.find?_append] at hx
  cases ha : θ.find? a with
  | some y =>
    rw [ha] at hx
    exact Option.some.inj hx ▸ h' a y ha
  | none =>
    rw [ha] at hx
    exact h a x hx

end Subst

/-! ## Types that pass their check -/

namespace Table

variable {T : Table} {n : Nat} {Δ : Bounds} {L : Lexicon}

/-- A type that passes its check is over a lexicon that holds the parameters in scope and the names
that the type writes and binds. -/
theorem over_of_okType {t : Ty} (hΔ : ∀ a ∈ Δ.names, L.param a) (hb : ∀ a ∈ t.binders, L.param a)
    (hl : ∀ u ∈ t.preorder, ∀ a ∈ u.labels, L.name a) (h : T.okType n Δ t = .ok ()) : t.Over L := by
  induction t using Ty.induction generalizing Δ with
  | param a =>
    obtain ⟨b, hbound, -⟩ := Answer.bind_eq_ok.1 h
    rw [Answer.liftExcept_eq, Answer.ofExcept_eq_ok, boundOf_eq_ok] at hbound
    exact Ty.over_param.2 (hΔ a (Env.find?_isSome.1 (hbound ▸ rfl)))
  | named c args ih =>
    obtain ⟨td, -, h⟩ := Answer.bind_eq_ok.1 h
    obtain ⟨⟨⟩, hargs, -⟩ := Answer.bind_eq_ok.1 h
    have hpart {a u : Ty} (ha : a ∈ args) (hu : u ∈ a.preorder) :
        u ∈ (Ty.named c args).preorder :=
      List.mem_cons_of_mem _ (Ty.mem_preorderAll.2 ⟨a, ha, hu⟩)
    refine Ty.over_named.2 ⟨hl _ List.mem_cons_self c List.mem_cons_self, fun a ha => ?_⟩
    refine ih a ha hΔ (fun b hm => hb b ?_) (fun u hu => hl u (hpart ha hu)) (of_okTypes hargs a ha)
    obtain ⟨u, hu, hm⟩ := List.mem_flatMap.1 hm
    exact List.mem_flatMap.2 ⟨u, hpart ha hu, hm⟩
  | prim p => exact Ty.over_prim p
  | struct fs ih =>
    have hpart {f : Slot} {u : Ty} (hf : f ∈ fs) (hu : u ∈ f.ty.preorder) :
        u ∈ (Ty.struct fs).preorder :=
      List.mem_cons_of_mem _ (Slot.mem_preorderAll.2 ⟨f, hf, hu⟩)
    refine Ty.over_struct.2 ⟨fun f hf => ?_, fun f hf => ?_⟩
    · exact hl _ List.mem_cons_self _ (List.mem_map_of_mem hf)
    refine ih f hf hΔ (fun b hm => hb b ?_) (fun u hu => hl u (hpart hf hu)) (of_okFields h f hf)
    obtain ⟨u, hu, hm⟩ := List.mem_flatMap.1 hm
    exact List.mem_flatMap.2 ⟨u, hpart hf hu, hm⟩
  | interface ms ih =>
    have hok := of_okMembers h
    have hpart {m : Member} {t u : Ty} (hm : m ∈ ms) (ht : t ∈ m.types) (hu : u ∈ t.preorder) :
        u ∈ (Ty.interface ms).preorder :=
      List.mem_cons_of_mem _ (Member.mem_preorderAll.2 ⟨m, hm, t, ht, hu⟩)
    refine Ty.over_interface.2 fun m hm => ?_
    have hformals : ∀ a ∈ m.formalNames, L.param a := fun a ha =>
      hb a (List.mem_flatMap.2 ⟨_, List.mem_cons_self, List.mem_flatMap.2 ⟨m, hm, ha⟩⟩)
    refine ⟨fun a ha => hl _ List.mem_cons_self a (List.mem_flatMap.2 ⟨m, hm, ha⟩), hformals, ?_⟩
    have hin (t : Ty) (ht : t ∈ m.types) (Δ' : Bounds) (hΔ' : ∀ a ∈ Δ'.names, L.param a)
        (hok : T.okType n Δ' t = .ok ()) : t.Over L := by
      refine ih m hm t ht hΔ' (fun b hmem => hb b ?_) (fun u hu => hl u (hpart hm ht hu)) hok
      obtain ⟨u, hu, hmem⟩ := List.mem_flatMap.1 hmem
      exact List.mem_flatMap.2 ⟨u, hpart hm ht hu, hmem⟩
    cases m with
    | method s =>
      obtain ⟨-, -, -, htypes⟩ := of_okSignature (hok _ hm)
      refine fun t ht => hin t ht _ (fun a ha => ?_) (htypes t ht)
      rw [names_extend] at ha
      exact (List.mem_append.1 ha).elim (hΔ a) (hformals a)
    | embed c args =>
      obtain ⟨-, hargs, -⟩ := hok _ hm
      exact fun t ht => hin t ht Δ hΔ (of_okTypes hargs t ht)
  | var v => exact Ty.over_var v

end Table

end FeatherGo
