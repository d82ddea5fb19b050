import FeatherGo.Proofs.Methods.Transport

/-!
# Methods under assignment

What a type with variables offers is offered, with types assigned, by the type with types assigned: to
assign types to variables, under a bounding context whose parameters they may mention, carries what types
offer from the context to itself (`Table.Quiet.transports`). Declarations have to keep quiet about the
names in the context: below their heads they bind none of them (`Table.Quiet`).
-/

namespace FeatherGo

variable {V : Vocabulary} {names scope : List String} {σ : VarSubst} {t : Ty}

/-! ## Assignment as a change of types -/

/-- A signature that holds no variables is what it was. -/
theorem Signature.changed_self {s : Signature} (σ : VarSubst) (h : ∀ u ∈ s.types, u.vars = ∅) :
    s.Changed (Ty.assign σ) s := by
  refine ⟨rfl, rfl, rfl, ?_⟩
  rw [types_canonical, List.map_map]
  refine List.map_congr_left fun u hu => ?_
  -- Renaming brings in no variables.
  have hvars := Ty.vars_subst_subset (h u hu).subset (η := relabelling s.formalNames
    (canonicalNames s.formals.length)) fun a x hx => ?_
  · exact (Ty.assign_eq_self fun v hv => absurd (hvars hv) (Finset.notMem_empty v)).symm
  · obtain ⟨i, q, -, -, rfl⟩ := of_find?_relabelling hx
    exact fun v hv => nomatch Ty.mem_vars.1 hv

section Assign

variable (hnames : ∀ a ∈ names, Unprimed a) (hscope : ∀ a ∈ scope, a ∈ names)
  (hσ : ∀ v, (σ.lookup v).Clear V names scope)
include hnames hscope hσ

/-- Assigning clear types in a signature of a clear interface. -/
theorem Signature.changed_assign {s : Signature} {ms : List Member}
    (h : (Ty.interface ms).Clear V names scope) (hs : .method s ∈ ms) :
    s.Changed (Ty.assign σ) (s.map (Ty.assign σ)) := by
  refine changed_map fun u hu => ?_
  have hu := h.inner.of_mem_parts (Ty.mem_parts_of_method hs hu)
  refine Ty.assign_subst_comm (isRenaming_relabelling _ _) ?_ fun v _ => ⟨?_, fun a ha => ?_⟩
  · exact avoids_relabelling (canonicalNames_notMem fun f => hu.uncanonical)
  · exact avoids_relabelling (canonicalNames_notMem fun f => (hσ v).inner.uncanonical)
  · rw [find?_relabelling_eq_none (by simp)]
    intro hf
    have ha := hscope a ((hσ v).free a ha)
    exact h.inner.stem_notMem (Ty.mem_binders_of_formal hs hf) ((hnames a ha).symm ▸ ha)

/-- The members of a clear interface, one by one. -/
theorem Ty.Clear.members {ms : List Member} (h : (Ty.interface ms).Clear V names scope) :
    List.Forall₂ (Member.Becomes V names scope (Ty.assign σ)) ms (ms.map (Member.assign σ)) := by
  rw [List.forall₂_map_right_iff]
  refine List.forall₂_same.2 fun m hm => ?_
  cases m with
  | method s => exact .method (Signature.changed_assign hnames hscope hσ h hm)
  | embed c args =>
    have hscoped : (Ty.interface ms).Scoped V false scope [] := h.scoped
    obtain ⟨hembeds, hs⟩ := hscoped.embedded hm
    exact .embed hembeds (.of_args hs fun a ha => h.inner.of_mem_parts (mem_parts_of_embed hm ha))

/-- To assign clear types is to put them in for variables. -/
theorem Ty.replaces_assign : Ty.Replaces V names scope scope (Ty.assign σ) where
  unprimed := hnames
  within := hscope
  within' := hscope
  named c args := Ty.assign_named ..
  canonical i := Ty.assign_param ..
  ne_var _ hv := Ty.assign_ne_var hv σ
  clear ht := ht.assign hσ
  members ht := ⟨_, Ty.assign_interface .., ht.members hnames hscope hσ⟩
  subst _ hvars hη hθ h := (undisturbed_of_avoids hη).assign_subst (undisturbed_of_avoids hθ)
    (fun v hv => by simpa using hvars v hv) fun a ha => (h a ha).2

end Assign

/-! ## Types without variables -/

/-- No type that is exposed has a variable, or binds a name that is one of some names but for primes. -/
def Ty.Remote (names : List String) (t : Ty) : Prop :=
  ∀ u ∈ t.exposed, u.vars = ∅ ∧ ∀ f ∈ u.binders, stem f ∉ names

instance (names : List String) (t : Ty) : Decidable (t.Remote names) :=
  inferInstanceAs (Decidable (∀ u ∈ t.exposed, u.vars = ∅ ∧ ∀ f ∈ u.binders, stem f ∉ names))

theorem Ty.Remote.untouched (h : t.Remote names) (f : Ty → Ty) : t.Untouched f names :=
  fun u hu => ⟨fun v hv => absurd hv ((h u hu).1 ▸ Finset.notMem_empty v), (h u hu).2⟩

/-- A scoped type that is remote from the names and holds no variables stays as it is. -/
theorem Ty.Scoped.becomes_self (ht : t.Scoped V false scope []) (hr : t.Remote names)
    (hstruct : ∀ fs, t ≠ .struct fs) : t.Becomes V names scope (Ty.assign σ) t := by
  have happart := (hr.untouched id).apart ht
  have hself {u : Ty} (hu : u ∈ t.exposed) : u.assign σ = u :=
    assign_eq_self fun v hv => absurd hv ((hr u hu).1 ▸ Finset.notMem_empty v)
  have hexposed (hmem : t ∈ t.exposed) : t.Becomes V names scope (Ty.assign σ) t := by
    have hclear : t.Becomes V names scope (Ty.assign σ) (t.assign σ) :=
      .clear ⟨happart t hmem, fun a ha => ht.mem_scope ha⟩
    rwa [hself hmem] at hclear
  cases t with
  | struct fs => exact absurd rfl (hstruct fs)
  | interface ms =>
    refine .interface (List.forall₂_same.2 fun m hm => ?_)
    have hmem {u : Ty} (hu : u ∈ m.types) : u ∈ (Ty.interface ms).exposed :=
      List.mem_flatMap.2 ⟨m, hm, hu⟩
    cases m with
    | method s => exact .method (Signature.changed_self σ fun u hu => (hr u (hmem hu)).1)
    | embed c args =>
      obtain ⟨hembeds, hs⟩ := ht.embedded hm
      have hmap : args.map (Ty.assign σ) = args := map_eq_self_iff.2 fun a ha => hself (hmem ha)
      have hembed : Member.Becomes V names scope (Ty.assign σ) (.embed c args)
          (.embed c (args.map (Ty.assign σ))) :=
        .embed hembeds (.of_args hs fun a ha => happart a (hmem ha))
      rwa [hmap] at hembed
  | _ => exact hexposed (List.mem_singleton_self _)

/-! ## Quiet declarations -/

namespace Table

variable {T : Table} {strict : Bool} {rank : String → Nat} {Δ : Bounds}

/-- The declarations and the bounds of a context bind none of its names below their heads, under
whatever primes; the bounds are scoped and may bound. -/
structure Quiet (T : Table) (strict : Bool) (Δ : Bounds) : Prop where
  names : ∀ a ∈ Δ.names, Unprimed a
  bounds : ∀ a b, Δ.find? a = some b →
    b.Scoped (T.vocabulary strict) false Δ.names [] ∧ T.BoundType b ∧ b.Remote Δ.names
  sources : ∀ c td, T.type? c = some td → td.source.Remote Δ.names
  receivers : ∀ md ∈ T.methodDecls, ∀ f ∈ md.recvFormals, f.ty.Remote Δ.names
  signatures : ∀ md ∈ T.methodDecls, md.sig.alone.Remote Δ.names

namespace Quiet

variable (hΔ : T.Quiet strict Δ)
include hΔ

/-- Quiet declarations convey what is true of all types that are exposed, if substitution keeps it. -/
theorem conveys (h : T.Lawful strict rank) {N : Ty → Prop} (hparam : ∀ p, N (.param p))
    (hself : ∀ t η, (∀ p, t ≠ .param p) → N t → N (Ty.subst η t))
    (hN : ∀ {t : Ty} {apart scope stems}, t.Scoped (T.vocabulary strict) apart scope stems →
      t.Remote Δ.names → ∀ u ∈ t.exposed, u.Everywhere N) : T.Conveys Δ (Ty.Holds N) := by
  apply Ty.Holds.conveys hparam hself
  · intro a b hb
    obtain ⟨hs, -, hremote⟩ := hΔ.bounds a b hb
    exact .of_exposed (hN hs hremote)
  · exact fun c td htd => .of_exposed (hN (h.types c td htd).source.inner (hΔ.sources c td htd))
  · intro md hmd
    have hs := Signature.scoped_alone.2 (h.methods md hmd).sig.inner
    exact .of_exposed (hN hs (hΔ.signatures md hmd))

/-- **Assigning clear types to variables carries what types offer.** -/
theorem transports (hσ : ∀ v, (σ.lookup v).Clear (T.vocabulary strict) Δ.names Δ.names) :
    T.Transports strict Δ.names Δ Δ (Ty.assign σ) where
  toReplaces := Ty.replaces_assign hΔ.names (fun _ ha => ha) hσ
  bounded a b hb := ⟨(hΔ.bounds a b hb).1, (hΔ.bounds a b hb).2.1⟩
  bounds a b hb := by
    obtain ⟨hs, hbound, hremote⟩ := hΔ.bounds a b hb
    refine ⟨b, hs.becomes_self hremote hbound.ne_struct, fun W hW => ⟨W, ?_, ?_⟩⟩
    · rw [Ty.assign_param, allMethods_param hb]
      exact hW
    · exact MethodSet.covers_refl (sorted_allMethods hW)
  sources c td htd := (hΔ.sources c td htd).untouched _
  receivers md hmd x hx := (hΔ.receivers md hmd x hx).untouched _
  signatures md hmd := (hΔ.signatures md hmd).untouched _

end Quiet

end Table

end FeatherGo
