import FeatherGo.Proofs.Discovery.Settling
import FeatherGo.Proofs.Types.Universe

/-!
# Finite sets that absorb

Whatever a search has found lies in a finite set that absorbs (`Table.exists_absorbs`): the types of a
box that holds the types of the declarations and those found, up to the depth that the search lets in,
and the calls found, at any receiver of these types. The depth that a box allows for is that of the
declarations or that of the search: a type in a signature is no deeper than what a call makes of it.
-/

namespace FeatherGo

open Ty (Box)

/-! ## Types in a box -/

namespace Ty.Box.In

variable {B : Box} {names : Finset String}

theorem args {c : String} {args : List Ty} (h : B.In names (.named c args)) :
    ∀ a ∈ args, B.In names a := fun a ha =>
  h.part ha fun _ hb => Ty.mem_freeParamsAll.2 ⟨a, ha, hb⟩

theorem field {fs : List Slot} (h : B.In names (.struct fs)) {f : Slot} (hf : f ∈ fs) :
    B.In names f.ty :=
  h.part (List.mem_map_of_mem hf) fun _ hb => Slot.mem_freeParamsAll.2 ⟨f, hf, hb⟩

/-- An interface with one of the members. -/
theorem member {ms : List Member} (h : B.In names (.interface ms)) {m : Member} (hm : m ∈ ms) :
    B.In names (.interface [m]) := by
  obtain ⟨hlabels, hparams, -, hlengths⟩ := h.within.self
  have hmem {α : Type} {f : Member → List α} {a : α} (ha : a ∈ [m].flatMap f) : a ∈ ms.flatMap f := by
    rw [List.flatMap_singleton] at ha
    exact List.mem_flatMap.2 ⟨m, hm, ha⟩
  refine ⟨Everywhere.iff_parts.2 ⟨⟨fun a ha => hlabels a (hmem ha), fun a ha => hparams a (hmem ha),
    nofun, fun n hn => ?_⟩, fun a ha => h.within.of_mem_parts (hmem ha)⟩, fun a ha => h.free a ?_⟩
  · rcases List.mem_cons.1 hn with rfl | hn
    · exact (List.length_pos_of_mem hm).trans_le (hlengths _ List.mem_cons_self)
    · exact hlengths n (List.mem_cons_of_mem _ (hmem hn))
  · obtain ⟨m', hm', ha⟩ := Member.mem_freeParamsAll.1 ha
    exact Member.mem_freeParamsAll.2 ⟨m', List.mem_singleton.1 hm' ▸ hm, ha⟩

/-- What an interface embeds. -/
theorem embed {ms : List Member} (h : B.In names (.interface ms)) {c : String} {args : List Ty}
    (hm : .embed c args ∈ ms) : B.In names (.named c args) := by
  have h := h.member hm
  obtain ⟨hlabels, hparams, -, hlengths⟩ := h.within.self
  refine ⟨Everywhere.iff_parts.2 ⟨⟨fun a ha => hlabels a ?_, nofun, nofun, fun n hn => hlengths n ?_⟩,
    fun a ha => h.within.of_mem_parts ?_⟩, fun a ha => h.free a ?_⟩
  · simpa [Ty.labels, Member.labels] using ha
  · exact List.mem_cons_of_mem _ (by simpa [Ty.lengths, Member.lengths] using hn)
  · simpa [Member.types] using ha
  · exact Member.mem_freeParamsAll.2 ⟨_, List.mem_cons_self, ha⟩

end Ty.Box.In

/-! ## Declarations in a box -/

namespace Table

variable {T : Table} {Δ : Bounds} {B : Box} {names : Finset String} {limit : Nat}

/-- The types that the rules of a search substitute in: sources of types, and signatures of methods as
interfaces. -/
def rules (T : Table) : List Ty :=
  T.typeDecls.map (·.source) ++ T.methodDecls.map fun md => md.sig.alone

/-- A box holds what declarations and bounds write, and the names that substitution in it makes up. -/
structure InBox (T : Table) (Δ : Bounds) (B : Box) (names : Finset String) (limit : Nat) : Prop where
  params : level B.width names limit ⊆ B.params
  rules : ∀ t ∈ T.rules, B.In names t ∧ t.depth ≤ limit
  bounds : ∀ b ∈ Δ, B.In names b.2

namespace InBox

/-- What a rule makes of types in the box is in the box. -/
theorem instantiate (h : T.InBox Δ B names limit) {t : Ty} (ht : t ∈ T.rules) {formals : List Slot}
    {args : List Ty} (hargs : ∀ a ∈ args, B.In names a) :
    B.In names (t.subst (instantiation formals args)) := by
  obtain ⟨hin, hdepth⟩ := h.rules t ht
  exact Box.in_subst h.params hin.within hdepth
    (fun _ _ hx => hargs _ (mem_of_find?_instantiation hx).2) fun a ha _ => hin.free a ha

/-- To be in the box is stable. -/
theorem stable (h : T.InBox Δ B names limit) : T.Stable Δ (B.In names) where
  bound hb := h.bounds _ (Env.mem_of_find? hb)
  source ht htd _ :=
    h.instantiate (List.mem_append_left _ (List.mem_map_of_mem (mem_of_type? htd).1)) ht.args
  field ht hf := ht.field hf
  embed ht hm := ht.embed hm
  method ht hs := ht.member hs
  declared hmd ht _ := by
    rw [← Signature.subst_alone]
    exact h.instantiate (List.mem_append_right _ (List.mem_map_of_mem hmd)) ht.args

/-- What a call makes of a type in its signature is in the box, if that is not too deep. -/
theorem signature (h : T.InBox Δ B names limit) {sig : Signature} (hsig : B.In names sig.alone)
    {targs : List Ty} (hl : sig.formals.length = targs.length) (htargs : ∀ a ∈ targs, B.In names a)
    {t : Ty} (ht : t ∈ sig.types) (hd : (t.subst (instantiation sig.formals targs)).depth ≤ limit) :
    B.In names (t.subst (instantiation sig.formals targs)) := by
  have hpart : t ∈ sig.alone.parts := by simpa [Signature.alone, Member.types] using ht
  refine Box.in_subst h.params (hsig.within.of_mem_parts hpart) ((t.depth_le_depth_subst _).trans hd)
    (fun _ _ hx => htargs _ (mem_of_find?_instantiation hx).2) fun a ha hnone => hsig.free a ?_
  have hformal : a ∉ sig.formalNames := fun hf => find?_instantiation_ne_none hl hf hnone
  exact Member.mem_freeParamsAll.2 ⟨_, List.mem_cons_self, Signature.mem_freeParams.2 ⟨hformal, t, ht, ha⟩⟩

end InBox

/-! ## Sets that absorb -/

/-- What a type demands has every stable property that it has. -/
theorem Stable.of_demands {P : Ty → Prop} (h : T.Stable Δ P) {t d : Ty} (ht : P t)
    (hd : Closure.Demands T t d) : P d := by
  cases hd with
  | field hfs hf => exact h.of_structFields ht hfs hf
  | source hu _ => exact h.of_underlying ht hu
  | embedded hms hd => exact h.of_embed ht hms hd

/-- The guarded types of a box that a search lets in, and some calls at any receiver of these types. -/
def boxSets (T : Table) (B : Box) (names : Finset String) (calls : List MethodInstance) :
    InstanceSets :=
  let types := {t | B.In names t ∧ t.Guarded T.MayBound ∧ t.depth ≤ T.depthBound}
  (types, Set.image2 (fun t m => ⟨t, m.meth, m.targs⟩) types {m | m ∈ calls})

theorem finite_boxSets (T : Table) (B : Box) (names : Finset String) (calls : List MethodInstance) :
    (T.boxSets B names calls).1.Finite ∧ (T.boxSets B names calls).2.Finite := by
  have htypes : (T.boxSets B names calls).1.Finite :=
    (B.finite T.depthBound).subset fun t ht => ⟨ht.1.within, ht.2.2⟩
  exact ⟨htypes, htypes.image2 _ calls.finite_toSet⟩

/-- The types of a box and calls over it absorb. -/
theorem InBox.absorbs (h : T.InBox Δ B names limit) (hlimit : T.depthBound ≤ limit)
    (hG : T.Stable Δ (Ty.Guarded T.MayBound)) {calls : List MethodInstance}
    (hcalls : ∀ m ∈ calls, m ∈ T.openSets.2 ∧ ∀ t ∈ m.targs, B.In names t) :
    T.Absorbs Δ (T.boxSets B names calls) where
  le := by
    refine ⟨fun t ht => ht.2, ?_⟩
    rintro _ ⟨t, ht, m, hm, rfl⟩
    exact ⟨ht.2, (hcalls m hm).1.targs⟩
  demands ht hd hdepth := ⟨h.stable.of_demands ht.1 hd, hG.of_demands ht.2.1 hd, hdepth⟩
  implementers := by
    rintro _ t ⟨_, -, m, hm, rfl⟩ ht
    exact ⟨t, ht, m, hm, rfl⟩
  embeddings := by
    rintro _ ms d as ⟨t, ht, m, hm, rfl⟩ hms hd hdepth
    exact ⟨_, ⟨h.stable.of_embed ht.1 hms hd, hG.of_embed ht.2.1 hms hd, hdepth⟩, m, hm, rfl⟩
  signature := by
    rintro _ n E sig u ⟨t, ht, m, hm, rfl⟩ hE hsig hl hu hdepth
    have hmem := (MethodSet.mem_of_find? hsig).1
    have hguarded := T.hereditary_guarded
    obtain ⟨hopen, htargs⟩ := hcalls m hm
    exact ⟨h.signature (h.stable.of_methods ht.1 hE sig hmem) hl htargs hu (hdepth.trans hlimit),
      hguarded.instantiate (hguarded.of_alone (hG.of_methods ht.2.1 hE sig hmem) hu)
        fun a ha => (hopen.targs a ha).1.1, hdepth⟩

/-- **What a search has found lies in a finite set that absorbs.** -/
theorem exists_absorbs (hG : T.Stable Δ (Ty.Guarded T.MayBound)) {F : Instances}
    (hF : F.sets ≤ T.openSets) :
    ∃ S : InstanceSets, T.Absorbs Δ S ∧ S.1.Finite ∧ S.2.Finite ∧ F.sets ≤ S := by
  let found := F.types ++ F.meths.flatMap fun m => m.recv :: m.targs
  let limit := max T.depthBound (Ty.depthAll T.rules)
  obtain ⟨B, names, hparams, hin⟩ := Box.exists_box (T.rules ++ Δ.map (·.2) ++ found) limit
  have hfound {t : Ty} (ht : t ∈ found) : B.In names t := hin t (List.mem_append_right _ ht)
  have hbox : T.InBox Δ B names limit := by
    refine ⟨hparams, fun t ht => ⟨hin t (by simp [ht]), ?_⟩, fun b hb => hin b.2 ?_⟩
    · exact (Ty.depthAll_le.1 (Nat.le_refl _) t ht).trans (Nat.le_max_right _ _)
    · exact List.mem_append_left _ (List.mem_append_right _ (List.mem_map_of_mem hb))
  have hmeth {m : MethodInstance} (hm : m ∈ F.meths) {t : Ty} (ht : t ∈ m.recv :: m.targs) :
      B.In names t :=
    hfound (List.mem_append_right _ (List.mem_flatMap.2 ⟨m, hm, ht⟩))
  obtain ⟨htypes, hmeths⟩ := T.finite_boxSets B names F.meths
  refine ⟨T.boxSets B names F.meths, hbox.absorbs (Nat.le_max_left _ _) hG fun m hm => ?_, htypes,
    hmeths, fun t ht => ?_, fun m hm => ?_⟩
  · exact ⟨hF.2 hm, fun t ht => hmeth hm (List.mem_cons_of_mem _ ht)⟩
  · exact ⟨hfound (List.mem_append_left _ ht), hF.1 ht⟩
  · exact ⟨m.recv, ⟨hmeth hm List.mem_cons_self, (hF.2 hm).recv⟩, m, hm, rfl⟩

end Table

end FeatherGo
