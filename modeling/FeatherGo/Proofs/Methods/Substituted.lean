import FeatherGo.Proofs.Methods.Transport

/-!
# Methods under substitution

Types are put in for the type parameters of a context, within their bounds, and the result is read under
another context, whose parameters they may mention. Where the declarations bind none of the names in the
contexts below their heads, this carries what types offer from the one context to the other
(`Table.Meets.transports`), so that a type goes on to implement another. Formals of declared methods
may be renamed in both contexts, by what the types that are put in mention.
-/

namespace FeatherGo

/-! ## Substitution as a change of types -/

/-- A substitution of clear types, no variables, for type parameters. What it leaves is in the new
scope. -/
structure Env.Fills (V : Vocabulary) (names scope scope' : List String) (κ : Env Ty) : Prop where
  keys : ∀ a x, κ.find? a = some x → a ∈ names
  entries : ∀ a x, κ.find? a = some x → x.Clear V names scope' ∧ ∀ v, x ≠ .var v
  rest : ∀ a ∈ scope, κ.find? a = none → a ∈ scope'

namespace Env.Fills

open Signature (relabelling canonicalNames)

variable {V : Vocabulary} {names scope scope' : List String} {κ : Env Ty}
  (hκ : κ.Fills V names scope scope') (hnames : ∀ a ∈ names, Unprimed a ∧ Uncanonical a)
  (hscope : ∀ a ∈ scope, a ∈ names) (hscope' : ∀ a ∈ scope', a ∈ names)
include hκ

/-- Clear types stay so. -/
theorem clear {t : Ty} (ht : t.Clear V names scope) : (t.subst κ).Clear V names scope' :=
  ht.subst (fun a x hx => (hκ.entries a x hx).1) hκ.rest

theorem ne_var {t : Ty} (ht : ∀ v, t ≠ .var v) : ∀ v, t.subst κ ≠ .var v := by
  intro v
  cases t with
  | param a =>
    rw [Ty.subst_param]
    cases hx : κ.find? a with
    | none => exact nofun
    | some x => exact (hκ.entries a x hx).2 v
  | var w => exact absurd rfl (ht w)
  | _ => simp

include hnames hscope' in
/-- What is put in mentions no name that a type binds which is apart from the names. -/
theorem avoids {t : Ty} (ht : t.Everywhere (Ty.Apart V names)) : κ.Avoids t.binders :=
  ht.avoids (fun a ha => (hnames a ha).1)
    fun a x hx q hq => hscope' q ((hκ.entries a x hx).1.free q hq)

include hnames

/-- No canonical name is replaced. -/
theorem find?_canonicalName (i : Nat) : κ.find? (Signature.canonicalName i) = none := by
  cases hx : κ.find? (Signature.canonicalName i) with
  | none => rfl
  | some x => exact absurd (Signature.stem_canonicalName i) ((hnames _ (hκ.keys _ x hx)).2 i)

include hscope'

/-- Substituting in a signature of a clear interface. -/
theorem changed {s : Signature} {ms : List Member} (h : (Ty.interface ms).Clear V names scope)
    (hs : .method s ∈ ms) : s.Changed (Ty.subst κ) (s.subst κ) := by
  have havoids : κ.Avoids s.formalNames :=
    (hκ.avoids hnames hscope' h.inner).mono fun q hq => Ty.mem_binders_of_formal hs hq
  have hnodup : s.formalNames.Nodup := .of_map stem (h.inner.self.built _ hs).1
  have hl : s.formalNames.length = (canonicalNames s.formals.length).length := by simp
  rw [Signature.subst_of_avoids havoids]
  refine Signature.changed_map fun u hu => ?_
  have hu := h.inner.of_mem_parts (Ty.mem_parts_of_method hs hu)
  have hcanonical := Signature.canonicalNames_notMem (n := s.formals.length) fun q => hu.uncanonical
  have hκu := hκ.avoids hnames hscope' hu
  have hnaming : (s.naming (canonicalNames s.formals.length) κ).Avoids u.binders :=
    Signature.avoids_naming hcanonical hκu
  -- Both ways the formals get canonical names and the entries stand for the other type parameters.
  trans u.subst (s.naming (canonicalNames s.formals.length) κ)
  · refine Ty.subst_subst (hκu.visible s) (Signature.avoids_relabelling hcanonical) hnaming
      (fun a _ => ?_) fun a _ => ?_
    all_goals rw [Signature.lookup_visible]
    · split
      · exact fun _ _ _ _ _ => List.not_mem_nil
      · cases hx : κ.find? a with
        | none =>
          rw [Env.lookup_of_none hx]
          exact fun _ _ _ _ _ => List.not_mem_nil
        | some x =>
          rw [Env.lookup_of_some hx]
          exact Signature.avoids_relabelling (Signature.canonicalNames_notMem fun q =>
            (hκ.entries a x hx).1.inner.uncanonical)
    · split
      · rename_i ha
        obtain ⟨i, q, hi, hq, he⟩ := Signature.exists_lookup_naming hnodup hl κ ha
        rw [he, Ty.subst_param, Signature.find?_relabelling hnodup hi hq]
        rfl
      · rename_i ha
        rw [Signature.lookup_naming_other hl ha]
        refine (Ty.undisturbed_of_avoids ?_).subst_eq_self fun q hq => ?_
        · cases hx : κ.find? a with
          | none =>
            rw [Env.lookup_of_none hx]
            exact fun _ _ _ _ _ => List.not_mem_nil
          | some x =>
            rw [Env.lookup_of_some hx]
            exact Signature.avoids_relabelling (Signature.canonicalNames_notMem fun q =>
              (hκ.entries a x hx).1.inner.uncanonical)
        · apply Env.lookup_of_none
          rw [Signature.find?_relabelling_eq_none hl]
          rcases Env.mem_freeParams_lookup.1 hq with ⟨rfl, -⟩ | ⟨x, hx, hqx⟩
          · exact ha
          · exact havoids a x hx q hqx
  · refine (Ty.subst_subst (Signature.avoids_relabelling hcanonical) hκu hnaming (fun a _ => ?_)
      fun a _ => ?_).symm
    all_goals
      by_cases ha : a ∈ s.formalNames
    · obtain ⟨i, q, hi, hq, -⟩ := Signature.exists_lookup_naming hnodup hl κ ha
      rw [Env.lookup_of_some (Signature.find?_relabelling hnodup hi hq)]
      exact fun _ _ _ _ _ => List.not_mem_nil
    · rw [Env.lookup_of_none ((Signature.find?_relabelling_eq_none hl).2 ha)]
      exact fun _ _ _ _ _ => List.not_mem_nil
    · obtain ⟨i, q, hi, hq, he⟩ := Signature.exists_lookup_naming hnodup hl κ ha
      obtain ⟨j, -, rfl⟩ := List.mem_map.1 (List.mem_of_getElem? hq)
      rw [he, Env.lookup_of_some (Signature.find?_relabelling hnodup hi hq), Ty.subst_param,
        hκ.find?_canonicalName hnames]
      rfl
    · rw [Env.lookup_of_none ((Signature.find?_relabelling_eq_none hl).2 ha),
        Signature.lookup_naming_other hl ha]
      rfl

include hscope

/-- To substitute clear types is to put them in. -/
theorem replaces : Ty.Replaces V names scope scope' (Ty.subst κ) where
  unprimed a ha := (hnames a ha).1
  within := hscope
  within' := hscope'
  named c args := Ty.subst_named ..
  canonical i := by
    rw [Ty.subst_param, hκ.find?_canonicalName hnames]
    rfl
  ne_var _ hv := hκ.ne_var hv
  clear := hκ.clear
  members {ms} h := by
    refine ⟨_, Ty.subst_interface .., ?_⟩
    rw [List.forall₂_map_right_iff]
    refine List.forall₂_same.2 fun m hm => ?_
    cases m with
    | method s => exact .method (hκ.changed hnames hscope' h hm)
    | embed c args =>
      have hscoped : (Ty.interface ms).Scoped V false scope [] := h.scoped
      obtain ⟨hembeds, hs⟩ := hscoped.embedded hm
      exact .embed hembeds (.of_args hs fun a ha => h.inner.of_mem_parts (Ty.mem_parts_of_embed hm ha))
  subst ht _ hη hθ h := Ty.subst_subst hη (hκ.avoids hnames hscope' ht) hθ
    (fun a ha => hκ.avoids hnames hscope' (h a ha).1) fun a ha => (h a ha).2

end Env.Fills

/-! ## Contexts and what is put in for them -/

namespace Table

variable {T : Table} {strict : Bool} {rank : String → Nat} {names : List String} {Δ Δ' : Bounds}
  {κ : Env Ty}

/-- Types are put in for the parameters of a context within their bounds, read under another context. -/
structure Meets (T : Table) (strict : Bool) (names : List String) (Δ Δ' : Bounds) (κ : Env Ty) :
    Prop extends κ.Fills (T.vocabulary strict) names Δ.names Δ'.names where
  ordinary : ∀ a ∈ names, Unprimed a ∧ Uncanonical a
  within : ∀ a ∈ Δ.names, a ∈ names
  within' : ∀ a ∈ Δ'.names, a ∈ names
  bounded : T.Bounded strict Δ'
  bounds : ∀ a b, Δ.find? a = some b → b.Clear (T.vocabulary strict) names Δ.names
    ∧ T.CoversIn Δ' (κ.lookup a) (b.subst κ)

/-- **Putting in types within bounds carries what types offer**, over declarations that bind none of the
names in the contexts below their heads. -/
theorem Meets.transports (hκ : T.Meets strict names Δ Δ' κ) (hT : T.Untouched (Ty.subst κ) names) :
    T.Transports strict names Δ Δ' (Ty.subst κ) where
  toReplaces := hκ.toFills.replaces hκ.ordinary hκ.within hκ.within'
  toUntouched := hT
  bounded := hκ.bounded
  bounds a b hb := by
    obtain ⟨hclear, hcovers⟩ := hκ.bounds a b hb
    rw [Ty.subst_param]
    exact ⟨b.subst κ, .clear hclear, hcovers⟩

end Table

end FeatherGo
