import FeatherGo.Inference.Constraint
import FeatherGo.Proofs.Inference.Assignment
import FeatherGo.Proofs.Settling
import Mathlib.Data.Finset.Card
import Mathlib.Data.Finset.Union

/-!
# Equality constraints and most general unifiers

Between types without interface literals, equality constraints are equations between first-order
terms, and `Unifier.solve` solves them as such: it always answers, it answers with a solution exactly
where there is one, and every other solution factors through the one it finds
(`Unifier.solve_equalities`).

The solver works on one equation at a time, so what it returns for an equation has to be strong
enough to continue with: a `Principal` solution binds variables of the equations only, none of which
occurs in what the others stand for. Once it is applied its variables are gone, and so the solution
of the other equations binds none of them: `Unifier.compose` never has to choose between two types.
-/

namespace FeatherGo

/-- Two types that should become equal. -/
abbrev Equation := Ty × Ty

namespace Equation

/-- The constraints that ask for equations. -/
def constraints (E : List Equation) : List Constraint := E.map fun e => .equality e.1 e.2

/-- Replace inference variables on both sides. -/
def assign (σ : VarSubst) (e : Equation) : Equation := (e.1.assign σ, e.2.assign σ)

/-- The variables of equations. -/
def vars (E : List Equation) : Finset Nat := E.toFinset.biUnion fun e => e.1.vars ∪ e.2.vars

/-- How many types are nested in equations. -/
def size (E : List Equation) : Nat := (E.map fun e => e.1.size + e.2.size).sum

/-- An assignment makes both sides of every equation equal. -/
def Solves (σ : VarSubst) (E : List Equation) : Prop := ∀ e ∈ E, e.1.assign σ = e.2.assign σ

/-- No side of an equation holds an interface literal. -/
def LiteralFree (E : List Equation) : Prop := ∀ e ∈ E, e.1.LiteralFree ∧ e.2.LiteralFree

theorem constraints_map_assign (σ : VarSubst) (E : List Equation) :
    constraints (E.map (assign σ)) = (constraints E).map (·.assign σ) := by
  simp [constraints, assign, Constraint.assign, Function.comp_def]

theorem mem_vars {E : List Equation} {v : Nat} :
    v ∈ vars E ↔ ∃ e ∈ E, v ∈ e.1.vars ∨ v ∈ e.2.vars := by
  simp [vars]

theorem vars_mono {E E' : List Equation} (h : E ⊆ E') : vars E ⊆ vars E' := fun _ hv =>
  let ⟨e, he, hv⟩ := mem_vars.1 hv
  mem_vars.2 ⟨e, h he, hv⟩

theorem solves_cons {σ : VarSubst} {e : Equation} {E : List Equation} :
    Solves σ (e :: E) ↔ Solves σ [e] ∧ Solves σ E := by
  simp [Solves]

/-- A solution that removes variables of the equations: it binds none but these, to types over those
that it does not bind. -/
structure Eliminates (E : List Equation) (σ : VarSubst) : Prop where
  ordered : σ.Ordered
  binds : ∀ {v t}, σ.find? v = some t → v ∈ vars E
  image : ∀ {v t}, σ.find? v = some t → ∀ w ∈ t.vars, w ∈ vars E ∧ σ.find? w = none

namespace Eliminates

variable {E : List Equation} {σ : VarSubst}

theorem mono {E' : List Equation} (h : Eliminates E σ) (hvars : vars E ⊆ vars E') :
    Eliminates E' σ where
  ordered := h.ordered
  binds hv := hvars (h.binds hv)
  image hv w hw := ⟨hvars (h.image hv w hw).1, (h.image hv w hw).2⟩

theorem nil (E : List Equation) : Eliminates E [] where
  ordered := .nil
  binds hv := absurd hv (by simp)
  image hv := absurd hv (by simp)

/-- The variables of an applied solution are not the ones it binds. -/
theorem vars_assign (h : Eliminates E σ) {t : Ty} {w : Nat} (hw : w ∈ (t.assign σ).vars) :
    σ.find? w = none ∧ (w ∈ t.vars ∨ w ∈ vars E) := by
  obtain ⟨v, hv, hw⟩ := Ty.mem_vars_assign hw
  cases hvt : σ.find? v with
  | none =>
    rw [VarSubst.lookup_eq_var hvt, Ty.mem_vars_var] at hw
    exact hw ▸ ⟨hvt, .inl hv⟩
  | some t =>
    rw [VarSubst.lookup_eq_of_find? hvt] at hw
    exact ⟨(h.image hvt w hw).2, .inr (h.image hvt w hw).1⟩

theorem vars_map_assign (h : Eliminates E σ) {E' : List Equation} {w : Nat}
    (hw : w ∈ vars (E'.map (Equation.assign σ))) :
    σ.find? w = none ∧ (w ∈ vars E' ∨ w ∈ vars E) := by
  obtain ⟨e', he', hw⟩ := mem_vars.1 hw
  obtain ⟨e, he, rfl⟩ := List.mem_map.1 he'
  rcases hw with hw | hw
  · exact (h.vars_assign hw).imp_right fun h => h.imp_left fun hw => mem_vars.2 ⟨e, he, .inl hw⟩
  · exact (h.vars_assign hw).imp_right fun h => h.imp_left fun hw => mem_vars.2 ⟨e, he, .inr hw⟩

/-- Applying the solution of one equation to the others leaves fewer variables, or, where it binds
none, less to solve. -/
theorem later_smaller {e : Equation} (h : Eliminates [e] σ) (E : List Equation) :
    (vars (E.map (Equation.assign σ))).card < (vars (e :: E)).card
      ∨ (vars (E.map (Equation.assign σ))).card ≤ (vars (e :: E)).card
        ∧ size (E.map (Equation.assign σ)) < size (e :: E) := by
  have hsub : vars (E.map (Equation.assign σ)) ⊆ vars (e :: E) := fun v hv =>
    (h.vars_map_assign hv).2.elim (fun hv => vars_mono (by simp) hv) fun hv => vars_mono (by simp) hv
  by_cases hσ : ∃ v t, σ.find? v = some t
  · obtain ⟨v, t, hv⟩ := hσ
    refine .inl (Finset.card_lt_card ((Finset.ssubset_iff_of_subset hsub).2 ⟨v, ?_, fun hm => ?_⟩))
    · exact vars_mono (by simp) (h.binds hv)
    · rw [(h.vars_map_assign hm).1] at hv
      cases hv
  · have hid (t : Ty) : t.assign σ = t := Ty.assign_eq_self fun v _ =>
      Option.eq_none_iff_forall_ne_some.2 fun t ht => hσ ⟨v, t, ht⟩
    have hmap : E.map (Equation.assign σ) = E := map_eq_self_iff.2 fun d _ => by
      rw [Equation.assign, hid, hid]
    refine .inr ⟨Finset.card_le_card hsub, ?_⟩
    have := e.1.size_pos
    rw [hmap, size, size, List.map_cons, List.sum_cons]
    omega

/-- A variable is bound to a type that it does not occur in. -/
theorem bind {v : Nat} {t : Ty} (hv : v ∉ t.vars) : Eliminates [(.var v, t)] [(v, t)] := by
  refine ⟨List.pairwise_singleton _ _, fun h => ?_, fun {u x} h w hw => ?_⟩
  · obtain ⟨rfl, rfl⟩ := VarSubst.find?_singleton h
    exact mem_vars.2 ⟨_, List.mem_singleton_self _, .inl (Ty.mem_vars_var.2 rfl)⟩
  · obtain ⟨rfl, rfl⟩ := VarSubst.find?_singleton h
    have hne : w ≠ u := fun h => hv (h ▸ hw)
    exact ⟨mem_vars.2 ⟨_, List.mem_singleton_self _, .inr hw⟩, VarSubst.find?_singleton_ne hne x⟩

end Eliminates

/-- A solution of the equations that every other solution factors through. It binds variables of
the equations, to types over the variables of the equations that it does not bind. -/
structure Principal (E : List Equation) (σ : VarSubst) : Prop where
  ordered : σ.Ordered
  binds : ∀ {v t}, σ.find? v = some t → v ∈ vars E
  image : ∀ {v t}, σ.find? v = some t → ∀ w ∈ t.vars, w ∈ vars E ∧ σ.find? w = none
  literalFree : ∀ {v t}, σ.find? v = some t → t.LiteralFree
  solves : Solves σ E
  factors : ∀ τ, Solves τ E → ∀ {v t}, σ.find? v = some t → τ.lookup v = t.assign τ

namespace Principal

variable {E : List Equation} {σ : VarSubst}

theorem eliminates (h : Principal E σ) : Eliminates E σ := ⟨h.ordered, h.binds, h.image⟩

/-- A solution may be carried over to equations with the same solutions and no variables less. -/
theorem congr {E' : List Equation} (h : Principal E σ) (hvars : vars E ⊆ vars E')
    (hsolves : ∀ τ, Solves τ E' ↔ Solves τ E) : Principal E' σ where
  ordered := h.ordered
  binds := (h.eliminates.mono hvars).binds
  image := (h.eliminates.mono hvars).image
  literalFree := h.literalFree
  solves := (hsolves σ).2 h.solves
  factors τ hτ := h.factors τ ((hsolves τ).1 hτ)

/-- Equations that hold as they stand have the empty solution. -/
theorem nil (h : ∀ e ∈ E, e.1 = e.2) : Principal E [] where
  ordered := .nil
  binds := (Eliminates.nil E).binds
  image := (Eliminates.nil E).image
  literalFree hv := absurd hv (by simp)
  solves e he := by rw [h e he]
  factors _ _ _ _ hv := absurd hv (by simp)

theorem lookup_factors (h : Principal E σ) {τ : VarSubst} (hτ : Solves τ E) (v : Nat) :
    (σ.lookup v).assign τ = τ.lookup v := by
  cases hv : σ.find? v with
  | some t => rw [VarSubst.lookup_eq_of_find? hv, h.factors τ hτ hv]
  | none => rw [VarSubst.lookup_eq_var hv, Ty.assign_var]

/-- Every other solution does the same before and after this one. -/
theorem assign_factors (h : Principal E σ) {τ : VarSubst} (hτ : Solves τ E) (t : Ty) :
    (t.assign σ).assign τ = t.assign τ :=
  Ty.assign_assign t fun v _ => h.lookup_factors hτ v

/-- Other equations keep their solutions when the solution is applied to them. -/
theorem solves_map (h : Principal E σ) {E' : List Equation} {τ : VarSubst} (hτ : Solves τ E)
    (hτ' : Solves τ E') : Solves τ (E'.map (Equation.assign σ)) := by
  intro d' hd'
  obtain ⟨d, hd, rfl⟩ := List.mem_map.1 hd'
  rw [Equation.assign, h.assign_factors hτ, h.assign_factors hτ, hτ' d hd]

theorem literalFree_assign (h : Principal E σ) {t : Ty} (ht : t.LiteralFree) :
    (t.assign σ).LiteralFree := by
  refine ht.assign fun v _ => ?_
  cases hv : σ.find? v with
  | none =>
    rw [VarSubst.lookup_eq_var hv]
    intro ms hm
    simp [Ty.preorder] at hm
  | some u =>
    rw [VarSubst.lookup_eq_of_find? hv]
    exact h.literalFree hv

theorem literalFree_map (h : Principal E σ) {E' : List Equation} (hE' : LiteralFree E') :
    LiteralFree (E'.map (Equation.assign σ)) := by
  intro d' hd'
  obtain ⟨d, hd, rfl⟩ := List.mem_map.1 hd'
  exact ⟨h.literalFree_assign (hE' d hd).1, h.literalFree_assign (hE' d hd).2⟩

/-- A variable is bound to a type that it does not occur in. -/
theorem bind {v : Nat} {t : Ty} (hv : v ∉ t.vars) (ht : t.LiteralFree) :
    Principal [(.var v, t)] [(v, t)] := by
  obtain ⟨hordered, hbinds, himage⟩ := Eliminates.bind hv
  refine ⟨hordered, hbinds, himage, fun h => ?_, ?_, ?_⟩
  · exact (VarSubst.find?_singleton h).2 ▸ ht
  · rintro e he
    obtain rfl := List.mem_singleton.1 he
    rw [Ty.assign_var, VarSubst.lookup_eq_of_find? (t := t) (by simp [VarSubst.find?]),
      Ty.assign_eq_self fun w hw => VarSubst.find?_singleton_ne (fun h : w = v => hv (h ▸ hw)) t]
  · intro τ hτ w u h
    obtain ⟨rfl, rfl⟩ := VarSubst.find?_singleton h
    have := hτ _ (List.mem_singleton_self _)
    rwa [Ty.assign_var] at this

end Principal

/-- An equation may be read from right to left. -/
theorem solves_swap {σ : VarSubst} {a b : Ty} : Solves σ [(a, b)] ↔ Solves σ [(b, a)] := by
  simp [Solves, eq_comm]

theorem vars_swap (a b : Ty) : vars [(a, b)] = vars [(b, a)] := by
  simp [vars, Finset.union_comm]

/-- A variable inside another type cannot be made equal to it. -/
theorem not_solves_of_occurs {v : Nat} {t : Ty} (hvar : ∀ w, t ≠ .var w) (hv : v ∈ t.vars)
    (σ : VarSubst) : ¬Solves σ [(.var v, t)] := by
  intro h
  have heq := h _ (List.mem_singleton_self _)
  have hlt := Ty.size_assign_lt (σ := σ) hvar hv
  rw [Ty.assign_var] at heq
  rw [heq] at hlt
  exact Nat.lt_irrefl _ hlt

end Equation

/-! ## Taking types apart -/

namespace Ty

/-- Two types with one declared name and as many arguments, or two structs with the same fields. -/
def Alike : Ty → Ty → Prop
  | .named c as, .named d bs => c = d ∧ as.length = bs.length
  | .struct fs, .struct gs => fs.map (·.name) = gs.map (·.name)
  | _, _ => False

theorem map_eq_map_iff_zip {f : Ty → Ty} {as bs : List Ty} (h : as.length = bs.length) :
    as.map f = bs.map f ↔ ∀ e ∈ as.zip bs, f e.1 = f e.2 := by
  induction as generalizing bs with
  | nil =>
    obtain rfl := List.length_eq_zero_iff.1 h.symm
    simp
  | cons a as ih =>
    cases bs with
    | nil => cases h
    | cons b bs => simp [ih (Nat.succ.inj h)]

/-- Types of one shape become equal exactly where their parts do. -/
theorem Alike.assign_eq_iff {a b : Ty} (h : a.Alike b) (σ : VarSubst) :
    a.assign σ = b.assign σ ↔ Equation.Solves σ (a.parts.zip b.parts) := by
  cases a <;> cases b <;> try exact h.elim
  case named.named c as d bs =>
    obtain ⟨rfl, hlen⟩ := h
    rw [assign_named, assign_named, named.injEq, map_eq_map_iff_zip hlen]
    exact and_iff_right rfl
  case struct.struct fs gs =>
    have h : fs.map (·.name) = gs.map (·.name) := h
    have hlen : (fs.map (·.ty)).length = (gs.map (·.ty)).length := by
      simpa using congrArg List.length h
    have hslots : fs.map (Slot.map (Ty.assign σ)) = gs.map (Slot.map (Ty.assign σ))
        ↔ (fs.map (·.ty)).map (Ty.assign σ) = (gs.map (·.ty)).map (Ty.assign σ) := by
      constructor
      · intro heq
        simpa [Slot.map, Function.comp_def] using congrArg (List.map (·.ty)) heq
      · intro heq
        exact Slot.ext_lists (by simpa [Slot.map, Function.comp_def] using h)
          (by simpa [Slot.map, Function.comp_def] using heq)
    rw [assign_struct, assign_struct, struct.injEq, hslots, map_eq_map_iff_zip hlen]
    rfl

/-- Different types that are neither variables nor of one shape stay different. -/
theorem assign_ne_of_not_alike {a b : Ty} (ha : ∀ v, a ≠ .var v) (hb : ∀ v, b ≠ .var v)
    (hl : a.LiteralFree) (hne : a ≠ b) (h : ¬a.Alike b) (σ : VarSubst) :
    a.assign σ ≠ b.assign σ := by
  intro heq
  cases a with
  | var v => exact ha v rfl
  | interface ms => exact hl ms (mem_preorder_self _)
  | param p =>
    cases b with
    | var w => exact hb w rfl
    | param q => simp_all
    | _ => simp at heq
  | prim p =>
    cases b with
    | var w => exact hb w rfl
    | prim q => simp_all
    | _ => simp at heq
  | named c as =>
    cases b with
    | var w => exact hb w rfl
    | named d bs =>
      rw [assign_named, assign_named, named.injEq] at heq
      exact h ⟨heq.1, by simpa using congrArg List.length heq.2⟩
    | _ => simp at heq
  | struct fs =>
    cases b with
    | var w => exact hb w rfl
    | struct gs =>
      rw [assign_struct, assign_struct, struct.injEq] at heq
      have hnames : fs.map (·.name) = gs.map (·.name) := by
        simpa [Slot.map, Function.comp_def] using congrArg (List.map (·.name)) heq
      exact h hnames
    | _ => simp at heq

end Ty

namespace Equation

theorem size_zip_le (as bs : List Ty) :
    size (as.zip bs) ≤ (as.map Ty.size).sum + (bs.map Ty.size).sum := by
  induction as generalizing bs with
  | nil => simp [size]
  | cons a as ih =>
    cases bs with
    | nil => simp [size]
    | cons b bs =>
      have := ih bs
      simp only [size, List.zip_cons_cons, List.map_cons, List.sum_cons] at this ⊢
      omega

/-- The equations between parts are smaller than the equation they come from. -/
theorem size_parts_lt (a b : Ty) : size (a.parts.zip b.parts) < size [(a, b)] := by
  have := size_zip_le a.parts b.parts
  have hpair : size [(a, b)] = a.size + b.size := by simp [size]
  rw [hpair, a.size_eq, b.size_eq]
  omega

theorem vars_parts_subset (a b : Ty) : vars (a.parts.zip b.parts) ⊆ vars [(a, b)] := by
  intro v hv
  obtain ⟨e, he, hv⟩ := mem_vars.1 hv
  obtain ⟨h₁, h₂⟩ := List.of_mem_zip he
  exact mem_vars.2 ⟨_, List.mem_singleton_self _,
    hv.imp (fun h => Ty.vars_subset_of_mem_parts h₁ h) fun h => Ty.vars_subset_of_mem_parts h₂ h⟩

theorem literalFree_parts {a b : Ty} (ha : a.LiteralFree) (hb : b.LiteralFree) :
    LiteralFree (a.parts.zip b.parts) := fun _ he =>
  ⟨ha.of_mem_parts (List.of_mem_zip he).1, hb.of_mem_parts (List.of_mem_zip he).2⟩

/-- What an answer to equations has to be: a principal solution, or an error where there is no
solution at all. -/
def Answers (E : List Equation) : Answer UnifyError VarSubst → Prop
  | .ok σ => Principal E σ
  | .error _ => ∀ τ, ¬Solves τ E
  | .unfinished => False

end Equation

/-! ## The solver -/

namespace VarSubst

theorem find?_cons_self (v : Nat) (t : Ty) (σ : VarSubst) : find? ((v, t) :: σ) v = some t := by
  simp [find?]

theorem find?_cons_ne {v w : Nat} (h : w ≠ v) (t : Ty) (σ : VarSubst) :
    find? ((v, t) :: σ) w = σ.find? w := by
  simp [find?, h]

theorem Ordered.find?_of_mem {σ : VarSubst} (h : σ.Ordered) {b : Nat × Ty} (hb : b ∈ σ) :
    σ.find? b.1 = some b.2 := by
  induction σ with
  | nil => exact absurd hb List.not_mem_nil
  | cons c σ ih =>
    obtain ⟨n, u⟩ := c
    obtain ⟨hlt, hσ⟩ := List.pairwise_cons.1 h
    rcases List.mem_cons.1 hb with rfl | hb
    · exact find?_cons_self n u σ
    · rw [find?_cons_ne (Nat.ne_of_gt (hlt b hb)), ih hσ hb]

end VarSubst

namespace Unifier

open Equation

/-- Solutions that bind different variables are merged without a comparison of types, so by every
solver alike. -/
theorem merge_of_apart {σ outer : VarSubst} (hσ : σ.Ordered) (ho : outer.Ordered)
    (hapart : ∀ v, outer.find? v ≠ none → σ.find? v = none) :
    ∃ ρ, (∀ U : Unifier, U.merge σ outer = .ok ρ) ∧ ρ.Ordered
      ∧ ∀ v, ρ.find? v = (outer.find? v).or (σ.find? v) := by
  induction outer generalizing σ with
  | nil => exact ⟨σ, fun U => rfl, hσ, fun v => rfl⟩
  | cons b outer ih =>
    obtain ⟨v, t⟩ := b
    obtain ⟨hlt, ho⟩ := List.pairwise_cons.1 ho
    have hv : σ.find? v = none := hapart v (by rw [VarSubst.find?_cons_self]; exact nofun)
    have hvo : VarSubst.find? outer v = none := VarSubst.find?_eq_none_of_lt hlt
    have hapart' : ∀ w, VarSubst.find? outer w ≠ none → (σ.insert v t).find? w = none := by
      intro w hw
      have hne : w ≠ v := fun h => hw (h ▸ hvo)
      rw [VarSubst.find?_insert, if_neg hne]
      exact hapart w (by rwa [VarSubst.find?_cons_ne hne])
    obtain ⟨ρ, hρ, hord, hfind⟩ := ih (hσ.insert v t) ho hapart'
    refine ⟨ρ, fun U => by rw [merge, hv]; exact hρ U, hord, fun w => ?_⟩
    rw [hfind, VarSubst.find?_insert]
    by_cases hw : w = v
    · subst hw
      rw [if_pos rfl, hvo, VarSubst.find?_cons_self]
      rfl
    · rw [if_neg hw, VarSubst.find?_cons_ne hw]

/-- A solution of the first equation and one of the others, with the first applied, compose to a
solution of them all: none of the variables that one of them binds is left to the other. -/
theorem compose_eliminates {e : Equation} {E : List Equation} {inner outer : VarSubst}
    (hi : Eliminates [e] inner) (ho : Eliminates (E.map (Equation.assign inner)) outer) :
    ∃ σ, (∀ U : Unifier, U.compose outer inner = .ok σ) ∧ Eliminates (e :: E) σ
      ∧ (∀ {v t}, σ.find? v = some t →
          outer.find? v = some t ∨ ∃ u, inner.find? v = some u ∧ t = u.assign outer)
      ∧ ∀ v, (inner.lookup v).assign outer = σ.lookup v := by
  have hfirst {w : Nat} (hw : w ∈ vars [e]) : w ∈ vars (e :: E) := vars_mono (by simp) hw
  -- what the first solution binds is gone from the other equations
  have hgone {v : Nat} (h : v ∈ vars (E.map (Equation.assign inner))) :
      inner.find? v = none ∧ v ∈ vars (e :: E) := by
    obtain ⟨hnone, hv | hv⟩ := hi.vars_map_assign h
    · exact ⟨hnone, vars_mono (by simp) hv⟩
    · exact ⟨hnone, hfirst hv⟩
  have hapart : ∀ v, outer.find? v ≠ none → (inner.find? v).map (Ty.assign outer) = none := by
    intro v hv
    obtain ⟨t, ht⟩ := Option.ne_none_iff_exists'.1 hv
    rw [(hgone (ho.binds ht)).1, Option.map_none]
  have hmerge := merge_of_apart (hi.ordered.map (Ty.assign outer)) ho.ordered
  simp only [VarSubst.find?_map inner (Ty.assign outer)] at hmerge
  obtain ⟨σ, hσ, hord, hfind⟩ := hmerge hapart
  have hcases {v : Nat} {t : Ty} (h : σ.find? v = some t) :
      outer.find? v = some t ∨ ∃ u, inner.find? v = some u ∧ t = u.assign outer := by
    rw [hfind, Option.or_eq_some_iff, Option.map_eq_some_iff] at h
    refine h.imp_right ?_
    rintro ⟨-, u, hu, ht⟩
    exact ⟨u, hu, ht.symm⟩
  refine ⟨σ, hσ, ⟨hord, fun hv => ?_, fun hv w hw => ?_⟩, hcases, fun v => ?_⟩
  · rcases hcases hv with hvo | ⟨u, hvi, -⟩
    · exact (hgone (ho.binds hvo)).2
    · exact hfirst (hi.binds hvi)
  · have hfree (hout : outer.find? w = none) (hin : inner.find? w = none) :
        σ.find? w = none := by
      rw [hfind, hout, hin]
      rfl
    rcases hcases hv with hvo | ⟨u, hvi, rfl⟩
    · obtain ⟨hw, hout⟩ := ho.image hvo w hw
      exact ⟨(hgone hw).2, hfree hout (hgone hw).1⟩
    · obtain ⟨hout, hw | hw⟩ := ho.vars_assign hw
      · exact ⟨hfirst (hi.image hvi w hw).1, hfree hout (hi.image hvi w hw).2⟩
      · exact ⟨(hgone hw).2, hfree hout (hgone hw).1⟩
  · cases hv : inner.find? v with
    | none =>
      rw [VarSubst.lookup_eq_var hv, Ty.assign_var, VarSubst.lookup, VarSubst.lookup, hfind, hv,
        Option.map_none, Option.or_none]
    | some u =>
      have hnone : outer.find? v = none := by
        by_contra hne
        obtain ⟨t, ht⟩ := Option.ne_none_iff_exists'.1 hne
        cases (hgone (ho.binds ht)).1.symm.trans hv
      rw [VarSubst.lookup_eq_of_find? hv, VarSubst.lookup, hfind, hnone, hv]
      rfl

variable (U : Unifier)

/-- Composing keeps solutions principal. -/
theorem compose_principal {e : Equation} {E : List Equation} {inner outer : VarSubst}
    (hi : Principal [e] inner) (ho : Principal (E.map (Equation.assign inner)) outer) :
    ∃ σ, U.compose outer inner = .ok σ ∧ Principal (e :: E) σ := by
  obtain ⟨σ, hσ, ⟨hordered, hbinds, himage⟩, hcases, hlookup⟩ :=
    compose_eliminates hi.eliminates ho.eliminates
  have hassign (t : Ty) : (t.assign inner).assign outer = t.assign σ :=
    Ty.assign_assign t fun v _ => hlookup v
  refine ⟨σ, hσ U, hordered, hbinds, himage, fun hv => ?_, fun d hd => ?_, ?_⟩
  · rcases hcases hv with hvo | ⟨u, hvi, rfl⟩
    · exact ho.literalFree hvo
    · exact ho.literalFree_assign (hi.literalFree hvi)
  · rw [← hassign, ← hassign]
    rcases List.mem_cons.1 hd with rfl | hd
    · rw [hi.solves d (List.mem_singleton_self _)]
    · exact ho.solves _ (List.mem_map_of_mem hd)
  · intro τ hτ v t hv
    obtain ⟨hτe, hτE⟩ := solves_cons.1 hτ
    have hτ' : Solves τ (E.map (Equation.assign inner)) := hi.solves_map hτe hτE
    calc τ.lookup v
        = (inner.lookup v).assign τ := (hi.lookup_factors hτe v).symm
      _ = ((inner.lookup v).assign outer).assign τ := (ho.assign_factors hτ' _).symm
      _ = t.assign τ := by rw [hlookup, VarSubst.lookup_eq_of_find? hv]

/-- With enough fuel the solver answers equations for good. -/
def Decides (E : List Equation) : Prop :=
  ∃ r, Answers E r ∧ Answer.Reaches (fun n => U.solve n (constraints E)) r

theorem argumentConstraints_equality (c d : Ty) (as bs : List Ty) :
    U.argumentConstraints (.equality c d) as bs = .ok (constraints (as.zip bs)) := by
  induction as generalizing bs with
  | nil => cases bs <;> rfl
  | cons a as ih =>
    cases bs with
    | nil => rfl
    | cons b bs =>
      simp [argumentConstraints, Constraint.isSubtype, ih, constraints]

variable {again : List Constraint → Answer UnifyError VarSubst} {a b : Ty}

theorem decompose_of_alike (h : a.Alike b) :
    U.decompose again (.equality a b) = again (constraints (a.parts.zip b.parts)) := by
  cases a <;> cases b <;> try exact h.elim
  case named.named c as d bs =>
    obtain ⟨rfl, hlen⟩ := h
    simp [decompose, Constraint.sides, Ty.head?, Ty.arguments, hlen, argumentConstraints_equality]
  case struct.struct fs gs =>
    have h : fs.map (·.name) = gs.map (·.name) := h
    simp [decompose, Constraint.sides, h, constraints, List.zip, List.map_zipWith]

theorem decompose_of_not_alike (ha : ∀ v, a ≠ .var v) (hb : ∀ v, b ≠ .var v) (h : ¬a.Alike b) :
    U.decompose again (.equality a b) = .error (.mismatch a b) := by
  cases a with
  | var v => exact absurd rfl (ha v)
  | _ =>
    cases b with
    | var w => exact absurd rfl (hb w)
    | _ =>
      simp_all [decompose, Constraint.sides, Ty.head?, Ty.arguments, Constraint.isSubtype, Ty.Alike]

theorem solveOne_self : U.solveOne again (.equality a a) = .ok [] := by
  simp [solveOne, Constraint.sides]

/-- Different types that hold no variable are not equal. -/
theorem solveOne_of_no_vars (hne : a ≠ b) (ha : a.vars = ∅) (hb : b.vars = ∅) :
    U.solveOne again (.equality a b) = .error (.mismatch a b) := by
  simp [solveOne, Constraint.sides, hne, Ty.hasVars_eq_false.2 ha, Ty.hasVars_eq_false.2 hb,
    Constraint.isSubtype]

theorem solveOne_of_vars (hne : a ≠ b) (h : a.vars ≠ ∅ ∨ b.vars ≠ ∅) :
    U.solveOne again (.equality a b) = U.decompose again (.equality a b) := by
  have hvars : (a.hasVars || b.hasVars) = true := by
    rw [Bool.or_eq_true]
    exact h.imp (fun h => Bool.of_not_eq_false fun hf => h (Ty.hasVars_eq_false.1 hf))
      fun h => Bool.of_not_eq_false fun hf => h (Ty.hasVars_eq_false.1 hf)
  simp [solveOne, Constraint.sides, hne, hvars]

/-- Binding a variable answers its equation with a different type. -/
theorem answers_bindVar {v : Nat} {t : Ty} (hne : .var v ≠ t) (ht : t.LiteralFree) :
    Answers [(.var v, t)] (.ofExcept (bindVar v t)) := by
  rw [bindVar]
  split
  case isTrue h =>
    have hv := Ty.occurs_eq_true.1 h
    refine not_solves_of_occurs (fun w hw => ?_) hv
    subst hw
    exact hne (congrArg Ty.var (Ty.mem_vars_var.1 hv))
  case isFalse h => exact Principal.bind (fun hv => h (Ty.occurs_eq_true.2 hv)) ht

theorem answers_swap {r : Answer UnifyError VarSubst} (h : Answers [(b, a)] r) :
    Answers [(a, b)] r := by
  cases r with
  | ok σ => exact h.congr (vars_swap b a).subset fun τ => solves_swap
  | error e => exact fun τ hτ => h τ (solves_swap.1 hτ)
  | unfinished => exact h

/-- One equation is answered if the smaller ones over its variables are. -/
theorem answers_solveOne (ha : a.LiteralFree) (hb : b.LiteralFree)
    (ih : ∀ E, vars E ⊆ vars [(a, b)] → size E < size [(a, b)] → LiteralFree E → U.Decides E) :
    ∃ r, Answers [(a, b)] r
      ∧ Answer.Reaches (fun n => U.solveOne (U.solve n) (.equality a b)) r := by
  by_cases hne : a = b
  · subst hne
    refine ⟨.ok [], Principal.nil fun e he => ?_, 0, fun n _ => U.solveOne_self⟩
    rw [List.mem_singleton.1 he]
  by_cases hvars : a.vars = ∅ ∧ b.vars = ∅
  · refine ⟨.error (.mismatch a b), fun τ hτ => hne ?_, 0,
      fun n _ => U.solveOne_of_no_vars hne hvars.1 hvars.2⟩
    have := hτ _ (List.mem_singleton_self _)
    rwa [Ty.assign_eq_self (by simp [hvars.1]), Ty.assign_eq_self (by simp [hvars.2])] at this
  have hdecompose (again) :
      U.solveOne again (.equality a b) = U.decompose again (.equality a b) :=
    U.solveOne_of_vars hne (not_and_or.1 hvars)
  simp only [hdecompose]
  by_cases hva : ∃ v, a = .var v
  · obtain ⟨v, rfl⟩ := hva
    exact ⟨_, answers_bindVar hne hb, .const _⟩
  by_cases hvb : ∃ v, b = .var v
  · obtain ⟨v, rfl⟩ := hvb
    refine ⟨_, answers_swap (answers_bindVar (Ne.symm hne) ha), 0, fun n _ => ?_⟩
    cases a with
    | var w => exact absurd ⟨w, rfl⟩ hva
    | _ => rfl
  have hva : ∀ v, a ≠ .var v := fun v h => hva ⟨v, h⟩
  have hvb : ∀ v, b ≠ .var v := fun v h => hvb ⟨v, h⟩
  by_cases halike : a.Alike b
  · obtain ⟨r, hr, hsolve⟩ := ih (a.parts.zip b.parts) (vars_parts_subset a b) (size_parts_lt a b)
      (literalFree_parts ha hb)
    simp only [U.decompose_of_alike halike]
    refine ⟨r, ?_, hsolve⟩
    have hiff (τ : VarSubst) : Solves τ [(a, b)] ↔ Solves τ (a.parts.zip b.parts) := by
      rw [← halike.assign_eq_iff, Solves, List.forall_mem_singleton]
    cases r with
    | ok σ => exact hr.congr (vars_parts_subset a b) hiff
    | error e => exact fun τ hτ => hr τ ((hiff τ).1 hτ)
    | unfinished => exact hr
  · simp only [U.decompose_of_not_alike hva hvb halike]
    refine ⟨.error (.mismatch a b), fun τ hτ => ?_, .const _⟩
    exact Ty.assign_ne_of_not_alike hva hvb ha hne halike τ (hτ _ (List.mem_singleton_self _))

/-- Equations between types without interface literals are decided. -/
theorem decides (E : List Equation) (hE : LiteralFree E) : U.Decides E := by
  match E with
  | [] => exact ⟨.ok [], Principal.nil (by simp), 0, fun n _ => by cases n <;> rfl⟩
  | e :: E =>
    obtain ⟨⟨ha, hb⟩, hE⟩ := List.forall_mem_cons.1 hE
    obtain ⟨r, hr, hfirst⟩ := U.answers_solveOne ha hb fun E' hvars hsize hE' => decides E' hE'
    cases r with
    | unfinished => exact hr.elim
    | error c =>
      refine ⟨.error c, fun τ hτ => hr τ (solves_cons.1 hτ).1, .succ ?_⟩
      exact hfirst.bind_error
    | ok σ =>
      have hσ : Principal [e] σ := hr
      have hsmaller := hσ.eliminates.later_smaller E
      obtain ⟨r, hr, hlater⟩ := decides (E.map (Equation.assign σ)) (hσ.literalFree_map hE)
      rw [constraints_map_assign] at hlater
      cases r with
      | unfinished => exact hr.elim
      | error c =>
        refine ⟨.error c, fun τ hτ => hr τ ?_, .succ (hfirst.bind hlater.bind_error)⟩
        exact hσ.solves_map (solves_cons.1 hτ).1 (solves_cons.1 hτ).2
      | ok outer =>
        obtain ⟨ρ, hρ, hprincipal⟩ := U.compose_principal hσ hr
        exact ⟨.ok ρ, hprincipal, .succ (hfirst.bind (hlater.bind (hρ ▸ .const _)))⟩
termination_by ((vars E).card, size E)
decreasing_by
  · have hsub : vars [e] ⊆ vars (e :: E) := vars_mono (by simp)
    have hle := Finset.card_le_card (hvars.trans hsub)
    refine Prod.Lex.right' _ hle (Nat.lt_of_lt_of_le hsize ?_)
    simp [size]
  · rcases hsmaller with hlt | ⟨hle, hlt⟩
    · exact .left _ _ hlt
    · exact .right' _ hle hlt

/-- `Unifier.solve` on equations between types without interface literals computes a most general
unifier: with enough fuel it always answers, with a solution exactly where there is one, and any
other solution does the same before and after the one it finds. -/
theorem solve_equalities (U : Unifier) (E : List Equation) (hE : Equation.LiteralFree E) :
    ∃ r : Answer UnifyError VarSubst, r.Finished
      ∧ (∃ n, ∀ m ≥ n, U.solve m (Equation.constraints E) = r)
      ∧ ((∃ σ, r = .ok σ) ↔ ∃ τ, Equation.Solves τ E)
      ∧ ∀ σ, r = .ok σ → Equation.Solves σ E
          ∧ ∀ τ, Equation.Solves τ E → ∀ t : Ty, t.assign τ = (t.assign σ).assign τ := by
  obtain ⟨r, hr, hsolve⟩ := U.decides E hE
  cases r with
  | unfinished => exact hr.elim
  | error c =>
    exact ⟨.error c, trivial, hsolve, ⟨nofun, fun ⟨τ, hτ⟩ => absurd hτ (hr τ)⟩, nofun⟩
  | ok σ =>
    have hσ : Principal E σ := hr
    refine ⟨.ok σ, trivial, hsolve, ⟨fun _ => ⟨σ, hσ.solves⟩, fun _ => ⟨σ, rfl⟩⟩, ?_⟩
    intro ρ hρ
    obtain rfl := Answer.ok.inj hρ
    exact ⟨hσ.solves, fun τ hτ t => (hσ.assign_factors hτ t).symm⟩

/-- Two boxes whose contents are still open, and a variable for what the first one holds. -/
def boxEquations : List Equation :=
  [(.named "Box" [.var 0], .named "Box" [.named "Pair" [.var 2, .param "a"]]), (.var 1, .var 0)]

theorem solve_boxEquations : Equation.LiteralFree boxEquations
    ∧ ∃ σ, (∃ n, ∀ m ≥ n, Unifier.solve ⟨.empty, [], 0⟩ m (Equation.constraints boxEquations)
        = .ok σ)
      ∧ Equation.Solves σ boxEquations
      ∧ ∀ τ, Equation.Solves τ boxEquations →
          ∀ t : Ty, t.assign τ = (t.assign σ).assign τ := by
  have hE : Equation.LiteralFree boxEquations := by
    simp [Equation.LiteralFree, boxEquations, Ty.LiteralFree, Ty.preorder, Ty.preorderAll]
  refine ⟨hE, ?_⟩
  obtain ⟨r, -, hsolve, hiff, hr⟩ := solve_equalities ⟨.empty, [], 0⟩ boxEquations hE
  obtain ⟨σ, rfl⟩ := hiff.2 ⟨[(0, .named "Pair" [.var 2, .param "a"]),
    (1, .named "Pair" [.var 2, .param "a"])],
    by simp [Equation.Solves, boxEquations, VarSubst.lookup, VarSubst.find?]⟩
  exact ⟨σ, hsolve, hr σ rfl⟩

/-- Interface literals are not taken apart: this equation has a solution that is not found. -/
example : Unifier.solve ⟨.empty, [], 0⟩ 5 (Equation.constraints
      [(.interface [.method ⟨"m", [], [], .var 0⟩], .interface [.method ⟨"m", [], [], .param "a"⟩])])
    = .error (.mismatch (.interface [.method ⟨"m", [], [], .var 0⟩])
        (.interface [.method ⟨"m", [], [], .param "a"⟩])) := by
  rfl

end Unifier

end FeatherGo
