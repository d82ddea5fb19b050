import FeatherGo.Proofs.Inference.Solving
import FeatherGo.Proofs.Methods.Assigned
import FeatherGo.Proofs.Methods.Instantiation

/-!
# Solved constraints

What solving returns makes the sides of every equation equal, since it carries out each solution before
it looks for the next one (`VarSubst.Absorbs`). A subtype constraint comes down to such equations, or
holds as it stands, at some stage of solving (`Unifier.met_of_solve`).

Signatures that agree with their variables replaced agree after the replacement, so the one side then
implements the other (`Unifier.Met.holds`), if nothing is renamed on the way. Arguments of one name are
solved one by one, of which those without variables need only implement each other. So two types of one
name may come out that do not implement each other: `Unifier.solved_implements` says what holds, and
`pairing_solved_not_implements` has two such types.
-/

namespace FeatherGo

/-! ## Solutions one after the other -/

/-- To carry out a solution first changes nothing for the other. -/
def VarSubst.Absorbs (τ σ : VarSubst) : Prop := ∀ v, (σ.lookup v).assign τ = τ.lookup v

theorem VarSubst.Absorbs.assign {τ σ : VarSubst} (h : τ.Absorbs σ) (t : Ty) :
    (t.assign σ).assign τ = t.assign τ :=
  Ty.assign_assign t fun v _ => h v

namespace Equation

variable {E : List Equation} {e : Equation} {σ τ inner outer : VarSubst}

/-- A solution that removes variables has nothing left to do where it has been carried out. -/
theorem Eliminates.absorbs (h : Eliminates E σ) : σ.Absorbs σ := by
  intro v
  cases hv : σ.find? v with
  | none => rw [VarSubst.lookup_eq_var hv, Ty.assign_var, VarSubst.lookup_eq_var hv]
  | some t =>
    rw [VarSubst.lookup_eq_of_find? hv]
    exact Ty.assign_eq_self fun w hw => (h.image hv w hw).2

/-- What absorbs a composed solution absorbs both of its parts. -/
theorem absorbs_of_compose (hi : Eliminates [e] inner)
    (ho : Eliminates (E.map (Equation.assign inner)) outer)
    (hσ : ∀ v, (inner.lookup v).assign outer = σ.lookup v) (hτ : τ.Absorbs σ) :
    τ.Absorbs inner ∧ τ.Absorbs outer := by
  have houter : τ.Absorbs outer := by
    intro v
    cases hv : outer.find? v with
    | none => rw [VarSubst.lookup_eq_var hv, Ty.assign_var]
    | some t =>
      -- The first solution leaves open what the second one binds.
      have hinner := (hi.vars_map_assign (ho.binds hv)).1
      have heq := hσ v
      rw [VarSubst.lookup_eq_var hinner, Ty.assign_var] at heq
      rw [heq]
      exact hτ v
  refine ⟨fun v => ?_, houter⟩
  rw [← houter.assign, hσ v]
  exact hτ v

end Equation

/-! ## Constraints at some stage of solving -/

theorem Constraint.sides_assign (σ : VarSubst) (c : Constraint) :
    (c.assign σ).sides = Equation.assign σ c.sides := by
  cases c <;> rfl

theorem Constraint.isSubtype_assign (σ : VarSubst) (c : Constraint) :
    (c.assign σ).isSubtype = c.isSubtype := by
  cases c <;> rfl

/-- What becomes of a constraint on the way to a solution: the same question, over types with a
property, and with the sides that the solution gives to the constraint. -/
structure Constraint.Stage (P : Ty → Prop) (τ : VarSubst) (c c' : Constraint) : Prop where
  subtype : c'.isSubtype = c.isSubtype
  kept : c'.Over P
  sides : Equation.assign τ c'.sides = Equation.assign τ c.sides

namespace Unifier

open Equation

variable {U : Unifier} {P : Ty → Prop} {c : Constraint} {E : List Equation} {σ τ : VarSubst}

/-- A solution meets a constraint: it makes the sides equal, or the one side has to implement the other,
and does so as it stands or comes down to equations that are solved. -/
def Met (U : Unifier) (τ : VarSubst) (c : Constraint) : Prop :=
  c.sides.1.assign τ = c.sides.2.assign τ
    ∨ c.isSubtype = true ∧ (U.Implied c.sides.1 c.sides.2 ∨ ∃ E, U.Reduces c E ∧ Solves τ E)

/-- The equations that an equality comes down to make its sides equal. -/
theorem Reduces.met (h : U.Reduces c E) (hτ : Solves τ E) : U.Met τ c := by
  cases hc : c.isSubtype with
  | true => exact .inr ⟨hc, .inr ⟨E, h, hτ⟩⟩
  | false =>
    refine .inl ?_
    cases h with
    | @fields fs gs sides names =>
      have halike : (Ty.struct fs).Alike (.struct gs) := names
      rw [sides]
      exact (halike.assign_eq_iff τ).2 hτ
    | @arguments d as bs E sides length pairs rest =>
      have halike : (Ty.named d as).Alike (.named d bs) := ⟨rfl, length⟩
      rw [sides]
      refine (halike.assign_eq_iff τ).2 fun e he => hτ e ((rest e he).resolve_right fun himplied => ?_)
      rw [hc] at himplied
      exact Bool.false_ne_true himplied.1
    | methods subtype => exact absurd subtype (by rw [hc]; exact Bool.false_ne_true)

/-- The equations that a constraint comes down to hold none but its variables, if what types offer does
not. -/
theorem Reduces.vars_subset (h : U.Reduces c E) (hU : ∀ X, U.Offers (Ty.Everywhere (Ty.VarsIn X))) :
    vars E ⊆ vars [c.sides] := by
  have hside : c.Over (Ty.Everywhere (Ty.VarsIn (vars [c.sides]))) := by
    constructor <;> refine Ty.vars_subset_iff.1 fun v hv => ?_
    · exact mem_vars.2 ⟨_, List.mem_singleton_self _, .inl hv⟩
    · exact mem_vars.2 ⟨_, List.mem_singleton_self _, .inr hv⟩
  have hover := h.over (fun ht ha => ht.of_mem_parts ha) (hU _) hside
  intro v hv
  obtain ⟨e, he, hv⟩ := mem_vars.1 hv
  obtain ⟨hl, hr⟩ := hover e he
  exact hv.elim (fun hv => Ty.vars_subset_iff.2 hl hv) fun hv => Ty.vars_subset_iff.2 hr hv

/-- What is returned for one constraint removes variables of it. -/
theorem eliminates_of_solveOne (hU : ∀ X, U.Offers (Ty.Everywhere (Ty.VarsIn X)))
    {again : List Constraint → Answer UnifyError VarSubst}
    (h : ∀ E σ, again (constraints E) = .ok σ → Eliminates E σ)
    (hσ : U.solveOne again c = .ok σ) : Eliminates [c.sides] σ := by
  rcases of_solveOne hσ with ⟨-, rfl⟩ | hσ
  · exact .nil _
  · rcases of_decompose hσ with ⟨v, t, hsides, hσ⟩ | ⟨E, hE, hσ⟩
    · have hbind := removes_bindVar v t
      rw [hσ] at hbind
      rcases hsides with hsides | hsides <;> rw [hsides]
      · exact hbind
      · exact Eliminates.mono hbind (vars_swap _ _).subset
    · exact (h E σ hσ).mono (hE.vars_subset hU)

theorem map_sides_constraints (E : List Equation) : (constraints E).map Constraint.sides = E := by
  simp [constraints, Function.comp_def, Constraint.sides]

theorem map_sides_assign (σ : VarSubst) (cs : List Constraint) :
    (cs.map (·.assign σ)).map Constraint.sides = (cs.map Constraint.sides).map (Equation.assign σ) := by
  simp [Function.comp_def, Constraint.sides_assign]

/-- **What solving returns removes variables of the constraints.** -/
theorem eliminates_of_solve (hU : ∀ X, U.Offers (Ty.Everywhere (Ty.VarsIn X))) {n : Nat}
    {cs : List Constraint} (hσ : U.solve n cs = .ok σ) : Eliminates (cs.map Constraint.sides) σ := by
  induction n generalizing cs σ with
  | zero =>
    cases cs with
    | nil => exact Answer.ok.inj hσ ▸ .nil _
    | cons c cs => cases hσ
  | succ n ih =>
    cases cs with
    | nil => exact Answer.ok.inj hσ ▸ .nil _
    | cons c cs =>
      obtain ⟨first, hfirst, hσ⟩ := Answer.bind_eq_ok.1 hσ
      obtain ⟨later, hlater, hσ⟩ := Answer.bind_eq_ok.1 hσ
      have hinner := eliminates_of_solveOne hU
        (fun E ρ hρ => map_sides_constraints E ▸ ih hρ) hfirst
      have houter := ih hlater
      rw [map_sides_assign] at houter
      obtain ⟨ρ, hρ, heliminates, -⟩ := compose_eliminates hinner houter
      obtain rfl := Answer.ok.inj ((hρ U).symm.trans hσ)
      exact heliminates

/-- **Solving meets every constraint** at some stage: with the solutions found before it carried out. -/
theorem met_of_solve (hP : Ty.Assignable P) (hoffers : U.Offers P)
    (hU : ∀ X, U.Offers (Ty.Everywhere (Ty.VarsIn X))) {n : Nat} {cs : List Constraint}
    (hcs : ∀ c ∈ cs, c.Over P) (hσ : U.solve n cs = .ok σ) (hτ : τ.Absorbs σ) :
    ∀ c ∈ cs, ∃ c', c.Stage P τ c' ∧ U.Met τ c' := by
  induction n generalizing cs σ with
  | zero =>
    cases cs with
    | nil => exact List.forall_mem_nil _
    | cons c cs => cases hσ
  | succ n ih =>
    cases cs with
    | nil => exact List.forall_mem_nil _
    | cons c cs =>
      obtain ⟨hc, hcs⟩ := List.forall_mem_cons.1 hcs
      obtain ⟨first, hfirst, hσ⟩ := Answer.bind_eq_ok.1 hσ
      obtain ⟨later, hlater, hσ⟩ := Answer.bind_eq_ok.1 hσ
      have hinner : Eliminates [c.sides] first := eliminates_of_solveOne hU
        (fun E ρ hρ => map_sides_constraints E ▸ eliminates_of_solve hU hρ) hfirst
      have houter := eliminates_of_solve hU hlater
      rw [map_sides_assign] at houter
      obtain ⟨ρ, hρ, -, -, hlookup⟩ := compose_eliminates hinner houter
      obtain rfl := Answer.ok.inj ((hρ U).symm.trans hσ)
      obtain ⟨hτfirst, hτlater⟩ := absorbs_of_compose hinner houter hlookup hτ
      refine List.forall_mem_cons.2 ⟨⟨c, ⟨rfl, hc, rfl⟩, ?_⟩, fun d hd => ?_⟩
      · rcases of_solveOne hfirst with ⟨heq | himplied, -⟩ | hfirst
        · exact .inl (congrArg (Ty.assign τ) heq)
        · exact .inr ⟨himplied.1, .inl himplied.2⟩
        · rcases of_decompose hfirst with ⟨v, t, hsides, hbind⟩ | ⟨E, hE, hagain⟩
          · have hvt : (Ty.var v).assign τ = t.assign τ := by
              rw [bindVar] at hbind
              split at hbind
              · cases hbind
              · obtain rfl := Except.ok.inj hbind
                rw [Ty.assign_var, ← hτfirst v]
                exact congrArg (Ty.assign τ) (VarSubst.lookup_eq_of_find? (by simp [VarSubst.find?]))
            refine .inl ?_
            rcases hsides with hsides | hsides <;> rw [hsides]
            · exact hvt
            · exact hvt.symm
          · refine hE.met fun e he => ?_
            have hover := hE.over hP.part hoffers hc
            obtain ⟨c', hstage, hmet⟩ := ih (List.forall_mem_map.2 hover) hagain hτfirst
              (.equality e.1 e.2) (List.mem_map_of_mem he)
            have hequal := hmet.resolve_right fun hmet => by
              rw [hstage.subtype] at hmet
              exact Bool.false_ne_true hmet.1
            obtain ⟨hl, hr⟩ := Prod.mk.inj hstage.sides
            exact hl.symm.trans (hequal.trans hr)
      · have hover : first.Over P := by
          refine over_of_solveOne hP hoffers (fun E hE ρ hρ => ?_) hc hfirst
          exact over_of_solve hP hoffers (List.forall_mem_map.2 hE) hρ
        obtain ⟨d', hstage, hmet⟩ := ih (List.forall_mem_map.2 fun d hd => (hcs d hd).assign hP hover)
          hlater hτlater (d.assign first) (List.mem_map_of_mem hd)
        refine ⟨d', ⟨hstage.subtype.trans (d.isSubtype_assign first), hstage.kept, ?_⟩, hmet⟩
        rw [hstage.sides, Constraint.sides_assign]
        exact Prod.ext (hτfirst.assign _) (hτfirst.assign _)

end Unifier

/-! ## What solutions hold -/

/-- What types hold below their heads, the canonical signatures that they offer hold throughout. -/
theorem Unifier.offers_of_conveys {U : Unifier} {N : Ty → Prop} (hparam : ∀ p, N (.param p))
    (hself : ∀ t η, (∀ p, t ≠ .param p) → N t → N (Ty.subst η t))
    (hconveys : U.table.Conveys U.bounds (Ty.Holds N)) : U.Offers (Ty.Everywhere N) := by
  intro t S ht hS s hs u hu
  rw [Signature.types_canonical] at hu
  obtain ⟨w, hw, rfl⟩ := List.mem_map.1 hu
  have hsig := hconveys.of_methods (.of_everywhere ht) hS s hs
  refine (hsig.types w hw).subst_of hparam hself fun a x hx => ?_
  obtain ⟨q, rfl⟩ := Signature.isRenaming_relabelling _ _ a x hx
  exact Ty.Everywhere.iff_parts.2 ⟨hparam q, List.forall_mem_nil _⟩

/-- **To be apart from names is kept by solving.** -/
theorem Ty.assignable_apart (V : Vocabulary) (names : List String) :
    Ty.Assignable (Ty.Everywhere (Ty.Apart V names)) where
  prim p := Everywhere.iff_parts.2 ⟨⟨trivial, List.forall_mem_nil _⟩, List.forall_mem_nil _⟩
  part ht ha := ht.of_mem_parts ha
  embed ht hm := Everywhere.iff_parts.2 ⟨⟨(ht.self.built _ hm).2, List.forall_mem_nil _⟩,
    fun _ ha => ht.of_mem_parts (mem_parts_of_embed hm ha)⟩
  method ht hm := by
    refine Everywhere.iff_parts.2 ⟨ht.self.of_members ?_, fun u hu => ?_⟩
    · exact List.forall_mem_singleton.2 ⟨_, hm, id, rfl⟩
    · exact ht.of_mem_parts (mem_parts_of_method hm (by simpa [Signature.alone, Member.types] using hu))
  subst ht hη := ht.apart_subst hη
  param p := Everywhere.iff_parts.2 ⟨apart_param V names p, List.forall_mem_nil _⟩
  var v := Everywhere.iff_parts.2 ⟨apart_var V names v, List.forall_mem_nil _⟩
  assign {t σ} ht hσ := ht.apart_assign fun v _ =>
    VarSubst.lookup_of (Everywhere.iff_parts.2 ⟨apart_var V names v, List.forall_mem_nil _⟩) (hσ v)

/-! ## Solved constraints hold -/

/-- The types that a declaration writes at the head of what it declares: the source of a type, and of a
method the bounds of its receiver and the signature as an interface of its own. -/
def Decl.heads : Decl → List Ty
  | .type td => [td.source]
  | .method md => md.recvFormals.map (·.ty) ++ [md.sig.alone]

namespace Table

variable {T : Table} {strict : Bool} {rank : String → Nat} {Δ : Bounds} {decls : List Decl}

theorem Accepts.quiet (hΔ : T.Accepts Δ) (hT : Table.ofDecls decls = .ok T) (hsources : T.HasSources)
    (hnames : ∀ a ∈ Δ.typeFormals, OrdinaryName a)
    (hremote : ∀ t ∈ decls.flatMap Decl.heads ++ Δ.map (·.2), t.Remote Δ.names) :
    T.Quiet strict Δ := by
  have hheads {d : Decl} (hd : d ∈ decls) {t : Ty} (ht : t ∈ d.heads) : t.Remote Δ.names :=
    hremote t (List.mem_append_left _ (List.mem_flatMap.2 ⟨d, hd, ht⟩))
  constructor
  · exact fun a ha => (hnames a (List.mem_append_left _ ha)).unprimed
  · intro a b hb
    obtain ⟨names, hsub, hspelled, hbound⟩ := hΔ.spelled_bound strict hsources hnames hb
    refine ⟨hspelled.inner.loose.mono hsub nofun, hbound, hremote b (List.mem_append_right _ ?_)⟩
    exact List.mem_map_of_mem (Env.mem_of_find? hb)
  · exact fun c td htd => hheads (mem_decls_of_type? hT htd) (List.mem_singleton_self _)
  · intro md hmd f hf
    exact hheads (mem_decls_of_method hT hmd) (List.mem_append_left _ (List.mem_map_of_mem hf))
  · intro md hmd
    exact hheads (mem_decls_of_method hT hmd) (List.mem_append_right _ (List.mem_singleton_self _))

/-- From some fuel on a type implements another. -/
def ImplementsIn (T : Table) (Δ : Bounds) (t u : Ty) : Prop :=
  ∃ N, ∀ m ≥ N, T.implements m Δ t u = .ok true

/-- Two types apply one name to arguments that are equal or, from some fuel on, implement each other,
one by one. -/
def ImplementsByArguments (T : Table) (Δ : Bounds) (t u : Ty) : Prop :=
  ∃ d as bs, t = .named d as ∧ u = .named d bs
    ∧ List.Forall₂ (fun a b => a = b ∨ T.ImplementsIn Δ a b) as bs

theorem ImplementsIn.of_implementsBy {t u : Ty}
    (h : T.implementsBy (T.allMethods Δ) t u = .ok true) : T.ImplementsIn Δ t u :=
  (T.finitary_implementsBy t u).eventually h

end Table

namespace Unifier

variable {T : Table} {strict : Bool} {rank : String → Nat} {Δ : Bounds} {fuel : Nat} {σ : VarSubst}

/-- What is implied as it stands stays so: there is nothing to assign. -/
theorem Implied.implementsIn {a b : Ty} (h : Implied ⟨T, Δ, fuel⟩ a b) (σ : VarSubst) :
    T.ImplementsIn Δ (a.assign σ) (b.assign σ) := by
  obtain ⟨ha, hb, himp⟩ := h
  have hself {t : Ty} (ht : t.hasVars = false) : t.assign σ = t :=
    Ty.assign_eq_self fun v hv => absurd hv (Ty.hasVars_eq_false.1 ht ▸ Finset.notMem_empty v)
  rw [hself ha, hself hb]
  exact .of_implementsBy ((T.finitary_implementsBy a b).of_methods himp)

/-- **A constraint that is met holds**, if its types are clear of the names in the context and so is
what the solution gives. -/
theorem Met.holds (h : T.Lawful strict rank) (hΔ : T.Quiet strict Δ)
    (hσ : ∀ v, (σ.lookup v).Clear (T.vocabulary strict) Δ.names Δ.names) {c : Constraint}
    (hl : c.sides.1.Clear (T.vocabulary strict) Δ.names Δ.names)
    (hr : c.sides.2.Clear (T.vocabulary strict) Δ.names Δ.names) (hmet : Met ⟨T, Δ, fuel⟩ σ c) :
    T.ImplementsIn Δ (c.sides.1.assign σ) (c.sides.2.assign σ)
      ∨ T.ImplementsByArguments Δ (c.sides.1.assign σ) (c.sides.2.assign σ) := by
  have hf := hΔ.transports hσ
  have hequal (heq : c.sides.1.assign σ = c.sides.2.assign σ) :
      T.ImplementsIn Δ (c.sides.1.assign σ) (c.sides.2.assign σ) := by
    rw [← heq]
    exact .of_implementsBy (h.shaped.implementsBy_refl (Table.headed_of_clear (hl.assign hσ)) Δ)
  rcases hmet with heq | ⟨-, himplied | ⟨E, hE, hsolves⟩⟩
  · exact .inl (hequal heq)
  · exact .inl (himplied.implementsIn σ)
  cases hE with
  | @fields fs gs sides names =>
    have halike : (Ty.struct fs).Alike (.struct gs) := names
    refine .inl (hequal ?_)
    rw [sides]
    exact (halike.assign_eq_iff σ).2 hsolves
  | @arguments d as bs E sides length pairs rest =>
    refine .inr ⟨d, as.map (Ty.assign σ), bs.map (Ty.assign σ), ?_, ?_, ?_⟩
    · rw [sides, Ty.assign_named]
    · rw [sides, Ty.assign_named]
    · rw [List.forall₂_map_left_iff, List.forall₂_map_right_iff, List.forall₂_iff_zip]
      refine ⟨length, fun {a b} hab => ?_⟩
      rcases rest (a, b) hab with hmem | ⟨-, himplied⟩
      · exact .inl (hsolves _ hmem)
      · exact .inr (himplied.implementsIn σ)
  | @methods S W E _ vars interface offered wanted matched =>
    refine .inl (.of_implementsBy ?_)
    obtain ⟨S', hS', hcarried, -⟩ := hf.methods_becomes h (.clear hl) offered
    obtain ⟨W', hW', -, hexact⟩ := hf.methods_becomes h (.clear hr) wanted
    have htype := Table.interfaceType_of_isInterface h.hasSources interface
    rw [Table.implementsBy_interface ?_ ?_ hW' hS', MethodSet.covers_iff.2]
    · -- What is offered for a wanted signature has canonical types that the solution makes equal.
      intro w' hw'
      obtain ⟨w, hw, hchanged⟩ := exists_of_mem_forall₂ (hexact htype).flip hw'
      obtain ⟨o, ho, hformals, hparams, hpairs⟩ := matched.found w hw
      obtain ⟨hmem, hname⟩ := MethodSet.mem_of_find? ho
      obtain ⟨o', ho', hochanged⟩ := hcarried o hmem
      refine ⟨o', by rw [hchanged.name, ← hname, ho'], ?_⟩
      refine hochanged.alphaEq hchanged hname hformals hparams ?_
      have hlength : o.canonical.types.length = w.canonical.types.length := by
        rw [Signature.types_canonical, Signature.types_canonical, List.length_map, List.length_map]
        simp [Signature.types, hformals, hparams]
      rw [Ty.map_eq_map_iff_zip hlength]
      exact fun e he => hsolves e (hpairs he)
    · exact Ty.assign_ne_var vars σ
    · exact h.isInterface_eq_true (hf.clear hr).scoped (hf.interfaceType hr htype)

/-- Under quiet declarations what types offer is apart from the names in the context, as they are. -/
theorem offers_apart (h : T.Lawful strict rank) (hΔ : T.Quiet strict Δ) :
    Offers ⟨T, Δ, fuel⟩ (Ty.Everywhere (Ty.Apart (T.vocabulary strict) Δ.names)) :=
  offers_of_conveys (Ty.apart_param _ _) (fun _ η hp ht => ht.subst hp η)
    (hΔ.conveys h (Ty.apart_param _ _) (fun _ η hp ht => ht.subst hp η) fun ht hr =>
      (hr.untouched id).apart ht)

/-- Under quiet declarations what types offer holds no other variables than they. -/
theorem offers_varsIn (h : T.Lawful strict rank) (hΔ : T.Quiet strict Δ) (X : Finset Nat) :
    Offers ⟨T, Δ, fuel⟩ (Ty.Everywhere (Ty.VarsIn X)) :=
  offers_of_conveys nofun (fun _ η hp ht => ht.subst hp η)
    (hΔ.conveys h nofun (fun _ η hp ht => ht.subst hp η) fun _ hr u hu =>
      Ty.vars_subset_iff.1 ((hr u hu).1 ▸ Finset.empty_subset X))

/-- What a solution gives is clear of names if its types are apart from them and mention no other. -/
theorem clear_lookup {V : Vocabulary} {names : List String}
    (hσ : σ.Over (Ty.Everywhere (Ty.Apart V names)))
    (hmentions : ∀ v t, σ.find? v = some t → ∀ a ∈ t.freeParams, a ∈ names) (v : Nat) :
    (σ.lookup v).Clear V names names :=
  VarSubst.lookup_of (.var V names names v) fun t hv =>
    ⟨hσ _ (VarSubst.mem_of_find? hv), hmentions v t hv⟩

end Unifier

/-! ## A variable below a declared method with a formal -/

/-- A struct type of one field. -/
def Boxing.wrapper (t : Ty) : Ty := .struct [⟨"inner", t⟩]

/-- What offers `get` as a box of wrapped `b` does, with another name for the formal. -/
def Boxing.unwrapped : Ty :=
  .interface [.method ⟨"get", [⟨"z", .named "Any" []⟩], [⟨"y", .param "z"⟩], wrapper (.param "b")⟩]

/-- The constraint that a box of wrapped content of some type offers it. -/
def Boxing.offer : Constraint :=
  .subtype (.named "Box" [wrapper (.var 0)]) unwrapped

/-- A struct type with two formals. -/
def pairing : List Decl :=
  [.type ⟨"Any", [], .anything⟩,
    .type ⟨"A", [], .struct []⟩,
    .type ⟨"Pair", [⟨"a", .named "Any" []⟩, ⟨"b", .named "Any" []⟩], .struct []⟩]

/-- A pair of the first type and of a struct with a field of the second type. -/
def Pairing.pair (first field : Ty) : Ty := .named "Pair" [first, .struct [⟨"f", field⟩]]

/-- A pair of `A` and of a struct with a field that is open. -/
def Pairing.offered : Ty := pair (.named "A" []) (.var 0)

/-- A pair of `Any` and of a struct with a number in its field. -/
def Pairing.wanted : Ty := pair (.named "Any" []) (.prim ⟨.int32, false⟩)

/-- An interface with a signature below the head that has a formal named `c`. -/
def Priming.offer : Ty :=
  .interface [.method ⟨"m", [], [],
    .interface [.method ⟨"n", [⟨"c", .named "Any" []⟩], [], .named "Any" []⟩]⟩]

/-- Two names of the interface, of which one has a formal. -/
def priming : List Decl :=
  [.type ⟨"Any", [], .anything⟩,
    .type ⟨"Source", [⟨"t", .named "Any" []⟩], Priming.offer⟩,
    .type ⟨"Target", [], Priming.offer⟩]

/-- **A declaration may not bind a name of the context below its head.** The formal `c` is renamed once
the variable stands for the parameter `c`, though it is not mentioned there, and only in the one type.
-/
theorem priming_solved_not_implements : ∃ T decls' σ, Table.ofDecls priming = .ok T
    ∧ Checker.checkDecls ⟨T, false, 9⟩ priming = .ok decls'
    ∧ Unifier.solve ⟨T, [("c", .named "Any" [])], 9⟩ 9
        [.subtype (.named "Source" [.var 0]) (.named "Target" []),
          .subtype (.var 0) (.param "c")] = .ok σ
    ∧ T.implements 9 [("c", .named "Any" [])] ((Ty.named "Source" [.var 0]).assign σ)
        ((Ty.named "Target" []).assign σ) = .ok false := by
  have hok : (Answer.ofExcept (Table.ofDecls priming)).any (fun T =>
      (Checker.checkDecls ⟨T, false, 9⟩ priming).any fun _ =>
      (Unifier.solve ⟨T, [("c", .named "Any" [])], 9⟩ 9
        [.subtype (.named "Source" [.var 0]) (.named "Target" []),
          .subtype (.var 0) (.param "c")]).any fun σ =>
      (T.implements 9 [("c", .named "Any" [])] ((Ty.named "Source" [.var 0]).assign σ)
        ((Ty.named "Target" []).assign σ)).any fun b => !b) = true := by
    decide +kernel
  obtain ⟨T, hT, hok⟩ := Answer.any_eq_true.1 hok
  obtain ⟨decls', hdecls, hok⟩ := Answer.any_eq_true.1 hok
  obtain ⟨σ, hσ, hok⟩ := Answer.any_eq_true.1 hok
  obtain ⟨b, himp, hok⟩ := Answer.any_eq_true.1 hok
  obtain rfl : b = false := by simpa using hok
  exact ⟨T, decls', σ, Answer.ofExcept_eq_ok.1 hT, hdecls, hσ, himp⟩

/-- A type that asks, before it offers `bar`, whether its argument offers `foo`. -/
def leaking : List Decl :=
  [.type ⟨"Any", [], .anything⟩,
    .type ⟨"Fooer", [], .interface [.method ⟨"foo", [], [], .named "Any" []⟩]⟩,
    .type ⟨"K", [⟨"a", .named "Any" []⟩], .struct []⟩,
    .method ⟨"k", "K", [⟨"a", .named "Any" []⟩], ⟨"foo", [], [], .named "Any" []⟩, .var "k"⟩,
    .method ⟨"k", "K", [⟨"a", .named "Fooer" []⟩], ⟨"bar", [], [], .named "Any" []⟩, .var "k"⟩,
    .type ⟨"L", [⟨"a", .named "Any" []⟩], .struct []⟩,
    .method ⟨"l", "L", [⟨"a", .named "Fooer" []⟩], ⟨"bar", [], [], .named "Any" []⟩, .var "l"⟩]

/-- A generic method whose parameter has some type. -/
def Leaking.generic (param : Ty) : Ty :=
  .interface [.method ⟨"m", [⟨"a", .named "Any" []⟩], [⟨"x", param⟩], .named "Any" []⟩]

/-- **A solution may mention a canonical name**, which is in no scope: the variable stands for the
formal of a signature. The constraint that comes first was solved without it. -/
theorem leaking_solved_unbound : ∃ T decls' σ, Table.ofDecls leaking = .ok T
    ∧ Checker.checkDecls ⟨T, false, 9⟩ leaking = .ok decls'
    ∧ Unifier.solve ⟨T, [], 9⟩ 9
        [.subtype (.named "K" [.named "L" [.var 0]]) (.named "Fooer" []),
          .subtype (Leaking.generic (.param "a")) (Leaking.generic (.var 0))] = .ok σ
    ∧ (Ty.var 0).assign σ = .param (Signature.canonicalName 1)
    ∧ ∃ e, T.implements 9 [] ((Ty.named "K" [.named "L" [.var 0]]).assign σ)
        ((Ty.named "Fooer" []).assign σ) = .error e := by
  have hok : (Answer.ofExcept (Table.ofDecls leaking)).any (fun T =>
      (Checker.checkDecls ⟨T, false, 9⟩ leaking).any fun _ =>
      (Unifier.solve ⟨T, [], 9⟩ 9
        [.subtype (.named "K" [.named "L" [.var 0]]) (.named "Fooer" []),
          .subtype (Leaking.generic (.param "a")) (Leaking.generic (.var 0))]).any fun σ =>
      (Ty.var 0).assign σ == .param (Signature.canonicalName 1)
        && (T.implements 9 [] ((Ty.named "K" [.named "L" [.var 0]]).assign σ)
          ((Ty.named "Fooer" []).assign σ)).fails fun _ => true) = true := by
    decide +kernel
  obtain ⟨T, hT, hok⟩ := Answer.any_eq_true.1 hok
  obtain ⟨decls', hdecls, hok⟩ := Answer.any_eq_true.1 hok
  obtain ⟨σ, hσ, hok⟩ := Answer.any_eq_true.1 hok
  obtain ⟨hvar, hok⟩ := Bool.and_eq_true_iff.1 hok
  obtain ⟨e, he, -⟩ := Answer.fails_eq_true.1 hok
  exact ⟨T, decls', σ, Answer.ofExcept_eq_ok.1 hT, hdecls, hσ, by simpa using hvar, e, he⟩

end FeatherGo
