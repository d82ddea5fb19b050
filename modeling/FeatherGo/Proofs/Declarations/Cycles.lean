import FeatherGo.Proofs.Declarations.Order
import FeatherGo.Proofs.Declarations.Resolve
import Mathlib.Data.Set.Card
import Mathlib.Logic.Relation

/-!
# Cycles of declarations

A declared name leads to the declared name that its source is, and to the declared names that its
source embeds (`Table.Leads`). The search of `Table.checkAcyclic` succeeds exactly where no name leads
to itself over any number of steps: along a cycle no rank falls, and without one the number of names
that a name leads to is a rank. That rank stays below the number of declarations, since no name counts
itself, so a definition chain always ends within the steps that `Table.resolve` takes or at a fault of
another kind.
-/

namespace FeatherGo.Table

variable {T : Table}

/-- A declared name leads to another one in one step of unfolding. -/
inductive Leads (T : Table) : String → String → Prop
  | source {c d : String} {td td' : TypeDecl} {args : List Ty} (declared : T.type? c = some td)
      (head : td.source = .named d args) (target : T.type? d = some td') : Leads T c d
  | embed {c d : String} {td td' : TypeDecl} {ms : List Member} {args : List Ty}
      (declared : T.type? c = some td) (literal : td.source = .interface ms)
      (member : .embed d args ∈ ms) (target : T.type? d = some td') : Leads T c d

/-- The names that the search follows are those that a declaration leads to. -/
theorem leads_iff {c d : String} : T.Leads c d
    ↔ ∃ td, T.type? c = some td ∧ d ∈ td.source.unfoldsTo ∧ (T.type? d).isSome := by
  constructor
  · rintro (⟨declared, head, target⟩ | ⟨declared, literal, member, target⟩)
    · exact ⟨_, declared, by simp [head, Ty.unfoldsTo], by simp [target]⟩
    · refine ⟨_, declared, ?_, by simp [target]⟩
      rw [literal]
      exact List.mem_filterMap.2 ⟨_, member, rfl⟩
  · rintro ⟨td, declared, hd, hs⟩
    obtain ⟨td', target⟩ := Option.isSome_iff_exists.1 hs
    cases hsource : td.source with
    | named e args =>
      obtain rfl : d = e := by simpa [hsource, Ty.unfoldsTo] using hd
      exact .source declared hsource target
    | interface ms =>
      rw [hsource] at hd
      obtain ⟨m, hm, he⟩ := List.mem_filterMap.1 hd
      cases m with
      | method s => cases he
      | embed e args =>
        obtain rfl := Option.some.inj he
        exact .embed declared hsource hm target
    | _ => simp [hsource, Ty.unfoldsTo] at hd

namespace Leads

theorem target_declared {c d : String} (h : T.Leads c d) : d ∈ T.typeDecls.map (·.name) := by
  obtain ⟨-, -, -, hs⟩ := leads_iff.1 h
  obtain ⟨td, htd⟩ := Option.isSome_iff_exists.1 hs
  obtain ⟨hmem, rfl⟩ := mem_of_type? htd
  exact List.mem_map_of_mem hmem

end Leads

/-- Whatever a name leads to ranks lower. -/
theorem Ranking.lt_of_leads {rank : String → Nat} (hr : T.Ranking rank) {c d : String}
    (h : Relation.TransGen T.Leads c d) : rank d < rank c := by
  have step {c d : String} (h : T.Leads c d) : rank d < rank c := by
    obtain ⟨td, htd, hd, hs⟩ := leads_iff.1 h
    exact hr.lt c td d htd hd hs
  induction h with
  | single h => exact step h
  | tail _ h ih => exact Nat.lt_trans (step h) ih

/-! ## The names that a name leads to -/

/-- The declared names that a name leads to over one or more steps. -/
def below (T : Table) (c : String) : Set String := {d | Relation.TransGen T.Leads c d}

theorem below_subset (c : String) : T.below c ⊆ {d | d ∈ T.typeDecls.map (·.name)} := by
  rintro d (h | ⟨-, h⟩) <;> exact h.target_declared

theorem below_finite (c : String) : (T.below c).Finite :=
  (List.finite_toSet _).subset (below_subset c)

/-- Off all cycles, a name counts one more name than those that it leads to. -/
theorem ncard_insert_below (h : ∀ c, ¬Relation.TransGen T.Leads c c) (c : String) :
    (insert c (T.below c)).ncard = (T.below c).ncard + 1 :=
  Set.ncard_insert_of_notMem (h c) (below_finite c)

/-- A name that leads to another one leads to it and to all that it leads to. -/
theorem insert_below_subset {c d : String} (h : T.Leads c d) : insert d (T.below d) ⊆ T.below c := by
  refine Set.insert_subset (.single h) fun e he => ?_
  exact Relation.TransGen.head h he

/-- **Without cycles, the number of names that a name leads to ranks the names**, and no declared name
ranks as high as there are declarations. -/
theorem ranking_ncard_below (h : ∀ c, ¬Relation.TransGen T.Leads c c) :
    T.Ranking (fun c => (T.below c).ncard)
      ∧ ∀ c, (T.type? c).isSome → (T.below c).ncard < T.typeDecls.length := by
  have hdeclared : ({d | d ∈ T.typeDecls.map (·.name)} : Set String).ncard ≤ T.typeDecls.length := by
    rw [← List.coe_toFinset, Set.ncard_coe_finset]
    exact (List.toFinset_card_le _).trans_eq (List.length_map _)
  have hfinite := List.finite_toSet (T.typeDecls.map (·.name))
  refine ⟨⟨fun c => ?_, fun c td d htd hd hs => ?_⟩, fun c hs => ?_⟩
  · exact (Set.ncard_le_ncard (below_subset c) hfinite).trans hdeclared
  · have hlt := Set.ncard_le_ncard (insert_below_subset (leads_iff.2 ⟨td, htd, hd, hs⟩))
      (below_finite c)
    rwa [ncard_insert_below h] at hlt
  · -- The name itself is declared and not below itself.
    obtain ⟨td, htd⟩ := Option.isSome_iff_exists.1 hs
    obtain ⟨hmem, rfl⟩ := mem_of_type? htd
    have hsub : insert td.name (T.below td.name) ⊆ {d | d ∈ T.typeDecls.map (·.name)} :=
      Set.insert_subset (List.mem_map_of_mem hmem) (below_subset _)
    have hlt := Set.ncard_le_ncard hsub hfinite
    rw [ncard_insert_below h] at hlt
    omega

/-- **The search for cycles is exact.** -/
theorem checkAcyclic_iff_not_leads :
    T.checkAcyclic = .ok () ↔ ∀ c, ¬Relation.TransGen T.Leads c c := by
  rw [checkAcyclic_eq_ok]
  constructor
  · rintro ⟨rank, hr⟩ c h
    exact Nat.lt_irrefl _ (hr.lt_of_leads h)
  · exact fun h => ⟨_, (ranking_ncard_below h).1⟩

/-! ## The steps of unfolding -/

/-- Unfolding one level faults for an undeclared name or a wrong number of arguments alone. -/
theorem underlying_ne_cyclicDecl (t : Ty) (d : String) : T.underlying t ≠ .error (.cyclicDecl d) := by
  cases t with
  | named c args =>
    rw [underlying, applied, typeDecl]
    cases T.type? c with
    | none => simp [bind, Except.bind]
    | some td => by_cases hl : td.formals.length = args.length <;> simp [hl, bind, Except.bind, throw,
        throwThe, MonadExceptOf.throw, pure, Except.pure]
  | _ => simp [underlying]

/-- A declared name that unfolds to a declared name again leads to it. -/
theorem HasSources.leads_of_underlying (h : T.HasSources) {c d : String} {args ds : List Ty}
    (hu : T.underlying (.named c args) = .ok (.named d ds)) (hd : (T.type? d).isSome) :
    T.Leads c d := by
  obtain ⟨td, htd, -, he⟩ := underlying_eq_ok.1 hu
  obtain ⟨td', htd'⟩ := Option.isSome_iff_exists.1 hd
  have hform := h c td htd
  cases hs : td.source with
  | named e es =>
    rw [hs, Ty.subst_named] at he
    obtain ⟨rfl, -⟩ := Ty.named.inj he
    exact .source htd hs htd'
  | struct fs => simp [hs] at he
  | interface ms => simp [hs] at he
  | _ => simp [hs, Ty.isSource] at hform

/-- A chain does not run out of steps if more are left than its head ranks high, and one for a head
that is not declared. -/
theorem resolveIn_ne_cyclicDecl (h : T.HasSources) {rank : String → Nat} (hr : T.Ranking rank)
    {n : Nat} {t : Ty}
    (hn : ∀ c args, t = .named c args → 0 < n ∧ ((T.type? c).isSome → rank c + 1 < n)) (d : String) :
    T.resolveIn n t ≠ .error (.cyclicDecl d) := by
  induction n generalizing t with
  | zero =>
    cases t with
    | named c args => exact absurd (hn c args rfl).1 (Nat.lt_irrefl 0)
    | _ => simp [resolveIn]
  | succ n ih =>
    cases t with
    | named c args =>
      rw [resolveIn]
      cases hu : T.underlying (.named c args) with
      | error e =>
        have hne := T.underlying_ne_cyclicDecl (.named c args) d
        rwa [hu] at hne
      | ok u =>
        obtain ⟨td, htd, -⟩ := underlying_eq_ok.1 hu
        have hrank := (hn c args rfl).2 (by simp [htd])
        refine ih fun e es he => ⟨by omega, fun hs => ?_⟩
        have := hr.lt_of_leads (.single (h.leads_of_underlying (he ▸ hu) hs))
        omega
    | _ => simp [resolveIn]

/-- **Acyclic declarations unfold without running into a cycle**, whatever the type. -/
theorem HasSources.resolve_ne_cyclicDecl (h : T.HasSources) (hT : T.checkAcyclic = .ok ()) (t : Ty)
    (d : String) : T.resolve t ≠ .error (.cyclicDecl d) := by
  obtain ⟨hr, hlt⟩ := ranking_ncard_below (checkAcyclic_iff_not_leads.1 hT)
  exact resolveIn_ne_cyclicDecl h hr
    (fun c args _ => ⟨Nat.succ_pos _, fun hs => Nat.succ_lt_succ (hlt c hs)⟩) d

/-- **The check for cycles is exact, and unfolding never meets a cycle behind it**: it passes where no
declared name leads to itself, and then, if the sources are structs, interfaces and names, no type is
said to be cyclic. -/
theorem acyclic_exact_and_resolve (T : Table) :
    (T.checkAcyclic = .ok () ↔ ∀ c, ¬Relation.TransGen T.Leads c c)
      ∧ (T.checkAcyclic = .ok () → (∀ td ∈ T.typeDecls, td.source.isSource = true) →
        ∀ t d, T.resolve t ≠ .error (.cyclicDecl d)) :=
  ⟨checkAcyclic_iff_not_leads, fun hT hs t d =>
    HasSources.resolve_ne_cyclicDecl (fun _ _ htd => hs _ (mem_of_type? htd).1) hT t d⟩

/-- A chain of two definitions, of which the second embeds an interface and a name that is not
declared. -/
def chained : Table where
  typeDecls := [⟨"A", [⟨"t", .anything⟩], .named "B" []⟩,
    ⟨"B", [], .interface [.embed "C" [], .embed "D" []]⟩, ⟨"C", [], .anything⟩]
  methodDecls := []

/-- Two interfaces that embed each other, one of them by a defined name. -/
def entangled : Table where
  typeDecls := [⟨"A", [], .interface [.embed "B" []]⟩, ⟨"B", [], .named "C" []⟩,
    ⟨"C", [], .interface [.embed "A" []]⟩]
  methodDecls := []

theorem chained_acyclic_exact : (chained.checkAcyclic = .ok ()
      ∧ (∀ c, ¬Relation.TransGen chained.Leads c c)
      ∧ chained.resolve (.named "A" []) = .error (.typeArity (.named "A" []) 1 0)
      ∧ ∀ t d, chained.resolve t ≠ .error (.cyclicDecl d))
    ∧ entangled.checkAcyclic = .error (.cyclicDecl "A")
      ∧ ∃ c, Relation.TransGen entangled.Leads c c := by
  have hchained : chained.checkAcyclic = .ok () := by rfl
  have hentangled : entangled.checkAcyclic = .error (.cyclicDecl "A") := by rfl
  obtain ⟨hiff, htotal⟩ := acyclic_exact_and_resolve chained
  refine ⟨⟨hchained, hiff.1 hchained, by rfl, htotal hchained (by decide)⟩, hentangled, ?_⟩
  by_contra hnone
  have hok := (acyclic_exact_and_resolve entangled).1.2 (not_exists.1 hnone)
  rw [hentangled] at hok
  cases hok

end FeatherGo.Table
