import FeatherGo.Proofs.Inference.Solving
import FeatherGo.Proofs.Methods.Total

/-!
# Composing solutions

Of two types for one variable a composition keeps the wider one (`Unifier.Wider`), variable by variable
(`Unifier.chosen_compose`). To choose is associative, since implementing is transitive
(`Unifier.Chosen.assoc`).

A composition is still not associative. Where it keeps the type of the outer solution, it no longer does
what the two solutions do one after the other, and a type that is composed with it later shows that
(`widening_compose_not_assoc`). So `Unifier.compose_assoc` asks that no variable of a type in the innermost
solution is one for which the outer type has been kept; where the innermost solution binds variables of
its own that is exactly what it takes (`Unifier.kept_of_compose_assoc`). The choices must also come out the
same before and after the outermost solution is carried out: the types are equal, or without its variables.
-/

namespace FeatherGo

open VarSubst

namespace Unifier

variable {U : Unifier}

/-! ## The wider of two types -/

/-- One type is the other, or implements it with all methods found. -/
def Under (U : Unifier) (a b : Ty) : Prop :=
  a = b ∨ U.table.implementsBy (U.table.allMethods U.bounds) a b = .ok true

theorem Under.trans {a b c : Ty} (hab : U.Under a b) (hbc : U.Under b c) : U.Under a c := by
  rcases hab with rfl | hab
  · exact hbc
  · rcases hbc with rfl | hbc
    · exact .inr hab
    · exact .inr (Table.implementsBy_trans hab hbc)

/-- The type that is kept of an old and a new one: the new one if the old one is under it, else the old
one, with the new one under it. -/
inductive Wider (U : Unifier) (old new : Ty) : Ty → Prop
  | new (h : U.Under old new) : Wider U old new new
  | old (hnot : ¬U.Under old new) (h : U.Under new old) : Wider U old new old

namespace Wider

variable {a b c x y : Ty}

theorem unique (h : U.Wider a b x) (h' : U.Wider a b y) : x = y := by
  cases h <;> cases h' <;> first | rfl | contradiction

theorem self (a : Ty) : U.Wider a a a := .new (.inl rfl)

/-- Of three types it does not matter which two are compared first. -/
theorem assoc {bc l ab r : Ty} (hbc : U.Wider b c bc) (hl : U.Wider a bc l) (hab : U.Wider a b ab)
    (hr : U.Wider ab c r) : l = r := by
  cases hbc with
  | new hbc =>
    cases hab with
    | new hab => exact hl.unique (.new (hab.trans hbc)) |>.trans (hr.unique (.new hbc)).symm
    | old hnot hba => exact hl.unique hr
  | old hncb hcb =>
    cases hab with
    | new hab => exact hl.unique (.new hab) |>.trans (hr.unique (.old hncb hcb)).symm
    | old hnab hba =>
      -- The first type is under the last one only if it is under the middle one.
      have hnac : ¬U.Under a c := fun hac => hnab (hac.trans hcb)
      exact hl.unique (.old hnab hba) |>.trans (hr.unique (.old hnac (hcb.trans hba))).symm

end Wider

theorem under_of_implements {a b : Ty} (h : U.implements a b = .ok true) : U.Under a b :=
  .inr ((U.table.finitary_implementsBy a b).of_methods (implements_eq_ok.1 h))

theorem not_under_of_implements {a b : Ty} (hne : a ≠ b) (h : U.implements a b = .ok false) :
    ¬U.Under a b := by
  rintro (heq | hunder)
  · exact hne heq
  · have hfalse := (U.table.finitary_implementsBy a b).of_methods (implements_eq_ok.1 h)
    rw [hunder] at hfalse
    cases hfalse

/-! ## Variable by variable -/

/-- What becomes of a variable for which an old and a new solution may have a type. -/
inductive Chosen (U : Unifier) : Option Ty → Option Ty → Option Ty → Prop
  | left (old : Option Ty) : Chosen U old none old
  | right (new : Ty) : Chosen U none (some new) (some new)
  | both {old new kept : Ty} (h : U.Wider old new kept) : Chosen U (some old) (some new) (some kept)

namespace Chosen

variable {a b c x y : Option Ty}

theorem none_left (b : Option Ty) : U.Chosen none b b := by
  cases b with
  | none => exact .left none
  | some t => exact .right t

theorem unique (h : U.Chosen a b x) (h' : U.Chosen a b y) : x = y := by
  cases h with
  | left => cases h'; rfl
  | right => cases h'; rfl
  | both h =>
    cases h' with
    | both h' => rw [h.unique h']

theorem assoc {bc l ab r : Option Ty} (hbc : U.Chosen b c bc) (hl : U.Chosen a bc l)
    (hab : U.Chosen a b ab) (hr : U.Chosen ab c r) : l = r := by
  cases hbc with
  | left b =>
    cases hr with
    | left => exact hl.unique hab
  | right t =>
    cases hab with
    | left a => exact hl.unique hr
  | both hbc =>
    cases hab with
    | right b =>
      cases hl with
      | right kept =>
        cases hr with
        | both hr => rw [hbc.unique hr]
    | both hab =>
      cases hl with
      | both hl =>
        cases hr with
        | both hr => rw [hbc.assoc hl hab hr]

/-- A solution that is carried out later leaves a choice as it is, if it does not change the types or if
there is only one. -/
theorem assign {σ : VarSubst} (h : U.Chosen a b x)
    (hfix : ∀ t u, a = some t → b = some u → t = u ∨ t.assign σ = t ∧ u.assign σ = u) :
    U.Chosen (a.map (Ty.assign σ)) (b.map (Ty.assign σ)) (x.map (Ty.assign σ)) := by
  cases h with
  | left a => exact .left _
  | right t => exact .right _
  | @both old new kept h =>
    rcases hfix old new rfl rfl with rfl | ⟨hold, hnew⟩
    · obtain rfl := h.unique (.self old)
      exact .both (.self _)
    · have hkept : kept.assign σ = kept := by
        cases h with
        | new => exact hnew
        | old => exact hold
      simpa [hold, hnew, hkept] using Chosen.both h

theorem isSome_of_left (h : U.Chosen a b x) (ha : a.isSome) : x.isSome := by
  cases h with
  | left => exact ha
  | _ => rfl

end Chosen

/-- One step of merging chooses for its variable and leaves the others as they are. -/
theorem exists_merge_step {σ outer ρ : VarSubst} {w : Nat} {t : Ty} (hσ : σ.Ordered)
    (h : U.merge σ ((w, t) :: outer) = .ok ρ) :
    ∃ σ', σ'.Ordered ∧ U.Chosen (σ.find? w) (some t) (σ'.find? w)
      ∧ (∀ v, v ≠ w → σ'.find? v = σ.find? v) ∧ U.merge σ' outer = .ok ρ := by
  have hinsert (v : Nat) (hv : v ≠ w) : find? (insert w t σ) v = σ.find? v := by
    rw [find?_insert, if_neg hv]
  have hnew : find? (insert w t σ) w = some t := by rw [find?_insert, if_pos rfl]
  rw [merge] at h
  split at h
  · rename_i hold
    refine ⟨insert w t σ, hσ.insert w t, ?_, hinsert, h⟩
    rw [hold, hnew]
    exact .right t
  · rename_i u hold
    rw [hold]
    split at h
    · rename_i heq
      subst heq
      refine ⟨σ, hσ, ?_, fun _ _ => rfl, h⟩
      rw [hold]
      exact .both (.self u)
    · rename_i hne
      obtain ⟨b, hb, h⟩ := Answer.bind_eq_ok.1 h
      cases b with
      | true =>
        refine ⟨insert w t σ, hσ.insert w t, ?_, hinsert, h⟩
        rw [hnew]
        exact .both (.new (under_of_implements hb))
      | false =>
        obtain ⟨b', hb', h⟩ := Answer.bind_eq_ok.1 h
        cases b' with
        | true =>
          refine ⟨σ, hσ, ?_, fun _ _ => rfl, h⟩
          rw [hold]
          exact .both (.old (not_under_of_implements hne hb) (under_of_implements hb'))
        | false => cases h

/-- **Merging chooses for every variable**, and keeps solutions ordered. -/
theorem chosen_merge {σ outer ρ : VarSubst} (hσ : σ.Ordered) (ho : outer.Ordered)
    (h : U.merge σ outer = .ok ρ) :
    ρ.Ordered ∧ ∀ v, U.Chosen (σ.find? v) (outer.find? v) (ρ.find? v) := by
  induction outer generalizing σ with
  | nil =>
    obtain rfl := Answer.ok.inj h
    exact ⟨hσ, fun v => .left _⟩
  | cons b outer ih =>
    obtain ⟨w, t⟩ := b
    obtain ⟨hlt, ho⟩ := List.pairwise_cons.1 ho
    obtain ⟨σ', hσ', hw, hother, h⟩ := exists_merge_step hσ h
    obtain ⟨hordered, hchosen⟩ := ih hσ' ho h
    refine ⟨hordered, fun v => ?_⟩
    have hv := hchosen v
    by_cases hvw : v = w
    · -- The rest of the outer solution does not bind the variable, so its choice is the first step's.
      subst hvw
      rw [find?_eq_none_of_lt hlt] at hv
      rw [find?_cons_self, hv.unique (.left _)]
      exact hw
    · rwa [find?_cons_ne hvw, ← hother v hvw]

theorem chosen_compose {outer inner ρ : VarSubst} (hi : inner.Ordered) (ho : outer.Ordered)
    (h : U.compose outer inner = .ok ρ) :
    ρ.Ordered
      ∧ ∀ v, U.Chosen ((inner.find? v).map (Ty.assign outer)) (outer.find? v) (ρ.find? v) := by
  obtain ⟨hordered, hchosen⟩ := chosen_merge (hi.map (Ty.assign outer)) ho h
  exact ⟨hordered, fun v => find?_map inner (Ty.assign outer) v ▸ hchosen v⟩

/-! ## Three solutions -/

section

variable {σ₁ σ₂ σ₃ outer l inner r : VarSubst}

/-- Two solutions that are composed keep what the inner one says of the variables of some types. -/
def Kept (σ₁ σ₂ outer σ₃ : VarSubst) : Prop :=
  ∀ b ∈ σ₃, ∀ v, b.2.occurs v = true → ∀ u, σ₂.find? v = some u →
    outer.find? v = some (u.assign σ₁)

/-- A variable that keeps its inner type stands for what the two solutions make of it, one after the
other. -/
theorem lookup_of_kept {v : Nat} (h : U.Chosen ((σ₂.find? v).map (Ty.assign σ₁)) (σ₁.find? v)
    (outer.find? v)) (hkept : ∀ u, σ₂.find? v = some u → outer.find? v = some (u.assign σ₁)) :
    (σ₂.lookup v).assign σ₁ = outer.lookup v := by
  cases hv : σ₂.find? v with
  | none =>
    rw [hv] at h
    rw [lookup_eq_var hv, Ty.assign_var, lookup, lookup, h.unique (.none_left _)]
  | some u => rw [lookup_eq_of_find? hv, lookup_eq_of_find? (hkept u hv)]

variable (h₁ : σ₁.Ordered) (h₂ : σ₂.Ordered) (h₃ : σ₃.Ordered)
  (houter : U.compose σ₁ σ₂ = .ok outer) (hl : U.compose outer σ₃ = .ok l)
  (hinner : U.compose σ₂ σ₃ = .ok inner) (hr : U.compose σ₁ inner = .ok r)

include h₁ h₂ h₃ houter hl hinner hr

/-- Where the innermost solution binds variables of its own, the two orders agree only if the types in it
keep what the middle solution says. -/
theorem kept_of_compose_assoc
    (hapart : ∀ b ∈ σ₃, σ₁.find? b.1 = none ∧ σ₂.find? b.1 = none)
    (hsame : ∀ t : Ty, t.assign l = t.assign r) : Kept σ₁ σ₂ outer σ₃ := by
  intro b hb v hv u hu
  obtain ⟨hordered, houter⟩ := chosen_compose h₂ h₁ houter
  obtain ⟨-, hl⟩ := chosen_compose h₃ hordered hl
  obtain ⟨hordered', hinner⟩ := chosen_compose h₃ h₂ hinner
  obtain ⟨-, hr⟩ := chosen_compose hordered' h₁ hr
  obtain ⟨hnone₁, hnone₂⟩ := hapart b hb
  have hnone : outer.find? b.1 = none := by
    have h := houter b.1
    rw [hnone₂, hnone₁] at h
    exact h.unique (.left none)
  have hleft : l.find? b.1 = some (b.2.assign outer) := by
    have h := hl b.1
    rw [h₃.find?_of_mem hb, hnone] at h
    exact h.unique (.left _)
  have hright : r.find? b.1 = some ((b.2.assign σ₂).assign σ₁) := by
    have h := hinner b.1
    rw [h₃.find?_of_mem hb, hnone₂] at h
    have h' := hr b.1
    rw [h.unique (.left _), hnone₁] at h'
    exact h'.unique (.left _)
  have heq := hsame (.var b.1)
  rw [Ty.assign_var, Ty.assign_var, lookup_eq_of_find? hleft, lookup_eq_of_find? hright] at heq
  have hlookup := Ty.lookup_of_assign_assign heq.symm (Ty.occurs_eq_true.1 hv)
  have hbound := (houter v).isSome_of_left (by rw [hu]; rfl)
  obtain ⟨x, hx⟩ := Option.isSome_iff_exists.1 hbound
  rw [lookup_eq_of_find? hu, lookup_eq_of_find? hx] at hlookup
  rw [hx, hlookup]

/-- **Three solutions compose to the same, in either order**, if the composition of the outer two keeps
what the middle one says of the variables in types of the innermost one, and if a type that is compared
with one of the middle solution is equal to it or neither has a variable that the outermost one binds. -/
theorem compose_assoc (hkept : Kept σ₁ σ₂ outer σ₃)
    (hfixed : ∀ b ∈ σ₃, ∀ u, σ₂.find? b.1 = some u → b.2.assign σ₂ = u
      ∨ ∀ v, (b.2.assign σ₂).occurs v = true ∨ u.occurs v = true → σ₁.find? v = none) :
    ∀ t : Ty, t.assign l = t.assign r := by
  obtain ⟨hordered, houter⟩ := chosen_compose h₂ h₁ houter
  obtain ⟨-, hl⟩ := chosen_compose h₃ hordered hl
  obtain ⟨hordered', hinner⟩ := chosen_compose h₃ h₂ hinner
  obtain ⟨-, hr⟩ := chosen_compose hordered' h₁ hr
  have htwice (v : Nat) : (σ₃.find? v).map (Ty.assign outer)
      = ((σ₃.find? v).map (Ty.assign σ₂)).map (Ty.assign σ₁) := by
    rw [Option.map_map]
    refine Option.map_congr fun z hz => (Ty.assign_assign z fun w hw => ?_).symm
    exact lookup_of_kept (houter w) (hkept _ (mem_of_find? hz) w (Ty.occurs_eq_true.2 hw))
  have hsame (v : Nat) : l.find? v = r.find? v := by
    have hfirst := hl v
    rw [htwice] at hfirst
    refine (houter v).assoc hfirst ((hinner v).assign fun t u ht hu => ?_) (hr v)
    obtain ⟨z, hz, rfl⟩ := Option.map_eq_some_iff.1 ht
    refine (hfixed _ (mem_of_find? hz) u hu).imp_right fun hfree => ⟨?_, ?_⟩
    · exact Ty.assign_eq_self fun w hw => hfree w (.inl (Ty.occurs_eq_true.2 hw))
    · exact Ty.assign_eq_self fun w hw => hfree w (.inr (Ty.occurs_eq_true.2 hw))
  exact fun t => Ty.assign_congr fun v _ => by rw [lookup, lookup, hsame]

end

end Unifier

/-- A struct type beside the empty interface. -/
def widening : List Decl := [.type ⟨"Any", [], .anything⟩, .type ⟨"A", [], .struct []⟩]

namespace Widening

/-- The solution that widens the variable. -/
def outermost : VarSubst := [(1, .named "Any" [])]

/-- The solution that has the struct type for the variable. -/
def middle : VarSubst := [(1, .named "A" [])]

/-- A solution for the variable and for another one. -/
def innermost (t : Ty) : VarSubst := [(0, t), (1, .named "A" [])]

end Widening

open Widening in
/-- The variable is widened in either order, and the type of the other one does not depend on it. -/
theorem widening_compose_assoc : ∃ T outer l inner r, Table.ofDecls widening = .ok T
    ∧ Unifier.compose ⟨T, [], 9⟩ outermost middle = .ok outer
    ∧ Unifier.compose ⟨T, [], 9⟩ outer (innermost (.struct [⟨"f", .var 2⟩])) = .ok l
    ∧ Unifier.compose ⟨T, [], 9⟩ middle (innermost (.struct [⟨"f", .var 2⟩])) = .ok inner
    ∧ Unifier.compose ⟨T, [], 9⟩ outermost inner = .ok r
    ∧ (Ty.var 1).assign l = .named "Any" [] ∧ ∀ t : Ty, t.assign l = t.assign r := by
  have hok : (Answer.ofExcept (Table.ofDecls widening)).any (fun T =>
      (Unifier.compose ⟨T, [], 9⟩ outermost middle).any fun outer =>
      (Unifier.compose ⟨T, [], 9⟩ outer (innermost (.struct [⟨"f", .var 2⟩]))).any fun l =>
      (Unifier.compose ⟨T, [], 9⟩ middle (innermost (.struct [⟨"f", .var 2⟩]))).any fun inner =>
      (Unifier.compose ⟨T, [], 9⟩ outermost inner).any fun _ =>
      (Ty.var 1).assign l == .named "Any" []) = true := by
    decide +kernel
  obtain ⟨T, hT, hok⟩ := Answer.any_eq_true.1 hok
  obtain ⟨outer, houter, hok⟩ := Answer.any_eq_true.1 hok
  obtain ⟨l, hl, hok⟩ := Answer.any_eq_true.1 hok
  obtain ⟨inner, hinner, hok⟩ := Answer.any_eq_true.1 hok
  obtain ⟨r, hr, hok⟩ := Answer.any_eq_true.1 hok
  refine ⟨T, outer, l, inner, r, Answer.ofExcept_eq_ok.1 hT, houter, hl, hinner, hr, by simpa using hok,
    ?_⟩
  refine Unifier.compose_assoc ?_ ?_ ?_ houter hl hinner hr ?_ ?_
  · exact List.pairwise_singleton _ _
  · exact List.pairwise_singleton _ _
  · simp [VarSubst.Ordered, innermost]
  · intro b hb v hv u hu
    obtain ⟨rfl, rfl⟩ := find?_singleton hu
    have hfree : ∀ b ∈ innermost (.struct [⟨"f", .var 2⟩]), b.2.occurs 1 = false := by decide +kernel
    rw [hfree b hb] at hv
    cases hv
  · intro b hb u hu
    obtain ⟨hv, rfl⟩ := find?_singleton hu
    have hequal : ∀ b ∈ innermost (.struct [⟨"f", .var 2⟩]),
        b.1 = 1 → b.2.assign middle = .named "A" [] := by decide +kernel
    exact .inl (hequal b hb hv)

open Widening in
/-- **Composing is not associative.** The variable is widened before the innermost solution is composed
in the one order, and in the other order after it, when its type is already in place elsewhere. -/
theorem widening_compose_not_assoc : ∃ T decls' outer l inner r, Table.ofDecls widening = .ok T
    ∧ Checker.checkDecls ⟨T, false, 9⟩ widening = .ok decls'
    ∧ Unifier.compose ⟨T, [], 9⟩ outermost middle = .ok outer
    ∧ Unifier.compose ⟨T, [], 9⟩ outer (innermost (.var 1)) = .ok l
    ∧ Unifier.compose ⟨T, [], 9⟩ middle (innermost (.var 1)) = .ok inner
    ∧ Unifier.compose ⟨T, [], 9⟩ outermost inner = .ok r
    ∧ (Ty.var 0).assign l = .named "Any" [] ∧ (Ty.var 0).assign r = .named "A" [] := by
  have hok : (Answer.ofExcept (Table.ofDecls widening)).any (fun T =>
      (Checker.checkDecls ⟨T, false, 9⟩ widening).any fun _ =>
      (Unifier.compose ⟨T, [], 9⟩ outermost middle).any fun outer =>
      (Unifier.compose ⟨T, [], 9⟩ outer (innermost (.var 1))).any fun l =>
      (Unifier.compose ⟨T, [], 9⟩ middle (innermost (.var 1))).any fun inner =>
      (Unifier.compose ⟨T, [], 9⟩ outermost inner).any fun r =>
      (Ty.var 0).assign l == .named "Any" [] && (Ty.var 0).assign r == .named "A" []) = true := by
    decide +kernel
  obtain ⟨T, hT, hok⟩ := Answer.any_eq_true.1 hok
  obtain ⟨decls', hdecls, hok⟩ := Answer.any_eq_true.1 hok
  obtain ⟨outer, houter, hok⟩ := Answer.any_eq_true.1 hok
  obtain ⟨l, hl, hok⟩ := Answer.any_eq_true.1 hok
  obtain ⟨inner, hinner, hok⟩ := Answer.any_eq_true.1 hok
  obtain ⟨r, hr, hok⟩ := Answer.any_eq_true.1 hok
  obtain ⟨hleft, hright⟩ : (Ty.var 0).assign l = .named "Any" []
      ∧ (Ty.var 0).assign r = .named "A" [] := by simpa using hok
  exact ⟨T, decls', outer, l, inner, r, Answer.ofExcept_eq_ok.1 hT, hdecls, houter, hl, hinner, hr,
    hleft, hright⟩

end FeatherGo
