import FeatherGo.Proofs.Declarations.Lexicon
import FeatherGo.Proofs.Types.FreeParams
import Mathlib.Algebra.Order.BigOperators.Group.List
import Mathlib.Data.Finset.Card
import Mathlib.Data.Finset.Prod
import Mathlib.Data.Set.Finite.List

/-!
# Finite sets of types

There are finitely many types of bounded depth and width over finitely many names (`Ty.Box.finite`).
Substitution leaves such a set where it makes up names, so the names that it can make up are counted:
a formal is renamed if an entry mentions it, the new name adds no more primes than there are names to
avoid, and under the formals of a signature the new names are mentioned in turn. Hence the names that
substitution in a type makes up are bounded by the number of binders that it passes, which is less than
the depth of the type (`level`).
-/

namespace FeatherGo

/-! ## Names that renaming makes up -/

/-- A name with a number of primes added. -/
def primed : Nat → String → String
  | 0, name => name
  | j + 1, name => primed j (name ++ "'")

theorem length_primed (j : Nat) (name : String) : (primed j name).length = name.length + j := by
  induction j generalizing name with
  | zero => rfl
  | succ j ih =>
    have hprime : "'".length = 1 := rfl
    rw [primed, ih, String.length_append, hprime]
    omega

/-- A fresh name adds no more primes than there are names to avoid. -/
theorem exists_primedIn_eq (taken : List String) (n : Nat) (name : String) :
    ∃ j ≤ taken.toFinset.card, primedIn taken n name = primed j name := by
  have htaken : ∃ j, primedIn taken n name = primed j name ∧ ∀ k < j, primed k name ∈ taken := by
    induction n generalizing name with
    | zero => exact ⟨0, rfl, fun k hk => absurd hk (Nat.not_lt_zero k)⟩
    | succ n ih =>
      rw [primedIn]
      by_cases hname : name ∈ taken
      · obtain ⟨j, hj, hk⟩ := ih (name ++ "'")
        refine ⟨j + 1, by rw [if_pos hname, hj, primed], fun k hlt => ?_⟩
        cases k with
        | zero => exact hname
        | succ k => exact hk k (by omega)
      · exact ⟨0, if_neg hname, fun k hk => absurd hk (Nat.not_lt_zero k)⟩
  obtain ⟨j, hj, hk⟩ := htaken
  refine ⟨j, ?_, hj⟩
  -- The names that were tried are different, as their lengths are.
  have hcard : (Finset.range j).card ≤ taken.toFinset.card := by
    refine Finset.card_le_card_of_injOn (fun k => primed k name) (fun k hk' => ?_) fun k _ l _ he => ?_
    · exact List.mem_toFinset.2 (hk k (Finset.mem_range.1 hk'))
    · have hlen := congrArg String.length he
      simp only [length_primed] at hlen
      omega
  rwa [Finset.card_range] at hcard

/-- A new name of a formal is the old one, or the formal is mentioned and gets primes. -/
theorem Signature.of_getElem?_freshNames {free taken names : List String} {i : Nat} {n : String}
    (h : (freshNames free taken names)[i]? = some n) : ∃ f, names[i]? = some f
      ∧ (n = f ∨ f ∈ free ∧ ∃ j ≤ taken.toFinset.card + i + 1, n = primed j f) := by
  induction names generalizing taken i with
  | nil => simp [freshNames] at h
  | cons f fs ih =>
    rw [freshNames] at h
    by_cases hf : f ∈ free
    · rw [if_pos hf] at h
      cases i with
      | zero =>
        obtain ⟨j, hj, he⟩ := exists_primedIn_eq taken taken.length (f ++ "'")
        refine ⟨f, rfl, .inr ⟨hf, j + 1, by omega, ?_⟩⟩
        rw [primed, ← he]
        exact (Option.some.inj h).symm
      | succ i =>
        obtain ⟨g, hg, hn⟩ := ih h
        refine ⟨g, hg, hn.imp_right ?_⟩
        rintro ⟨hfree, j, hj, he⟩
        refine ⟨hfree, j, ?_, he⟩
        have := Finset.card_insert_le (primedIn taken taken.length (f ++ "'")) taken.toFinset
        rw [List.toFinset_cons] at hj
        omega
    · rw [if_neg hf] at h
      cases i with
      | zero => exact ⟨f, rfl, .inl (Option.some.inj h).symm⟩
      | succ i =>
        obtain ⟨g, hg, hn⟩ := ih h
        refine ⟨g, hg, hn.imp_right ?_⟩
        rintro ⟨hfree, j, hj, he⟩
        exact ⟨hfree, j, by omega, he⟩

/-- Names, and those that one renaming makes of them where signatures have up to `width` formals. -/
def spread (width : Nat) (names : Finset String) : Finset String :=
  names ∪ (names ×ˢ Finset.range (names.card + 3 * width + 2)).image fun p => primed p.2 p.1

/-- Names, and those that renamings inside each other make of them. -/
def level (width : Nat) (names : Finset String) : Nat → Finset String
  | 0 => names
  | i + 1 => spread width (level width names i)

theorem mem_spread_of_primed {width : Nat} {names : Finset String} {f : String} (hf : f ∈ names)
    {j : Nat} (hj : j ≤ names.card + 3 * width + 1) : primed j f ∈ spread width names :=
  Finset.mem_union_right _ (Finset.mem_image.2
    ⟨(f, j), Finset.mem_product.2 ⟨hf, Finset.mem_range.2 (by omega)⟩, rfl⟩)

theorem level_subset {width : Nat} {names : Finset String} {i k : Nat} (h : i ≤ k) :
    level width names i ⊆ level width names k := by
  induction h with
  | refl => exact Finset.Subset.refl _
  | step _ ih => exact ih.trans Finset.subset_union_left

/-! ## Boxes of types -/

/-- The lengths of the lists at the head of an interface member. -/
def Member.lengths : Member → List Nat
  | .method s => [s.formals.length, s.params.length]
  | .embed _ args => [args.length]

namespace Ty

/-- The lengths of the lists at the head of a type. -/
def lengths : Ty → List Nat
  | .named _ args => [args.length]
  | .struct fs => [fs.length]
  | .interface ms => ms.length :: ms.flatMap Member.lengths
  | _ => []

/-- The variable of inference that a type is. -/
def headVars : Ty → List Nat
  | .var n => [n]
  | _ => []

/-- Names and variables that types may hold, and how long their lists may be. -/
structure Box where
  labels : Finset String
  params : Finset String
  vars : Finset Nat
  width : Nat

/-- The head of a type is within a box. -/
structure Box.Holds (B : Box) (t : Ty) : Prop where
  labels : ∀ a ∈ t.labels, a ∈ B.labels
  params : ∀ a ∈ t.parameters, a ∈ B.params
  vars : ∀ n ∈ t.headVars, n ∈ B.vars
  lengths : ∀ n ∈ t.lengths, n ≤ B.width

namespace Box

/-- There are finitely many lists of bounded length over a finite set. -/
theorem finite_lists {α : Type} {S : Set α} (hS : S.Finite) (width : Nat) :
    {l : List α | l.length ≤ width ∧ ∀ x ∈ l, x ∈ S}.Finite := by
  have := hS.to_subtype
  refine ((List.finite_length_le S width).image (List.map Subtype.val)).subset fun l hl => ?_
  obtain ⟨hlength, hmem⟩ := hl
  lift l to List S using hmem
  exact ⟨l, by simpa using hlength, rfl⟩

theorem finite_slots (names : Finset String) {S : Set Ty} (hS : S.Finite) :
    {f : Slot | f.name ∈ names ∧ f.ty ∈ S}.Finite := by
  refine (Set.Finite.image2 Slot.mk names.finite_toSet hS).subset fun f hf => ?_
  obtain ⟨a, t⟩ := f
  exact ⟨a, hf.1, t, hf.2, rfl⟩

/-- An interface member whose head is within a box, over a set of types. -/
structure MemberHolds (B : Box) (S : Set Ty) (m : Member) : Prop where
  labels : ∀ a ∈ m.labels, a ∈ B.labels
  params : ∀ a ∈ m.formalNames, a ∈ B.params
  lengths : ∀ n ∈ m.lengths, n ≤ B.width
  types : ∀ t ∈ m.types, t ∈ S

theorem finite_members (B : Box) {S : Set Ty} (hS : S.Finite) :
    {m | B.MemberHolds S m}.Finite := by
  have hformals := finite_lists (finite_slots B.params hS) B.width
  have hparams := finite_lists (finite_slots B.labels hS) B.width
  have hmethods := Set.Finite.image2 (fun (a : String × List Slot) (b : List Slot × Ty) =>
    Member.method ⟨a.1, a.2, b.1, b.2⟩) (B.labels.finite_toSet.prod hformals) (hparams.prod hS)
  have hembeds := Set.Finite.image2 Member.embed B.labels.finite_toSet (finite_lists hS B.width)
  refine (hmethods.union hembeds).subset fun m hm => ?_
  obtain ⟨hlabels, hnames, hlengths, htypes⟩ := hm
  cases m with
  | method s =>
    obtain ⟨name, formals, params, result⟩ := s
    obtain ⟨hf, hp, hr⟩ := Signature.forall_types.1 htypes
    simp only [Member.labels, List.forall_mem_cons, List.forall_mem_map] at hlabels
    simp only [Member.formalNames, Signature.formalNames, List.forall_mem_map] at hnames
    simp only [Member.lengths, List.forall_mem_cons] at hlengths
    refine .inl ⟨(name, formals), ⟨hlabels.1, hlengths.1, fun f hm => ⟨hnames f hm, hf f hm⟩⟩,
      (params, result), ⟨⟨hlengths.2.1, fun f hm => ⟨hlabels.2 f hm, hp f hm⟩⟩, hr⟩, rfl⟩
  | embed c args =>
    exact .inr ⟨c, hlabels c List.mem_cons_self, args,
      ⟨hlengths _ List.mem_cons_self, htypes⟩, rfl⟩

theorem finite_prims : {t : Ty | ∃ p, t = .prim p}.Finite := by
  refine (List.finite_toSet (Kind.all.flatMap fun k => [.prim ⟨k, true⟩, .prim ⟨k, false⟩])).subset ?_
  rintro t ⟨⟨k, u⟩, rfl⟩
  cases k <;> cases u <;> simp [Kind.all]

/-- **A box holds finitely many types of bounded depth.** -/
theorem finite (B : Box) (depth : Nat) : {t : Ty | t.Everywhere B.Holds ∧ t.depth ≤ depth}.Finite := by
  induction depth with
  | zero =>
    refine Set.finite_empty.subset fun t ht => ?_
    have := t.depth_pos
    have := ht.2
    omega
  | succ depth ih =>
    have hlists := finite_lists ih B.width
    have hparams := B.params.finite_toSet.image Ty.param
    have hvars := B.vars.finite_toSet.image Ty.var
    have hnamed := Set.Finite.image2 Ty.named B.labels.finite_toSet hlists
    have hstructs := (finite_lists (finite_slots B.labels ih) B.width).image Ty.struct
    have hinterfaces := (finite_lists (finite_members B ih) B.width).image Ty.interface
    refine (hparams.union (hvars.union (finite_prims.union (hnamed.union
      (hstructs.union hinterfaces))))).subset fun t ht => ?_
    obtain ⟨hall, hdepth⟩ := ht
    have hpart {a : Ty} (ha : a ∈ t.parts) : a.Everywhere B.Holds ∧ a.depth ≤ depth := by
      have := depth_lt_of_mem_parts ha
      exact ⟨hall.of_mem_parts ha, by omega⟩
    obtain ⟨hlabels, hnames, hvars, hlengths⟩ := hall.self
    cases t with
    | param p => exact .inl ⟨p, hnames p List.mem_cons_self, rfl⟩
    | var n => exact .inr (.inl ⟨n, hvars n List.mem_cons_self, rfl⟩)
    | prim p => exact .inr (.inr (.inl ⟨p, rfl⟩))
    | named c args =>
      exact .inr (.inr (.inr (.inl ⟨c, hlabels c List.mem_cons_self, args,
        ⟨hlengths _ List.mem_cons_self, fun a ha => hpart ha⟩, rfl⟩)))
    | struct fs =>
      refine .inr (.inr (.inr (.inr (.inl ⟨fs, ⟨hlengths _ List.mem_cons_self, fun f hf => ?_⟩, rfl⟩))))
      exact ⟨hlabels _ (List.mem_map_of_mem hf), hpart (List.mem_map_of_mem hf)⟩
    | interface ms =>
      refine .inr (.inr (.inr (.inr (.inr ⟨ms, ⟨hlengths _ List.mem_cons_self, fun m hm => ?_⟩, rfl⟩))))
      exact ⟨fun a ha => hlabels a (List.mem_flatMap.2 ⟨m, hm, ha⟩),
        fun a ha => hnames a (List.mem_flatMap.2 ⟨m, hm, ha⟩),
        fun n hn => hlengths n (List.mem_cons_of_mem _ (List.mem_flatMap.2 ⟨m, hm, hn⟩)),
        fun a ha => hpart (List.mem_flatMap.2 ⟨m, hm, ha⟩)⟩

/-! ### Substitution in a box -/

/-- The entries of a substitution are in a box, and what they mention is among the names of a level, but
for the names of a few formals that stay. -/
structure Graded (B : Box) (names : Finset String) (i : Nat) (η : Env Ty) : Prop where
  entries : ∀ {a x}, η.find? a = some x → x.Everywhere B.Holds
  mentioned : ∃ kept : Finset String, kept.card ≤ B.width ∧ ∀ a x, η.find? a = some x →
    (x = .param a ∧ a ∈ kept) ∨ ∀ b ∈ x.freeParams, b ∈ level B.width names i

variable {B : Box} {names : Finset String} {i : Nat} {η : Env Ty} {s : Signature}

/-- The names of formals after a substitution are as before, or of the next level. -/
theorem Graded.of_getElem?_freshFor (h : B.Graded names i η) (hs : s.formals.length ≤ B.width)
    {k : Nat} {n : String} (hn : (s.freshFor η)[k]? = some n) : ∃ f, s.formalNames[k]? = some f
      ∧ (n = f ∨ n ∈ level B.width names (i + 1)) := by
  obtain ⟨f, hf, hn⟩ := Signature.of_getElem?_freshNames hn
  refine ⟨f, hf, hn.imp_right ?_⟩
  rintro ⟨hfree, j, hj, rfl⟩
  obtain ⟨kept, hkept, hmentioned⟩ := h.mentioned
  have himported {q : String} (hq : q ∈ s.imported η) : q ∈ level B.width names i ∨
      q ∈ kept ∧ q ∉ s.formalNames := by
    obtain ⟨a, x, ha, hx, hq⟩ := Signature.mem_imported.1 hq
    rcases hmentioned a x hx with ⟨rfl, hmem⟩ | hfree
    · obtain rfl := List.mem_singleton.1 hq
      exact .inr ⟨hmem, ha⟩
    · exact .inl (hfree q hq)
  -- A formal that an entry mentions is not one of those that stay: the formals hide these.
  have hf' : f ∈ level B.width names i :=
    (himported hfree).resolve_right fun hk => hk.2 (List.mem_of_getElem? hf)
  have hk : k < s.formalNames.length := (List.getElem?_eq_some_iff.1 hf).1
  have hlength : s.formalNames.length = s.formals.length := s.length_formalNames
  have hcard : (s.imported η ++ s.formalNames).toFinset.card
      ≤ (level B.width names i).card + kept.card + s.formalNames.length := by
    rw [List.toFinset_append]
    refine (Finset.card_union_le _ _).trans (Nat.add_le_add ?_ (List.toFinset_card_le _))
    refine (Finset.card_le_card fun q hq => ?_).trans (Finset.card_union_le _ _)
    rw [Finset.mem_union]
    exact (himported (List.mem_toFinset.1 hq)).imp_right And.left
  exact mem_spread_of_primed hf' (by omega)

theorem labels_subst {t : Ty} (hp : ∀ p, t ≠ .param p) : (t.subst η).labels = t.labels := by
  cases t with
  | param p => exact absurd rfl (hp p)
  | struct fs => simp [Ty.labels, Slot.map, Function.comp_def]
  | interface ms =>
    rw [Ty.subst_interface, Ty.labels, Ty.labels, List.flatMap_map]
    refine List.flatMap_congr fun m _ => ?_
    cases m with
    | method s => simp [Member.labels, Signature.map_name_params_subst]
    | embed c args => rfl
  | _ => simp [Ty.labels]

theorem lengths_subst {t : Ty} (hp : ∀ p, t ≠ .param p) : (t.subst η).lengths = t.lengths := by
  cases t with
  | param p => exact absurd rfl (hp p)
  | interface ms =>
    rw [Ty.subst_interface, Ty.lengths, Ty.lengths, List.flatMap_map, List.length_map]
    refine congrArg (ms.length :: ·) (List.flatMap_congr fun m _ => ?_)
    cases m with
    | method s =>
      simp [Member.lengths, Signature.length_formals_subst, Signature.length_params_subst]
    | embed c args => simp [Member.lengths]
  | _ => simp [Ty.lengths]

/-- The type parameters at the head of a type, but for a type parameter itself. -/
theorem mem_parameters {t : Ty} (hp : ∀ p, t ≠ .param p) {a : String} :
    a ∈ t.parameters ↔ ∃ s, .method s ∈ t.members ∧ a ∈ s.formalNames := by
  cases t with
  | param p => exact absurd rfl (hp p)
  | interface ms =>
    rw [Ty.parameters, Ty.bound, List.mem_flatMap]
    constructor
    · rintro ⟨m, hm, ha⟩
      cases m with
      | method s => exact ⟨s, hm, ha⟩
      | embed c args => cases ha
    · rintro ⟨s, hs, ha⟩
      exact ⟨_, hs, ha⟩
    all_goals rintro p ⟨⟩
  | _ => simp [Ty.parameters, Ty.bound, Ty.members]

theorem Holds.formals_le {t : Ty} (h : B.Holds t) (hs : .method s ∈ t.members) :
    s.formals.length ≤ B.width := by
  cases t with
  | interface ms =>
    exact h.lengths _ (List.mem_cons_of_mem _ (List.mem_flatMap.2 ⟨_, hs, List.mem_cons_self⟩))
  | _ => cases hs

/-- **A box keeps its types under substitution**, if it holds the names that renaming can make up. -/
theorem keeping {limit : Nat} (hB : level B.width names limit ⊆ B.params) :
    Ty.Keeping B.Holds (B.Graded names) limit where
  entry h hx := h.entries hx
  visible h s := by
    obtain ⟨kept, hkept, hmentioned⟩ := h.mentioned
    refine ⟨fun hx => h.entries (Signature.find?_of_find?_visible hx).2, kept, hkept, fun a x hx => ?_⟩
    refine (hmentioned a x (Signature.find?_of_find?_visible hx).2).imp_right fun hfree b hb => ?_
    exact level_subset (Nat.le_succ _) (hfree b hb)
  relabelled {i η t s} h hi ht hs := by
    have hp : ∀ p, t ≠ .param p := by
      rintro p rfl
      cases hs
    have hfresh {k : Nat} {n : String} (hn : (s.freshFor η)[k]? = some n) :=
      h.of_getElem?_freshFor (ht.formals_le hs) hn
    refine ⟨fun hx => ?_, s.formalNames.toFinset, ?_, fun a x hx => ?_⟩
    · obtain ⟨k, n, -, hn, rfl⟩ := Signature.of_find?_relabelling hx
      refine Everywhere.iff_parts.2 ⟨⟨nofun, fun a ha => ?_, nofun, nofun⟩, nofun⟩
      obtain rfl := List.mem_singleton.1 ha
      obtain ⟨f, hf, rfl | hn⟩ := hfresh hn
      · exact ht.params _ ((mem_parameters hp).2 ⟨s, hs, List.mem_of_getElem? hf⟩)
      · exact hB (level_subset hi hn)
    · exact (List.toFinset_card_le _).trans (s.length_formalNames ▸ ht.formals_le hs)
    · obtain ⟨k, n, ha, hn, rfl⟩ := Signature.of_find?_relabelling hx
      obtain ⟨f, hf, hn⟩ := hfresh hn
      obtain rfl := Option.some.inj (ha.symm.trans hf)
      rcases hn with rfl | hn
      · exact .inl ⟨rfl, List.mem_toFinset.2 (List.mem_of_getElem? ha)⟩
      · exact .inr fun b hb => List.mem_singleton.1 hb ▸ hn
  self {i η t} h hd ht hp := by
    have hp' : ∀ p, t.subst η ≠ .param p := by
      cases t with
      | param p => exact absurd rfl (hp p)
      | _ => simp
    refine ⟨labels_subst hp ▸ ht.labels, fun a ha => ?_, ?_, lengths_subst hp ▸ ht.lengths⟩
    · obtain ⟨s', hs', ha⟩ := (mem_parameters hp').1 ha
      obtain ⟨s, hs, rfl⟩ := exists_of_method_mem_members_subst hp hs'
      rw [Signature.formalNames_subst] at ha
      obtain ⟨k, hk⟩ := List.mem_iff_getElem?.1 ha
      obtain ⟨f, hf, rfl | hn⟩ := h.of_getElem?_freshFor (ht.formals_le hs) hk
      · exact ht.params _ ((mem_parameters hp).2 ⟨s, hs, List.mem_of_getElem? hf⟩)
      · have := t.depth_pos
        exact hB (level_subset (by omega) hn)
    · cases t with
      | param p => exact absurd rfl (hp p)
      | var n => exact ht.vars
      | _ => simp [Ty.headVars]

/-- A type is in a box, and what is free in it is among some names. -/
structure In (B : Box) (names : Finset String) (t : Ty) : Prop where
  within : t.Everywhere B.Holds
  free : ∀ a ∈ t.freeParams, a ∈ names

/-- **Substitution in a type that is not too deep leads to a type in the box**, if the substitution takes
care of all but some names that are free in the type. -/
theorem in_subst {limit : Nat} (hB : level B.width names limit ⊆ B.params) {t : Ty}
    (ht : t.Everywhere B.Holds) (hd : t.depth ≤ limit)
    (hη : ∀ a x, η.find? a = some x → B.In names x)
    (hfree : ∀ a ∈ t.freeParams, η.find? a = none → a ∈ names) : B.In names (t.subst η) := by
  refine ⟨ht.subst (keeping hB) (i := 0) ?_ hd, fun a ha => ?_⟩
  · exact ⟨fun hx => (hη _ _ hx).within, ∅, Nat.zero_le _, fun a x hx => .inr (hη a x hx).free⟩
  · rcases t.of_mem_freeParams_subst η a ha with ⟨ha, hnone⟩ | ⟨b, x, hx, ha⟩
    · exact hfree a ha hnone
    · exact (hη b x hx).free a ha

theorem In.part {t a : Ty} (h : B.In names t) (ha : a ∈ t.parts)
    (hfree : ∀ b ∈ a.freeParams, b ∈ t.freeParams) : B.In names a :=
  ⟨h.within.of_mem_parts ha, fun b hb => h.free b (hfree b hb)⟩

/-- What is free in a type is at the head of a nested type. -/
theorem exists_of_mem_freeParams {t : Ty} {a : String} (ha : a ∈ t.freeParams) :
    ∃ u ∈ t.preorder, a ∈ u.parameters := by
  have hover : t.Over ⟨fun _ => True, fun a => ∃ u ∈ t.preorder, a ∈ u.parameters⟩ :=
    fun u hu => ⟨fun _ _ => trivial, fun a ha => ⟨u, hu, ha⟩⟩
  exact hover.of_mem_freeParams ha

/-- **Some types are in a box** that holds the names which substitution in types up to a depth can make
up. -/
theorem exists_box (ts : List Ty) (limit : Nat) :
    ∃ (B : Box) (names : Finset String), level B.width names limit ⊆ B.params
      ∧ ∀ t ∈ ts, B.In names t := by
  let nodes := ts.flatMap Ty.preorder
  let names := (nodes.flatMap Ty.parameters).toFinset
  let width := (nodes.flatMap Ty.lengths).sum
  refine ⟨⟨(nodes.flatMap Ty.labels).toFinset, level width names limit,
    (nodes.flatMap Ty.headVars).toFinset, width⟩, names, Finset.Subset.refl _, fun t ht => ?_⟩
  have hnode {u : Ty} (hu : u ∈ t.preorder) : u ∈ nodes := List.mem_flatMap.2 ⟨t, ht, hu⟩
  have hname {u : Ty} (hu : u ∈ t.preorder) {a : String} (ha : a ∈ u.parameters) : a ∈ names :=
    List.mem_toFinset.2 (List.mem_flatMap.2 ⟨u, hnode hu, ha⟩)
  refine ⟨fun u hu => ⟨fun a ha => ?_, fun a ha => ?_, fun n hn => ?_, fun n hn => ?_⟩, fun a ha => ?_⟩
  · exact List.mem_toFinset.2 (List.mem_flatMap.2 ⟨u, hnode hu, ha⟩)
  · exact level_subset (Nat.zero_le limit) (hname hu ha)
  · exact List.mem_toFinset.2 (List.mem_flatMap.2 ⟨u, hnode hu, hn⟩)
  · exact List.le_sum_of_mem (List.mem_flatMap.2 ⟨u, hnode hu, hn⟩)
  · obtain ⟨u, hu, ha⟩ := exists_of_mem_freeParams ha
    exact hname hu ha

end Box

end Ty

end FeatherGo
