import FeatherGo.Instance.Nesting
import FeatherGo.Proofs.Discovery.Limit
import Mathlib.Data.Set.Card

/-!
# When discovery ends

Discovery ends within some number of passes if and only if there is a finite saturated set of ground
instances that holds those of the main expression, with typing that answers over it
(`discover_ends_iff`).

The check of nesting does not imply this. It closes open instances, and visits the body of each
method once, at the first instance that comes up. In `swapping` two methods call each other, first at
`int32` and then at their own argument; the calls at `int32` hide those at the argument. The program
passes the check, every saturated set that holds its main instance is infinite
(`Swapping.call_boxes_mem`), and discovery runs into every limit (`swapping_passLimit`).
-/

namespace FeatherGo

/-- There are no more instances in a finite set than it has members. -/
theorem Instances.size_le_ncard {F : Instances} {S : InstanceSets} (hF : F.sets ≤ S)
    (htypes : F.types.Nodup) (hmeths : F.meths.Nodup) (hS : S.1.Finite) (hS' : S.2.Finite) :
    F.size ≤ S.1.ncard + S.2.ncard := by
  have hlength {α : Type} [DecidableEq α] {l : List α} {A : Set α} (hl : l.Nodup)
      (hle : ∀ a ∈ l, a ∈ A) (hA : A.Finite) : l.length ≤ A.ncard := by
    rw [← List.toFinset_card_of_nodup hl, ← Set.ncard_coe_finset]
    exact Set.ncard_le_ncard (fun a ha => hle a (by simpa using ha)) hA
  exact Nat.add_le_add (hlength htypes hF.1 hS) (hlength hmeths hF.2 hS')

section Discovery

variable {T : Table} {fuel : Nat} {S : InstanceSets} {main : Expr} {found : Instances}
  (hmain : (Checker.mk T true fuel).collect [] [] main .empty = (.ok (), found))
  (hseed : T.Seeded main S) (hS : T.Saturated S) (hA : T.Answers fuel S)

include hmain hseed hS hA

/-- **Discovery answers or runs into its limit**, if typing answers over some saturated set that holds
the instances of the main expression. It makes as many passes as it may only if there are as many
instances. -/
theorem discover_ok_or_passLimit (most : Nat) : (∃ F, discover fuel T main (some most) = .ok F)
    ∨ (discover fuel T main (some most) = .error (.passLimit (max 1 most))
      ∧ ∃ F : Instances, F.Within S ∧ most ≤ F.size) := by
  obtain ⟨s, hs⟩ := Closure.exists_addFrom hA hmain (hseed found ⟨fuel, hmain⟩) .empty
  have hwithin := Closure.within_of_addFrom hseed hs (Instances.within_empty S)
  have hsound : (Closure.ground T fuel).Sound s :=
    (Closure.of_addFrom hs).1.sound fun m hm => absurd hm List.not_mem_nil
  cases hrun : (Closure.ground T fuel).run (some most) s with
  | mk r s' =>
    rw [Closure.discover_eq_run hs hrun]
    rcases Closure.runFrom_ok_or_passLimit hA hS (Nat.add_zero _) (by omega) hwithin hsound hrun with
      ⟨n, rfl⟩ | ⟨rfl, hwithin', hgrown⟩
    · exact .inl ⟨s'.found, rfl⟩
    · exact .inr ⟨rfl, s'.found, hwithin', by omega⟩

/-- **Discovery ends** where the set is finite. -/
theorem exists_discover_of_finite (htypes : S.1.Finite) (hmeths : S.2.Finite) :
    ∃ most F, discover fuel T main (some most) = .ok F := by
  refine ⟨S.1.ncard + S.2.ncard + 1, ?_⟩
  rcases discover_ok_or_passLimit hmain hseed hS hA (S.1.ncard + S.2.ncard + 1) with
    hok | ⟨-, F, hF, hsize⟩
  · exact hok
  · have hsize' := F.size_le_ncard hF.le hF.typesNodup hF.methsNodup htypes hmeths
    omega

end Discovery

/-- Typing answers over what discovery answers. -/
theorem Closure.Closed.answers {T : Table} {fuel : Nat} {F : Instances} {S : InstanceSets}
    (h : (Closure.ground T fuel).Closed F) (hF : F.Within S) : T.Answers fuel F.sets where
  typesGround := hF.typesGround
  methsGround := hF.methsGround
  demanded t ht := by
    obtain ⟨ds, hds, -⟩ := h.types t ht
    exact ⟨ds, hds⟩
  decided m hm := (h.meths m hm).decided
  implements m hm hi t ht hn hne := by
    obtain ⟨b, hb, -⟩ := (h.meths m hm).implementers hi t ht hn hne
    exact ⟨b, hb⟩
  embedded m hm hi := by
    obtain ⟨us, hus, hall⟩ := (h.meths m hm).embeddings hi
    refine ⟨us, hus, fun u hu => ?_⟩
    obtain ⟨E, hE, -⟩ := hall u hu
    exact ⟨E, hE⟩
  methods m hm := by
    obtain ⟨E, hE, -⟩ := (h.meths m hm).signature
    exact ⟨E, hE⟩
  bodies c args m md hm hr ht hi hmd hl hl' := by
    obtain ⟨found, hfound, -⟩ := (h.meths m hm).body hi ht c args md hr hmd hl hl'
    exact ⟨found, hfound⟩

/-- **Discovery ends** within some number of passes if and only if some finite set of ground instances
holds those of the main expression and is saturated, with typing that answers over it. -/
theorem discover_ends_iff {T : Table} {fuel : Nat} {main : Expr} :
    (∃ most F, discover fuel T main (some most) = .ok F) ↔
      (∃ found, (Checker.mk T true fuel).collect [] [] main .empty = (.ok (), found))
      ∧ ∃ S : InstanceSets, S.1.Finite ∧ S.2.Finite ∧ T.Seeded main S ∧ T.Saturated S
        ∧ T.Answers fuel S := by
  constructor
  · rintro ⟨most, F, hF⟩
    obtain ⟨⟨found, hmain, -⟩, hclosed⟩ := Closure.of_discover hF
    obtain ⟨hseed, hS⟩ := (Closure.isLeast_of_discover hF).1
    exact ⟨⟨found, hmain⟩, F.sets, F.types.finite_toSet, F.meths.finite_toSet, hseed, hS,
      hclosed.answers (Closure.within_of_discover hS hseed hF)⟩
  · rintro ⟨⟨found, hmain⟩, S, htypes, hmeths, hseed, hS, hA⟩
    exact exists_discover_of_finite hmain hseed hS hA htypes hmeths

/-! ## Growth that the check of nesting does not see -/

namespace Swapping

/-- The two methods. -/
inductive Side
  | m
  | k

namespace Side

def name : Side → String
  | m => "m"
  | k => "k"

def other : Side → Side
  | m => k
  | k => m

def formal : Side → String
  | m => "a"
  | k => "b"

/-- What a method passes on for its argument. -/
def nest : Side → Ty → Ty
  | m => id
  | k => fun t => .named "Box" [t]

/-- The methods `func (s S) m(a Any)() S { return s.k(int32)().k(a)() }` and
`func (s S) k(b Any)() S { return s.m(int32)().m(Box(b))() }`. -/
def decl (side : Side) : MethodDecl :=
  ⟨"s", "S", [], ⟨side.name, [⟨side.formal, .named "Any" []⟩], [], .named "S" []⟩,
    .call (.call (.var "s") side.other.name [.ofKind .int32] []) side.other.name
      [side.nest (.param side.formal)] []⟩

end Side

end Swapping

/-- Two methods that call each other, with `S{}.k(int32)()` as the main expression. -/
def swapping : Program where
  decls := [.type ⟨"Any", [], .anything⟩,
    .type ⟨"Box", [⟨"a", .named "Any" []⟩], .struct [⟨"f", .param "a"⟩]⟩,
    .type ⟨"S", [], .struct []⟩, .method (Swapping.Side.decl .m), .method (Swapping.Side.decl .k)]
  main := .call (.structLit "S" [] []) "k" [.ofKind .int32] []
  printf := false

namespace Swapping

/-- The declarations of `swapping`. -/
def table : Table :=
  ⟨swapping.decls.filterMap Decl.typeDecl?, swapping.decls.filterMap Decl.methodDecl?⟩

/-- A call on `S`. -/
def call (side : Side) (t : Ty) : MethodInstance := ⟨.named "S" [], side.name, [t]⟩

/-- The instances with one more call on `S`. -/
def push (side : Side) (t : Ty) (found : Instances) : Instances :=
  (found.pushType (.named "S" [])).pushMethod (call side t)

/-- A call at `int32`, and one at `t`. -/
def calls (side : Side) (t : Ty) : Instances := push side t (push side (.ofKind .int32) .empty)

/-- The instances in the main expression. -/
def start : Instances := push .k (.ofKind .int32) (Instances.empty.pushType (.named "S" []))

/-- The one type that occurs, and the calls at ground types. -/
def sets : InstanceSets := ({.named "S" []}, {i | ∃ side t, t.isGround = true ∧ i = call side t})

theorem calls_le {side : Side} {t : Ty} {S : InstanceSets} : (calls side t).sets ≤ S ↔
    .named "S" [] ∈ S.1 ∧ call side (.ofKind .int32) ∈ S.2 ∧ call side t ∈ S.2 := by
  rw [Instances.sets_le]
  simp [calls, push, Instances.pushType, Instances.pushMethod, Instances.empty]

theorem start_le {S : InstanceSets} :
    start.sets ≤ S ↔ .named "S" [] ∈ S.1 ∧ call .k (.ofKind .int32) ∈ S.2 := by
  rw [Instances.sets_le]
  simp [start, push, Instances.pushType, Instances.pushMethod, Instances.empty]

theorem isGround_nest {side : Side} {t : Ty} (ht : t.isGround = true) :
    (side.nest t).isGround = true := by
  cases side with
  | m => exact ht
  | k => exact Ty.isGround_named.2 (by simpa using ht)

/-! ## What the declarations answer -/

theorem method?_name (side : Side) : table.method? "S" side.name = some side.decl := by
  cases side <;> rfl

theorem methods_receiver {fuel : Nat} (hfuel : 9 ≤ fuel) :
    ∃ E, table.methods [] fuel (.named "S" []) = .ok E
      ∧ ∀ side : Side, E.find? side.name = some side.decl.sig := by
  have hE : ∃ E, table.methods [] 9 (.named "S" []) = .ok E
      ∧ ∀ side : Side, E.find? side.name = some side.decl.sig :=
    ⟨_, rfl, fun side => by cases side <;> rfl⟩
  obtain ⟨E, hE, hfind⟩ := hE
  exact ⟨E, (Table.methods_below hfuel [] _).ok hE, hfind⟩

/-- The instances in the body of a method. -/
theorem collect_body (side : Side) {fuel : Nat} (hfuel : 9 ≤ fuel) (t : Ty) :
    (Checker.mk table true fuel).collect [] (Closure.bodyScope (call side t) [] side.decl)
      (side.decl.body.substTypes (instantiation side.decl.recvFormals []
        ++ instantiation side.decl.sig.formals [t])) .empty
      = (.ok (), calls side.other (side.nest t)) := by
  refine Checker.collect_mono hfuel ?_
  cases side <;> rfl

theorem collect_main {fuel : Nat} (hfuel : 9 ≤ fuel) :
    (Checker.mk table true fuel).collect [] [] swapping.main .empty = (.ok (), start) :=
  Checker.collect_mono hfuel rfl

/-! ## A saturated set with typing over it -/

theorem call_mem_sets (side : Side) {t : Ty} (ht : t.isGround = true) : call side t ∈ sets.2 :=
  ⟨side, t, ht, rfl⟩

theorem seeded_sets : table.Seeded swapping.main sets := by
  intro found hfound
  obtain rfl := hfound.unique ⟨9, collect_main le_rfl⟩
  exact start_le.2 ⟨rfl, call_mem_sets .k rfl⟩

theorem saturated_sets : table.Saturated sets where
  fields t fs ht hfs f hf := by
    obtain rfl := ht
    obtain rfl : [] = fs := Option.some.inj (Except.ok.inj hfs)
    exact absurd hf List.not_mem_nil
  source c args u ht hu hn := by
    rw [show Ty.named c args = .named "S" [] from ht] at hu
    obtain rfl : Ty.struct [] = u := Except.ok.inj hu
    exact absurd hn Bool.false_ne_true
  embedded c args ms d as ht hms hd := by
    rw [show Ty.named c args = .named "S" [] from ht] at hms
    cases hms
  implementers m t fuel hm hi ht hn himp := by
    obtain ⟨side, t, -, rfl⟩ := hm
    cases hi
  embeddings m ms d as fuel E hm hms hd hE hsome := by
    obtain ⟨side, t, -, rfl⟩ := hm
    cases hms
  signature m fuel E sig hm hE hsig hl := by
    obtain ⟨side, t, -, rfl⟩ := hm
    obtain ⟨E', hE', hfind⟩ := methods_receiver (le_refl 9)
    obtain rfl := Answer.eq_of_below (fun hnm => Table.methods_below hnm [] _) hE' hE
    obtain rfl := Option.some.inj ((hfind side).symm.trans hsig)
    refine ⟨fun p hp => absurd hp List.not_mem_nil, ?_⟩
    cases side <;> rfl
  body c args m md found hm hr ht hi hmd hl hl' hfound := by
    obtain ⟨side, t, hground, rfl⟩ := hm
    obtain ⟨rfl, rfl⟩ := Ty.named.inj hr
    obtain rfl := Option.some.inj ((method?_name side).symm.trans hmd)
    obtain rfl := hfound.unique ⟨9, collect_body side le_rfl t⟩
    exact calls_le.2 ⟨rfl, call_mem_sets side.other rfl,
      call_mem_sets side.other (isGround_nest hground)⟩

theorem answers_sets {fuel : Nat} (hfuel : 9 ≤ fuel) : table.Answers fuel sets where
  typesGround t ht := by
    obtain rfl := ht
    rfl
  methsGround m hm := by
    obtain ⟨side, t, hground, rfl⟩ := hm
    exact List.forall_mem_cons.2 ⟨rfl, by simpa [call] using hground⟩
  demanded t ht := by
    obtain rfl := ht
    exact ⟨[], rfl⟩
  decided m hm := by
    obtain ⟨side, t, -, rfl⟩ := hm
    exact ⟨false, rfl⟩
  implements m hm hi := by
    obtain ⟨side, t, -, rfl⟩ := hm
    cases hi
  embedded m hm hi := by
    obtain ⟨side, t, -, rfl⟩ := hm
    cases hi
  methods m hm := by
    obtain ⟨side, t, -, rfl⟩ := hm
    obtain ⟨E, hE, -⟩ := methods_receiver hfuel
    exact ⟨E, hE⟩
  bodies c args m md hm hr ht hi hmd hl hl' := by
    obtain ⟨side, t, -, rfl⟩ := hm
    obtain ⟨rfl, rfl⟩ := Ty.named.inj hr
    obtain rfl := Option.some.inj ((method?_name side).symm.trans hmd)
    exact ⟨_, collect_body side hfuel t⟩

/-! ## No finite set is saturated -/

/-- `Box(…Box(int32)…)`. -/
def boxes : Nat → Ty
  | 0 => .ofKind .int32
  | n + 1 => .named "Box" [boxes n]

theorem boxes_injective : Function.Injective boxes := by
  intro n
  induction n with
  | zero =>
    intro m h
    cases m with
    | zero => rfl
    | succ m => cases h
  | succ n ih =>
    intro m h
    cases m with
    | zero => cases h
    | succ m => rw [ih (List.cons.inj (Ty.named.inj h).2).1]

section

variable {S : InstanceSets} (hseed : table.Seeded swapping.main S) (hS : table.Saturated S)

include hseed

theorem main_mem : .named "S" [] ∈ S.1 ∧ call .k (.ofKind .int32) ∈ S.2 :=
  start_le.1 (hseed _ ⟨9, collect_main le_rfl⟩)

include hS

/-- A call demands one on the other method. -/
theorem call_nest_mem {side : Side} {t : Ty} (h : call side t ∈ S.2) :
    call side.other (side.nest t) ∈ S.2 :=
  (calls_le.1 (hS.body "S" [] _ side.decl _ h rfl (main_mem hseed).1 rfl (method?_name side) rfl rfl
    ⟨9, collect_body side le_rfl t⟩)).2.2

/-- A saturated set that holds the main instance holds arbitrarily nested ones. -/
theorem call_boxes_mem (n : Nat) : call .k (boxes n) ∈ S.2 := by
  induction n with
  | zero => exact (main_mem hseed).2
  | succ n ih => exact call_nest_mem hseed hS (call_nest_mem hseed hS ih)

end

end Swapping

/-- The check of nesting accepts `swapping`, which runs into every limit on passes. -/
theorem swapping_passLimit : ∃ t q T, checkProgram 9 false swapping = .ok (t, q)
    ∧ Table.ofDecls q.decls = .ok T ∧ T.checkNesting 9 = .ok () ∧ ∀ fuel ≥ 9, ∀ most,
      discover fuel T q.main (some most) = .error (.passLimit (max 1 most)) := by
  refine ⟨.named "S" [], swapping, Swapping.table, rfl, rfl, rfl, fun fuel hfuel most => ?_⟩
  rcases discover_ok_or_passLimit (Swapping.collect_main hfuel) Swapping.seeded_sets
    Swapping.saturated_sets (Swapping.answers_sets hfuel) most with ⟨F, hF⟩ | ⟨hlimit, -⟩
  · obtain ⟨hseed, hS⟩ := (Closure.isLeast_of_discover hF).1
    have hmem (n : Nat) : Swapping.call .k (Swapping.boxes n) ∈ F.sets.2 :=
      Swapping.call_boxes_mem hseed hS n
    have hinj : Function.Injective fun n => Swapping.call .k (Swapping.boxes n) := fun n m h =>
      Swapping.boxes_injective (List.cons.inj (MethodInstance.mk.inj h).2.2).1
    exact absurd F.meths.finite_toSet (Set.infinite_of_injective_forall_mem hinj hmem)
  · exact hlimit

end FeatherGo
