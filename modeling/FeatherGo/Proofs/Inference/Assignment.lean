import FeatherGo.Inference.VarSubst
import FeatherGo.Proofs.Types.Parts
import Mathlib.Data.Finset.Basic

/-!
# Assigning types to inference variables

`Ty.assign` replaces every variable by what `VarSubst.lookup` says and keeps the rest of a type. Two
assignments in a row are one (`Ty.assign_assign`), and a type with a variable strictly inside stays
larger than the variable under every assignment (`Ty.size_assign_lt`), which is why the occurs check
refuses nothing that could be solved.
-/

namespace FeatherGo

/-! ## Solutions as maps -/

namespace VarSubst

/-- What a variable stands for: itself, if the solution says nothing. -/
def lookup (σ : VarSubst) (v : Nat) : Ty := (σ.find? v).getD (.var v)

/-- Variables stand in ascending order, each once. -/
def Ordered (σ : VarSubst) : Prop := σ.Pairwise fun b c => b.1 < c.1

theorem lookup_eq_of_find? {σ : VarSubst} {v : Nat} {t : Ty} (h : σ.find? v = some t) :
    σ.lookup v = t := by
  rw [lookup, h, Option.getD_some]

theorem lookup_eq_var {σ : VarSubst} {v : Nat} (h : σ.find? v = none) : σ.lookup v = .var v := by
  rw [lookup, h, Option.getD_none]

/-- What is true of a variable and of what it is bound to is true of what it stands for. -/
theorem lookup_of {P : Ty → Prop} {σ : VarSubst} {v : Nat} (hvar : P (.var v))
    (h : ∀ t, σ.find? v = some t → P t) : P (σ.lookup v) := by
  cases hv : σ.find? v with
  | none => exact lookup_eq_var hv ▸ hvar
  | some t => exact lookup_eq_of_find? hv ▸ h t hv

/-- What a single binding says. -/
theorem find?_singleton {v w : Nat} {t u : Ty} (h : find? [(v, t)] w = some u) : w = v ∧ u = t := by
  simp only [find?] at h
  split at h
  · exact ⟨‹_›, (Option.some.inj h).symm⟩
  · cases h

theorem find?_singleton_ne {v w : Nat} (h : w ≠ v) (t : Ty) : find? [(v, t)] w = none := by
  simp [find?, h]

theorem mem_of_find? {σ : VarSubst} {v : Nat} {t : Ty} (h : σ.find? v = some t) : (v, t) ∈ σ := by
  induction σ with
  | nil => cases h
  | cons b σ ih =>
    obtain ⟨n, u⟩ := b
    rw [find?] at h
    split at h
    · rename_i heq
      obtain rfl := Option.some.inj h
      exact heq ▸ List.mem_cons_self
    · exact List.mem_cons_of_mem _ (ih h)

theorem find?_map (σ : VarSubst) (f : Ty → Ty) (v : Nat) :
    find? (σ.map fun (w, t) => (w, f t)) v = (σ.find? v).map f := by
  induction σ with
  | nil => rfl
  | cons b σ ih =>
    obtain ⟨n, u⟩ := b
    simp only [List.map_cons, find?, ih]
    split <;> rfl

theorem find?_eq_none_of_lt {σ : VarSubst} {v : Nat} (h : ∀ b ∈ σ, v < b.1) :
    σ.find? v = none := by
  induction σ with
  | nil => rfl
  | cons b σ ih =>
    obtain ⟨n, u⟩ := b
    obtain ⟨hn, h⟩ := List.forall_mem_cons.1 h
    rw [find?, if_neg (Nat.ne_of_lt hn), ih h]

theorem Ordered.map {σ : VarSubst} (h : σ.Ordered) (f : Ty → Ty) :
    Ordered (σ.map fun (w, t) => (w, f t)) :=
  List.pairwise_map.2 h

/-- A binding of the result is the new one or an old one. -/
theorem mem_insert {σ : VarSubst} {v : Nat} {t : Ty} {b : Nat × Ty} (h : b ∈ insert v t σ) :
    b = (v, t) ∨ b ∈ σ := by
  induction σ with
  | nil => simpa [insert] using h
  | cons c σ ih =>
    obtain ⟨n, u⟩ := c
    simp only [insert] at h
    split at h
    · simpa using h
    · split at h
      · rcases List.mem_cons.1 h with h | h
        · exact .inl h
        · exact .inr (List.mem_cons_of_mem _ h)
      · rcases List.mem_cons.1 h with h | h
        · exact .inr (h ▸ List.mem_cons_self)
        · exact (ih h).imp_right (List.mem_cons_of_mem _)

theorem Ordered.insert {σ : VarSubst} (h : σ.Ordered) (v : Nat) (t : Ty) :
    Ordered (insert v t σ) := by
  induction σ with
  | nil => exact List.pairwise_singleton _ _
  | cons c σ ih =>
    obtain ⟨n, u⟩ := c
    obtain ⟨hn, hσ⟩ := List.pairwise_cons.1 h
    simp only [VarSubst.insert]
    split
    case isTrue hlt =>
      refine List.pairwise_cons.2 ⟨List.forall_mem_cons.2 ⟨hlt, fun b hb => ?_⟩, h⟩
      exact Nat.lt_trans hlt (hn b hb)
    case isFalse hge =>
      split
      case isTrue heq => exact List.pairwise_cons.2 ⟨heq ▸ hn, hσ⟩
      case isFalse hne =>
        refine List.pairwise_cons.2 ⟨fun b hb => ?_, ih hσ⟩
        rcases mem_insert hb with rfl | hb
        · exact Nat.lt_of_le_of_ne (Nat.le_of_not_lt hge) (Ne.symm hne)
        · exact hn b hb

end VarSubst

/-! ## Assignment and the parts of a type -/

/-- Replace inference variables in an interface member. -/
def Member.assign (σ : VarSubst) : Member → Member
  | .method s => .method (s.map (Ty.assign σ))
  | .embed c args => .embed c (args.map (Ty.assign σ))

theorem Ty.assignAll_eq (σ : VarSubst) (ts : List Ty) :
    Ty.assignAll σ ts = ts.map (Ty.assign σ) := by
  induction ts with
  | nil => rfl
  | cons t ts ih => rw [Ty.assignAll, ih, List.map_cons]

theorem Slot.assignAll_eq (σ : VarSubst) (fs : List Slot) :
    Slot.assignAll σ fs = fs.map (Slot.map (Ty.assign σ)) := by
  induction fs with
  | nil => rfl
  | cons f fs ih =>
    obtain ⟨x, t⟩ := f
    rw [Slot.assignAll, ih, List.map_cons, Slot.map]

theorem Member.assignAll_eq (σ : VarSubst) (ms : List Member) :
    Member.assignAll σ ms = ms.map (Member.assign σ) := by
  induction ms with
  | nil => rfl
  | cons m ms ih =>
    cases m with
    | method s =>
      obtain ⟨x, fs, ps, r⟩ := s
      rw [Member.assignAll, ih, Slot.assignAll_eq, Slot.assignAll_eq, List.map_cons, Member.assign,
        Signature.map]
    | embed c args => rw [Member.assignAll, ih, Ty.assignAll_eq, List.map_cons, Member.assign]

theorem Member.types_assign (σ : VarSubst) (m : Member) :
    (m.assign σ).types = m.types.map (Ty.assign σ) := by
  cases m with
  | method s => rw [Member.assign, Member.types, Member.types, Signature.types_map]
  | embed c args => rfl

namespace Ty

section Assign

variable (σ : VarSubst)

@[simp] theorem assign_param (p : String) : (Ty.param p).assign σ = .param p := by rw [Ty.assign]

@[simp] theorem assign_prim (p : Prim) : (Ty.prim p).assign σ = .prim p := by rw [Ty.assign]

@[simp] theorem assign_var (v : Nat) : (Ty.var v).assign σ = σ.lookup v := by
  rw [Ty.assign, VarSubst.lookup]

@[simp] theorem assign_named (c : String) (args : List Ty) :
    (Ty.named c args).assign σ = .named c (args.map (Ty.assign σ)) := by
  rw [Ty.assign, Ty.assignAll_eq]

@[simp] theorem assign_struct (fs : List Slot) :
    (Ty.struct fs).assign σ = .struct (fs.map (Slot.map (Ty.assign σ))) := by
  rw [Ty.assign, Slot.assignAll_eq]

@[simp] theorem assign_interface (ms : List Member) :
    (Ty.interface ms).assign σ = .interface (ms.map (Member.assign σ)) := by
  rw [Ty.assign, Member.assignAll_eq]

end Assign

/-- Only variables become variables. -/
theorem assign_ne_var {t : Ty} (h : ∀ v, t ≠ .var v) (σ : VarSubst) : ∀ v, t.assign σ ≠ .var v := by
  intro v
  cases t with
  | var w => exact absurd rfl (h w)
  | _ => simp

/-- The parts of a type are assigned one by one, unless it is a variable. -/
theorem parts_assign {t : Ty} (σ : VarSubst) (h : ∀ v, t ≠ .var v) :
    (t.assign σ).parts = t.parts.map (Ty.assign σ) := by
  cases t with
  | param _ => simp
  | prim _ => simp
  | var v => exact absurd rfl (h v)
  | named c args => simp
  | struct fs => simp [Slot.map]
  | interface ms =>
    simp [List.flatMap_map, List.map_flatMap, Member.types_assign]

/-- The variables that occur in a type. -/
def vars (t : Ty) : Finset Nat :=
  (t.preorder.filterMap fun
    | .var v => some v
    | _ => none).toFinset

theorem mem_vars {t : Ty} {v : Nat} : v ∈ t.vars ↔ .var v ∈ t.preorder := by
  rw [vars, List.mem_toFinset, List.mem_filterMap]
  constructor
  · rintro ⟨u, hu, h⟩
    cases u with
    | var w =>
      obtain rfl := Option.some.inj h
      exact hu
    | _ => cases h
  · exact fun h => ⟨_, h, rfl⟩

theorem occurs_eq_true {t : Ty} {v : Nat} : t.occurs v = true ↔ v ∈ t.vars := by
  rw [occurs, decide_eq_true_eq, mem_vars]

theorem hasVars_eq_false {t : Ty} : t.hasVars = false ↔ t.vars = ∅ := by
  rw [Finset.eq_empty_iff_forall_notMem, hasVars, List.any_eq_false]
  simp only [mem_vars]
  constructor
  · exact fun h v hv => h _ hv rfl
  · intro h u hu
    cases u with
    | var v => exact absurd hu (h v)
    | _ => exact Bool.false_ne_true

theorem mem_vars_var {v w : Nat} : v ∈ (Ty.var w).vars ↔ v = w := by
  simp [mem_vars, Ty.preorder]

/-- The variables of a type that is none itself are those of its parts. -/
theorem mem_vars_of_parts {t : Ty} {v : Nat} (h : ∀ w, t ≠ .var w) :
    v ∈ t.vars ↔ ∃ a ∈ t.parts, v ∈ a.vars := by
  simp only [mem_vars]
  rw [mem_preorder, or_iff_right (Ne.symm (h v))]

theorem vars_subset_of_mem_parts {t a : Ty} (h : a ∈ t.parts) : a.vars ⊆ t.vars := fun _ hv =>
  mem_vars.2 (mem_preorder.2 (.inr ⟨a, h, mem_vars.1 hv⟩))

/-- Two assignments in a row are the one that says of each variable what both say of it. -/
theorem assign_assign {σ τ ρ : VarSubst} (t : Ty)
    (h : ∀ v ∈ t.vars, (σ.lookup v).assign τ = ρ.lookup v) :
    (t.assign σ).assign τ = t.assign ρ := by
  induction t using Ty.induction with
  | param _ => simp
  | prim _ => simp
  | var v => simpa using h v (mem_vars_var.2 rfl)
  | named c args ih =>
    have hargs : ∀ a ∈ args, (a.assign σ).assign τ = a.assign ρ := fun a ha =>
      ih a ha fun v hv => h v (vars_subset_of_mem_parts ha hv)
    simpa using hargs
  | struct fs ih =>
    have hfs : ∀ f ∈ fs, (f.ty.assign σ).assign τ = f.ty.assign ρ := fun f hf =>
      ih f hf fun v hv => h v (vars_subset_of_mem_parts (List.mem_map_of_mem hf) hv)
    simpa [Slot.map] using hfs
  | interface ms ih =>
    have hms : ∀ m ∈ ms, (m.assign σ).assign τ = m.assign ρ := by
      intro m hm
      have htypes : ∀ a ∈ m.types, (a.assign σ).assign τ = a.assign ρ := fun a ha =>
        ih m hm a ha fun v hv => h v (vars_subset_of_mem_parts (List.mem_flatMap.2 ⟨m, hm, ha⟩) hv)
      cases m with
      | method s =>
        have hs := Signature.map_congr (f := fun a => (a.assign σ).assign τ) htypes
        rw [Member.assign, Member.assign, Member.assign, ← hs]
        simp [Signature.map, Slot.map]
      | embed c args => simpa [Member.assign, Member.types] using htypes
    simpa using hms

/-- If two assignments in a row are one, they are so for every variable. -/
theorem lookup_of_assign_assign {σ τ ρ : VarSubst} {t : Ty} (h : (t.assign σ).assign τ = t.assign ρ)
    {v : Nat} (hv : v ∈ t.vars) : (σ.lookup v).assign τ = ρ.lookup v := by
  induction t using induction_parts with
  | step t ih =>
    by_cases hvar : ∃ w, t = .var w
    · obtain ⟨w, rfl⟩ := hvar
      obtain rfl := mem_vars_var.1 hv
      simpa using h
    · have hvar : ∀ w, t ≠ .var w := fun w hw => hvar ⟨w, hw⟩
      obtain ⟨a, ha, hv⟩ := (mem_vars_of_parts hvar).1 hv
      have hparts := congrArg parts h
      rw [parts_assign τ (assign_ne_var hvar σ), parts_assign σ hvar, parts_assign ρ hvar,
        List.map_map, List.map_inj_left] at hparts
      exact ih a ha (hparts a ha) hv

theorem lookup_nil (v : Nat) : VarSubst.lookup [] v = .var v := rfl

@[simp] theorem assign_nil (t : Ty) : t.assign [] = t := by
  induction t using Ty.induction with
  | param _ => simp
  | prim _ => simp
  | var v => simp [lookup_nil]
  | named c args ih => simpa using map_eq_self_iff.2 ih
  | struct fs ih => simpa using Slot.map_eq_self ih
  | interface ms ih =>
    rw [assign_interface, map_eq_self_iff.2 fun m hm => ?_]
    cases m with
    | method s => rw [Member.assign, Signature.map_eq_self (ih _ hm)]
    | embed c args =>
      have hargs : args.map (Ty.assign []) = args := map_eq_self_iff.2 (ih _ hm)
      rw [Member.assign, hargs]

/-- Only the variables of a type matter for its assignment. -/
theorem assign_congr {σ τ : VarSubst} {t : Ty} (h : ∀ v ∈ t.vars, σ.lookup v = τ.lookup v) :
    t.assign σ = t.assign τ := by
  rw [← assign_nil (t.assign σ)]
  exact assign_assign t fun v hv => by rw [assign_nil, h v hv]

theorem assign_eq_self {σ : VarSubst} {t : Ty} (h : ∀ v ∈ t.vars, σ.find? v = none) :
    t.assign σ = t := by
  rw [assign_congr (τ := []) fun v hv => VarSubst.lookup_eq_var (h v hv), assign_nil]

/-- The types nested in an assigned type come from those nested in the type, or from what its
variables stand for. -/
theorem mem_preorder_assign {σ : VarSubst} {t u : Ty} (h : u ∈ (t.assign σ).preorder) :
    (∃ a ∈ t.preorder, (∀ v, a ≠ .var v) ∧ u = a.assign σ)
      ∨ ∃ v ∈ t.vars, u ∈ (σ.lookup v).preorder := by
  induction t using Ty.induction_parts with
  | step t ih =>
    by_cases hvar : ∃ v, t = .var v
    · obtain ⟨v, rfl⟩ := hvar
      exact .inr ⟨v, mem_vars_var.2 rfl, by simpa using h⟩
    · have hvar : ∀ v, t ≠ .var v := fun v hv => hvar ⟨v, hv⟩
      rw [mem_preorder, parts_assign σ hvar] at h
      rcases h with rfl | ⟨b, hb, hu⟩
      · exact .inl ⟨t, t.mem_preorder_self, hvar, rfl⟩
      · obtain ⟨a, ha, rfl⟩ := List.mem_map.1 hb
        rcases ih a ha hu with ⟨c, hc, hne, rfl⟩ | ⟨v, hv, hu⟩
        · exact .inl ⟨c, mem_preorder.2 (.inr ⟨a, ha, hc⟩), hne, rfl⟩
        · exact .inr ⟨v, vars_subset_of_mem_parts ha hv, hu⟩

/-- The variables of an assigned type are those of what its variables stand for. -/
theorem mem_vars_assign {σ : VarSubst} {t : Ty} {w : Nat} (h : w ∈ (t.assign σ).vars) :
    ∃ v ∈ t.vars, w ∈ (σ.lookup v).vars := by
  rcases mem_preorder_assign (mem_vars.1 h) with ⟨a, _, hvar, ha⟩ | ⟨v, hv, hu⟩
  · cases a with
    | var v => exact absurd rfl (hvar v)
    | _ => simp at ha
  · exact ⟨v, hv, mem_vars.2 hu⟩

/-- A variable strictly inside a type stays smaller than the type, whatever is assigned. -/
theorem size_assign_lt {σ : VarSubst} {t : Ty} {v : Nat} (hvar : ∀ w, t ≠ .var w)
    (h : v ∈ t.vars) : (σ.lookup v).size < (t.assign σ).size := by
  induction t using Ty.induction_parts with
  | step t ih =>
    obtain ⟨a, ha, hv⟩ := (mem_vars_of_parts hvar).1 h
    have hpart : a.assign σ ∈ (t.assign σ).parts := by
      rw [parts_assign σ hvar]
      exact List.mem_map_of_mem ha
    have hlt := size_lt_of_mem_parts hpart
    by_cases hw : ∃ w, a = .var w
    · obtain ⟨w, rfl⟩ := hw
      obtain rfl := mem_vars_var.1 hv
      simpa using hlt
    · exact Nat.lt_trans (ih a ha (fun w hw' => hw ⟨w, hw'⟩) hv) hlt

/-- No type is an interface literal or has one inside. -/
def LiteralFree (t : Ty) : Prop := ∀ ms, .interface ms ∉ t.preorder

theorem LiteralFree.of_mem_parts {t a : Ty} (h : t.LiteralFree) (ha : a ∈ t.parts) :
    a.LiteralFree := fun ms hm => h ms (mem_preorder.2 (.inr ⟨a, ha, hm⟩))

theorem LiteralFree.assign {σ : VarSubst} {t : Ty} (h : t.LiteralFree)
    (hσ : ∀ v ∈ t.vars, (σ.lookup v).LiteralFree) : (t.assign σ).LiteralFree := by
  intro ms hm
  rcases mem_preorder_assign hm with ⟨a, ha, hvar, heq⟩ | ⟨v, hv, hm⟩
  · cases a with
    | interface ns => exact h ns ha
    | var v => exact absurd rfl (hvar v)
    | _ => simp at heq
  · exact hσ v hv ms hm

end Ty

end FeatherGo
