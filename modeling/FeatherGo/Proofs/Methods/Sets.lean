import FeatherGo.Proofs.Types.Alpha
import FeatherGo.Typing.MethodSet

/-!
# Method sets

A method set that was built by adding signatures is sorted by name, so that it has one signature of a
name, the first that was added (`MethodSet.find?_add`). One method set covers another if it has a
signature of every name in the other, and the two agree.
-/

namespace FeatherGo.MethodSet

/-- The names ascend. -/
def Sorted (S : MethodSet) : Prop := S.Pairwise fun a b => a.name < b.name

theorem sorted_nil : Sorted [] := .nil

theorem mem_add {s x : Signature} {S : MethodSet} (h : x ∈ add s S) : x = s ∨ x ∈ S := by
  induction S with
  | nil => simpa [add] using h
  | cons t ts ih =>
    rw [add] at h
    split at h
    · simpa using h
    · split at h
      · exact .inr h
      · rcases List.mem_cons.1 h with rfl | h
        · exact .inr List.mem_cons_self
        · exact (ih h).imp_right (List.mem_cons_of_mem _)

theorem sorted_add {s : Signature} {S : MethodSet} (h : Sorted S) : Sorted (add s S) := by
  induction S with
  | nil => exact List.pairwise_singleton _ _
  | cons t ts ih =>
    obtain ⟨ht, hts⟩ := List.pairwise_cons.1 h
    rw [add]
    split
    · rename_i hlt
      refine List.pairwise_cons.2 ⟨fun x hx => ?_, h⟩
      rcases List.mem_cons.1 hx with rfl | hx
      · exact hlt
      · exact String.lt_trans hlt (ht x hx)
    · split
      · exact h
      · rename_i hlt hne
        refine List.pairwise_cons.2 ⟨fun x hx => ?_, ih hts⟩
        rcases mem_add hx with rfl | hx
        · exact String.not_le.1 fun hle => hne (String.le_antisymm hle (String.not_lt.1 hlt))
        · exact ht x hx

theorem find?_add {s : Signature} {S : MethodSet} (h : Sorted S) (name : String) :
    (add s S).find? name = (S.find? name).or (if s.name = name then some s else none) := by
  induction S with
  | nil =>
    by_cases hs : s.name = name <;> simp [add, find?, hs]
  | cons t ts ih =>
    obtain ⟨ht, hts⟩ := List.pairwise_cons.1 h
    rw [add]
    split
    · rename_i hlt
      by_cases hs : s.name = name
      · -- Nothing behind a greater name has the name looked for.
        have hnone : find? (t :: ts) name = none := by
          rw [find?, List.find?_eq_none]
          intro x hx hxn
          have hx' : x.name = name := by simpa using hxn
          have hlt' : s.name < x.name := by
            rcases List.mem_cons.1 hx with rfl | hx
            · exact hlt
            · exact String.lt_trans hlt (ht x hx)
          rw [hs, hx'] at hlt'
          exact String.lt_irrefl _ hlt'
        rw [hnone]
        simp [find?, hs]
      · simp [find?, hs]
    · split
      · rename_i heq
        by_cases hs : s.name = name
        · simp [find?, ← heq, hs]
        · simp [hs]
      · have hih := ih hts
        rw [find?] at hih ⊢
        rw [List.find?_cons, hih, find?, find?, List.find?_cons]
        by_cases htn : t.name = name <;> simp [htn]

theorem mem_of_find? {S : MethodSet} {name : String} {s : Signature} (h : S.find? name = some s) :
    s ∈ S ∧ s.name = name :=
  ⟨List.mem_of_find?_eq_some h, by simpa using List.find?_some h⟩

theorem find?_of_mem {S : MethodSet} (h : Sorted S) {s : Signature} (hs : s ∈ S) :
    S.find? s.name = some s := by
  induction S with
  | nil => exact absurd hs List.not_mem_nil
  | cons t ts ih =>
    obtain ⟨ht, hts⟩ := List.pairwise_cons.1 h
    rcases List.mem_cons.1 hs with rfl | hs
    · simp [find?]
    · have hne : t.name ≠ s.name := fun he => by
        have hlt := ht s hs
        rw [he] at hlt
        exact String.lt_irrefl _ hlt
      simpa [find?, hne] using ih hts hs

/-- What an addition does to a method set that has the names of another, it does to the other. -/
theorem map_add {f : Signature → Signature} (hf : ∀ s, (f s).name = s.name) (s : Signature)
    (S : MethodSet) : (add s S).map f = add (f s) (S.map f) := by
  induction S with
  | nil => rfl
  | cons t ts ih =>
    rw [add, List.map_cons, add, hf, hf]
    split
    · simp
    · split
      · simp
      · simp [ih]

theorem map_union {f : Signature → Signature} (hf : ∀ s, (f s).name = s.name) (S E : MethodSet) :
    (union S E).map f = union (S.map f) (E.map f) := by
  rw [union, union]
  induction E generalizing S with
  | nil => rfl
  | cons e es ih => rw [List.map_cons, List.foldl_cons, List.foldl_cons, ih, map_add hf]

theorem sorted_union {S E : MethodSet} (h : Sorted S) : Sorted (union S E) := by
  rw [union]
  induction E generalizing S with
  | nil => exact h
  | cons e es ih => exact ih (sorted_add h)

theorem mem_union {S E : MethodSet} {x : Signature} (h : x ∈ union S E) : x ∈ S ∨ x ∈ E := by
  rw [union] at h
  induction E generalizing S with
  | nil => exact .inl h
  | cons e es ih =>
    rcases ih h with h | h
    · rcases mem_add h with rfl | h
      · exact .inr List.mem_cons_self
      · exact .inl h
    · exact .inr (List.mem_cons_of_mem _ h)

theorem find?_union {S E : MethodSet} (h : Sorted S) (name : String) :
    (union S E).find? name = (S.find? name).or (E.find? name) := by
  rw [union]
  induction E generalizing S with
  | nil => simp [find?]
  | cons e es ih =>
    rw [List.foldl_cons, ih (sorted_add h), find?_add h, Option.or_assoc]
    congr 1
    rw [find?, find?, List.find?_cons]
    by_cases he : e.name = name <;> simp [he]

/-- A set that is made of signatures with names of their own holds just these. -/
theorem mem_union_nil {E : MethodSet} (hE : ∀ s ∈ E, ∀ s' ∈ E, s.name = s'.name → s = s')
    {x : Signature} : x ∈ union [] E ↔ x ∈ E := by
  refine ⟨fun h => (mem_union h).resolve_left List.not_mem_nil, fun h => ?_⟩
  obtain ⟨y, hy⟩ : ∃ y, find? E x.name = some y :=
    Option.isSome_iff_exists.1 (List.find?_isSome.2 ⟨x, h, by simp⟩)
  obtain ⟨hmem, hname⟩ := mem_of_find? hy
  have hfind : (union [] E).find? x.name = some x := by
    rw [find?_union sorted_nil, hy, hE y hmem x h hname]
    rfl
  exact (mem_of_find? hfind).1

theorem find?_map {f : Signature → Signature} (hf : ∀ s, (f s).name = s.name) (S : MethodSet)
    (name : String) : find? (S.map f) name = (S.find? name).map f := by
  rw [find?, find?, List.find?_map]
  congr 2
  funext s
  simp [hf]

/-- The first method set has a signature that agrees with each of the second. -/
def Covers (S W : MethodSet) : Prop :=
  ∀ s ∈ W, ∃ o, S.find? s.name = some o ∧ o.alphaEq s = true

theorem covers_nil (S : MethodSet) : Covers S [] := fun _ hs => absurd hs List.not_mem_nil

theorem covers_refl {S : MethodSet} (h : Sorted S) : Covers S S :=
  fun s hs => ⟨s, find?_of_mem h hs, s.alphaEq_refl⟩

theorem Covers.trans {S W X : MethodSet} (h : Covers S W) (h' : Covers W X) : Covers S X := by
  intro s hs
  obtain ⟨o, ho, heq⟩ := h' s hs
  obtain ⟨hmem, hname⟩ := mem_of_find? ho
  obtain ⟨o', ho', heq'⟩ := h o hmem
  exact ⟨o', hname ▸ ho', Signature.alphaEq_trans heq' heq⟩

theorem covers_iff {S W : MethodSet} :
    (W.all fun s => (S.find? s.name).any fun o => o.alphaEq s) = true ↔ Covers S W := by
  simp only [List.all_eq_true, Option.any_eq_true, Covers]

end FeatherGo.MethodSet
