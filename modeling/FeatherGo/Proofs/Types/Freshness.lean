import FeatherGo.Proofs.Types.Substitution

/-!
# Fresh names

Renaming adds primes to a name until it is unused. The stem of a name is what is left without its
primes: renaming keeps stems, and a name that renaming made differs from every name without primes.
-/

namespace FeatherGo

/-- A name without its primes. -/
def stem (name : String) : String := String.ofList (name.toList.filter (· ≠ '\''))

/-- A name that renaming did not make. -/
def Unprimed (name : String) : Prop := stem name = name

@[simp] theorem stem_prime (name : String) : stem (name ++ "'") = stem name := by
  simp [stem, String.toList_append]

@[simp] theorem stem_stem (name : String) : stem (stem name) = stem name := by
  simp [stem, List.filter_filter]

theorem unprimed_stem (name : String) : Unprimed (stem name) := stem_stem name

theorem not_unprimed_prime (name : String) : ¬Unprimed (name ++ "'") := by
  intro h
  have hlen : (stem name).toList.length ≤ name.toList.length := by
    simpa [stem] using List.length_filter_le _ _
  rw [Unprimed, stem_prime] at h
  rw [h] at hlen
  simp only [String.toList_append, List.length_append] at hlen
  have hp : "'".toList.length = 1 := rfl
  omega

@[simp] theorem stem_primedIn (taken : List String) (n : Nat) (name : String) :
    stem (primedIn taken n name) = stem name := by
  induction n generalizing name with
  | zero => rfl
  | succ n ih =>
    rw [primedIn]
    split
    · rw [ih, stem_prime]
    · rfl

theorem not_unprimed_primedIn (taken : List String) (n : Nat) {name : String}
    (h : ¬Unprimed name) : ¬Unprimed (primedIn taken n name) := by
  induction n generalizing name with
  | zero => exact h
  | succ n ih =>
    rw [primedIn]
    split
    · exact ih (not_unprimed_prime name)
    · exact h

/-- Each trial that fails leaves fewer taken names that are at least as long as the next one. -/
theorem primedIn_notMem {taken : List String} {n : Nat} {name : String}
    (h : (taken.filter fun x => name.length ≤ x.length).length ≤ n) :
    primedIn taken n name ∉ taken := by
  induction n generalizing name with
  | zero =>
    intro hmem
    have hin : name ∈ taken.filter fun x => name.length ≤ x.length := by
      simpa [primedIn] using hmem
    have := List.length_pos_of_mem hin
    omega
  | succ n ih =>
    rw [primedIn]
    split
    · rename_i hmem
      apply ih
      have hsub : (taken.filter fun x => (name ++ "'").length ≤ x.length)
          = (taken.filter fun x => name.length ≤ x.length).filter
              fun x => (name ++ "'").length ≤ x.length := by
        rw [List.filter_filter]
        refine List.filter_congr fun x _ => ?_
        simp only [String.length_append]
        by_cases hx : name.length + "'".length ≤ x.length
        · have : name.length ≤ x.length := by omega
          simp [hx, this]
        · simp [hx]
      have hlt : ((taken.filter fun x => name.length ≤ x.length).filter
          fun x => (name ++ "'").length ≤ x.length).length
          < (taken.filter fun x => name.length ≤ x.length).length := by
        apply List.length_filter_lt_length_iff_exists.2
        refine ⟨name, by simpa using hmem, ?_⟩
        have hp : "'".length = 1 := rfl
        simp [String.length_append, hp]
      rw [hsub]
      omega
    · assumption

theorem primedIn_length_notMem (taken : List String) (name : String) :
    primedIn taken taken.length name ∉ taken :=
  primedIn_notMem (List.length_filter_le _ _)

namespace Signature

@[simp] theorem length_freshNames (free taken names : List String) :
    (freshNames free taken names).length = names.length := by
  induction names generalizing taken with
  | nil => rfl
  | cons f fs ih =>
    rw [freshNames]
    split <;> simp [ih]

@[simp] theorem map_stem_freshNames (free taken names : List String) :
    (freshNames free taken names).map stem = names.map stem := by
  induction names generalizing taken with
  | nil => rfl
  | cons f fs ih =>
    rw [freshNames]
    split <;> simp [ih]

/-- A new name is primed, or it is an old one that was not mentioned. -/
theorem of_mem_freshNames {free taken names : List String} {n : String}
    (h : n ∈ freshNames free taken names) : ¬Unprimed n ∨ n ∈ names ∧ n ∉ free := by
  induction names generalizing taken with
  | nil => simp [freshNames] at h
  | cons f fs ih =>
    rw [freshNames] at h
    split at h
    · rcases List.mem_cons.1 h with rfl | h
      · exact .inl (not_unprimed_primedIn _ _ (not_unprimed_prime f))
      · exact (ih h).imp_right fun h => ⟨List.mem_cons_of_mem _ h.1, h.2⟩
    · rename_i hf
      rcases List.mem_cons.1 h with rfl | h
      · exact .inr ⟨List.mem_cons_self, hf⟩
      · exact (ih h).imp_right fun h => ⟨List.mem_cons_of_mem _ h.1, h.2⟩

/-- No new name is mentioned. -/
theorem freshNames_notMem {free taken names : List String} (ht : ∀ q ∈ free, q ∈ taken)
    {n : String} (h : n ∈ freshNames free taken names) : n ∉ free := by
  induction names generalizing taken with
  | nil => simp [freshNames] at h
  | cons f fs ih =>
    rw [freshNames] at h
    split at h
    · rcases List.mem_cons.1 h with rfl | h
      · exact fun hmem => primedIn_length_notMem taken _ (ht _ hmem)
      · exact ih (fun q hq => List.mem_cons_of_mem _ (ht q hq)) h
    · rename_i hf
      rcases List.mem_cons.1 h with rfl | h
      · exact hf
      · exact ih ht h

variable {s : Signature} {η : Env Ty}

@[simp] theorem length_freshFor : (s.freshFor η).length = s.formalNames.length :=
  length_freshNames _ _ _

theorem map_stem_freshFor : (s.freshFor η).map stem = s.formalNames.map stem :=
  map_stem_freshNames _ _ _

theorem freshFor_notMem {n : String} (h : n ∈ s.freshFor η) : n ∉ s.imported η :=
  freshNames_notMem (fun _ hq => List.mem_append_left _ hq) h

theorem of_mem_freshFor {n : String} (h : n ∈ s.freshFor η) :
    ¬Unprimed n ∨ n ∈ s.formalNames ∧ n ∉ s.imported η :=
  of_mem_freshNames h

@[simp] theorem length_formalNames (s : Signature) : s.formalNames.length = s.formals.length := by
  simp [formalNames]

@[simp] theorem formalNames_rename (names : List String) (h : names.length = s.formalNames.length) :
    (s.rename names).formalNames = names :=
  formalNames_renameWith names (by simpa using h)

/-! ## Canonical names -/

theorem toList_canonicalName (i : Nat) :
    (canonicalName i).toList = 'α' :: Nat.toDigits 10 i := by
  simp [canonicalName, String.toList_append, Nat.toString_eq_repr, Nat.repr]

theorem stem_canonicalName (i : Nat) : stem (canonicalName i) = canonicalName i := by
  have hkeep : ∀ c ∈ (canonicalName i).toList, c ≠ '\'' := by
    rw [toList_canonicalName, List.forall_mem_cons]
    refine ⟨by decide, fun c hc h => ?_⟩
    have hd := Nat.isDigit_of_mem_toDigits (by decide) (by decide) hc
    rw [h] at hd
    exact absurd hd (by decide)
  rw [stem, List.filter_eq_self.2 (by simpa using hkeep), String.ofList_toList]

end Signature

end FeatherGo
