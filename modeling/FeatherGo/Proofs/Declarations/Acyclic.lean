import FeatherGo.Typing.Acyclic
import Mathlib.Data.List.Perm.Subperm

/-!
# What acyclicity gives

The search of `Table.checkAcyclic` finishes a name only after the names that it unfolds to, so the
finished names form a list in which every name comes before those it unfolds to. The position in that
list ranks the declared names: unfolding lowers the rank, and no rank exceeds the number of
declarations.
-/

namespace FeatherGo.Table

variable {T : Table}

/-- Finished names: each is declared, stands once, and stands before the declared names that it
unfolds to. -/
inductive Finished (T : Table) : List String → Prop
  | nil : Finished T []
  | cons {name : String} {td : TypeDecl} {done : List String} (declared : T.type? name = some td)
      (new : name ∉ done)
      (below : ∀ c ∈ td.source.unfoldsTo, (T.type? c).isSome → c ∈ done)
      (rest : Finished T done) : Finished T (name :: done)

/-- What a part of the search adds to the finished names. -/
structure Extends (T : Table) (path done done' : List String) : Prop where
  finished : Finished T done'
  keeps : ∀ c ∈ done, c ∈ done'
  apart : ∀ c ∈ done', c ∈ done ∨ c ∉ path

/-- A search from several names finishes all of them that are declared. -/
theorem extends_foldlM {path : List String} {visit : List String → String →
      Except TypeError (List String)}
    (hv : ∀ done done' c, visit done c = .ok done' → Finished T done →
      Extends T path done done' ∧ ((T.type? c).isSome → c ∈ done'))
    {names : List String} {done done' : List String} (h : names.foldlM visit done = .ok done')
    (hd : Finished T done) :
    Extends T path done done' ∧ ∀ c ∈ names, (T.type? c).isSome → c ∈ done' := by
  induction names generalizing done with
  | nil =>
    obtain rfl : done = done' := by simpa [pure, Except.pure] using h
    exact ⟨⟨hd, fun c hc => hc, fun c hc => .inl hc⟩, by simp⟩
  | cons name names ih =>
    rw [List.foldlM_cons] at h
    cases hn : visit done name with
    | error e => simp [hn, bind, Except.bind] at h
    | ok mid =>
      rw [hn] at h
      obtain ⟨hmid, hname⟩ := hv done mid name hn hd
      obtain ⟨hend, hnames⟩ := ih h hmid.finished
      refine ⟨⟨hend.finished, fun c hc => hend.keeps c (hmid.keeps c hc), fun c hc => ?_⟩, ?_⟩
      · rcases hend.apart c hc with hc | hc
        · exact hmid.apart c hc
        · exact .inr hc
      · rw [List.forall_mem_cons]
        exact ⟨fun hs => hend.keeps _ (hname hs), hnames⟩

/-- A search from one name finishes it, and nothing on the path to it. -/
theorem extends_unfoldFrom {levels : Nat} {path done done' : List String} {name : String}
    (h : T.unfoldFrom levels path done name = .ok done') (hd : Finished T done) :
    Extends T path done done' ∧ ((T.type? name).isSome → name ∈ done') := by
  induction levels generalizing path done done' name with
  | zero => simp [unfoldFrom] at h
  | succ levels ih =>
    have same (hin : (T.type? name).isSome → name ∈ done) :
        Extends T path done done ∧ ((T.type? name).isSome → name ∈ done) :=
      ⟨⟨hd, fun c hc => hc, fun c hc => .inl hc⟩, hin⟩
    rw [unfoldFrom] at h
    split at h
    · rename_i hmem
      obtain rfl : done = done' := by simpa using h
      exact same fun _ => hmem
    · rename_i hnew
      split at h
      · simp at h
      · rename_i hpath
        cases htd : T.type? name with
        | none =>
          simp only [htd] at h
          obtain rfl : done = done' := by simpa using h
          exact ⟨⟨hd, fun c hc => hc, fun c hc => .inl hc⟩, by simp⟩
        | some td =>
          simp only [htd] at h
          cases hf : td.source.unfoldsTo.foldlM (T.unfoldFrom levels (name :: path)) done with
          | error e => simp [hf, bind, Except.bind] at h
          | ok mid =>
            obtain rfl : name :: mid = done' := by
              simpa [hf, bind, Except.bind, pure, Except.pure] using h
            obtain ⟨hmid, hbelow⟩ :=
              extends_foldlM (fun done done' c hc hfin => ih hc hfin) hf hd
            have hnot : name ∉ mid := fun hm =>
              (hmid.apart name hm).elim hnew fun hn => hn List.mem_cons_self
            refine ⟨⟨.cons htd hnot hbelow hmid.finished,
              fun c hc => List.mem_cons_of_mem _ (hmid.keeps c hc), fun c hc => ?_⟩,
              fun _ => List.mem_cons_self⟩
            rcases List.mem_cons.1 hc with rfl | hc
            · exact .inr hpath
            · exact (hmid.apart c hc).imp_right fun hn hp => hn (List.mem_cons_of_mem _ hp)

namespace Finished

variable {done : List String}

theorem nodup (h : Finished T done) : done.Nodup := by
  induction h with
  | nil => exact List.nodup_nil
  | cons _ new _ _ ih => exact List.nodup_cons.2 ⟨new, ih⟩

theorem declared (h : Finished T done) {c : String} (hc : c ∈ done) :
    c ∈ T.typeDecls.map (·.name) := by
  induction h with
  | nil => exact absurd hc List.not_mem_nil
  | @cons name td done hd _ _ _ ih =>
    rcases List.mem_cons.1 hc with rfl | hc
    · have hmem := List.mem_of_find?_eq_some hd
      have hname : td.name = c := by simpa using List.find?_some hd
      exact List.mem_map.2 ⟨td, hmem, hname⟩
    · exact ih hc

theorem length_le (h : Finished T done) : done.length ≤ T.typeDecls.length := by
  have hsub := (List.subperm_of_subset h.nodup fun c hc => h.declared hc).length_le
  simpa using hsub

end Finished

/-- The number of names that stand after a name. -/
def rankIn : List String → String → Nat
  | [], _ => 0
  | d :: ds, c => if c = d then ds.length else rankIn ds c

theorem rankIn_lt {done : List String} {c : String} (hc : c ∈ done) :
    rankIn done c < done.length := by
  induction done with
  | nil => exact absurd hc List.not_mem_nil
  | cons d ds ih =>
    rw [rankIn]
    split
    · simp
    · rename_i hne
      have := ih ((List.mem_cons.1 hc).resolve_left hne)
      simp only [List.length_cons]
      omega

theorem rankIn_le (done : List String) (c : String) : rankIn done c ≤ done.length := by
  induction done with
  | nil => simp [rankIn]
  | cons d ds ih =>
    rw [rankIn, List.length_cons]
    split <;> omega

/-- Unfolding goes to names that are finished earlier. -/
theorem Finished.rankIn_lt_rankIn {done : List String} (h : Finished T done) {c c' : String}
    {td : TypeDecl} (hc : c ∈ done) (htd : T.type? c = some td) (hu : c' ∈ td.source.unfoldsTo)
    (hc' : (T.type? c').isSome) : c' ∈ done ∧ rankIn done c' < rankIn done c := by
  induction h with
  | nil => exact absurd hc List.not_mem_nil
  | @cons name td' done hd new below _ ih =>
    have hne {x : String} (hx : x ∈ done) : x ≠ name := fun he => new (he ▸ hx)
    by_cases hname : c = name
    · subst hname
      obtain rfl : td' = td := by simpa [hd] using htd
      have hmem := below c' hu hc'
      rw [rankIn, rankIn, if_neg (hne hmem), if_pos rfl]
      exact ⟨List.mem_cons_of_mem _ hmem, rankIn_lt hmem⟩
    · obtain ⟨hmem, hlt⟩ := ih ((List.mem_cons.1 hc).resolve_left hname)
      rw [rankIn, rankIn, if_neg hname, if_neg (hne hmem)]
      exact ⟨List.mem_cons_of_mem _ hmem, hlt⟩

/-- A rank of declared names that unfolding lowers. -/
structure Ranking (T : Table) (rank : String → Nat) : Prop where
  le : ∀ c, rank c ≤ T.typeDecls.length
  lt : ∀ c td c', T.type? c = some td → c' ∈ td.source.unfoldsTo → (T.type? c').isSome →
    rank c' < rank c

/-- Acyclic declarations have a ranking. -/
theorem exists_ranking (h : T.checkAcyclic = .ok ()) : ∃ rank, Ranking T rank := by
  rw [checkAcyclic] at h
  cases hf : (T.typeDecls.map (·.name)).foldlM (T.unfoldFrom (T.typeDecls.length + 1) []) [] with
  | error e => simp [hf, bind, Except.bind] at h
  | ok done =>
    obtain ⟨hext, hall⟩ :=
      extends_foldlM (fun _ _ _ hc hfin => extends_unfoldFrom hc hfin) hf .nil
    refine ⟨rankIn done, fun c => Nat.le_trans (rankIn_le done c) hext.finished.length_le, ?_⟩
    intro c td c' htd hu hc'
    have hmem : c ∈ T.typeDecls.map (·.name) := by
      have hname : td.name = c := by simpa using List.find?_some htd
      exact List.mem_map.2 ⟨td, List.mem_of_find?_eq_some htd, hname⟩
    exact (hext.finished.rankIn_lt_rankIn (hall c hmem (by simp [htd])) htd hu hc').2

end FeatherGo.Table
