import FeatherGo.Proofs.Declarations.Acyclic
import FeatherGo.Proofs.Declarations.Tables
import FeatherGo.Proofs.Methods.Limit
import FeatherGo.Proofs.Methods.Sets
import FeatherGo.Proofs.Typing.Uniform

/-!
# The order of declarations

Declarations in another order make a table that looks up the same types and methods, because each is
found under a name of its own (`Table.Reorders`). The order shows in two places: in the search for
cycles, which starts from the declared names one after the other, and in the gathering of methods,
which goes through those of a receiver type in order. A search succeeds from every order, as declared
names have a rank that unfolding lowers; and gathered methods have different names, so that they
make up the same set.
-/

namespace FeatherGo

namespace MethodSet

/-- Signatures of different names may be added in either order. -/
theorem add_comm {s t : Signature} (h : s.name ≠ t.name) (S : MethodSet) :
    add s (add t S) = add t (add s S) := by
  induction S with
  | nil => simp only [add]; grind [String.lt_trans]
  | cons x S ih =>
    simp only [add]
    grind [add]

end MethodSet

/-- A list is folded if every step from every state is possible. -/
theorem exists_foldlM {ε α β : Type} {f : β → α → Except ε β} {l : List α}
    (h : ∀ b, ∀ a ∈ l, ∃ b', f b a = .ok b') (b : β) : ∃ b', l.foldlM f b = .ok b' := by
  induction l generalizing b with
  | nil => exact ⟨b, rfl⟩
  | cons a l ih =>
    obtain ⟨mid, hmid⟩ := h b a List.mem_cons_self
    obtain ⟨b', hb'⟩ := ih (fun b a ha => h b a (List.mem_cons_of_mem _ ha)) mid
    exact ⟨b', by rw [List.foldlM_cons]; exact except_bind_eq_ok.2 ⟨mid, hmid, hb'⟩⟩

namespace Table

theorem NamesNodup.methodsUnique {T : Table} (h : T.NamesNodup) : T.MethodsUnique := by
  intro md hmd
  rw [method?]
  have hn := h.methods
  generalize T.methodDecls = mds at hn hmd
  induction mds with
  | nil => cases hmd
  | cons x mds ih =>
    rw [List.map_cons, List.nodup_cons] at hn
    rcases List.mem_cons.1 hmd with rfl | hmd
    · simp
    · have hne : x.key ≠ md.key := fun he => hn.1 (he ▸ List.mem_map_of_mem hmd)
      rw [List.find?_cons_of_neg (by simpa [MethodDecl.key] using hne)]
      exact ih hn.2 hmd

/-- Two tables of the same declarations, each found under a name of its own. -/
structure Reorders (T T' : Table) : Prop where
  types : T.typeDecls.Perm T'.typeDecls
  methods : T.methodDecls.Perm T'.methodDecls
  names : T.NamesNodup

namespace Reorders

variable {T T' : Table}

theorem symm (h : T.Reorders T') : T'.Reorders T where
  types := h.types.symm
  methods := h.methods.symm
  names := ⟨(h.types.map _).nodup_iff.1 h.names.types, (h.methods.map _).nodup_iff.1 h.names.methods⟩

theorem type?_of (h : T.Reorders T') {c : String} {td : TypeDecl} (htd : T.type? c = some td) :
    T'.type? c = some td := by
  obtain ⟨hmem, rfl⟩ := mem_of_type? htd
  exact type?_of_mem h.symm.names.types (h.types.mem_iff.1 hmem)

theorem method?_of (h : T.Reorders T') {c m : String} {md : MethodDecl}
    (hmd : T.method? c m = some md) : T'.method? c m = some md := by
  have hmem := h.methods.mem_iff.1 (List.mem_of_find?_eq_some hmd)
  obtain ⟨rfl, rfl⟩ : md.recvType = c ∧ md.sig.name = m := by simpa using List.find?_some hmd
  exact h.symm.names.methodsUnique md hmem

theorem method?_eq (h : T.Reorders T') (c m : String) : T.method? c m = T'.method? c m :=
  Option.ext fun _ => ⟨h.method?_of, h.symm.method?_of⟩

/-- The same types are looked up. -/
theorem like (h : T.Reorders T') : T.Like T' where
  type? _ := Option.ext fun _ => ⟨h.type?_of, h.symm.type?_of⟩
  length := h.types.length_eq

theorem methodsOn (h : T.Reorders T') (c : String) : (T.methodsOn c).Perm (T'.methodsOn c) :=
  h.methods.filter _

end Reorders

/-- The methods declared on a receiver type have different names. -/
theorem NamesNodup.methodsOn {T : Table} (h : T.NamesNodup) (c : String) :
    ((T.methodsOn c).map (·.sig.name)).Nodup := by
  have hkeys : ((T.methodsOn c).map MethodDecl.key).Nodup :=
    h.methods.sublist (List.filter_sublist.map _)
  have hsnd : (T.methodsOn c).map MethodDecl.key = ((T.methodsOn c).map (·.sig.name)).map (c, ·) := by
    rw [List.map_map]
    refine List.map_congr_left fun md hmd => ?_
    have hc : md.recvType = c := by simpa using List.of_mem_filter hmd
    rw [MethodDecl.key, hc]
    rfl
  rw [hsnd] at hkeys
  exact hkeys.of_map _

/-- Permuted declarations have tables that reorder each other. -/
theorem exists_ofDecls_of_perm {decls decls' : List Decl} (h : decls.Perm decls') {T : Table}
    (hT : ofDecls decls = .ok T) : ∃ T', ofDecls decls' = .ok T' ∧ T.Reorders T' := by
  obtain ⟨htypes, hmethods, -⟩ := ofDecls_eq_ok hT
  have hn := namesNodup_of_ofDecls hT
  have ht := h.filterMap Decl.typeDecl?
  have hm := h.filterMap Decl.methodDecl?
  refine ⟨_, ofDecls_of_nodup ?_ ?_, htypes ▸ ht, hmethods ▸ hm, hn⟩
  · exact (ht.map _).nodup_iff.1 (htypes ▸ hn.types)
  · exact (hm.map _).nodup_iff.1 (hmethods ▸ hn.methods)

/-! ## The search for cycles -/

/-- Where unfolding lowers a rank, the search from a name succeeds: no name on the path comes up
again, and the path is not longer than there are declarations. -/
theorem unfoldFrom_of_ranking {T : Table} {rank : String → Nat} (hr : T.Ranking rank) :
    ∀ (levels : Nat) (path done : List String) (name : String), path.Nodup →
      (∀ c ∈ path, (T.type? c).isSome) →
      (∀ c ∈ path, (T.type? name).isSome → rank name < rank c) →
      levels + path.length = T.typeDecls.length + 1 →
      ∃ done', T.unfoldFrom levels path done name = .ok done' := by
  intro levels
  induction levels with
  | zero =>
    intro path done name hnodup hdecl _ hlen
    have hsub : path ⊆ T.typeDecls.map (·.name) := by
      intro c hc
      obtain ⟨td, htd⟩ := Option.isSome_iff_exists.1 (hdecl c hc)
      obtain ⟨hmem, rfl⟩ := mem_of_type? htd
      exact List.mem_map_of_mem hmem
    have hle := (List.subperm_of_subset hnodup hsub).length_le
    rw [List.length_map] at hle
    omega
  | succ levels ih =>
    intro path done name hnodup hdecl hrank hlen
    rw [unfoldFrom]
    split
    · exact ⟨_, rfl⟩
    · have hpath (hs : (T.type? name).isSome) : name ∉ path := fun hmem =>
        Nat.lt_irrefl _ (hrank name hmem hs)
      rw [if_neg fun hmem => hpath (hdecl name hmem) hmem]
      cases htd : T.type? name with
      | none => exact ⟨_, rfl⟩
      | some td =>
        have hs : (T.type? name).isSome := by rw [htd]; rfl
        have hvisit (done : List String) {c : String} (hc : c ∈ td.source.unfoldsTo) :
            ∃ done', T.unfoldFrom levels (name :: path) done c = .ok done' := by
          refine ih _ _ _ (List.nodup_cons.2 ⟨hpath hs, hnodup⟩)
            (List.forall_mem_cons.2 ⟨hs, hdecl⟩) (fun d hd hsc => ?_) (by simp only [List.length_cons]; omega)
          have hlt := hr.lt name td c htd hc hsc
          rcases List.mem_cons.1 hd with rfl | hd
          · exact hlt
          · exact Nat.lt_trans hlt (hrank d hd hs)
        obtain ⟨done', hdone⟩ :=
          exists_foldlM (l := td.source.unfoldsTo) (fun done c hc => hvisit done hc) done
        exact ⟨_, except_bind_eq_ok.2 ⟨done', hdone, rfl⟩⟩

/-- **Declarations are acyclic exactly where unfolding lowers a rank.** -/
theorem checkAcyclic_eq_ok {T : Table} : T.checkAcyclic = .ok () ↔ ∃ rank, Ranking T rank := by
  refine ⟨exists_ranking, fun ⟨rank, hr⟩ => ?_⟩
  obtain ⟨done, hdone⟩ := exists_foldlM (fun done c _ =>
    unfoldFrom_of_ranking hr (T.typeDecls.length + 1) [] done c .nil nofun nofun rfl) []
  exact except_bind_eq_ok.2 ⟨done, hdone, rfl⟩

theorem Like.ranking {T T' : Table} (h : T.Like T') {rank : String → Nat} (hr : Ranking T rank) :
    Ranking T' rank where
  le c := h.length ▸ hr.le c
  lt c td c' htd hc' hs := hr.lt c td c' ((h.type? c).trans htd) hc' (by rwa [h.type?])

/-! ## Gathering methods -/

/-- Declared methods of different names are gathered from every order alike. -/
theorem declaredMethods_of_perm {T : Table} {f : Finder} {args : List Ty} {mds mds' : List MethodDecl}
    (h : mds.Perm mds') (hn : (mds.map (·.sig.name)).Nodup) {acc S : MethodSet}
    (hS : T.declaredMethods f args mds acc = .ok S) : T.declaredMethods f args mds' acc = .ok S := by
  induction h generalizing acc with
  | nil => exact hS
  | cons md _ ih =>
    rw [List.map_cons, List.nodup_cons] at hn
    obtain ⟨r, hr, hS⟩ := Answer.bind_eq_ok.1 hS
    refine Answer.bind_eq_ok.2 ⟨r, hr, ?_⟩
    cases r with
    | some η => exact ih hn.2 hS
    | none => exact ih hn.2 hS
  | trans h₁ _ ih₁ ih₂ => exact ih₂ ((h₁.map _).nodup_iff.1 hn) (ih₁ hn hS)
  | swap md md' mds =>
    have hne : md'.sig.name ≠ md.sig.name := by
      simp only [List.map_cons, List.nodup_cons, List.mem_cons, not_or] at hn
      exact hn.1.1
    obtain ⟨r', hr', hS⟩ := Answer.bind_eq_ok.1 hS
    cases r' with
    | none =>
      obtain ⟨r, hr, hS⟩ := Answer.bind_eq_ok.1 hS
      refine Answer.bind_eq_ok.2 ⟨r, hr, ?_⟩
      cases r with
      | none => exact Answer.bind_eq_ok.2 ⟨none, hr', hS⟩
      | some η => exact Answer.bind_eq_ok.2 ⟨none, hr', hS⟩
    | some η' =>
      obtain ⟨r, hr, hS⟩ := Answer.bind_eq_ok.1 hS
      refine Answer.bind_eq_ok.2 ⟨r, hr, ?_⟩
      cases r with
      | none => exact Answer.bind_eq_ok.2 ⟨some η', hr', hS⟩
      | some η =>
        refine Answer.bind_eq_ok.2 ⟨some η', hr', ?_⟩
        have hcomm := MethodSet.add_comm (s := md'.sig.subst η') (t := md.sig.subst η)
          (by rwa [Signature.name_subst, Signature.name_subst]) acc
        exact (congrArg (T.declaredMethods f args mds) hcomm).trans hS

end Table

end FeatherGo
