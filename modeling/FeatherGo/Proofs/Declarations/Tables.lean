import FeatherGo.Proofs.Answer
import FeatherGo.Table
import Mathlib.Data.List.Forall2

/-!
# Tables of declarations

A table holds the declarations it is made of, types and methods apart, each method under a name of
its own (`Table.ofDecls_eq_ok`). Whether there is a table depends on the names and the receivers of
the declarations alone, so declarations that agree but for the bodies of methods have tables that do
(`Table.exists_ofDecls`).
-/

namespace FeatherGo

/-- The type declaration that a declaration is, if it is one. -/
def Decl.typeDecl? : Decl → Option TypeDecl
  | .type td => some td
  | .method _ => none

/-- The method that a declaration is, if it is one. -/
def Decl.methodDecl? : Decl → Option MethodDecl
  | .type _ => none
  | .method md => some md

/-- A method without its body. -/
def MethodDecl.header (md : MethodDecl) : String × String × List Slot × Signature :=
  (md.recv, md.recvType, md.recvFormals, md.sig)

/-- The names under which a method is found. -/
def MethodDecl.key (md : MethodDecl) : String × String := (md.recvType, md.sig.name)

/-- Declarations that agree but for the body of a method. -/
inductive Decl.SameHeader : Decl → Decl → Prop
  | type (td : TypeDecl) : SameHeader (.type td) (.type td)
  | method {md md' : MethodDecl} (header : md.header = md'.header) :
      SameHeader (.method md) (.method md')

namespace Table

/-- Two tables declare the same types, and the same methods but for their bodies. -/
structure SameHeaders (T T' : Table) : Prop where
  types : T.typeDecls = T'.typeDecls
  methods : T.methodDecls.map MethodDecl.header = T'.methodDecls.map MethodDecl.header

/-- Every method is found under its names. -/
def MethodsUnique (T : Table) : Prop :=
  ∀ md ∈ T.methodDecls, T.method? md.recvType md.sig.name = some md

/-- Adding a method keeps every method to be found. -/
theorem MethodsUnique.add {T : Table} (h : T.MethodsUnique) {md : MethodDecl}
    (hnew : ¬(T.method? md.recvType md.sig.name).isSome) :
    MethodsUnique { T with methodDecls := T.methodDecls ++ [md] } := by
  intro md' hmd'
  rw [method?, List.find?_append]
  rcases List.mem_append.1 hmd' with hmd' | hmd'
  · have hfound := h md' hmd'
    rw [method?] at hfound
    rw [hfound, Option.some_or]
  · obtain rfl := List.mem_singleton.1 hmd'
    rw [Option.not_isSome_iff_eq_none, method?] at hnew
    rw [hnew, Option.none_or]
    simp

/-- What a table is made of. -/
theorem foldlM_add_eq_ok {decls : List Decl} {acc T : Table} (hacc : acc.MethodsUnique)
    (h : decls.foldlM add acc = .ok T) :
    T.typeDecls = acc.typeDecls ++ decls.filterMap Decl.typeDecl?
      ∧ T.methodDecls = acc.methodDecls ++ decls.filterMap Decl.methodDecl?
      ∧ T.MethodsUnique := by
  induction decls generalizing acc with
  | nil =>
    obtain rfl := Except.ok.inj h
    exact ⟨(List.append_nil _).symm, (List.append_nil _).symm, hacc⟩
  | cons d decls ih =>
    rw [List.foldlM_cons, except_bind_eq_ok] at h
    obtain ⟨acc', hacc', h⟩ := h
    cases d with
    | type td =>
      rw [add] at hacc'
      split at hacc'
      · cases hacc'
      · obtain rfl := Except.ok.inj hacc'
        have hacc' : MethodsUnique { acc with typeDecls := acc.typeDecls ++ [td] } := hacc
        obtain ⟨htypes, hmethods, hunique⟩ := ih hacc' h
        refine ⟨?_, hmethods, hunique⟩
        rw [htypes, List.append_assoc]
        rfl
    | method md =>
      rw [add] at hacc'
      split at hacc'
      · cases hacc'
      · rename_i hnew
        obtain rfl := Except.ok.inj hacc'
        obtain ⟨htypes, hmethods, hunique⟩ := ih (hacc.add hnew) h
        refine ⟨htypes, ?_, hunique⟩
        rw [hmethods, List.append_assoc]
        rfl

/-- The table of declarations holds them, and each method is found under its names. -/
theorem ofDecls_eq_ok {decls : List Decl} {T : Table} (h : ofDecls decls = .ok T) :
    T.typeDecls = decls.filterMap Decl.typeDecl? ∧ T.methodDecls = decls.filterMap Decl.methodDecl?
      ∧ T.MethodsUnique :=
  foldlM_add_eq_ok (fun _ hmd => absurd hmd List.not_mem_nil) h

theorem mem_of_type? {T : Table} {c : String} {td : TypeDecl} (h : T.type? c = some td) :
    td ∈ T.typeDecls ∧ td.name = c := by
  rw [type?] at h
  exact ⟨List.mem_of_find?_eq_some h, by simpa using List.find?_some h⟩

theorem mem_decls_of_type? {decls : List Decl} {T : Table} (h : ofDecls decls = .ok T) {c : String}
    {td : TypeDecl} (htd : T.type? c = some td) : Decl.type td ∈ decls := by
  have hmem := (mem_of_type? htd).1
  rw [(ofDecls_eq_ok h).1, List.mem_filterMap] at hmem
  obtain ⟨d, hd, hsome⟩ := hmem
  cases d with
  | type td' =>
    obtain rfl := Option.some.inj hsome
    exact hd
  | method md => cases hsome

theorem mem_decls_of_method {decls : List Decl} {T : Table} (h : ofDecls decls = .ok T)
    {md : MethodDecl} (hmd : md ∈ T.methodDecls) : Decl.method md ∈ decls := by
  rw [(ofDecls_eq_ok h).2.1, List.mem_filterMap] at hmd
  obtain ⟨d, hd, hsome⟩ := hmd
  cases d with
  | type td => cases hsome
  | method md' =>
    obtain rfl := Option.some.inj hsome
    exact hd

/-! ## Names of their own -/

theorem type?_of_mem {T : Table} (hn : (T.typeDecls.map (·.name)).Nodup) {td : TypeDecl}
    (htd : td ∈ T.typeDecls) : T.type? td.name = some td := by
  rw [type?]
  generalize T.typeDecls = tds at hn htd
  induction tds with
  | nil => cases htd
  | cons x tds ih =>
    rw [List.map_cons, List.nodup_cons] at hn
    rcases List.mem_cons.1 htd with rfl | htd
    · simp
    · have hne : x.name ≠ td.name := fun he => hn.1 (he ▸ List.mem_map_of_mem htd)
      rw [List.find?_cons_of_neg (by simpa using hne)]
      exact ih hn.2 htd

/-- What is declared has names of its own. -/
structure NamesNodup (T : Table) : Prop where
  types : (T.typeDecls.map (·.name)).Nodup
  methods : (T.methodDecls.map MethodDecl.key).Nodup

theorem NamesNodup.add {T T' : Table} {d : Decl} (h : T.NamesNodup) (hadd : T.add d = .ok T') :
    T'.NamesNodup := by
  cases d with
  | type td =>
    rw [Table.add] at hadd
    split at hadd
    · cases hadd
    · rename_i hnew
      obtain rfl := Except.ok.inj hadd
      refine ⟨?_, h.methods⟩
      rw [List.map_append, List.nodup_append]
      refine ⟨h.types, by simp, ?_⟩
      rintro a ha b hb rfl
      obtain ⟨td', htd', he⟩ := List.mem_map.1 ha
      refine hnew (List.find?_isSome.2 ⟨td', htd', ?_⟩)
      simpa [he] using hb
  | method md =>
    rw [Table.add] at hadd
    split at hadd
    · cases hadd
    · rename_i hnew
      obtain rfl := Except.ok.inj hadd
      refine ⟨h.types, ?_⟩
      rw [List.map_append, List.nodup_append]
      refine ⟨h.methods, by simp, ?_⟩
      rintro a ha b hb rfl
      obtain ⟨md', hmd', he⟩ := List.mem_map.1 ha
      refine hnew (List.find?_isSome.2 ⟨md', hmd', ?_⟩)
      have hkey : md'.key = md.key := he.trans (List.mem_singleton.1 hb)
      simpa [MethodDecl.key] using hkey

theorem namesNodup_of_foldlM_add {decls : List Decl} {acc T : Table} (hacc : acc.NamesNodup)
    (h : decls.foldlM add acc = .ok T) : T.NamesNodup := by
  induction decls generalizing acc with
  | nil => exact Except.ok.inj h ▸ hacc
  | cons d decls ih =>
    rw [List.foldlM_cons, except_bind_eq_ok] at h
    obtain ⟨acc', hacc', h⟩ := h
    exact ih (hacc.add hacc') h

theorem namesNodup_of_ofDecls {decls : List Decl} {T : Table} (h : ofDecls decls = .ok T) :
    T.NamesNodup := by
  have hempty : empty.NamesNodup := ⟨.nil, .nil⟩
  exact namesNodup_of_foldlM_add hempty h

/-- Declarations under names of their own have a table. -/
theorem foldlM_add_of_nodup {decls : List Decl} {acc : Table}
    (htypes : ((acc.typeDecls ++ decls.filterMap Decl.typeDecl?).map (·.name)).Nodup)
    (hmethods : ((acc.methodDecls ++ decls.filterMap Decl.methodDecl?).map MethodDecl.key).Nodup) :
    decls.foldlM add acc = .ok ⟨acc.typeDecls ++ decls.filterMap Decl.typeDecl?,
      acc.methodDecls ++ decls.filterMap Decl.methodDecl?⟩ := by
  induction decls generalizing acc with
  | nil => simp [pure, Except.pure]
  | cons d decls ih =>
    cases d with
    | type td =>
      have htd : (Decl.type td :: decls).filterMap Decl.typeDecl?
          = td :: decls.filterMap Decl.typeDecl? := rfl
      have hmd : (Decl.type td :: decls).filterMap Decl.methodDecl?
          = decls.filterMap Decl.methodDecl? := rfl
      rw [htd, List.append_cons] at htypes ⊢
      rw [hmd] at hmethods ⊢
      have hnew : ¬(acc.type? td.name).isSome := by
        rw [type?, List.find?_isSome]
        rintro ⟨td', htd', he⟩
        rw [List.append_assoc, List.map_append, List.nodup_append] at htypes
        exact htypes.2.2 _ (List.mem_map_of_mem htd') _ List.mem_cons_self (by simpa using he)
      rw [List.foldlM_cons, add, if_neg hnew]
      exact @ih { acc with typeDecls := acc.typeDecls ++ [td] } htypes hmethods
    | method md =>
      have htd : (Decl.method md :: decls).filterMap Decl.typeDecl?
          = decls.filterMap Decl.typeDecl? := rfl
      have hmd : (Decl.method md :: decls).filterMap Decl.methodDecl?
          = md :: decls.filterMap Decl.methodDecl? := rfl
      rw [htd] at htypes ⊢
      rw [hmd, List.append_cons] at hmethods ⊢
      have hnew : ¬(acc.method? md.recvType md.sig.name).isSome := by
        rw [method?, List.find?_isSome]
        rintro ⟨md', hmd', he⟩
        rw [List.append_assoc, List.map_append, List.nodup_append] at hmethods
        refine hmethods.2.2 _ (List.mem_map_of_mem hmd') md.key List.mem_cons_self ?_
        simpa [MethodDecl.key] using he
      rw [List.foldlM_cons, add, if_neg hnew]
      exact @ih { acc with methodDecls := acc.methodDecls ++ [md] } htypes hmethods

theorem ofDecls_of_nodup {decls : List Decl}
    (htypes : ((decls.filterMap Decl.typeDecl?).map (·.name)).Nodup)
    (hmethods : ((decls.filterMap Decl.methodDecl?).map MethodDecl.key).Nodup) :
    ofDecls decls = .ok ⟨decls.filterMap Decl.typeDecl?, decls.filterMap Decl.methodDecl?⟩ :=
  @foldlM_add_of_nodup decls empty htypes hmethods

/-! ## Tables of the same headers -/

namespace SameHeaders

variable {T T' : Table}

theorem symm (h : SameHeaders T T') : SameHeaders T' T := ⟨h.types.symm, h.methods.symm⟩

theorem type?_eq (h : SameHeaders T T') (c : String) : T.type? c = T'.type? c := by
  rw [type?, type?, h.types]

theorem method?_isSome (h : SameHeaders T T') (c m : String) :
    (T.method? c m).isSome = (T'.method? c m).isSome := by
  have hany : ∀ mds : List MethodDecl,
      (mds.find? fun md => md.recvType = c ∧ md.sig.name = m).isSome
        = (mds.map MethodDecl.header).any fun hd => hd.2.1 = c ∧ hd.2.2.2.name = m := by
    intro mds
    rw [List.any_map, Bool.eq_iff_iff, List.find?_isSome, List.any_eq_true]
    rfl
  rw [method?, method?, hany, hany, h.methods]

end SameHeaders

/-- Declarations that agree but for bodies are added alike. -/
theorem exists_foldlM_add {decls decls' : List Decl} {acc acc' T : Table}
    (hdecls : List.Forall₂ Decl.SameHeader decls decls') (hacc : SameHeaders acc acc')
    (h : decls.foldlM add acc = .ok T) :
    ∃ T', decls'.foldlM add acc' = .ok T' ∧ SameHeaders T T' := by
  induction hdecls generalizing acc acc' with
  | nil =>
    obtain rfl := Except.ok.inj h
    exact ⟨acc', rfl, hacc⟩
  | cons hd _ ih =>
    rw [List.foldlM_cons, except_bind_eq_ok] at h
    obtain ⟨next, hnext, h⟩ := h
    cases hd with
    | type td =>
      rw [add] at hnext
      split at hnext
      · cases hnext
      · rename_i hnew
        obtain rfl := Except.ok.inj hnext
        have hsame : SameHeaders { acc with typeDecls := acc.typeDecls ++ [td] }
            { acc' with typeDecls := acc'.typeDecls ++ [td] } := ⟨by rw [hacc.types], hacc.methods⟩
        obtain ⟨T', hT', hT⟩ := ih hsame h
        refine ⟨T', ?_, hT⟩
        rw [hacc.type?_eq] at hnew
        rw [List.foldlM_cons, add, if_neg hnew]
        exact hT'
    | @method md md' header =>
      rw [add] at hnext
      split at hnext
      · cases hnext
      · rename_i hnew
        obtain rfl := Except.ok.inj hnext
        have hsame : SameHeaders { acc with methodDecls := acc.methodDecls ++ [md] }
            { acc' with methodDecls := acc'.methodDecls ++ [md'] } :=
          ⟨hacc.types, by simp [hacc.methods, header]⟩
        obtain ⟨T', hT', hT⟩ := ih hsame h
        refine ⟨T', ?_, hT⟩
        rw [hacc.method?_isSome] at hnew
        simp only [MethodDecl.header, Prod.mk.injEq] at header
        rw [List.foldlM_cons, add, ← header.2.1, ← header.2.2.2, if_neg hnew]
        exact hT'

/-- Declarations that agree but for bodies have tables that do. -/
theorem exists_ofDecls {decls decls' : List Decl} {T : Table}
    (hdecls : List.Forall₂ Decl.SameHeader decls decls') (h : ofDecls decls = .ok T) :
    ∃ T', ofDecls decls' = .ok T' ∧ SameHeaders T T' :=
  exists_foldlM_add hdecls ⟨rfl, rfl⟩ h

end Table

end FeatherGo
