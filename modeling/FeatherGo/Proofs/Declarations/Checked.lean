import FeatherGo.Proofs.Declarations.Plain
import FeatherGo.Proofs.Declarations.Tables

/-!
# Checked declarations

The checks of declarations that bind no name which substitution could make up show that their table
is lawful (`Checker.lawful_of_checkDecls`), those of plain ones that it is well formed
(`Checker.wellFormed_of_checkDecls`).
-/

namespace FeatherGo

/-! ## The names and types that a program writes -/

/-- The type formals that a declaration introduces for itself. -/
def Decl.formalNames : Decl → List String
  | .type td => FeatherGo.formalNames td.formals
  | .method md => FeatherGo.formalNames md.recvFormals ++ md.sig.formalNames

/-- The types in the header of a declaration. -/
def Decl.headerTypes : Decl → List Ty
  | .type td => td.formals.map (·.ty) ++ [td.source]
  | .method md => md.recvFormals.map (·.ty) ++ md.sig.types

/-- A declaration binds no name that substitution could make up. -/
structure Decl.Ordinary (d : Decl) : Prop where
  formals : ∀ a ∈ d.formalNames, Unprimed a ∧ Uncanonical a
  types : ∀ t ∈ d.headerTypes, t.Ordinary

/-- A declaration binds no name that substitution could make up, and its header is plain. -/
structure Decl.Plain (strict : Bool) (d : Decl) : Prop where
  formals : ∀ a ∈ d.formalNames, Unprimed a ∧ Uncanonical a
  types : ∀ t ∈ d.headerTypes, t.Plain strict

theorem Decl.Plain.ordinary {strict : Bool} {d : Decl} (h : d.Plain strict) : d.Ordinary :=
  ⟨h.formals, fun t ht => (h.types t ht).binders⟩

/-- A plain type declaration that is lawful is proper. -/
theorem TypeDecl.Lawful.proper {V : Vocabulary} {td : TypeDecl} (h : td.Lawful V)
    (hplain : (Decl.type td).Plain V.strict) : td.Proper V :=
  ⟨h.formals, h.source.written (hplain.types _ (by simp [Decl.headerTypes])), h.isSource⟩

/-- A plain method that is lawful is proper. -/
theorem MethodDecl.Lawful.proper {T : Table} {V : Vocabulary} {md : MethodDecl} (h : md.Lawful T V)
    (hplain : (Decl.method md).Plain V.strict) : md.Proper T V where
  recv := h.recv
  concrete := h.concrete
  formals := h.formals
  bounds f hf := (h.bounds f hf).written
    (hplain.types _ (List.mem_append_left _ (List.mem_map_of_mem hf)))
  sig := h.sig.written fun t ht => hplain.types t (List.mem_append_right _ ht)
  boundTypes := h.boundTypes
  unique := h.unique

/-! ## Headers that pass their checks -/

theorem FormalsProper.of_ordinary {fs : List Slot} (hnodup : (formalNames fs).Nodup)
    (h : ∀ a ∈ formalNames fs, Unprimed a ∧ Uncanonical a) : FormalsProper fs :=
  ⟨hnodup, fun a ha => (h a ha).1, fun a ha => (h a ha).2⟩

namespace Table

variable {T : Table} {n : Nat} {Δ : Bounds} {strict : Bool}

/-- What the check of type formals establishes. -/
theorem of_okFormals {decl : String} {fs : List Slot} {Δ' : Bounds}
    (h : T.okFormals n Δ decl fs = .ok Δ') :
    Δ' = Δ.extend fs ∧ (formalNames fs).Nodup ∧ (∀ a ∈ formalNames fs, a ∉ Δ.names)
      ∧ ∀ f ∈ fs, T.okType n Δ' f.ty = .ok () ∧ T.isBound f.ty = .ok true := by
  rw [okFormals] at h
  split at h
  · cases h
  · rename_i hclash
    obtain ⟨⟨⟩, hbounds, h⟩ := Answer.bind_eq_ok.1 h
    obtain rfl := Answer.ok.inj h
    obtain ⟨hnodup, hfresh⟩ := of_clashingFormal? hclash
    exact ⟨rfl, hnodup, fun a ha => (hfresh a ha).2, of_okBounds hbounds⟩

/-- What the check of a type declaration establishes. -/
theorem of_checkTypeDecl {td : TypeDecl} (h : T.checkTypeDecl n td = .ok ()) :
    td.source.isSource = true ∧ T.okFormals n [] td.name td.formals = .ok (Bounds.extend [] td.formals)
      ∧ T.okType n (Bounds.extend [] td.formals) td.source = .ok () := by
  obtain ⟨Δ', hΔ, h⟩ := Answer.bind_eq_ok.1 h
  obtain rfl := (of_okFormals hΔ).1
  by_cases hs : td.source.isSource = true
  · rw [if_pos hs] at h
    exact ⟨hs, hΔ, h⟩
  · rw [if_neg hs] at h
    cases h

/-- What the check of a method's receiver establishes. -/
theorem of_checkReceiver {md : MethodDecl} (h : T.checkReceiver n md = .ok ()) :
    (∃ td, T.type? md.recvType = some td ∧ td.formals.length = md.recvFormals.length)
      ∧ T.isInterface md.selfType = .ok false
      ∧ T.okFormals n [] md.sig.name md.recvFormals = .ok (Bounds.extend [] md.recvFormals) := by
  obtain ⟨td, htd, h⟩ := Answer.bind_eq_ok.1 h
  rw [Answer.liftExcept_eq, Answer.ofExcept_eq_ok, typeDecl_eq_ok] at htd
  by_cases hl : td.formals.length = md.recvFormals.length
  · rw [if_neg (by simpa using hl)] at h
    obtain ⟨b, hb, h⟩ := Answer.bind_eq_ok.1 h
    rw [Answer.liftExcept_eq, Answer.ofExcept_eq_ok] at hb
    cases b with
    | true => cases h
    | false =>
      obtain ⟨Δ', hΔ, -⟩ := Answer.bind_eq_ok.1 h
      obtain rfl := (of_okFormals hΔ).1
      exact ⟨⟨td, htd, hl⟩, hb, hΔ⟩
  · rw [if_pos (by simpa using hl)] at h
    cases h

/-- What the check of a method's header establishes of its signature. -/
theorem of_checkHeader {md : MethodDecl} (h : T.checkHeader n md = .ok ()) :
    T.okSignature n (Bounds.extend [] md.recvFormals) md.sig = .ok () := by
  obtain ⟨fields, -, h⟩ := Answer.bind_eq_ok.1 h
  dsimp only at h
  split at h
  · cases h
  · obtain ⟨⟨⟩, hsig, -⟩ := Answer.bind_eq_ok.1 h
    exact hsig

/-- What may bound a formal, by its definition chain. -/
theorem HasSources.boundType (h : T.HasSources) {t : Ty} (ht : T.isBound t = .ok true) :
    T.BoundType t := by
  cases t with
  | prim p => trivial
  | interface ms => trivial
  | named c args => exact (h.namesInterface_iff ht).1 rfl
  | _ => cases ht

/-- An ordinary type declaration that passes the check is lawful. -/
theorem lawful_of_checkTypeDecl (hsource : T.HasSources) {td : TypeDecl}
    (hordinary : (Decl.type td).Ordinary) (h : T.checkTypeDecl n td = .ok ()) :
    td.Lawful (T.vocabulary strict) := by
  obtain ⟨hs, hformals, hok⟩ := of_checkTypeDecl h
  obtain ⟨-, hnodup, -, -⟩ := of_okFormals hformals
  have hnames : (Bounds.extend [] td.formals).names = formalNames td.formals := names_extend [] _
  refine ⟨.of_ordinary hnodup hordinary.formals, ?_, hs⟩
  rw [← hnames]
  refine spelled_of_okType hsource ?_ (hordinary.types _ (by simp [Decl.headerTypes])) hok
  rw [hnames]
  exact fun a ha => (hordinary.formals a ha).1

/-- A method with a receiver that passes its check is declared on no interface. -/
theorem not_namesInterface_of_checkReceiver (hsource : T.HasSources) {md : MethodDecl}
    (h : T.checkReceiver n md = .ok ()) : ¬T.NamesInterface md.recvType := by
  obtain ⟨-, hi, -⟩ := of_checkReceiver h
  exact fun hn => Bool.false_ne_true ((hsource.namesInterface_iff hi).2 hn)

/-- An ordinary method whose receiver and header pass their checks is lawful. -/
theorem lawful_of_checkHeader (hsource : T.HasSources) {md : MethodDecl}
    (hordinary : (Decl.method md).Ordinary)
    (hunique : T.method? md.recvType md.sig.name = some md) (hr : T.checkReceiver n md = .ok ())
    (hh : T.checkHeader n md = .ok ()) : md.Lawful T (T.vocabulary strict) := by
  obtain ⟨hrecv, -, hok⟩ := of_checkReceiver hr
  obtain ⟨-, hnodup, -, hbounds⟩ := of_okFormals hok
  have hsig := of_checkHeader hh
  obtain ⟨-, -, hsigBounds, -⟩ := of_okSignature hsig
  have hnames : (Bounds.extend [] md.recvFormals).names = formalNames md.recvFormals := names_extend [] _
  have hformals : ∀ a ∈ formalNames md.recvFormals, Unprimed a ∧ Uncanonical a :=
    fun a ha => hordinary.formals a (List.mem_append_left _ ha)
  have hunprimed : ∀ a ∈ (Bounds.extend [] md.recvFormals).names, Unprimed a := by
    rw [hnames]
    exact fun a ha => (hformals a ha).1
  refine ⟨hrecv, not_namesInterface_of_checkReceiver hsource hr, .of_ordinary hnodup hformals,
    fun f hf => ?_, ?_, fun f hf => ?_, hunique⟩
  · rw [← hnames]
    exact spelled_of_okType hsource hunprimed
      (hordinary.types _ (List.mem_append_left _ (List.mem_map_of_mem hf))) (hbounds f hf).1
  · rw [← hnames]
    refine spelled_of_okSignature hsource hunprimed (.alone ?_ ?_) hsig
    · exact fun a ha => hordinary.formals a (List.mem_append_right _ ha)
    · exact fun t ht => hordinary.types t (List.mem_append_right _ ht)
  · rcases List.mem_append.1 hf with hf | hf
    · exact hsource.boundType (hbounds f hf).2
    · exact hsource.boundType (hsigBounds f hf)

end Table

/-! ## Tables of checked declarations -/

namespace Checker

variable {C : Checker} {decls decls' : List Decl}

/-- What the check of declarations establishes of each. -/
theorem of_checkDecls (h : C.checkDecls decls = .ok decls') :
    C.table.checkAcyclic = .ok ()
      ∧ List.Forall₂ (fun d d' => C.checkDecl d = .ok d') decls decls' := by
  obtain ⟨⟨⟩, hacyclic, h⟩ := Answer.bind_eq_ok.1 h
  rw [Answer.liftExcept_eq, Answer.ofExcept_eq_ok] at hacyclic
  exact ⟨hacyclic, Answer.forall₂_of_mapM h⟩

/-- What the check of a method establishes. -/
theorem of_checkMethodDecl {md md' : MethodDecl} (h : C.checkMethodDecl md = .ok md') :
    C.table.checkReceiver C.fuel md = .ok () ∧ C.table.checkHeader C.fuel md = .ok ()
      ∧ ∃ t body body', C.check md.bounds md.scope md.body = .ok (t, body)
        ∧ C.coerce md.bounds t body md.sig.result (.result md.sig.name) = .ok body'
        ∧ md' = { md with body := body' } := by
  obtain ⟨⟨⟩, hr, h⟩ := Answer.bind_eq_ok.1 h
  obtain ⟨⟨⟩, hh, h⟩ := Answer.bind_eq_ok.1 h
  obtain ⟨⟨t, body⟩, hbody, h⟩ := Answer.bind_eq_ok.1 h
  obtain ⟨body', hcoerce, h⟩ := Answer.bind_eq_ok.1 h
  exact ⟨hr, hh, t, body, body', hbody, hcoerce, (Answer.ok.inj h).symm⟩

/-- A check changes a declaration in the body of a method alone. -/
theorem sameHeader_of_checkDecl {d d' : Decl} (h : C.checkDecl d = .ok d') : d.SameHeader d' := by
  cases d with
  | type td =>
    obtain ⟨⟨⟩, -, h⟩ := Answer.bind_eq_ok.1 h
    obtain rfl := Answer.ok.inj h
    exact .type td
  | method md =>
    obtain ⟨md', hmd', h⟩ := Answer.bind_eq_ok.1 h
    obtain rfl := Answer.ok.inj h
    obtain ⟨-, -, t, body, body', -, -, rfl⟩ := of_checkMethodDecl hmd'
    exact .method rfl

/-- The methods that a table holds pass their check where its declarations do. -/
theorem exists_checkMethodDecl (hT : Table.ofDecls decls = .ok C.table)
    (h : C.checkDecls decls = .ok decls') {md : MethodDecl} (hmd : md ∈ C.table.methodDecls) :
    Decl.method md ∈ decls ∧ ∃ md', C.checkMethodDecl md = .ok md' := by
  have hmem := Table.mem_decls_of_method hT hmd
  obtain ⟨d', -, hd'⟩ := exists_of_mem_forall₂ (of_checkDecls h).2 hmem
  obtain ⟨md', hmd', -⟩ := Answer.bind_eq_ok.1 hd'
  exact ⟨hmem, md', hmd'⟩

/-- What the check of declarations establishes of those that a table holds. -/
theorem checked_of_checkDecls (hT : Table.ofDecls decls = .ok C.table)
    (h : C.checkDecls decls = .ok decls') :
    (∀ c td, C.table.type? c = some td →
      Decl.type td ∈ decls ∧ C.table.checkTypeDecl C.fuel td = .ok ())
    ∧ ∀ md ∈ C.table.methodDecls, Decl.method md ∈ decls
      ∧ C.table.checkReceiver C.fuel md = .ok () ∧ C.table.checkHeader C.fuel md = .ok () := by
  refine ⟨fun c td htd => ?_, fun md hmd => ?_⟩
  · have hmem := Table.mem_decls_of_type? hT htd
    obtain ⟨d', -, hd'⟩ := exists_of_mem_forall₂ (of_checkDecls h).2 hmem
    obtain ⟨⟨⟩, hok, -⟩ := Answer.bind_eq_ok.1 hd'
    exact ⟨hmem, hok⟩
  · obtain ⟨hmem, md', hmd'⟩ := exists_checkMethodDecl hT h hmd
    obtain ⟨hr, hh, -⟩ := of_checkMethodDecl hmd'
    exact ⟨hmem, hr, hh⟩

/-- **The table of declarations that pass their checks is lawful**, if they bind no name that
substitution could make up. -/
theorem lawful_of_checkDecls {strict : Bool} (hT : Table.ofDecls decls = .ok C.table)
    (hordinary : ∀ d ∈ decls, d.Ordinary) (h : C.checkDecls decls = .ok decls') :
    ∃ rank, C.table.Lawful strict rank := by
  obtain ⟨hacyclic, -⟩ := of_checkDecls h
  obtain ⟨rank, hrank⟩ := Table.exists_ranking hacyclic
  obtain ⟨htypes, hmethods⟩ := checked_of_checkDecls hT h
  have hsource : C.table.HasSources := fun c td htd => (Table.of_checkTypeDecl (htypes c td htd).2).1
  refine ⟨rank, hrank, fun c td htd => ?_, fun md hmd => ?_⟩
  · obtain ⟨hmem, hok⟩ := htypes c td htd
    exact Table.lawful_of_checkTypeDecl hsource (hordinary _ hmem) hok
  · obtain ⟨hmem, hr, hh⟩ := hmethods md hmd
    exact Table.lawful_of_checkHeader hsource (hordinary _ hmem)
      ((Table.ofDecls_eq_ok hT).2.2 md hmd) hr hh

/-- **The table of plain declarations that pass their checks is well formed.** -/
theorem wellFormed_of_checkDecls {strict : Bool} (hT : Table.ofDecls decls = .ok C.table)
    (hplain : ∀ d ∈ decls, d.Plain strict) (h : C.checkDecls decls = .ok decls') :
    ∃ rank, C.table.WellFormed strict rank := by
  obtain ⟨rank, hlawful⟩ := lawful_of_checkDecls hT (fun d hd => (hplain d hd).ordinary) h
  obtain ⟨htypes, hmethods⟩ := checked_of_checkDecls hT h
  exact ⟨rank, hlawful.ranking,
    fun c td htd => (hlawful.types c td htd).proper (hplain _ (htypes c td htd).1),
    fun md hmd => (hlawful.methods md hmd).proper (hplain _ (hmethods md hmd).1)⟩

end Checker

end FeatherGo
