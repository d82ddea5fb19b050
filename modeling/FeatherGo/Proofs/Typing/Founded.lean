import FeatherGo.Proofs.Declarations.Founded
import FeatherGo.Proofs.Typing.Headers
import FeatherGo.Proofs.Typing.Programs

/-!
# Checked programs are founded

The check of formals asks that a bound is a primitive or an interface, and the check of an interface
that it embeds interfaces. Hence a type that passes its check is guarded by bounds that may bound
(`Table.guarded_of_okType`), and the declarations of a checked program are founded
(`ProgramCheck.founded`).
-/

namespace FeatherGo

namespace Table

variable {T : Table} {n : Nat} {Δ : Bounds}

theorem NamesStruct.not_namesInterface {c : String} (h : T.NamesStruct c) : ¬T.NamesInterface c := by
  induction h with
  | literal declared source =>
    intro hi
    cases hi with
    | literal declared' source' =>
      obtain rfl := Option.some.inj (declared.symm.trans declared')
      cases source.symm.trans source'
    | chain declared' source' _ =>
      obtain rfl := Option.some.inj (declared.symm.trans declared')
      cases source.symm.trans source'
  | chain declared source _ ih =>
    intro hi
    cases hi with
    | literal declared' source' =>
      obtain rfl := Option.some.inj (declared.symm.trans declared')
      cases source.symm.trans source'
    | chain declared' source' next =>
      obtain rfl := Option.some.inj (declared.symm.trans declared')
      obtain ⟨rfl, -⟩ := Ty.named.inj (source.symm.trans source')
      exact ih next

/-- A type that is found to be an interface names no struct. -/
theorem not_namesStruct_of_isInterface (hs : T.HasSources) {c : String} {args : List Ty}
    (h : T.isInterface (.named c args) = .ok true) : ¬T.NamesStruct c :=
  fun hstruct => hstruct.not_namesInterface ((hs.namesInterface_iff h).1 rfl)

/-- An interface that passes its check embeds no struct. -/
theorem embedsNoStruct_of_okType (hs : T.HasSources) {ms : List Member}
    (h : T.okType n Δ (.interface ms) = .ok ()) : T.EmbedsNoStruct ms := by
  intro c args hm
  obtain ⟨-, -, hi⟩ := of_okMembers h _ hm
  exact not_namesStruct_of_isInterface hs hi

/-- A bound that passes its check may bound. -/
theorem mayBound_of_isBound (hs : T.HasSources) {t : Ty} (h : T.okType n Δ t = .ok ())
    (hb : T.isBound t = .ok true) : T.MayBound t := by
  cases t with
  | prim p => trivial
  | interface ms => exact embedsNoStruct_of_okType hs h
  | named c args => exact not_namesStruct_of_isInterface hs hb
  | _ => cases hb

/-- The parts of a type that passes its check pass theirs. -/
theorem exists_okType_of_mem_parts {t a : Ty} (h : T.okType n Δ t = .ok ()) (ha : a ∈ t.parts) :
    ∃ Δ', T.okType n Δ' a = .ok () := by
  cases t with
  | named c args =>
    obtain ⟨td, -, h⟩ := Answer.bind_eq_ok.1 h
    obtain ⟨⟨⟩, hargs, -⟩ := Answer.bind_eq_ok.1 h
    exact ⟨Δ, of_okTypes hargs a ha⟩
  | struct fs =>
    obtain ⟨f, hf, rfl⟩ := List.mem_map.1 ha
    exact ⟨Δ, of_okFields h f hf⟩
  | interface ms =>
    obtain ⟨m, hm, ha⟩ := List.mem_flatMap.1 ha
    have hok := of_okMembers h m hm
    cases m with
    | method s =>
      obtain ⟨-, -, -, htypes⟩ := of_okSignature hok
      exact ⟨_, htypes a ha⟩
    | embed c args =>
      obtain ⟨-, hargs, -⟩ := hok
      exact ⟨Δ, of_okTypes hargs a ha⟩
  | _ => cases ha

/-- **A type that passes its check is guarded by bounds that may bound.** -/
theorem guarded_of_okType (hs : T.HasSources) {t : Ty} (h : T.okType n Δ t = .ok ()) :
    t.Guarded T.MayBound := by
  induction t using Ty.induction_parts generalizing Δ with
  | step t ih =>
    refine Ty.Everywhere.iff_parts.2 ⟨fun s hm f hf => ?_, fun a ha => ?_⟩
    · cases t with
      | interface ms =>
        obtain ⟨-, -, hbounds, htypes⟩ := of_okSignature (of_okMembers h _ hm)
        exact mayBound_of_isBound hs (htypes _ (Signature.mem_types.2 (.inl ⟨f, hf, rfl⟩)))
          (hbounds f hf)
      | _ => cases hm
    · obtain ⟨Δ', ha'⟩ := exists_okType_of_mem_parts h ha
      exact ih a ha ha'

theorem guardedFormals_of_okFormals (hs : T.HasSources) {decl : String} {fs : List Slot}
    {Δ' : Bounds} (h : T.okFormals n Δ decl fs = .ok Δ') : GuardedFormals T.MayBound fs := by
  obtain ⟨-, -, -, hok⟩ := of_okFormals h
  exact fun f hf => ⟨mayBound_of_isBound hs (hok f hf).1 (hok f hf).2, guarded_of_okType hs (hok f hf).1⟩

/-! ## Declarations -/

theorem guarded_of_checkTypeDecl (hs : T.HasSources) {td : TypeDecl}
    (h : T.checkTypeDecl n td = .ok ()) : td.Guarded T.MayBound := by
  obtain ⟨-, hformals, hsource⟩ := of_checkTypeDecl h
  exact ⟨guardedFormals_of_okFormals hs hformals, guarded_of_okType hs hsource⟩

theorem guarded_of_checkHeader (hs : T.HasSources) {md : MethodDecl}
    (hr : T.checkReceiver n md = .ok ()) (hh : T.checkHeader n md = .ok ())
    (hbody : md.body.Guarded T.MayBound) : md.Guarded T.MayBound := by
  obtain ⟨-, -, hformals⟩ := of_checkReceiver hr
  obtain ⟨-, -, hbounds, htypes⟩ := of_okSignature (of_checkHeader hh)
  refine ⟨guardedFormals_of_okFormals hs hformals, fun f hf => ?_,
    fun t ht => guarded_of_okType hs (htypes t ht), hbody⟩
  exact mayBound_of_isBound hs (htypes _ (Signature.mem_types.2 (.inl ⟨f, hf, rfl⟩))) (hbounds f hf)

end Table

/-- What an expression that is typed writes is guarded by bounds that may bound, and so is what it is
elaborated to. -/
theorem Checker.guarded_of_check {C : Checker} {Δ : Bounds} {Γ : Scope} {e e' a : Expr} {t : Ty}
    (hs : C.table.HasSources) (h : C.check Δ Γ e = .ok (t, e')) (ha : a.Agrees e) :
    a.Guarded C.table.MayBound :=
  ⟨fun u hu => Table.guarded_of_okType hs (okType_of_check h u (ha.mem_types.1 hu)),
    fun _ _ => trivial⟩

namespace ProgramCheck

variable {C : Checker} {p q : Program} {t : Ty} {T : Table}

theorem checkTypeDecl (h : ProgramCheck C p t q T) {td : TypeDecl} (htd : td ∈ T.typeDecls) :
    C.table.checkTypeDecl C.fuel td = .ok () := by
  rw [← h.same.types, (Table.ofDecls_eq_ok h.source).1, List.mem_filterMap] at htd
  obtain ⟨d, hd, hsome⟩ := htd
  obtain ⟨d', -, hd'⟩ := exists_of_mem_forall₂ (Checker.of_checkDecls h.decls).2 hd
  cases d with
  | type td' =>
    obtain rfl := Option.some.inj hsome
    obtain ⟨⟨⟩, hok, -⟩ := Answer.bind_eq_ok.1 hd'
    exact hok
  | method md => cases hsome

theorem hasSources (h : ProgramCheck C p t q T) : T.HasSources := fun _ _ htd =>
  (Table.of_checkTypeDecl (h.checkTypeDecl (Table.mem_of_type? htd).1)).1

theorem hasSources_source (h : ProgramCheck C p t q T) : C.table.HasSources := fun c td htd =>
  h.hasSources c td ((h.same.type?_eq c).symm.trans htd)

theorem exists_ranking (h : ProgramCheck C p t q T) : ∃ rank, T.Ranking rank :=
  Table.exists_ranking (h.same.checkAcyclic_eq ▸ (Checker.of_checkDecls h.decls).1)

/-- **The declarations of a checked program are founded.** -/
theorem founded (h : ProgramCheck C p t q T) : T.Founded := by
  have hC := h.hasSources_source
  refine ⟨h.hasSources, fun td htd ms hms => ?_, fun td htd => ?_, fun md' hmd' => ?_⟩
  · obtain ⟨-, -, hsource⟩ := Table.of_checkTypeDecl (h.checkTypeDecl htd)
    have hembeds := Table.embedsNoStruct_of_okType hC (hms ▸ hsource)
    exact fun c args hm hc => hembeds c args hm (h.same.symm.namesStruct hc)
  · rw [← h.same.mayBound_eq]
    exact Table.guarded_of_checkTypeDecl hC (h.checkTypeDecl htd)
  · obtain ⟨md, -, -, hcheck⟩ := h.methods md' hmd'
    obtain ⟨hr, hh, u, body, body', hbody, hcoerce, rfl⟩ := Checker.of_checkMethodDecl hcheck
    have hagrees := (Checker.agrees_of_coerce hcoerce).trans (Checker.agrees_of_check hbody)
    rw [← h.same.mayBound_eq]
    show MethodDecl.Guarded _ { md with body := body' }
    exact Table.guarded_of_checkHeader hC hr hh (Checker.guarded_of_check hC hbody hagrees)

/-- The elaborated main expression is guarded by bounds that may bound. -/
theorem guarded_main (h : ProgramCheck C p t q T) : q.main.Guarded T.MayBound := by
  rw [← h.same.mayBound_eq]
  exact Checker.guarded_of_check h.hasSources_source h.main (Checker.agrees_of_check h.main)

end ProgramCheck

end FeatherGo
