import FeatherGo.Proofs.Declarations.Cycles
import FeatherGo.Proofs.Ground.Bodies
import FeatherGo.Proofs.Methods.Slots

/-!
# Ground declarations pass their checks

The types, the methods and the placeholders that a ground program declares are well formed, and no type
unfolds to itself (`Grounding.Checkable.exists_checkDecls`).
-/

namespace FeatherGo

theorem Table.okMembers_methods {T : Table} {n : Nat} {Δ : Bounds} {whole : Ty} {seen : List String}
    {sigs : List Signature} (hnodup : (sigs.map (·.name)).Nodup) (hseen : ∀ s ∈ sigs, s.name ∉ seen)
    (hok : ∀ s ∈ sigs, T.okSignature n Δ s = .ok ()) :
    T.okMembers n Δ whole seen (sigs.map .method) = .ok () := by
  induction sigs generalizing seen with
  | nil => rfl
  | cons s sigs ih =>
    rw [List.map_cons, List.nodup_cons] at hnodup
    rw [List.forall_mem_cons] at hseen hok
    have hnew : newMembers whole [s.name] seen = .ok (s.name :: seen) := if_neg hseen.1
    refine Answer.bind_eq_ok.2 ⟨(), hok.1, Answer.bind_eq_ok.2 ⟨_, Answer.ofExcept_eq_ok.2 hnew, ?_⟩⟩
    refine ih hnodup.2 (fun o ho => ?_) hok.2
    rw [List.mem_cons, not_or]
    exact ⟨fun he => hnodup.1 (he ▸ List.mem_map_of_mem ho), hseen.2 o ho⟩

namespace Table

variable {T : Table} {n : Nat} {md : MethodDecl}

/-- A method without formals has a receiver as it should be on a declared type that is no interface. -/
theorem checkReceiver_eq_ok {td : TypeDecl} (htd : T.type? md.recvType = some td) (hformals : td.formals = [])
    (hrecv : md.recvFormals = []) (hi : T.isInterface (.named md.recvType []) = .ok false) :
    T.checkReceiver n md = .ok () := by
  have hself : md.selfType = .named md.recvType [] := by
    rw [MethodDecl.selfType, hrecv]
    rfl
  refine Answer.bind_eq_ok.2 ⟨td, Answer.ofExcept_eq_ok.2 (typeDecl_eq_ok.2 htd), ?_⟩
  rw [if_neg (by simp [hformals, hrecv]), hself]
  refine Answer.bind_eq_ok.2 ⟨false, Answer.ofExcept_eq_ok.2 hi, ?_⟩
  exact Answer.bind_eq_ok.2 ⟨[], by rw [hrecv]; rfl, okType_of_formals htd hformals n []⟩

theorem checkHeader_eq_ok {fs : Option (List Slot)} (hfs : T.structFields md.selfType = .ok fs)
    (hfields : ∀ f ∈ fs.getD [], f.name ≠ md.sig.name)
    (hsig : T.okSignature n (Bounds.extend [] md.recvFormals) md.sig = .ok ())
    (hparams : ∀ p ∈ md.sig.params, p.name ≠ md.recv) : T.checkHeader n md = .ok () := by
  have hfields : (fs.getD []).any (fun f => f.name = md.sig.name) = false := by simpa using hfields
  have hparams : md.sig.params.any (fun p => p.name = md.recv) = false := by simpa using hparams
  refine Answer.bind_eq_ok.2 ⟨fs, Answer.ofExcept_eq_ok.2 hfs, ?_⟩
  rw [hfields]
  refine Answer.bind_eq_ok.2 ⟨(), hsig, ?_⟩
  rw [hparams]
  rfl

end Table

/-- The type that a method is declared on, at arguments. -/
theorem MethodDecl.selfType_close {md : MethodDecl} (hn : (formalNames md.recvFormals).Nodup) {args : List Ty}
    (hl : md.recvFormals.length = args.length) :
    md.selfType.close (FeatherGo.instantiation md.recvFormals args).lookup = .named md.recvType args := by
  rw [MethodDecl.selfType, Ty.close_named, formalArguments, List.map_map, Ty.named.injEq]
  exact ⟨rfl, map_lookup_instantiation hn hl⟩

/-- No field of an instance is named like a method that is declared on the type. -/
theorem Table.WellFormed.name_ne_of_struct {T : Table} {rank : String → Nat} {strict : Bool}
    (h : T.WellFormed strict rank) {md : MethodDecl} (hmd : md ∈ T.methodDecls) {n : Nat}
    (hheader : T.checkHeader n md = .ok ()) {args : List Ty} (hl : md.recvFormals.length = args.length)
    (hargs : ∀ a ∈ args, a.Sealed (T.vocabulary strict)) {fs : List Slot}
    (hfs : T.Resolves (.named md.recvType args) (.struct fs)) : ∀ f ∈ fs, f.name ≠ md.sig.name := by
  have hproper := h.methods md hmd
  obtain ⟨⟨fs₀, hself, hne⟩, -⟩ := Table.names_of_checkHeader hheader
  obtain ⟨v, hv, hfields⟩ := except_bind_eq_ok.1 hself
  have hscoped : md.selfType.Scoped (T.vocabulary strict) false (formalNames md.recvFormals) [] := by
    refine .named (by simpa [formalArguments] using hproper.recv) fun a ha => ?_
    obtain ⟨f, hf, rfl⟩ := List.mem_map.1 ha
    exact .param (List.mem_map_of_mem hf)
  have hclose := h.lawful.resolves_close (sealing_of_args hl hargs) hscoped (Table.resolves_of_resolve hv) rfl
  rw [MethodDecl.selfType_close hproper.formals.nodup hl] at hclose
  have heq := hclose.unique hfs
  rcases h.lawful.hasSources.struct_or_interface (Table.resolves_of_resolve hv) with ⟨-, gs, rfl⟩ | ⟨ms, rfl⟩
  · obtain rfl := Except.ok.inj hfields
    rw [Ty.close_struct] at heq
    obtain rfl := Ty.struct.inj heq
    intro f hf
    obtain ⟨g, hg, rfl⟩ := List.mem_map.1 hf
    exact hne g hg
  · rw [Ty.close_interface] at heq
    cases heq

theorem Table.HasSources.isSource_underlying {T : Table} (h : T.HasSources) {c : String} {args : List Ty}
    {u : Ty} (hu : T.underlying (.named c args) = .ok u) : u.isSource = true := by
  obtain ⟨td, htd, -, rfl⟩ := Table.underlying_eq_ok.1 hu
  have hsource := h c td htd
  cases hs : td.source with
  | struct fs => rw [Ty.subst_struct]; rfl
  | interface ms => rw [Ty.subst_interface]; rfl
  | named d ds => rw [Ty.subst_named]; rfl
  | _ =>
    rw [hs] at hsource
    cases hsource

namespace Ground

namespace Grounding

variable [Digest] {G : Grounding} {T' : Table} {N : String → Prop} {rank : String → Nat}

theorem formals_of_makes {c : String} {args : List Ty} {md g : MethodDecl} (h : G.Makes c args md g) :
    g.sig.formals = [] := by
  rcases h with ⟨-, rfl⟩ | ⟨m, h⟩
  · rfl
  · exact (of_imageSignature h.sig).2.1

/-! ## Types -/

/-- What a ground type is declared as: the interface of what the instance offers, the image of a struct
type, or the ground form of a declared type. -/
inductive SourceForm (G : Grounding) (c : String) (args : List Ty) : Ty → Prop
  | interface {S : MethodSet} {sigs : List Signature}
      (methods : G.table.allMethods [] (.named c args) = .ok S)
      (members : G.interfaceMembers (.named c args) S = .ok (sigs.map .method))
      (lists : G.Lists (.named c args) S sigs) : SourceForm G c args (.interface (sigs.map .method))
  | struct {fs fs' : List Slot} (resolves : G.table.Resolves (.named c args) (.struct fs))
      (images : imageSlots G.top fs = .ok fs') : SourceForm G c args (.struct fs')
  | named {d : String} {ds : List Ty} (head : G.table.underlying (.named c args) = .ok (.named d ds))
      (mem : .named d ds ∈ G.instances.types) : SourceForm G c args (.named (typeName d ds) [])

/-- What the ground declarations pass their checks by: the declarations that they come from pass theirs,
are plain, elaborated and without assertions on type parameters, and fields have clean names. -/
structure Checkable (G : Grounding) (T' : Table) (rank : String → Nat) (n : Nat) : Prop
    extends G.Typable T' Clean rank where
  types : ∀ c td, G.table.type? c = some td → G.table.checkTypeDecl n td = .ok ()
  methods : ∀ md ∈ G.table.methodDecls, (Checker.mk G.table false n).checkMethodDecl md = .ok md
  plain : ∀ md ∈ G.table.methodDecls, (Decl.method md).Plain true ∧ md.body.Plain true
  asserts : G.table.AssertsConcretely n
  fields : ∀ t ∈ G.instances.types, ∀ fs, G.table.Resolves t (.struct fs) → ∀ f ∈ fs, Clean f.name
  top : T'.type? G.top = some ⟨G.top, [], .anything⟩
  made : ∀ c td, T'.type? c = some td → td.source = .anything
    ∨ ∃ d args, .named d args ∈ G.instances.types ∧ G.typeDecl d args = .ok td

namespace Checkable

variable {k : Nat} (h : G.Checkable T' rank k) {c : String} {args : List Ty}
include h

theorem slotsApart : G.table.SlotsApart where
  sources c td htd := Table.slotsApart_of_okType (Table.of_checkTypeDecl (h.types c td htd)).2.2
  signatures md hmd := Table.nodup_params_of_okSignature
    (Table.of_checkHeader (Checker.of_checkMethodDecl (h.methods md hmd)).2.1)

theorem okType_top (n : Nat) : T'.okType n [] (.named G.top []) = .ok () :=
  Table.okType_of_formals h.top rfl n []

theorem okSignature_placeholder (s : Signature) (n : Nat) :
    T'.okSignature n [] (placeholder G.top s) = .ok () := by
  refine (Table.okSignature_iff rfl).2 ⟨.nil, fun u hu => ?_⟩
  rw [List.mem_singleton.1 hu]
  exact h.okType_top n

theorem okSignature_of_forms {fs : List Slot} {t : Ty} {x : Signature} (hx : x.formals = [])
    (hn : (fs.map (·.name)).Nodup) (hparams : G.Forms fs x.params) (hresult : G.Form t x.result)
    (n : Nat) : T'.okSignature n [] x = .ok () := by
  refine (Table.okSignature_iff hx).2 ⟨Forms.map_name hparams ▸ hn, ?_⟩
  refine Signature.forall_types.2 ⟨by simp [hx], fun p hp => ?_, h.okType_form hresult n []⟩
  obtain ⟨f, -, hf⟩ := exists_of_mem_forall₂ hparams.flip hp
  exact h.okType_form hf.2 n []

/-- The signatures of a ground form are well formed. -/
theorem okSignature_offered {S : MethodSet}
    (hS : G.table.allMethods [] (.named c args) = .ok S) {x : Signature}
    (hx : G.Offered (.named c args) S x) (n : Nat) : T'.okSignature n [] x = .ok () := by
  cases hx with
  | @placeholder s hs => exact h.okSignature_placeholder s n
  | @image s m x hs hi =>
    obtain ⟨hformals, hparams, hresult⟩ := h.forms_of_isImage hS hs hi
    obtain ⟨N, hN⟩ := (Finitary.find _).eventually hS
    have hn := h.slotsApart.nodup_params h.simple.wellFormed.lawful.hasSources (hN N le_rfl) hs
    refine h.okSignature_of_forms hformals ?_ hparams hresult n
    rwa [List.map_map]

/-- The source of a ground type is of one of three forms. -/
theorem form_of_isSource (mem : .named c args ∈ G.instances.types) {source : Ty}
    (h' : G.IsSource (.named c args) source) : G.SourceForm c args source := by
  rcases h' with ⟨-, S, ms, hS, hms, rfl⟩ | ⟨hi, u, hu, himage⟩
  · obtain ⟨sigs, rfl, hlists⟩ := lists_of_interfaceMembers hms
    exact .interface (Table.allMethods_of_methods hS) hms hlists
  · have hsource := h.simple.wellFormed.lawful.hasSources.isSource_underlying hu
    cases u with
    | named d ds =>
      rw [imageTy_named_eq_ok himage]
      exact .named hu (h.regular.saturated.source _ _ _ mem hu rfl)
    | struct fs =>
      obtain ⟨fs', hfs', he⟩ := except_bind_eq_ok.1 himage
      exact Except.ok.inj he ▸ .struct (.step hu (.stop trivial)) hfs'
    | interface ms =>
      have hres : G.table.Resolves (.named c args) (.interface ms) := .step hu (.stop trivial)
      have hclosed := (h.values _ mem).1
      rw [Closure.isInterface_of_resolve
        ((h.simple.wellFormed.lawful.resolve_iff hclosed.sealed.inner).2 hres)] at hi
      cases hi
    | _ => cases hsource

/-- **The declarations of instances are well formed.** -/
theorem checkTypeDecl (mem : .named c args ∈ G.instances.types) {td : TypeDecl}
    (htd : G.typeDecl c args = .ok td) (n : Nat) : T'.checkTypeDecl n td = .ok () := by
  obtain ⟨-, hformals, hsource⟩ := typeDecl_eq_ok htd
  have hcheck (hs : td.source.isSource = true) (hok : T'.okType n [] td.source = .ok ()) :
      T'.checkTypeDecl n td = .ok () := by
    refine Answer.bind_eq_ok.2 ⟨[], by rw [hformals]; rfl, ?_⟩
    rw [if_pos hs]
    exact hok
  have hform := h.form_of_isSource mem hsource
  generalize td.source = source at hcheck hform
  cases hform with
  | interface hall hms hsigs =>
    have hoffered := h.regular.offered _ mem rfl _ hall
    refine hcheck rfl (Table.okMembers_methods (nodup_of_interfaceMembers h.regular.apart
      (Table.sorted_allMethods hall) (fun s hs => (hoffered s hs).1) hms) (by simp) fun x hx => ?_)
    exact h.okSignature_offered hall ((hsigs.mem x).1 hx) n
  | named _ mem' => exact hcheck rfl (h.okType_form (.named mem') n [])
  | @struct fs fs' hres himages =>
    have hfields := h.simple.wellFormed.structFields_eq (h.values _ mem).1.fit hres
    have hforms := h.forms_of_imageSlots himages fun f hf => h.regular.saturated.fields _ fs mem hfields f hf
    refine hcheck rfl (Table.okFields_iff.2 ⟨?_, fun f' hf' => ⟨by simp, ?_⟩⟩)
    · rw [Forms.map_name hforms]
      exact h.slotsApart.nodup_fields h.simple.wellFormed.lawful.hasSources hres
    · obtain ⟨f, -, hf⟩ := exists_of_mem_forall₂ hforms.flip hf'
      exact h.okType_form hf.2 n []

/-! ## Headers of methods -/

section Live

variable {md g : MethodDecl} (hlive : G.Live c args md)
include hlive

/-- The receiver of a ground method is as it should be. -/
theorem checkReceiver (hg : G.Makes c args md g) (n : Nat) : T'.checkReceiver n g = .ok () := by
  obtain ⟨mem, hfalse, -⟩ := hlive
  obtain ⟨td, -, htd⟩ := h.declared.types c args mem
  obtain ⟨b, hb, hb'⟩ := h.isInterface_form (.named mem)
  obtain rfl := Except.ok.inj (hfalse.symm.trans hb)
  have hrecv := recvType_of_makes hg
  exact Table.checkReceiver_eq_ok (hrecv ▸ htd) (h.declared.formals _ td htd) (recvFormals_of_makes hg)
    (hrecv ▸ hb')

/-- A ground method is not named like a field of its receiver. -/
theorem name_ne_of_makes (hg : G.Makes c args md g) {fs : List Slot}
    (hfs : G.table.Resolves (.named c args) (.struct fs)) : ∀ f ∈ fs, f.name ≠ g.sig.name := by
  obtain ⟨mem, hmd, rfl⟩ := hlive.mem
  intro f hf
  have hclean := h.fields _ mem fs hfs f hf
  rcases hg with ⟨-, rfl⟩ | ⟨m, hg⟩
  · exact hclean.ne_placeholderName _
  · rw [hg.name_eq, methodName_eq]
    cases m.targs with
    | nil =>
      obtain ⟨hl, -, -⟩ := Table.receiverBy_eq_some.1 hg.applies
      have hargs := (h.values _ mem).1.args
      exact h.simple.wellFormed.name_ne_of_struct hmd (Checker.of_checkMethodDecl (h.methods md hmd)).2.1 hl
        (fun a ha => (hargs a ha).1.sealed) hfs f hf
    | cons t ts => exact hclean.ne_typeName _ t ts

/-- A type that declares methods is a struct type, and so is its ground form. -/
theorem exists_fields : ∃ fs fs', G.table.Resolves (.named c args) (.struct fs)
    ∧ T'.structFields (.named (typeName c args) []) = .ok (some fs') ∧ G.Forms fs fs' := by
  obtain ⟨mem, hfalse, -⟩ := hlive
  obtain ⟨v, -, hv, hnot, -⟩ := h.declared.resolve_other h.regular.saturated mem hfalse
  have hres := Table.resolves_of_resolve hv
  rcases h.simple.wellFormed.lawful.hasSources.struct_or_interface hres with ⟨-, fs, rfl⟩ | ⟨ms, rfl⟩
  · obtain ⟨fs', hfs', hforms⟩ := h.fields_form (.named mem) hres
    exact ⟨fs, fs', hres, hfs', hforms⟩
  · exact absurd rfl (hnot ms)

/-- A method that applies to an instance is offered by it. -/
theorem exists_methods (happ : G.AppliesAt args md) :
    ∃ S, G.table.allMethods [] (.named c args) = .ok S
      ∧ md.sig.subst (instantiation md.recvFormals args) ∈ S := by
  obtain ⟨S, S', hsets⟩ := h.regular.exists_sets h.declared hlive.1
  obtain ⟨v, -, hv, hnot, -⟩ := h.declared.resolve_other h.regular.saturated hlive.1 hlive.2.1
  have hS := hsets.generic
  rw [Table.allMethods_of_resolve hv hnot] at hS
  exact ⟨S, hsets.generic, (h.declared.mem_declaredMethods h.regular.unique hlive.1 hlive.2.1 hS).2
    ⟨md, hlive, happ, rfl⟩⟩

theorem isImage_of_isInstance {m : MethodInstance} (hg : G.IsInstance c args md m g) :
    G.IsImage (.named c args) (md.sig.subst (instantiation md.recvFormals args)) m g.sig :=
  hg.isImage h.regular.meths fun t ht => Ty.isGround_named.1 (h.regular.types _ hlive.1) t ht

/-- The header of a ground method is as it should be. -/
theorem checkHeader (hg : G.Makes c args md g) (n : Nat) : T'.checkHeader n g = .ok () := by
  obtain ⟨mem, hmd, -⟩ := hlive.mem
  obtain ⟨fs, fs', hfs, hfs', hforms⟩ := h.exists_fields hlive
  have hself : g.selfType = .named (typeName c args) [] := by
    rw [MethodDecl.selfType, recvType_of_makes hg, recvFormals_of_makes hg]
    rfl
  refine Table.checkHeader_eq_ok (hself ▸ hfs') (fun f' hf' => ?_) ?_ ?_
  · obtain ⟨f, hf, hname, -⟩ := exists_of_mem_forall₂ hforms.flip hf'
    exact hname ▸ h.name_ne_of_makes hlive hg hfs f hf
  · rw [recvFormals_of_makes hg]
    rcases hg with ⟨-, rfl⟩ | ⟨m, hg⟩
    · exact h.okSignature_placeholder _ n
    · obtain ⟨S, hS, hmem⟩ := h.exists_methods hlive hg.applies
      exact h.okSignature_offered hS (.image hmem (h.isImage_of_isInstance hlive hg)) n
  · rcases hg with ⟨-, rfl⟩ | ⟨m, hg⟩
    · exact fun p hp => absurd hp List.not_mem_nil
    · obtain ⟨-, hnames⟩ := Table.names_of_checkHeader (Checker.of_checkMethodDecl (h.methods md hmd)).2.1
      obtain ⟨-, -, hparams, -⟩ := of_imageSignature hg.sig
      have hmap := (imageSlots_eq_ok hparams).1
      rw [hg.recv]
      intro p hp he
      have hmem := List.mem_map_of_mem (f := Slot.name) hp
      rw [hmap, List.map_map] at hmem
      obtain ⟨q, hq, hname⟩ := List.mem_map.1 hmem
      exact hnames q hq (hname.trans he)

/-! ## Bodies of methods -/

omit hlive in
/-- The interface that placeholders return asks for nothing. -/
theorem flows_top {t t' : Ty} (hform : G.Form t t') (ht : ∀ k, t ≠ .prim ⟨k, true⟩) :
    T'.Flows t' (.named G.top []) := by
  have hunder : T'.underlying (.named G.top []) = .ok .anything :=
    Table.underlying_eq_ok.2 ⟨_, h.top, rfl, (Ty.subst_nil _).symm⟩
  have hres := (Table.resolve_eq_ok_iff h.declared.formals).2 (.step hunder (.stop trivial))
  refine .typed (hform.typed ht) (Table.implementsBy_of_covers (fun n => (hform.ne_var n).2)
    (Closure.isInterface_of_resolve hres) (W := []) ?_ (.inl rfl))
  rw [Table.allMethods_of_resolve_interface hres, Table.allMethods_interface]
  rfl

theorem forms_of_isInstance {m : MethodInstance} (hg : G.IsInstance c args md m g) :
    G.Forms (md.sig.params.map (Slot.map (Ty.subst (md.instantiation args m.targs)))) g.sig.params
      ∧ G.Form (md.sig.result.subst (md.instantiation args m.targs)) g.sig.result := by
  obtain ⟨S, hS, hmem⟩ := h.exists_methods hlive hg.applies
  obtain ⟨-, hparams, hresult⟩ := h.forms_of_isImage hS hmem (h.isImage_of_isInstance hlive hg)
  obtain ⟨hmem, -, -, hl⟩ := mem_instancesOf.1 hg.mem
  obtain ⟨-, hparams', hresult'⟩ := md.parts_at
    (fun t ht => Ty.freeParams_of_isGround (Ty.isGround_named.1 (h.regular.types _ hlive.1) t ht)) hl.symm
    (fun t ht => Ty.freeParams_of_isGround (h.regular.meths m hmem t ht)) rfl
  rw [hparams'] at hparams
  rw [hresult'] at hresult
  exact ⟨hparams, hresult⟩

/-- The variables of a ground body have the ground forms of what they have at the instance. -/
theorem inScope_of_isInstance {m : MethodInstance} (hg : G.IsInstance c args md m g) :
    InScope G (md.scopeAt args m.targs) g.scope := by
  obtain ⟨mem, -, rfl⟩ := hlive.mem
  obtain ⟨hparams, -⟩ := h.forms_of_isInstance hlive hg
  refine .of_forall₂ (.cons ⟨hg.recv, ?_⟩ ?_)
  · rw [MethodDecl.selfType, hg.recvType, hg.recvFormals]
    exact .named mem
  · rw [List.forall₂_map_left_iff, List.forall₂_map_right_iff]
    exact List.forall₂_map_left_iff.1 hparams

/-- A method applies at its instances. -/
theorem applies_of_isInstance {m : MethodInstance} (hg : G.IsInstance c args md m g) :
    md.Applies G.table true args m.targs := by
  obtain ⟨mem, hmd, rfl⟩ := hlive.mem
  obtain ⟨hmem, hrecv, hmeth, -⟩ := mem_instancesOf.1 hg.mem
  obtain ⟨hover, hoffered⟩ := h.offered m hmem
  have hm : m = ⟨.named md.recvType args, md.sig.name, m.targs⟩ := by rw [← hrecv, ← hmeth]
  rw [hm] at hoffered
  exact hoffered.applies h.simple.wellFormed hmd (h.values _ mem).1 (Table.Simple.given_of_over hover)

omit hlive in
/-- The body of a placeholder, its receiver, is settled and flows into the result. -/
theorem exists_body_placeholder (mem : .named c args ∈ G.instances.types) :
    ∃ t', T'.Settles (G.placeholderAt c args md).scope (G.placeholderAt c args md).body t'
      ∧ T'.Flows t' (G.placeholderAt c args md).sig.result := by
  have hfound : (G.placeholderAt c args md).scope.find? md.recv
      = some (G.placeholderAt c args md).selfType := by
    simp [MethodDecl.scope, placeholderAt, placeholderDecl, placeholder, Env.find?]
  have hself : G.Form (.named c args) (G.placeholderAt c args md).selfType := .named mem
  refine ⟨_, ⟨0, fun n _ => ?_⟩, h.flows_top hself fun _ he => by cases he⟩
  change Checker.check _ _ _ (.var md.recv) = _
  rw [Checker.check, hfound]
  rfl

/-- A method's body is typed at an instance with the instances that were discovered. -/
theorem exists_typed_body {m : MethodInstance} (hg : G.IsInstance c args md m g) :
    ∃ u, Typed G.table true (G.instances.usage G.table) (md.scopeAt args m.targs)
      (md.body.substTypes (md.instantiation args m.targs)) u := by
  have hwf := h.simple.wellFormed
  have ha := h.applies_of_isInstance hlive hg
  obtain ⟨mem, hmd, rfl⟩ := hlive.mem
  have hcall : (G.instances.usage G.table).calls (.named md.recvType args) (.named md.recvType args)
      md.sig.name m.targs := by
    obtain ⟨hmem, hrecv, hmeth, -⟩ := mem_instancesOf.1 hg.mem
    refine ⟨.refl _, mem, ?_⟩
    rwa [← hrecv, ← hmeth]
  obtain ⟨u, htyped, -⟩ := (h.closed.supported hwf h.simple.bodiesTyped).bodies md args m.targs _ hmd ha
    mem hcall
  exact ⟨u, htyped⟩

/-- The body of a method at an instance is settled and flows into the result. -/
theorem exists_body_of_isInstance {m : MethodInstance} (hg : G.IsInstance c args md m g) :
    ∃ t', T'.Settles g.scope g.body t' ∧ T'.Flows t' g.sig.result := by
  have hwf := h.simple.wellFormed
  have hmd := hlive.mem.2.1
  have hproper := hwf.methods md hmd
  have ha := h.applies_of_isInstance hlive hg
  obtain ⟨-, -, t, body, body', hbody, hcoerce, heq⟩ := Checker.of_checkMethodDecl (h.methods md hmd)
  obtain rfl : md.body = body' := congrArg MethodDecl.body heq
  obtain ⟨hsettled, hflow⟩ :=
    Checker.Settled.of_flow (d := (md.sig.result, .result md.sig.name)) hbody hcoerce
  have hη := Table.admits_of_applies hproper (h.plain md hmd).1 ha
  obtain ⟨hfit, hprecise⟩ := Checker.precise_of_settled hwf hη rfl rfl
    (fun x t hx => Table.fit_of_scope hproper hx) (h.plain md hmd).2 (h.asserts md hmd) hsettled
  rw [Table.close_scope hproper ha.toFits] at hprecise
  obtain ⟨u, htyped⟩ := h.exists_typed_body hlive hg
  obtain ⟨t', hform, hsettles⟩ := h.exists_settles (h.inScope_of_isInstance hlive hg) hprecise htyped hg.body
  have hmem := Signature.mem_types_result md.sig
  have hflows := hflow.close hwf hη rfl hfit (Table.fit_of_mem_types hproper hmem)
  rw [← Table.subst_instantiation ha.toFits (hproper.sig.fit.types _ hmem)
    (hproper.sig.text.types _ hmem)] at hflows
  exact ⟨t', hsettles, h.place_form (h.forms_of_isInstance hlive hg).2 _ _ hform hflows⟩

/-- The body of a ground method is settled and flows into the result. -/
theorem exists_body (hg : G.Makes c args md g) :
    ∃ t', T'.Settles g.scope g.body t' ∧ T'.Flows t' g.sig.result := by
  rcases hg with ⟨-, rfl⟩ | ⟨m, hg⟩
  · exact h.exists_body_placeholder hlive.1
  · exact h.exists_body_of_isInstance hlive hg

/-- A ground method passes its check. -/
theorem exists_checkDecl (hg : G.Makes c args md g) :
    ∃ k, ∀ n ≥ k, Checker.checkDecl ⟨T', false, n⟩ (.method g) = .ok (.method g) := by
  obtain ⟨t', ⟨k₁, hk₁⟩, hflows⟩ := h.exists_body hlive hg
  obtain ⟨k₂, hk₂⟩ := hflows.eventually
  refine ⟨max k₁ k₂, fun n hn => ?_⟩
  rw [ge_iff_le, max_le_iff] at hn
  have hbounds : g.bounds = [] := by
    rw [MethodDecl.bounds, recvFormals_of_makes hg, formals_of_makes hg]
    rfl
  exact Checker.checkDecl_method (h.checkReceiver hlive hg n) (h.checkHeader hlive hg n)
    (hbounds ▸ hk₁ n hn.1) (hbounds ▸ hk₂ n hn.2 _ _)

end Live

/-! ## Programs -/

/-- What a ground type leads to is a ground type, of an instance whose name ranks lower. -/
theorem of_leads {x y : String} (hxy : T'.Leads x y) :
    ∃ c args d ds, .named c args ∈ G.instances.types ∧ .named d ds ∈ G.instances.types
      ∧ x = typeName c args ∧ y = typeName d ds ∧ rank d < rank c := by
  have hmade {td : TypeDecl} (htd : T'.type? x = some td) (hne : td.source ≠ .anything) :
      ∃ c args, .named c args ∈ G.instances.types ∧ x = typeName c args ∧ G.SourceForm c args td.source := by
    obtain ⟨c, args, mem, hok⟩ := (h.made x td htd).resolve_left hne
    obtain ⟨hname, -, hsource⟩ := typeDecl_eq_ok hok
    exact ⟨c, args, mem, (Table.mem_of_type? htd).2.symm.trans hname, h.form_of_isSource mem hsource⟩
  have hwf := h.simple.wellFormed
  cases hxy with
  | source declared head target =>
    obtain ⟨c, args, mem, rfl, hform⟩ := hmade declared (by rw [head]; exact fun he => by cases he)
    rw [head] at hform
    cases hform with
    | @named d ds head' mem' =>
      refine ⟨c, args, d, ds, mem, mem', rfl, rfl, hwf.ranking.lt_of_leads (.single ?_)⟩
      refine hwf.lawful.hasSources.leads_of_underlying head' ?_
      cases (h.values _ mem').1.fit with
      | named head =>
        obtain ⟨td, htd, -⟩ := head
        exact Option.isSome_iff_exists.2 ⟨td, htd⟩
  | embed declared literal member target =>
    -- Ground interfaces embed nothing.
    obtain ⟨c, args, mem, rfl, hform⟩ := hmade declared (by
      rw [literal]
      intro he
      rw [Ty.interface.inj he] at member
      cases member)
    rw [literal] at hform
    cases hform with
    | interface => simp at member

/-- No ground type unfolds to itself. -/
theorem checkAcyclic : T'.checkAcyclic = .ok () := by
  have hrank {x y : String} (hxy : Relation.TransGen T'.Leads x y) :
      ∃ c args d ds, .named c args ∈ G.instances.types ∧ .named d ds ∈ G.instances.types
        ∧ x = typeName c args ∧ y = typeName d ds ∧ rank d < rank c := by
    induction hxy with
    | single hxy => exact h.of_leads hxy
    | tail _ hyz ih =>
      obtain ⟨c, args, d, ds, mem, mem₁, hx, hy, hlt⟩ := ih
      obtain ⟨d', ds', e, es, mem₂, mem₃, hy', hz, hlt'⟩ := h.of_leads hyz
      obtain ⟨rfl, -⟩ := Ty.named.inj (h.regular.apart.types _ _ _ _ mem₁ mem₂ (hy.symm.trans hy'))
      exact ⟨c, args, e, es, mem, mem₃, hx, hz, hlt'.trans hlt⟩
  refine Table.checkAcyclic_iff_not_leads.2 fun x hx => ?_
  obtain ⟨c, args, d, ds, mem, mem', rfl, he, hlt⟩ := hrank hx
  obtain ⟨rfl, -⟩ := Ty.named.inj (h.regular.apart.types _ _ _ _ mem mem' he)
  exact Nat.lt_irrefl _ hlt

/-- **The ground declarations pass their checks, unchanged.** -/
theorem exists_checkDecls {decls : List Decl} {tds : List TypeDecl} {gs : List MethodDecl}
    (hdecls : G.Consists decls tds gs) :
    ∃ k, ∀ n ≥ k, Checker.checkDecls ⟨T', false, n⟩ decls = .ok decls := by
  have hdecl : ∀ d ∈ decls, ∃ k, ∀ n ≥ k, Checker.checkDecl ⟨T', false, n⟩ d = .ok d := by
    rw [hdecls.eq]
    intro d hd
    rw [List.mem_append, List.mem_append, List.mem_map, List.mem_map, List.mem_singleton] at hd
    rcases hd with (⟨td, htd, rfl⟩ | ⟨g, hg, rfl⟩) | rfl
    · obtain ⟨c, args, mem, hok⟩ := hdecls.types.made td htd
      exact ⟨0, fun n _ => Answer.bind_eq_ok.2 ⟨(), h.checkTypeDecl mem hok n, rfl⟩⟩
    · obtain ⟨c, args, md, hlive, hmakes⟩ := hdecls.methods.made g hg
      exact h.exists_checkDecl hlive hmakes
    · exact ⟨0, fun n _ => rfl⟩
  obtain ⟨k, hk⟩ := exists_forall_ge hdecl
  refine ⟨k, fun n hn => Answer.bind_eq_ok.2 ⟨(), Answer.ofExcept_eq_ok.2 h.checkAcyclic, ?_⟩⟩
  exact Answer.mapM_of_forall₂ (List.forall₂_same.2 (hk n hn))

end Checkable

end Grounding

end Ground

end FeatherGo
