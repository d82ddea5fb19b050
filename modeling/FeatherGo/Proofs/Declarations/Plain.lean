import FeatherGo.Proofs.Declarations.Resolve

/-!
# Plain programs

Substitution renames a formal that a substituted type mentions, but it does not look at the names
that are replaced. It is correct where no type argument holds a signature with formals of its own and
where the names of formals are neither primed nor canonical. `Ty.Ordinary` says the latter of a type,
and its check shows that it is spelled under the formals in scope (`Table.spelled_of_okType`);
`Ty.Plain` says both, and then the type is written under them (`Table.written_of_okType`).
-/

namespace FeatherGo

/-! ## What a type binds and gives -/

/-- The formals that a type binds at its head. -/
def Ty.bound : Ty → List String
  | .interface ms => ms.flatMap Member.formalNames
  | _ => []

/-- The types that an interface member gives as type arguments. -/
def Member.given : Member → List Ty
  | .method _ => []
  | .embed _ args => args

/-- The types that a type gives as type arguments at its head. -/
def Ty.given : Ty → List Ty
  | .named _ args => args
  | .interface ms => ms.flatMap Member.given
  | _ => []

/-- The formals that a type binds anywhere. -/
def Ty.binders (t : Ty) : List String := t.preorder.flatMap Ty.bound

/-- The types that a type gives as type arguments anywhere. -/
def Ty.applications (t : Ty) : List Ty := t.preorder.flatMap Ty.given

section Preorder

theorem Ty.mem_preorderAll {ts : List Ty} {u : Ty} :
    u ∈ Ty.preorderAll ts ↔ ∃ t ∈ ts, u ∈ t.preorder := by
  induction ts with
  | nil => simp [Ty.preorderAll]
  | cons t ts ih => simp [Ty.preorderAll, ih]

/-- A declared type is ground where its arguments are. -/
theorem Ty.isGround_named {c : String} {args : List Ty} :
    (Ty.named c args).isGround = true ↔ ∀ t ∈ args, t.isGround = true := by
  have hvars : (Ty.named c args).hasVars = false ↔ ∀ t ∈ args, t.hasVars = false := by
    simp only [Ty.hasVars, Ty.preorder, List.any_cons, Bool.false_or, List.any_eq_false]
    constructor
    · exact fun h t ht u hu => h u (Ty.mem_preorderAll.2 ⟨t, ht, hu⟩)
    · intro h u hu
      obtain ⟨t, ht, hu⟩ := Ty.mem_preorderAll.1 hu
      exact h t ht u hu
  have hparams : (Ty.named c args).freeParams = [] ↔ ∀ t ∈ args, t.freeParams = [] := by
    simp only [List.eq_nil_iff_forall_not_mem, Ty.freeParams, Ty.mem_freeParamsAll, not_exists,
      not_and]
    exact ⟨fun h t ht a ha => h a t ht ha, fun h a t ht ha => h t ht a ha⟩
  simp only [Ty.isGround, Bool.and_eq_true, List.isEmpty_iff, Bool.not_eq_true', hvars, hparams]
  exact ⟨fun h t ht => ⟨h.1 t ht, h.2 t ht⟩, fun h => ⟨fun t ht => (h t ht).1, fun t ht => (h t ht).2⟩⟩

theorem Slot.mem_preorderAll {fs : List Slot} {u : Ty} :
    u ∈ Slot.preorderAll fs ↔ ∃ f ∈ fs, u ∈ f.ty.preorder := by
  induction fs with
  | nil => simp [Slot.preorderAll]
  | cons f fs ih =>
    obtain ⟨x, t⟩ := f
    simp [Slot.preorderAll, ih]

theorem Member.mem_preorderAll {ms : List Member} {u : Ty} :
    u ∈ Member.preorderAll ms ↔ ∃ m ∈ ms, ∃ t ∈ m.types, u ∈ t.preorder := by
  induction ms with
  | nil => simp [Member.preorderAll]
  | cons m ms ih =>
    simp only [List.mem_cons, exists_eq_or_imp, ← ih]
    cases m with
    | method s =>
      obtain ⟨x, fs, ps, r⟩ := s
      simp only [Member.preorderAll, List.mem_append, Slot.mem_preorderAll, Member.types,
        Signature.mem_types]
      constructor
      · rintro (((⟨f, hf, h⟩ | ⟨p, hp, h⟩) | h) | h)
        · exact .inl ⟨_, .inl ⟨f, hf, rfl⟩, h⟩
        · exact .inl ⟨_, .inr (.inl ⟨p, hp, rfl⟩), h⟩
        · exact .inl ⟨_, .inr (.inr rfl), h⟩
        · exact .inr h
      · rintro (⟨t, ⟨f, hf, rfl⟩ | ⟨p, hp, rfl⟩ | rfl, h⟩ | h)
        · exact .inl (.inl (.inl ⟨f, hf, h⟩))
        · exact .inl (.inl (.inr ⟨p, hp, h⟩))
        · exact .inl (.inr h)
        · exact .inr h
    | embed c args => simp [Member.preorderAll, Ty.mem_preorderAll, Member.types]

end Preorder

/-- A type binds no name that substitution could make up. -/
def Ty.Ordinary (t : Ty) : Prop := ∀ a ∈ t.binders, Unprimed a ∧ Uncanonical a

namespace Ty.Ordinary

variable {t : Ty}

/-- What is nested in an ordinary type is ordinary. -/
theorem of_preorder (h : t.Ordinary) {u : Ty} (hu : ∀ v ∈ u.preorder, v ∈ t.preorder) :
    u.Ordinary := by
  intro a ha
  obtain ⟨v, hv, ha⟩ := List.mem_flatMap.1 ha
  exact h a (List.mem_flatMap.2 ⟨v, hu v hv, ha⟩)

theorem named {c : String} {args : List Ty} (h : (Ty.named c args).Ordinary) :
    ∀ a ∈ args, a.Ordinary :=
  fun a ha => h.of_preorder fun _ hv => List.mem_cons_of_mem _ (Ty.mem_preorderAll.2 ⟨a, ha, hv⟩)

theorem struct {fs : List Slot} (h : (Ty.struct fs).Ordinary) : ∀ f ∈ fs, f.ty.Ordinary :=
  fun f hf => h.of_preorder fun _ hv => List.mem_cons_of_mem _ (Slot.mem_preorderAll.2 ⟨f, hf, hv⟩)

theorem formals {ms : List Member} (h : (Ty.interface ms).Ordinary) {m : Member} (hm : m ∈ ms) :
    ∀ a ∈ m.formalNames, Unprimed a ∧ Uncanonical a :=
  fun a ha => h a (List.mem_flatMap.2
    ⟨.interface ms, List.mem_cons_self, List.mem_flatMap.2 ⟨m, hm, ha⟩⟩)

theorem member {ms : List Member} (h : (Ty.interface ms).Ordinary) {m : Member} (hm : m ∈ ms) :
    ∀ t ∈ m.types, t.Ordinary :=
  fun t ht => h.of_preorder fun _ hv =>
    List.mem_cons_of_mem _ (Member.mem_preorderAll.2 ⟨m, hm, t, ht, hv⟩)

/-- A signature whose formals and types are ordinary is ordinary as an interface of its own. -/
theorem alone {s : Signature} (hf : ∀ a ∈ s.formalNames, Unprimed a ∧ Uncanonical a)
    (h : ∀ t ∈ s.types, t.Ordinary) : s.alone.Ordinary := by
  intro a ha
  obtain ⟨v, hv, ha⟩ := List.mem_flatMap.1 ha
  rcases List.mem_cons.1 hv with rfl | hv
  · rw [Ty.bound, List.flatMap_singleton] at ha
    exact hf a ha
  · obtain ⟨m, hm, t, ht, hv⟩ := Member.mem_preorderAll.1 hv
    obtain rfl := List.mem_singleton.1 hm
    exact h t ht a (List.mem_flatMap.2 ⟨v, hv, ha⟩)

end Ty.Ordinary

/-- A type binds no name that substitution could make up, and gives flat types alone as
arguments. -/
structure Ty.Plain (strict : Bool) (t : Ty) : Prop where
  binders : ∀ a ∈ t.binders, Unprimed a ∧ Uncanonical a
  applications : ∀ u ∈ t.applications, u.flat strict = true

namespace Ty.Plain

variable {strict : Bool} {t : Ty}

/-- What is nested in a plain type is plain. -/
theorem of_preorder (h : t.Plain strict) {u : Ty} (hu : ∀ v ∈ u.preorder, v ∈ t.preorder) :
    u.Plain strict := by
  refine ⟨Ty.Ordinary.of_preorder h.binders hu, fun w hw => ?_⟩
  obtain ⟨v, hv, hw⟩ := List.mem_flatMap.1 hw
  exact h.applications w (List.mem_flatMap.2 ⟨v, hu v hv, hw⟩)

theorem named {c : String} {args : List Ty} (h : (Ty.named c args).Plain strict) :
    (∀ a ∈ args, a.flat strict = true) ∧ ∀ a ∈ args, a.Plain strict := by
  refine ⟨fun a ha => h.applications a ?_, fun a ha => h.of_preorder fun v hv => ?_⟩
  · exact List.mem_flatMap.2 ⟨.named c args, List.mem_cons_self, ha⟩
  · exact List.mem_cons_of_mem _ (Ty.mem_preorderAll.2 ⟨a, ha, hv⟩)

theorem struct {fs : List Slot} (h : (Ty.struct fs).Plain strict) :
    ∀ f ∈ fs, f.ty.Plain strict :=
  fun f hf => h.of_preorder fun _ hv =>
    List.mem_cons_of_mem _ (Slot.mem_preorderAll.2 ⟨f, hf, hv⟩)

theorem embed {ms : List Member} (h : (Ty.interface ms).Plain strict) {c : String}
    {args : List Ty} (hm : Member.embed c args ∈ ms) : ∀ a ∈ args, a.flat strict = true :=
  fun a ha => h.applications a (List.mem_flatMap.2
    ⟨.interface ms, List.mem_cons_self, List.mem_flatMap.2 ⟨_, hm, ha⟩⟩)

theorem member {ms : List Member} (h : (Ty.interface ms).Plain strict) {m : Member}
    (hm : m ∈ ms) : ∀ t ∈ m.types, t.Plain strict :=
  fun t ht => h.of_preorder fun _ hv =>
    List.mem_cons_of_mem _ (Member.mem_preorderAll.2 ⟨m, hm, t, ht, hv⟩)

end Ty.Plain

/-! ## Plain types that are spelled are written -/

/-- A member that is sound and gives flat types alone is proper. -/
theorem Member.Sound.proper {V : Vocabulary} {stems : List String} {m : Member}
    (h : m.Sound V true stems) (hflat : ∀ a ∈ m.given, a.flat V.strict = true) :
    m.Proper V stems := by
  cases m with
  | method s => exact ⟨h.1, fun f hf => ⟨(h.2 f hf).1 rfl, (h.2 f hf).2⟩⟩
  | embed c args => exact ⟨h.1, h.2, hflat⟩

/-- A plain type that is scoped fits. -/
theorem Ty.Scoped.fit {V : Vocabulary} {scope stems : List String} {t : Ty}
    (h : t.Scoped V true scope stems) (hplain : t.Plain V.strict) : t.Fit V scope stems := by
  induction h with
  | param mem => exact .param mem
  | named head _ ih => exact .named head hplain.named.1 fun a ha => ih a ha (hplain.named.2 a ha)
  | prim p => exact .prim p
  | struct _ ih => exact .struct fun f hf => ih f hf (hplain.struct f hf)
  | interface sound _ ih =>
    refine .interface (fun m hm => (sound m hm).proper ?_) fun m hm t ht =>
      ih m hm t ht (hplain.member hm t ht)
    cases m with
    | method s => exact fun a ha => absurd ha List.not_mem_nil
    | embed c args => exact hplain.embed hm
  | var n => exact .var n

theorem Ty.Spelled.written {V : Vocabulary} {names : List String} {t : Ty} (h : t.Spelled V names)
    (hplain : t.Plain V.strict) : t.Written V names := ⟨h.inner.fit hplain, h.text⟩

theorem Signature.Spelled.written {V : Vocabulary} {names : List String} {s : Signature}
    (h : s.Spelled V names) (hplain : ∀ t ∈ s.types, t.Plain V.strict) : s.Written V names where
  fit := ⟨h.inner.sound.proper fun _ ha => absurd ha List.not_mem_nil,
    fun t ht => (h.inner.types t ht).fit (hplain t ht)⟩
  text := h.text

/-! ## Texts, put together -/

namespace Ty.Text

theorem of_named {c : String} {args : List Ty} (h : ∀ a ∈ args, a.Text) :
    (Ty.named c args).Text := by
  rw [Ty.Text, Ty.close_named, map_eq_self_iff.2 h]

theorem of_struct {fs : List Slot} (h : ∀ f ∈ fs, f.ty.Text) : (Ty.struct fs).Text := by
  rw [Ty.Text, Ty.close_struct, Ty.struct.injEq, map_eq_self_iff]
  intro f hf
  obtain ⟨x, t⟩ := f
  exact congrArg (Slot.mk x) (h _ hf)

theorem of_interface {ms : List Member} (hf : ∀ m ∈ ms, ∀ a ∈ m.formalNames, Unprimed a)
    (h : ∀ m ∈ ms, ∀ t ∈ m.types, t.Text) : (Ty.interface ms).Text := by
  rw [Ty.Text, Ty.close_interface, Ty.interface.injEq, map_eq_self_iff]
  intro m hm
  cases m with
  | method s =>
    have hnames : ∀ a ∈ s.formalNames, Unprimed a := hf _ hm
    refine congrArg Member.method (Signature.ext_types rfl ?_ ?_ ?_)
    · rw [Signature.formalNames_close]
      exact map_eq_self_iff.2 hnames
    · simp [Signature.close, Slot.map]
    · rw [Signature.types_close, shield_param _ hnames]
      exact map_eq_self_iff.2 (h _ hm)
  | embed c args => exact congrArg (Member.embed c) (map_eq_self_iff.2 (h _ hm))

end Ty.Text

/-! ## What the check of a type establishes -/

namespace Table

variable {T : Table} {n : Nat} {Δ : Bounds} {strict : Bool}

theorem of_okTypes {ts : List Ty} (h : T.okTypes n Δ ts = .ok ()) :
    ∀ t ∈ ts, T.okType n Δ t = .ok () := by
  induction ts with
  | nil => simp
  | cons t ts ih =>
    obtain ⟨⟨⟩, ht, hts⟩ := Answer.bind_eq_ok.1 h
    exact List.forall_mem_cons.2 ⟨ht, ih hts⟩

theorem of_okFields {whole : Ty} {seen : List String} {fs : List Slot}
    (h : T.okFields n Δ whole seen fs = .ok ()) : ∀ f ∈ fs, T.okType n Δ f.ty = .ok () := by
  induction fs generalizing seen with
  | nil => simp
  | cons f fs ih =>
    obtain ⟨x, t⟩ := f
    rw [okFields] at h
    split at h
    · cases h
    · obtain ⟨⟨⟩, ht, hfs⟩ := Answer.bind_eq_ok.1 h
      exact List.forall_mem_cons.2 ⟨ht, ih hfs⟩

theorem of_okParams {meth : String} {seen : List String} {ps : List Slot}
    (h : T.okParams n Δ meth seen ps = .ok ()) : ∀ p ∈ ps, T.okType n Δ p.ty = .ok () := by
  induction ps generalizing seen with
  | nil => simp
  | cons p ps ih =>
    obtain ⟨x, t⟩ := p
    rw [okParams] at h
    split at h
    · cases h
    · obtain ⟨⟨⟩, ht, hps⟩ := Answer.bind_eq_ok.1 h
      exact List.forall_mem_cons.2 ⟨ht, ih hps⟩

theorem of_okBounds {fs : List Slot} (h : T.okBounds n Δ fs = .ok ()) :
    ∀ f ∈ fs, T.okType n Δ f.ty = .ok () ∧ T.isBound f.ty = .ok true := by
  induction fs with
  | nil => simp
  | cons f fs ih =>
    obtain ⟨x, t⟩ := f
    rw [okBounds] at h
    obtain ⟨⟨⟩, ht, h⟩ := Answer.bind_eq_ok.1 h
    obtain ⟨b, hb, h⟩ := Answer.bind_eq_ok.1 h
    rw [Answer.liftExcept_eq, Answer.ofExcept_eq_ok] at hb
    cases b with
    | true => exact List.forall_mem_cons.2 ⟨⟨ht, hb⟩, ih h⟩
    | false => cases h

/-- What the check of an interface member establishes. -/
def OkMember (T : Table) (n : Nat) (Δ : Bounds) : Member → Prop
  | .method s => T.okSignature n Δ s = .ok ()
  | .embed c args => (∃ td, T.applied c args = .ok td
        ∧ T.argumentsWithin n Δ (.type (.named c args)) (instantiation td.formals args) td.formals args
          = .ok ())
      ∧ T.okTypes n Δ args = .ok () ∧ T.isInterface (.named c args) = .ok true

theorem of_okMembers {whole : Ty} {seen : List String} {ms : List Member}
    (h : T.okMembers n Δ whole seen ms = .ok ()) : ∀ m ∈ ms, T.OkMember n Δ m := by
  induction ms generalizing seen with
  | nil => simp
  | cons m ms ih =>
    cases m with
    | method s =>
      obtain ⟨⟨⟩, hs, h⟩ := Answer.bind_eq_ok.1 h
      obtain ⟨seen', -, h⟩ := Answer.bind_eq_ok.1 h
      exact List.forall_mem_cons.2 ⟨hs, ih h⟩
    | embed c args =>
      obtain ⟨td, htd, h⟩ := Answer.bind_eq_ok.1 h
      obtain ⟨⟨⟩, hargs, h⟩ := Answer.bind_eq_ok.1 h
      obtain ⟨⟨⟩, hwithin, h⟩ := Answer.bind_eq_ok.1 h
      obtain ⟨b, hb, h⟩ := Answer.bind_eq_ok.1 h
      rw [Answer.liftExcept_eq, Answer.ofExcept_eq_ok] at htd hb
      cases b with
      | true =>
        obtain ⟨offered, -, h⟩ := Answer.bind_eq_ok.1 h
        obtain ⟨seen', -, h⟩ := Answer.bind_eq_ok.1 h
        exact List.forall_mem_cons.2 ⟨⟨⟨td, htd, hwithin⟩, hargs, hb⟩, ih h⟩
      | false => cases h

/-- Formals that do not clash are all different and not in scope. -/
theorem of_clashingFormal? {seen : List String} {fs : List Slot}
    (h : clashingFormal? Δ seen fs = none) :
    (formalNames fs).Nodup ∧ ∀ a ∈ formalNames fs, a ∉ seen ∧ a ∉ Δ.names := by
  induction fs generalizing seen with
  | nil => simp [formalNames]
  | cons f fs ih =>
    rw [clashingFormal?] at h
    split at h
    · cases h
    · rename_i hf
      rw [not_or, Env.find?_isSome] at hf
      obtain ⟨hnodup, hfresh⟩ := ih h
      rw [formalNames, List.map_cons, List.nodup_cons, List.forall_mem_cons]
      refine ⟨⟨fun hm => (hfresh _ hm).1 List.mem_cons_self, hnodup⟩, hf, fun a ha => ?_⟩
      exact ⟨fun hm => (hfresh a ha).1 (List.mem_cons_of_mem _ hm), (hfresh a ha).2⟩

/-- What the check of a signature establishes. -/
theorem of_okSignature {s : Signature} (h : T.okSignature n Δ s = .ok ()) :
    s.formalNames.Nodup ∧ (∀ a ∈ s.formalNames, a ∉ Δ.names)
      ∧ (∀ f ∈ s.formals, T.isBound f.ty = .ok true)
      ∧ ∀ t ∈ s.types, T.okType n (Δ.extend s.formals) t = .ok () := by
  obtain ⟨m, fs, ps, r⟩ := s
  rw [okSignature] at h
  split at h
  · cases h
  · rename_i hclash
    obtain ⟨hnodup, hfresh⟩ := of_clashingFormal? hclash
    obtain ⟨⟨⟩, hbounds, h⟩ := Answer.bind_eq_ok.1 h
    obtain ⟨⟨⟩, hparams, hresult⟩ := Answer.bind_eq_ok.1 h
    refine ⟨hnodup, fun a ha => (hfresh a ha).2, fun f hf => (of_okBounds hbounds f hf).2, ?_⟩
    exact Signature.forall_types.2
      ⟨fun f hf => (of_okBounds hbounds f hf).1, of_okParams hparams, hresult⟩

theorem names_extend (Δ : Bounds) (fs : List Slot) :
    (Δ.extend fs).names = Δ.names ++ formalNames fs := by
  simp [Bounds.extend, Env.names, formalNames, Function.comp_def]

/-- **An ordinary type that passes the check is spelled under the formals in scope.** -/
theorem spelled_of_okType (hsource : T.HasSources) {t : Ty} (hΔ : ∀ a ∈ Δ.names, Unprimed a)
    (hordinary : t.Ordinary) (h : T.okType n Δ t = .ok ()) :
    t.Spelled (T.vocabulary strict) Δ.names := by
  induction t using Ty.induction generalizing Δ with
  | param a =>
    obtain ⟨b, hb, -⟩ := Answer.bind_eq_ok.1 h
    rw [Answer.liftExcept_eq, Answer.ofExcept_eq_ok, boundOf_eq_ok] at hb
    exact ⟨.param (Env.find?_isSome.1 (hb ▸ rfl)), Ty.text_param a⟩
  | named c args ih =>
    obtain ⟨td, htd, h⟩ := Answer.bind_eq_ok.1 h
    obtain ⟨⟨⟩, hargs, -⟩ := Answer.bind_eq_ok.1 h
    rw [Answer.liftExcept_eq, Answer.ofExcept_eq_ok, applied_eq_ok] at htd
    have hspelled a ha := ih a ha hΔ (hordinary.named a ha) (of_okTypes hargs a ha)
    exact ⟨.named ⟨td, htd⟩ fun a ha => (hspelled a ha).inner,
      .of_named fun a ha => (hspelled a ha).text⟩
  | prim p => exact ⟨.prim p, rfl⟩
  | struct fs ih =>
    have hspelled f hf := ih f hf hΔ (hordinary.struct f hf) (of_okFields h f hf)
    exact ⟨.struct fun f hf => (hspelled f hf).inner, .of_struct fun f hf => (hspelled f hf).text⟩
  | interface ms ih =>
    have hok := of_okMembers h
    have hmember : ∀ m ∈ ms, m.Sound (T.vocabulary strict) true Δ.names ∧ ∀ t ∈ m.types,
        t.Spelled (T.vocabulary strict) (Δ.names ++ m.formalNames) := by
      intro m hm
      have hformals := hordinary.formals hm
      cases m with
      | method s =>
        obtain ⟨hnodup, hfresh, -, htypes⟩ := of_okSignature (hok _ hm)
        have hstems : s.formalNames.map stem = s.formalNames :=
          map_eq_self_iff.2 fun a ha => (hformals a ha).1
        refine ⟨⟨?_, fun a ha => ⟨fun _ => ?_, (hformals a ha).2⟩⟩, fun t ht => ?_⟩
        · exact hstems.symm ▸ hnodup
        · rw [(hformals a ha).1]
          exact hfresh a ha
        · have hspelled := ih _ hm t ht (Δ := Δ.extend s.formals) ?_ (hordinary.member hm t ht)
            (htypes t ht)
          · rwa [names_extend] at hspelled
          · rw [names_extend]
            intro a ha
            exact (List.mem_append.1 ha).elim (hΔ a) fun ha => (hformals a ha).1
      | embed c args =>
        obtain ⟨⟨td, htd, -⟩, hargs, hi⟩ := hok _ hm
        refine ⟨⟨(hsource.namesInterface_iff hi).1 rfl, ⟨td, applied_eq_ok.1 htd⟩⟩,
          fun t ht => ?_⟩
        rw [Member.formalNames, List.append_nil]
        exact ih _ hm t ht hΔ (hordinary.member hm t ht) (of_okTypes hargs t ht)
    refine ⟨.interface (fun m hm => (hmember m hm).1) fun m hm t ht => ?_,
      .of_interface (fun m hm a ha => (hordinary.formals hm a ha).1) fun m hm t ht =>
        ((hmember m hm).2 t ht).text⟩
    have hstems : m.formalNames.map stem = m.formalNames :=
      map_eq_self_iff.2 fun a ha => (hordinary.formals hm a ha).1
    rw [hstems]
    refine ((hmember m hm).2 t ht).inner.mono ?_ fun _ => ?_
    all_goals
      intro a ha
      rw [List.mem_append] at ha ⊢
      exact ha.symm
  | var v => exact ⟨.var v, rfl⟩

/-- A plain type that passes the check is written under the formals in scope. -/
theorem written_of_okType (hsource : T.HasSources) {t : Ty} (hΔ : ∀ a ∈ Δ.names, Unprimed a)
    (hplain : t.Plain strict) (h : T.okType n Δ t = .ok ()) :
    t.Written (T.vocabulary strict) Δ.names :=
  (spelled_of_okType hsource hΔ hplain.binders h).written hplain

/-- An ordinary signature that passes the check is spelled under the formals in scope. -/
theorem spelled_of_okSignature (hsource : T.HasSources) {s : Signature}
    (hΔ : ∀ a ∈ Δ.names, Unprimed a) (hordinary : s.alone.Ordinary)
    (h : T.okSignature n Δ s = .ok ()) : s.Spelled (T.vocabulary strict) Δ.names := by
  have hok : T.okType n Δ s.alone = .ok () := by
    simp [Signature.alone, okType, okMembers, newMembers, h]
  obtain ⟨inner, text⟩ := spelled_of_okType hsource hΔ hordinary hok
  exact ⟨Signature.scoped_alone.1 inner, text⟩

end Table

end FeatherGo
