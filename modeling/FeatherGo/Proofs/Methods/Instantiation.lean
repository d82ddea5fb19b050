import FeatherGo.Proofs.Declarations.Checked
import FeatherGo.Proofs.Methods.Closing

/-!
# Instantiation keeps `implements`

A type that implements another under a context of bounds goes on to do so when the parameters of the
context are replaced by closed types within their bounds (`implements_subst_of_checkDecls`). The two
sides need not have the same signatures: under the context, type arguments may mention parameters and
have the formals of a method renamed, which closed arguments never do. What is compared after
substitution is the closed form of what was compared before (`Table.Lawful.implements_close`), and
nothing is asked of type arguments: they may hold signatures with formals of their own.
-/

namespace FeatherGo

/-- The type formals that a declaration introduces: for itself, and in signatures in its header. -/
def Decl.typeFormals (d : Decl) : List String := d.formalNames ++ d.headerTypes.flatMap Ty.binders

/-- The type parameters of a bounding context and the formals of signatures in their bounds. -/
def Bounds.typeFormals (Δ : Bounds) : List String := Δ.names ++ (Δ.map (·.2)).flatMap Ty.binders

theorem Ty.ordinary_of_names {t : Ty} (h : ∀ a ∈ t.binders, OrdinaryName a) : t.Ordinary :=
  fun a ha => ⟨(h a ha).unprimed, (h a ha).uncanonical⟩

theorem scopeProper_of_names {names stems : List String} (h : ∀ a ∈ names, OrdinaryName a) :
    ScopeProper names stems :=
  fun a ha => ⟨(h a ha).uncanonical, .inl (h a ha).unprimed⟩

theorem Decl.ordinary_of_names {d : Decl} (h : ∀ a ∈ d.typeFormals, OrdinaryName a) : d.Ordinary where
  formals a ha :=
    have ha := h a (List.mem_append_left _ ha)
    ⟨ha.unprimed, ha.uncanonical⟩
  types t ht := Ty.ordinary_of_names fun a ha =>
    h a (List.mem_append_right _ (List.mem_flatMap.2 ⟨t, ht, ha⟩))

namespace Table

/-- The contexts that checks of type formals give, one after the other from the empty one on. -/
inductive Accepts (T : Table) : Bounds → Prop
  | nil : Accepts T []
  | extend {n : Nat} {Δ Δ' : Bounds} {decl : String} {formals : List Slot} (outer : Accepts T Δ)
      (ok : T.okFormals n Δ decl formals = .ok Δ') : Accepts T Δ'

/-- A substitution of closed types that gives each parameter of a context a well-formed type within its
bound. -/
structure Instantiates (T : Table) (Δ : Bounds) (η : Env Ty) : Prop where
  closed : ∀ a x, η.find? a = some x → x.freeParams = []
  within : ∀ a b, Δ.find? a = some b → ∃ x, η.find? a = some x ∧ (∃ n, T.okType n [] x = .ok ())
    ∧ ∃ n, T.implements n [] x (b.subst η) = .ok true

variable {T : Table} {strict : Bool} {rank : String → Nat} {Δ : Bounds} {η : Env Ty}

/-- The bounds in an accepted context are spelled under parameters of it and may bound. The formals
around a bound are those in scope where it was checked; ones that came later may be named like formals
in it. -/
theorem Accepts.spelled_bound (strict : Bool) (hsource : T.HasSources) (h : T.Accepts Δ)
    (hnames : ∀ a ∈ Δ.typeFormals, OrdinaryName a) {a : String} {b : Ty} (hb : Δ.find? a = some b) :
    ∃ names, (∀ x ∈ names, x ∈ Δ.names) ∧ b.Spelled (T.vocabulary strict) names ∧ T.BoundType b := by
  induction h with
  | nil => cases hb
  | @extend n Δ Δ' decl formals _ ok ih =>
    obtain ⟨rfl, -, -, hok⟩ := of_okFormals ok
    rw [Bounds.extend, Env.find?_append] at hb
    cases hf : Env.find? (formals.map fun f => (f.name, f.ty)) a with
    | some b' =>
      rw [hf] at hb
      obtain rfl : b' = b := by simpa using hb
      obtain ⟨f, hmem, he⟩ := List.mem_map.1 (Env.mem_of_find? hf)
      obtain ⟨-, rfl⟩ := Prod.mk.inj he
      obtain ⟨htype, hbound⟩ := hok f hmem
      have hunprimed : ∀ x ∈ (Δ.extend formals).names, Unprimed x :=
        fun x hx => (hnames x (List.mem_append_left _ hx)).unprimed
      refine ⟨_, fun _ hx => hx, spelled_of_okType hsource hunprimed ?_ htype,
        hsource.boundType hbound⟩
      refine Ty.ordinary_of_names fun x hx => hnames x (List.mem_append_right _ ?_)
      refine List.mem_flatMap.2 ⟨f.ty, List.mem_map.2 ⟨(f.name, f.ty), ?_, rfl⟩, hx⟩
      exact List.mem_append_right _ (List.mem_map_of_mem hmem)
    | none =>
      rw [hf, Option.none_or] at hb
      have houter : ∀ x ∈ Δ.typeFormals, OrdinaryName x := by
        intro x hx
        refine hnames x ((List.mem_append.1 hx).elim (fun hx => ?_) fun hx => ?_)
        · exact List.mem_append_left _ (by rw [names_extend]; exact List.mem_append_left _ hx)
        · refine List.mem_append_right _ ?_
          rw [Bounds.extend, List.map_append, List.flatMap_append]
          exact List.mem_append_left _ hx
      obtain ⟨names, hsub, hspelled, hbound⟩ := ih houter hb
      exact ⟨names, fun x hx => by rw [names_extend]; exact List.mem_append_left _ (hsub x hx),
        hspelled, hbound⟩

/-- What the parameters of a context stand for under a substitution. -/
def meaning (Δ : Bounds) (η : Env Ty) (a : String) : Ty :=
  if a ∈ Δ.names then η.lookup a else .param a

/-- Substitution in a type spelled under parameters of the context is closing it. -/
theorem Instantiates.subst_eq_close (hη : T.Instantiates Δ η) {V : Vocabulary} {names : List String}
    {t : Ty} (ht : t.Spelled V names) (hsub : ∀ a ∈ names, a ∈ Δ.names) :
    t.subst η = t.close (meaning Δ η) := by
  rw [ht.inner.subst_eq_close ht.text fun a x hx q hq => ?_]
  · exact Ty.close_congr fun a ha => (if_pos (hsub a (ht.inner.mem_scope ha))).symm
  · rw [hη.closed a x hx] at hq
    exact absurd hq List.not_mem_nil

section Lawful

variable (h : T.Lawful strict rank) (hΔ : T.Accepts Δ) (hnames : ∀ a ∈ Δ.typeFormals, OrdinaryName a)
  (hη : T.Instantiates Δ η) (hordinary : ∀ a x, η.find? a = some x → x.Ordinary)
include h hη hordinary

/-- What the parameters of a context stand for is sealed. -/
theorem Instantiates.sealing : Sealing (T.vocabulary strict) Δ.names (meaning Δ η) := by
  have hsealed : ∀ a ∈ Δ.names, ((meaning Δ η) a).Sealed (T.vocabulary strict) := by
    intro a ha
    obtain ⟨b, hb⟩ := Option.isSome_iff_exists.1 (Env.find?_isSome.2 ha)
    obtain ⟨x, hx, ⟨n, hok⟩, -⟩ := hη.within a b hb
    obtain ⟨inner, text⟩ : x.Spelled (T.vocabulary strict) [] :=
      spelled_of_okType h.hasSources (fun _ hm => absurd hm List.not_mem_nil) (hordinary a x hx) hok
    rw [meaning, if_pos ha, Env.lookup, hx]
    exact ⟨inner.loose, text⟩
  refine ⟨fun a => ?_, hsealed⟩
  by_cases ha : a ∈ Δ.names
  · exact (hsealed a ha).text
  · rw [meaning, if_neg ha]
    exact Ty.text_param a

include hΔ hnames

/-- What the parameters of an accepted context stand for keeps within their bounds. -/
theorem Instantiates.realizes : T.Realizes strict Δ (meaning Δ η) := by
  have hsealing := hη.sealing h hordinary
  refine ⟨fun a ha => (hnames a (List.mem_append_left _ ha)).uncanonical, fun a b hb => ?_, hsealing,
    fun a b hb => ?_⟩
  · obtain ⟨names, hsub, hspelled, hbound⟩ := hΔ.spelled_bound strict h.hasSources hnames hb
    have hsc : ScopeProper names names :=
      scopeProper_of_names fun x hx => hnames x (List.mem_append_left _ (hsub x hx))
    have hopen := hspelled.inner.opened hsc ⟨hsealing.text, fun x hx => hsealing.sealed x (hsub x hx)⟩
    exact ⟨⟨hopen.inner.mono hsub fun hf => absurd hf (by simp), hopen.steady⟩, hbound⟩
  · obtain ⟨names, hsub, hspelled, -⟩ := hΔ.spelled_bound strict h.hasSources hnames hb
    obtain ⟨x, hx, -, n, himp⟩ := hη.within a b hb
    rw [hη.subst_eq_close hspelled hsub] at himp
    rw [meaning, if_pos (Env.find?_isSome.1 (hb ▸ rfl)), Env.lookup, hx]
    exact (T.finitary_implementsBy _ _).of_methods himp

end Lawful

end Table

/-- **Instantiation keeps `implements`.** Over declarations that pass their checks, a type that
implements another under an accepted context does so after any substitution of closed types within the
bounds of the context, if type formals have ordinary names throughout. -/
theorem implements_subst_of_checkDecls {C : Checker} {decls decls' : List Decl}
    (hT : Table.ofDecls decls = .ok C.table) (h : C.checkDecls decls = .ok decls')
    {Δ : Bounds} (hΔ : C.table.Accepts Δ) {η : Env Ty} (hη : C.table.Instantiates Δ η) {sub sup : Ty}
    (hsub : ∃ n, C.table.okType n Δ sub = .ok ()) (hsup : ∃ n, C.table.okType n Δ sup = .ok ())
    (hdeclNames : ∀ d ∈ decls, ∀ a ∈ d.typeFormals, OrdinaryName a)
    (hboundNames : ∀ a ∈ Δ.typeFormals, OrdinaryName a)
    (hentryNames : ∀ a x, η.find? a = some x → ∀ f ∈ x.binders, OrdinaryName f)
    (htypeNames : ∀ a ∈ sub.binders ++ sup.binders, OrdinaryName a)
    {n : Nat} (himp : C.table.implements n Δ sub sup = .ok true) :
    ∃ N, ∀ m ≥ N, C.table.implements m [] (sub.subst η) (sup.subst η) = .ok true := by
  obtain ⟨rank, hlawful⟩ : ∃ rank, C.table.Lawful false rank :=
    Checker.lawful_of_checkDecls hT (fun d hd => Decl.ordinary_of_names (hdeclNames d hd)) h
  have hm := hη.realizes hlawful hΔ hboundNames
    fun a x hx => Ty.ordinary_of_names (hentryNames a x hx)
  have hspelled {t : Ty} (hok : ∃ n, C.table.okType n Δ t = .ok ())
      (ht : ∀ a ∈ t.binders, OrdinaryName a) : t.Spelled (C.table.vocabulary false) Δ.names := by
    obtain ⟨k, hok⟩ := hok
    exact Table.spelled_of_okType hlawful.hasSources
      (fun a ha => (hboundNames a (List.mem_append_left _ ha)).unprimed) (Ty.ordinary_of_names ht) hok
  have hsub := hspelled hsub fun a ha => htypeNames a (List.mem_append_left _ ha)
  have hsup := hspelled hsup fun a ha => htypeNames a (List.mem_append_right _ ha)
  have hsc : ScopeProper Δ.names Δ.names :=
    scopeProper_of_names fun a ha => hboundNames a (List.mem_append_left _ ha)
  rw [hη.subst_eq_close hsub fun _ ha => ha, hη.subst_eq_close hsup fun _ ha => ha]
  exact (C.table.finitary_implementsBy _ _).eventually
    (hlawful.implements_close hm (hsub.inner.opened hsc hm.sealing) (hsup.inner.opened hsc hm.sealing)
      himp)

/-! ## A type argument with a method that has formals -/

/-- A box whose method `get` has a formal named `b`. -/
def boxing : List Decl :=
  [.type ⟨"Any", [], .anything⟩,
    .type ⟨"Shown", [], .interface [.method ⟨"show", [], [], .named "Any" []⟩]⟩,
    .type ⟨"Dot", [], .struct []⟩,
    .method ⟨"x", "Dot", [], ⟨"show", [], [], .named "Any" []⟩, .var "x"⟩,
    .type ⟨"Box", [⟨"t", .named "Any" []⟩], .struct [⟨"value", .param "t"⟩]⟩,
    .method ⟨"x", "Box", [⟨"t", .named "Any" []⟩],
      ⟨"get", [⟨"b", .named "Any" []⟩], [⟨"y", .param "b"⟩], .param "t"⟩,
      .select (.var "x") "value"⟩]

/-- A type argument that mentions the parameter `b` below a formal of its own. -/
def Boxing.content : Ty :=
  .interface [.method ⟨"map", [⟨"c", .named "Any" []⟩], [⟨"y", .param "c"⟩], .param "b"⟩]

/-- What a box of the content offers, with another name for the formal. -/
def Boxing.getter : Ty :=
  .interface [.method ⟨"get", [⟨"z", .named "Any" []⟩], [⟨"y", .param "z"⟩], Boxing.content⟩]

/-- The context of the parameter `b`. -/
def Boxing.context : Bounds := [("b", .named "Shown" [])]

/-- The parameter `b` stands for a struct type. -/
def Boxing.dots : Env Ty := [("b", .named "Dot" [])]

/-- Under the parameter `b` the formal of `get` is renamed, and once `b` stands for a struct type it is
not. -/
theorem boxing_implements_subst : ∃ T decls', Table.ofDecls boxing = .ok T
    ∧ Checker.checkDecls ⟨T, false, 9⟩ boxing = .ok decls' ∧ T.Accepts Boxing.context
    ∧ T.Instantiates Boxing.context Boxing.dots
    ∧ T.implements 9 Boxing.context (.named "Box" [Boxing.content]) Boxing.getter = .ok true
    ∧ ∃ N, ∀ m ≥ N, T.implements m [] ((Ty.named "Box" [Boxing.content]).subst Boxing.dots)
        (Boxing.getter.subst Boxing.dots) = .ok true := by
  have hok : (Answer.ofExcept (Table.ofDecls boxing)).any (fun T =>
      (Checker.checkDecls ⟨T, false, 9⟩ boxing).any fun _ =>
      (T.okFormals 9 [] "Boxing" [⟨"b", .named "Shown" []⟩]).any fun _ =>
      (T.okType 9 Boxing.context (.named "Box" [Boxing.content])).any fun _ =>
      (T.okType 9 Boxing.context Boxing.getter).any fun _ =>
      (T.okType 9 [] (.named "Dot" [])).any fun _ =>
      (T.implements 9 [] (.named "Dot" []) (.named "Shown" [])).any fun b => b
        && (T.implements 9 Boxing.context (.named "Box" [Boxing.content]) Boxing.getter).any fun b =>
          b) = true := by
    decide +kernel
  obtain ⟨T, hT, hok⟩ := Answer.any_eq_true.1 hok
  obtain ⟨decls', hdecls, hok⟩ := Answer.any_eq_true.1 hok
  obtain ⟨Δ, hΔ, hok⟩ := Answer.any_eq_true.1 hok
  obtain ⟨⟨⟩, hsub, hok⟩ := Answer.any_eq_true.1 hok
  obtain ⟨⟨⟩, hsup, hok⟩ := Answer.any_eq_true.1 hok
  obtain ⟨⟨⟩, hdot, hok⟩ := Answer.any_eq_true.1 hok
  obtain ⟨b, hshown, hok⟩ := Answer.any_eq_true.1 hok
  obtain ⟨rfl, hok⟩ := Bool.and_eq_true_iff.1 hok
  obtain ⟨_, himp, rfl⟩ := Answer.any_eq_true.1 hok
  have haccepts : T.Accepts Boxing.context := by
    obtain ⟨rfl, -⟩ := Table.of_okFormals hΔ
    exact .extend .nil hΔ
  have hη : T.Instantiates Boxing.context Boxing.dots := by
    refine ⟨fun a x hx => ?_, fun a b hb => ?_⟩
    · obtain ⟨-, rfl⟩ : a = "b" ∧ x = .named "Dot" [] := by
        simpa [Boxing.dots, Env.find?, eq_comm] using hx
      rfl
    · obtain ⟨rfl, rfl⟩ : a = "b" ∧ b = .named "Shown" [] := by
        simpa [Boxing.context, Env.find?, eq_comm] using hb
      exact ⟨_, rfl, ⟨9, hdot⟩, 9, hshown⟩
  have hnames (names : List String)
      (h : ∀ a ∈ names, '\'' ∉ a.toList ∧ a.toList.head? ≠ some 'α') : ∀ a ∈ names, OrdinaryName a :=
    fun a ha => ordinaryName_of_head (h a ha).1 (h a ha).2
  refine ⟨T, decls', Answer.ofExcept_eq_ok.1 hT, hdecls, haccepts, hη, himp,
    implements_subst_of_checkDecls (C := ⟨T, false, 9⟩) (Answer.ofExcept_eq_ok.1 hT) hdecls haccepts hη
      ⟨9, hsub⟩ ⟨9, hsup⟩ (fun d hd => hnames _ ?_) (hnames _ (by decide +kernel))
      (fun a x hx => hnames _ ?_) (hnames _ (by decide +kernel)) himp⟩
  · revert d
    decide +kernel
  · obtain ⟨-, rfl⟩ : a = "b" ∧ x = .named "Dot" [] := by
      simpa [Boxing.dots, Env.find?, eq_comm] using hx
    decide +kernel

end FeatherGo
