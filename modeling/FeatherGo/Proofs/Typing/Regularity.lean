import FeatherGo.Proofs.Methods.Instantiation
import FeatherGo.Proofs.Methods.Staged
import FeatherGo.Proofs.Typing.Founded
import FeatherGo.Proofs.Typing.Offering

/-!
# Types that the check gives

Where signatures bind formals at the heads of declarations only, the check gives well-formed types
(`Checker.check_well_formed`).

Elsewhere it need not. A well-formed type binds no type parameter anew that is in scope. The type of a
field is well formed where it is declared, and the check gives it to a selection wherever this stands, so
that a signature in it may bind what is in scope there (`Checker.check_ill_formed`).
-/

namespace FeatherGo

/-- The types that a declaration writes below its head. -/
def Decl.below : Decl → List Ty
  | .type td => td.formals.map (·.ty) ++ td.source.parts
  | .method md => md.recvFormals.map (·.ty) ++ md.sig.types

namespace Table

variable {T : Table} {strict : Bool} {rank : String → Nat} {n : Nat} {Δ : Bounds}

/-! ## Checked declarations -/

section Shaped

variable (h : T.Shaped rank)
include h

theorem Shaped.formedBounds_of_okFormals {decl : String} {formals : List Slot} {Δ' : Bounds}
    (hbinders : ∀ t ∈ formals.map (·.ty), t.binders = [])
    (hok : T.okFormals n Δ decl formals = .ok Δ') : T.FormedBounds (Δ.extend formals) formals := by
  obtain ⟨rfl, -, -, hbounds⟩ := of_okFormals hok
  intro f hf
  obtain ⟨htype, hbound⟩ := hbounds f hf
  exact ⟨h.formed_of_okType (hbinders f.ty (List.mem_map_of_mem hf)) htype, h.sources.boundType hbound⟩

theorem Shaped.formedSignature_of_okSignature {s : Signature} (hbinders : ∀ t ∈ s.types, t.binders = [])
    (hok : T.okSignature n Δ s = .ok ()) : T.FormedSignature Δ s := by
  obtain ⟨-, hfresh, hbounds, htypes⟩ := of_okSignature hok
  exact ⟨hfresh, fun f hf => h.sources.boundType (hbounds f hf),
    fun t ht => h.formed_of_okType (hbinders t ht) (htypes t ht)⟩

theorem Shaped.formedBelow_of_okType {t : Ty} (hbinders : ∀ u ∈ t.parts, u.binders = [])
    (hok : T.okType n Δ t = .ok ()) : T.FormedBelow Δ (T.FormedSignature Δ) t := by
  have hformed {t : Ty} (hbound : t.bound = []) (hbinders : ∀ u ∈ t.parts, u.binders = [])
      (hok : T.okType n Δ t = .ok ()) : T.Formed Δ t := by
    refine h.formed_of_okType (List.eq_nil_iff_forall_not_mem.2 fun a ha => ?_) hok
    rcases Ty.mem_binders.1 ha with ha | ⟨u, hu, ha⟩
    · exact List.not_mem_nil (hbound ▸ ha)
    · exact List.not_mem_nil (hbinders u hu ▸ ha)
  cases t with
  | struct fs =>
    intro f hf
    exact h.formed_of_okType (hbinders f.ty (List.mem_map_of_mem hf)) ((okFields_iff.1 hok).2 f hf).2
  | interface ms =>
    intro m hm
    have hm' := of_okMembers hok m hm
    cases m with
    | method s =>
      exact h.formedSignature_of_okSignature (fun u hu => hbinders u (Ty.mem_parts_of_method hm hu)) hm'
    | embed c args =>
      obtain ⟨⟨td, htd, hwithin⟩, hargs, -⟩ := hm'
      refine hformed rfl (fun a ha => hbinders a (Ty.mem_parts_of_embed hm ha)) ?_
      exact Answer.bind_eq_ok.2 ⟨td, Answer.ofExcept_eq_ok.2 htd, Answer.bind_eq_ok.2 ⟨(), hargs, hwithin⟩⟩
  | _ => exact hformed rfl hbinders hok

end Shaped

/-- **Checked declarations are formed**, if their signatures bind formals at the heads only. -/
theorem formedDeclarations_of_checkDecls {C : Checker} {decls decls' : List Decl}
    (hT : Table.ofDecls decls = .ok C.table) (hdecls : C.checkDecls decls = .ok decls')
    (h : C.table.Shaped rank) (hbinders : ∀ t ∈ decls.flatMap Decl.below, t.binders = []) :
    C.table.FormedDeclarations := by
  obtain ⟨htypes, hmethods⟩ := Checker.checked_of_checkDecls hT hdecls
  have hbelow {d : Decl} (hd : d ∈ decls) {t : Ty} (ht : t ∈ d.below) : t.binders = [] :=
    hbinders t (List.mem_flatMap.2 ⟨d, hd, ht⟩)
  refine ⟨fun c td htd => ?_, fun c td htd => ?_, fun md hmd => ?_, fun md hmd => ?_⟩
  · obtain ⟨hd, hok⟩ := htypes c td htd
    exact h.formedBounds_of_okFormals (fun t ht => hbelow hd (List.mem_append_left _ ht))
      (of_checkTypeDecl hok).2.1
  · obtain ⟨hd, hok⟩ := htypes c td htd
    exact h.formedBelow_of_okType (fun t ht => hbelow hd (List.mem_append_right _ ht))
      (of_checkTypeDecl hok).2.2
  · obtain ⟨hd, hr, hh⟩ := hmethods md hmd
    exact h.formedBounds_of_okFormals (fun t ht => hbelow hd (List.mem_append_left _ ht))
      (of_checkReceiver hr).2.2
  · obtain ⟨hd, hr, hh⟩ := hmethods md hmd
    exact h.formedSignature_of_okSignature (fun t ht => hbelow hd (List.mem_append_right _ ht))
      (of_checkHeader hh)

/-! ## Contexts -/

section Contexts

variable (h : T.Lawful strict rank) (hT : T.FormedDeclarations)
include h hT

/-- **A formed type stays so under further formals.** -/
theorem Formed.extend {formals : List Slot} (hfresh : ∀ a ∈ formalNames formals, a ∉ Δ.names)
    (hbounds : ∀ a b, Δ.find? a = some b → T.Formed Δ b)
    (hbounded : T.Bounded strict (Δ.extend formals))
    (hnames : ∀ a ∈ (Δ.extend formals).names, OrdinaryName a) {t : Ty} (ht : T.Formed Δ t) :
    T.Formed (Δ.extend formals) t := by
  have hwithin : ∀ a ∈ Δ.names, a ∈ (Δ.extend formals).names := by
    rw [names_extend]
    exact fun a ha => List.mem_append_left _ ha
  have hκ : T.Meets strict (Δ.extend formals).names Δ (Δ.extend formals) [] := {
    keys := nofun
    entries := nofun
    rest := fun a ha _ => hwithin a ha
    ordinary := fun a ha => ⟨(hnames a ha).unprimed, (hnames a ha).uncanonical⟩
    within := hwithin
    within' := fun _ ha => ha
    bounded := hbounded
    bounds := fun a b hb => by
      refine ⟨(hbounds a b hb).clear _, ?_⟩
      have ha : a ∈ Δ.names := Env.find?_isSome.1 (hb ▸ rfl)
      have hnone : Env.find? (formals.map fun f => (f.name, f.ty)) a = none := by
        rw [Env.find?_eq_none, names_map_bounds]
        exact fun hmem => hfresh a hmem ha
      have hfind : (Δ.extend formals).find? a = some b := find?_extend.2 (.inr ⟨hnone, hb⟩)
      rw [Ty.subst_nil, Env.lookup_of_none rfl]
      exact fun W hW => ⟨W, allMethods_param hfind ▸ hW, MethodSet.covers_refl (sorted_allMethods hW)⟩ }
  have hself := ht.subst h hT hκ fun a ha => .of_parts (hwithin a ha) (List.forall_mem_nil _)
  rwa [Ty.subst_nil] at hself

/-- **The bounds in an accepted context are formed**, if no signature in them binds formals. -/
theorem Accepts.formed_bound (hΔ : T.Accepts Δ) (hnames : ∀ a ∈ Δ.names, OrdinaryName a)
    (hbinders : ∀ t ∈ Δ.map (·.2), t.binders = []) {a : String} {b : Ty} (hb : Δ.find? a = some b) :
    T.Formed Δ b ∧ T.BoundType b := by
  induction hΔ generalizing a b with
  | nil => cases hb
  | @extend n Δ Δ' decl formals _ ok ih =>
    obtain ⟨rfl, -, hfresh, -⟩ := of_okFormals ok
    rw [Bounds.extend, List.map_append, List.forall_mem_append, List.map_map] at hbinders
    have hown := h.shaped.formedBounds_of_okFormals hbinders.2 ok
    have houter {a : String} {b : Ty} (hb : Δ.find? a = some b) : T.Formed Δ b ∧ T.BoundType b := by
      refine ih (fun a ha => hnames a ?_) hbinders.1 hb
      rw [names_extend]
      exact List.mem_append_left _ ha
    have hcases {a : String} {b : Ty} (hb : (Δ.extend formals).find? a = some b) :
        (∃ f ∈ formals, f.ty = b) ∨ Δ.find? a = some b := by
      refine (find?_extend.1 hb).imp (fun hb => ?_) fun hb => hb.2
      obtain ⟨f, hf, he⟩ := List.mem_map.1 (Env.mem_of_find? hb)
      exact ⟨f, hf, congrArg Prod.snd he⟩
    have hbounded : T.Bounded strict (Δ.extend formals) := by
      intro a b hb
      rcases hcases hb with ⟨f, hf, rfl⟩ | hb
      · exact ⟨(hown f hf).1.scoped, (hown f hf).2⟩
      · refine ⟨(houter hb).1.scoped.mono (fun a ha => ?_) (fun h => absurd h Bool.false_ne_true),
          (houter hb).2⟩
        rw [names_extend]
        exact List.mem_append_left _ ha
    rcases hcases hb with ⟨f, hf, rfl⟩ | hb
    · exact hown f hf
    · exact ⟨(houter hb).1.extend h hT hfresh (fun a b hb => (houter hb).1) hbounded hnames,
        (houter hb).2⟩

end Contexts

end Table

namespace Checker

/-- **The check gives well-formed types.** Over declarations that pass their checks, a type that an
expression has under an accepted context, where variables have well-formed types, is well formed there.

Below the heads of declarations, in the context, in the types of variables and in those that the
expression writes, no signature binds formals. Type formals have ordinary names. -/
theorem check_well_formed {C : Checker} {decls decls' : List Decl}
    (hT : Table.ofDecls decls = .ok C.table) (h : C.checkDecls decls = .ok decls')
    {Δ : Bounds} (hΔ : C.table.Accepts Δ) {Γ : Scope}
    (hΓ : ∀ x t, Γ.find? x = some t → ∃ n, C.table.okType n Δ t = .ok ())
    (hdeclNames : ∀ d ∈ decls, ∀ a ∈ d.typeFormals, OrdinaryName a)
    (hboundNames : ∀ a ∈ Δ.names, OrdinaryName a) {e e' : Expr} {t : Ty}
    (hbinders : ∀ u ∈ decls.flatMap Decl.below ++ Δ.map (·.2) ++ Γ.map (·.2) ++ e.types, u.binders = [])
    (hcheck : C.check Δ Γ e = .ok (t, e')) : ∃ N, ∀ m ≥ N, C.table.okType m Δ t = .ok () := by
  simp only [List.forall_mem_append] at hbinders
  obtain ⟨⟨⟨hbelow, hbounds⟩, hscope⟩, htypes⟩ := hbinders
  obtain ⟨rank, hlawful⟩ : ∃ rank, C.table.Lawful false rank :=
    lawful_of_checkDecls hT (fun d hd => Decl.ordinary_of_names (hdeclNames d hd)) h
  have hshaped := hlawful.shaped
  have hformed := Table.formedDeclarations_of_checkDecls hT h hshaped hbelow
  have hbound {a : String} {b : Ty} (hb : Δ.find? a = some b) :
      C.table.Formed Δ b ∧ C.table.BoundType b :=
    hΔ.formed_bound hlawful hformed hboundNames hbounds hb
  have hupholds := Table.upholds_formed hlawful hformed
    (fun a b hb => ⟨(hbound hb).1.scoped, (hbound hb).2⟩)
    (fun a ha => ⟨(hboundNames a ha).unprimed, (hboundNames a ha).uncanonical⟩)
    fun a b hb => (hbound hb).1
  refine hshaped.okType_of_formed (upheld_of_check hupholds rfl (fun x t hx => ?_) ⟨fun u hu => ?_, ?_⟩
    hcheck)
  · obtain ⟨n, hok⟩ := hΓ x t hx
    exact hshaped.formed_of_okType (hscope t (List.mem_map_of_mem (Env.mem_of_find? hx))) hok
  · exact hshaped.formed_of_okType (htypes u hu) (okType_of_check hcheck u hu)
  · exact fun _ _ => trivial

/-- Boxes with a method that has a formal `b` and makes a constant function from `b` to the box. -/
def wrapping : List Decl :=
  [.type ⟨"Any", [], .anything⟩,
    .type ⟨"Box", [⟨"a", .named "Any" []⟩], .struct [⟨"f", .param "a"⟩]⟩,
    .type ⟨"Const", [⟨"a", .named "Any" []⟩, ⟨"b", .named "Any" []⟩],
      .struct [⟨"f", .named "Box" [.param "a"]⟩]⟩,
    .method ⟨"x", "Const", [⟨"a", .named "Any" []⟩, ⟨"b", .named "Any" []⟩],
      ⟨"m", [], [⟨"z", .param "b"⟩], .named "Box" [.param "a"]⟩, .select (.var "x") "f"⟩,
    .method ⟨"x", "Box", [⟨"a", .named "Any" []⟩],
      ⟨"put", [⟨"b", .named "Any" []⟩], [⟨"y", .param "b"⟩],
        .interface [.method ⟨"m", [], [⟨"z", .param "b"⟩], .named "Box" [.param "a"]⟩]⟩,
      .structLit "Const" [.param "a", .param "b"] [.var "x"]⟩]

/-- The context of the parameter `b`. -/
def Wrapping.context : Bounds := [("b", .named "Any" [])]

/-- A box of the parameter. -/
def Wrapping.box : Ty := .named "Box" [.param "b"]

/-- The call of `put` on a box of the parameter, with this box. -/
def Wrapping.call : Expr := .call (.var "x") "put" [Wrapping.box] [.var "x"]

/-- Under the parameter `b` the formal of `put` is renamed, and the call has a literal type that is well
formed. -/
theorem wrapping_well_formed : ∃ T decls' t e, Table.ofDecls wrapping = .ok T
    ∧ Checker.checkDecls ⟨T, false, 9⟩ wrapping = .ok decls' ∧ T.Accepts Wrapping.context
    ∧ T.okType 9 Wrapping.context Wrapping.box = .ok ()
    ∧ Checker.check ⟨T, false, 9⟩ Wrapping.context [("x", Wrapping.box)] Wrapping.call = .ok (t, e)
    ∧ t = .interface [.method ⟨"m", [], [⟨"z", Wrapping.box⟩], Wrapping.box⟩]
    ∧ ∃ N, ∀ m ≥ N, T.okType m Wrapping.context t = .ok () := by
  have hok : (Answer.ofExcept (Table.ofDecls wrapping)).any (fun T =>
      (Checker.checkDecls ⟨T, false, 9⟩ wrapping).any fun _ =>
      (T.okFormals 9 [] "Wrapping" [⟨"b", .named "Any" []⟩]).any fun _ =>
      (T.okType 9 Wrapping.context Wrapping.box).any fun _ =>
      (Checker.check ⟨T, false, 9⟩ Wrapping.context [("x", Wrapping.box)] Wrapping.call).any fun te =>
        decide (te.1 = .interface [.method ⟨"m", [], [⟨"z", Wrapping.box⟩], Wrapping.box⟩]))
      = true := by
    decide +kernel
  obtain ⟨T, hT, hok⟩ := Answer.any_eq_true.1 hok
  obtain ⟨decls', hdecls, hok⟩ := Answer.any_eq_true.1 hok
  obtain ⟨Δ, hΔ, hok⟩ := Answer.any_eq_true.1 hok
  obtain ⟨⟨⟩, hbox, hok⟩ := Answer.any_eq_true.1 hok
  obtain ⟨⟨t, e⟩, hcheck, hok⟩ := Answer.any_eq_true.1 hok
  have hT := Answer.ofExcept_eq_ok.1 hT
  have haccepts : T.Accepts Wrapping.context := by
    obtain ⟨rfl, -⟩ := Table.of_okFormals hΔ
    exact .extend .nil hΔ
  have hnames (names : List String)
      (h : ∀ a ∈ names, '\'' ∉ a.toList ∧ a.toList.head? ≠ some 'α') : ∀ a ∈ names, OrdinaryName a :=
    fun a ha => ordinaryName_of_head (h a ha).1 (h a ha).2
  refine ⟨T, decls', t, e, hT, hdecls, haccepts, hbox, hcheck, of_decide_eq_true hok,
    check_well_formed (C := ⟨T, false, 9⟩) hT hdecls haccepts (fun x u hx => ?_)
      (fun d hd => hnames _ ?_) (hnames _ (by decide +kernel)) (by decide +kernel) hcheck⟩
  · obtain ⟨-, rfl⟩ : x = "x" ∧ u = Wrapping.box := by simpa [Env.find?, eq_comm] using hx
    exact ⟨9, hbox⟩
  · revert d
    decide +kernel

/-- A struct type with a field for functions on every type, which call it `b`. -/
def holding : List Decl :=
  [.type ⟨"Any", [], .anything⟩, .type ⟨"S", [], .struct [⟨"f", identities "b"⟩]⟩]

/-- Selected where `b` is in scope, the field has a type that is not well formed there. -/
theorem check_ill_formed : ∃ T decls' e, Table.ofDecls holding = .ok T
    ∧ Checker.checkDecls ⟨T, false, 9⟩ holding = .ok decls'
    ∧ T.okFormals 9 [] "g" [⟨"b", .named "Any" []⟩] = .ok [("b", .named "Any" [])]
    ∧ T.okType 9 [("b", .named "Any" [])] (.named "S" []) = .ok ()
    ∧ Checker.check ⟨T, false, 9⟩ [("b", .named "Any" [])] [("s", .named "S" [])]
        (.select (.var "s") "f") = .ok (identities "b", e)
    ∧ ∀ n, T.okType n [("b", .named "Any" [])] (identities "b") = .error (.duplicateFormal "b" "id") := by
  have hok : (Answer.ofExcept (Table.ofDecls holding)).any (fun T =>
      (Checker.checkDecls ⟨T, false, 9⟩ holding).any fun _ =>
      (T.okFormals 9 [] "g" [⟨"b", .named "Any" []⟩]).any fun Δ =>
        decide (Δ = [("b", .named "Any" [])]) &&
      (T.okType 9 [("b", .named "Any" [])] (.named "S" [])).any fun _ =>
      (Checker.check ⟨T, false, 9⟩ [("b", .named "Any" [])] [("s", .named "S" [])]
        (.select (.var "s") "f")).any fun te => decide (te.1 = identities "b")) = true := by
    decide +kernel
  obtain ⟨T, hT, hok⟩ := Answer.any_eq_true.1 hok
  obtain ⟨decls', hdecls, hok⟩ := Answer.any_eq_true.1 hok
  obtain ⟨Δ, hΔ, hok⟩ := Answer.any_eq_true.1 hok
  obtain ⟨hbounds, hok⟩ := Bool.and_eq_true_iff.1 hok
  obtain ⟨⟨⟩, hs, hok⟩ := Answer.any_eq_true.1 hok
  obtain ⟨⟨t, e⟩, he, hok⟩ := Answer.any_eq_true.1 hok
  obtain rfl : t = identities "b" := of_decide_eq_true hok
  obtain rfl := of_decide_eq_true hbounds
  exact ⟨T, decls', e, Answer.ofExcept_eq_ok.1 hT, hdecls, hΔ, hs, he, fun _ => rfl⟩

end Checker

end FeatherGo
