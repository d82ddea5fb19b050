import FeatherGo.Command.Digest
import FeatherGo.Proofs.Discovery.Fuel
import FeatherGo.Proofs.Discovery.Programs
import FeatherGo.Proofs.Ground.Checked
import FeatherGo.Proofs.Ground.Clean
import FeatherGo.Proofs.Ground.Total
import FeatherGo.Proofs.Typing.Fuel

/-!
# The ground form of a program keeps its type

A program whose values have nominal types (`Program.Nominal`) and that makes no assertion on or to a type
parameter has a ground form as soon as discovery ends, and its ground form passes its check unchanged, with
the image of the type of its main expression (`Ground.typed_groundProgram`).

The instances that discovery finds make a table under which the ground declarations pass their checks
(`Ground.Grounding.Checkable`). What these checks, discovery and translation answer once they answer with
more fuel too, so all of them are run with one amount of fuel that is enough.
-/

namespace FeatherGo

open Answer (Reaches)

/-! ## Nominal programs -/

/-- What ground types can be made of by name: type parameters have ordinary names and all that is
declared has clean ones, of types not those of primitive types, type arguments have no anonymous parts and
no untyped ones, no value has an anonymous type, and no type is left to inference. -/
structure Program.Nominal (p : Program) : Prop where
  plain : p.Plain true
  labels : ∀ a ∈ p.labels, Ground.Clean a
  types : ∀ a ∈ p.typeNames, ∀ k : Kind, a ≠ k.name
  values : ∀ u ∈ p.values, u.isSimple = true
  vars : ∀ u ∈ p.types, u.hasVars = false

namespace Program.Nominal

variable {p : Program} (h : p.Nominal)
include h

theorem clean_typeNames : ∀ a ∈ p.typeNames, Ground.Clean a ∧ ∀ k : Kind, a ≠ k.name := by
  intro a ha
  refine ⟨h.labels a ?_, h.types a ha⟩
  obtain ⟨td, htd, rfl⟩ := List.mem_map.1 ha
  obtain ⟨d, hd, hdecl⟩ := List.mem_filterMap.1 htd
  refine List.mem_append_left _ (List.mem_flatMap.2 ⟨d, hd, ?_⟩)
  cases d with
  | type td' =>
    obtain rfl := Option.some.inj hdecl
    exact List.mem_cons_self
  | method md => cases hdecl

theorem clean_methodNames : ∀ a ∈ p.methodNames, Ground.Clean a := by
  intro a ha
  refine h.labels a ?_
  obtain ⟨d, hd, ha⟩ := List.mem_flatMap.1 ha
  cases d with
  | method md =>
    obtain rfl := List.mem_singleton.1 ha
    refine List.mem_append_left _ (List.mem_flatMap.2 ⟨_, hd, ?_⟩)
    exact List.mem_cons_of_mem _ List.mem_cons_self
  | type td =>
    -- What an interface lists labels it.
    refine List.mem_append_right _ (List.mem_flatMap.2 ⟨td.source, ?_, ?_⟩)
    · exact mem_types_of_header hd (List.mem_append_right _ List.mem_cons_self)
    · have ha : a ∈ td.source.listed := ha
      refine List.mem_flatMap.2 ⟨_, Ty.mem_preorder_self _, ?_⟩
      cases hs : td.source with
      | interface ms =>
        rw [hs] at ha
        obtain ⟨m, hm, hname⟩ := List.mem_filterMap.1 ha
        cases m with
        | method s =>
          obtain rfl := Option.some.inj hname
          exact List.mem_flatMap.2 ⟨_, hm, List.mem_cons_self⟩
        | embed c args => cases hname
      | _ =>
        rw [hs] at ha
        cases ha

end Program.Nominal

/-! ## Checked programs -/

namespace ProgramCheck

variable {C : Checker} {p q : Program} {t : Ty} {T : Table} (h : ProgramCheck C p t q T)
include h

/-- The fields of discovered types have clean names. -/
theorem clean_fields (hp : p.Nominal) {fuel : Nat} {limit : Option Nat} {F : Instances}
    (hF : discover fuel T q.main limit = .ok F) :
    ∀ u ∈ F.types, ∀ fs, T.Resolves u (.struct fs) → ∀ f ∈ fs, Ground.Clean f.name := by
  have hover : p.Over ⟨Ground.Clean, fun _ => True⟩ := ⟨hp.labels, fun _ _ => trivial⟩
  have hL : Lexicon.Primes ⟨Ground.Clean, fun _ => True⟩ := fun _ _ => trivial
  intro u hu fs hfs
  have hresolved := (hL.hereditary.stable (h.over_table hover).writes Bounds.all_nil).of_resolves
    ((h.over_of_discover hover hL hF).1.types u hu) hfs
  exact (Ty.over_struct.1 hresolved).1

end ProgramCheck

namespace Ground

/-! ## Ground programs -/

section Discovered

variable {p q : Program} {t : Ty} {T₀ T : Table} {n fuel : Nat} {F : Instances}
  (h : ProgramCheck ⟨T₀, false, n⟩ p t q T) (hp : p.Nominal) (hF : discover fuel T q.main none = .ok F)
include h hp hF

/-- The instances of a nominal program without assertions on type parameters make ground declarations that
pass their checks. -/
theorem exists_checkable (hasserts : T.AssertsConcretely n) {decls : List Decl} {tds : List TypeDecl}
    {gs : List MethodDecl} (hdecls : Grounding.Consists ⟨T, F, fuel, topFor T⟩ decls tds gs) :
    ∃ rank, Grounding.Checkable ⟨T, F, fuel, topFor T⟩ ⟨tds ++ [⟨topFor T, [], .anything⟩], gs⟩ rank n := by
  obtain ⟨rank, hsimple⟩ := h.exists_simple hp.plain hp.values
  obtain ⟨hvalues, hoffered⟩ :=
    hsimple.of_discover (h.over_main_valueType hp.plain hp.values) (h.typed_main hp.plain) hF
  have hG := regular_of_clean h hp.plain hp.clean_typeNames hp.clean_methodNames hF
  obtain ⟨-, hnames⟩ := hdecls.ofDecls hG.apart
  have htop : TypeDecl.mk (topFor T) [] .anything ∈ tds ++ [⟨topFor T, [], .anything⟩] :=
    List.mem_append_right _ List.mem_cons_self
  refine ⟨rank, {
    regular := hG
    closed := (Closure.of_discover hF).2
    declared := hdecls.declared hG.apart
    simple := hsimple
    values := hvalues
    offered := hoffered
    types := fun c td htd => h.checkTypeDecl_again (Table.mem_of_type? htd).1
    methods := fun md hmd => h.checkMethodDecl_again hmd
    plain := fun md hmd => h.plain_method hp.plain hmd
    asserts := hasserts
    fields := h.clean_fields hp hF
    top := Table.type?_of_mem (T := ⟨_, gs⟩) hnames htop
    made := fun c td htd => ?_ }⟩
  rcases List.mem_append.1 (Table.mem_of_type? htd).1 with htd | htd
  · exact .inr (hdecls.types.made td htd)
  · exact .inl (by rw [List.mem_singleton.1 htd])

omit hp in
/-- The image of the main expression is settled, with the ground form of its type. -/
theorem exists_settles_main (hplain : p.Plain true) {T' : Table} {rank : String → Nat} {main : Expr}
    (hG : Grounding.Checkable ⟨T, F, fuel, topFor T⟩ T' rank n) (himage : Imaged (topFor T) q.main main) :
    ∃ u, Grounding.Form ⟨T, F, fuel, topFor T⟩ t u ∧ T'.Settles [] main u := by
  have hwf := hG.simple.wellFormed
  obtain ⟨-, hclosed, htclosed⟩ := h.closed_main hplain
  -- No type parameters are in scope, so none has to be put in.
  obtain ⟨-, hprecise⟩ := Checker.precise_of_settled hwf (Table.admits_nil T true) rfl rfl
    (fun _ _ hx => by cases hx) (h.plain_main hplain)
    (.of_closed hwf rfl (fun _ _ hx => by cases hx) hclosed) h.settled_main
  rw [htclosed.close_eq, Expr.substTypes_nil] at hprecise
  exact hG.exists_settles (fun _ _ hx => by cases hx) hprecise
    ((h.typed_main hplain).of_discover hwf hF) himage

/-- A ground program passes its check, with the image of the type of the main expression. -/
theorem exists_reaches_checkProgram (hasserts : T.AssertsConcretely n) {r : Program}
    (hr : programOf fuel T F q.main q.printf = .ok r) :
    ∃ u, imageTy (topFor T) t = .ok u ∧ Reaches (fun n => checkProgram n false r) (.ok (u, r)) := by
  have hG := regular_of_clean h hp.plain hp.clean_typeNames hp.clean_methodNames hF
  obtain ⟨⟨tds, gs, hdecls⟩, himage, -⟩ := Grounding.exists_consists_of_program hG.apart hr
  obtain ⟨rank, hK⟩ := exists_checkable h hp hF hasserts hdecls
  obtain ⟨k, hk⟩ := hK.exists_checkDecls hdecls
  obtain ⟨u, hform, k', hk'⟩ := exists_settles_main h hF hp.plain hK himage
  refine ⟨u, hform.imageTy_eq hG, max k k', fun n hn => ?_⟩
  rw [ge_iff_le, max_le_iff] at hn
  refine Answer.bind_eq_ok.2 ⟨_, Answer.ofExcept_eq_ok.2 (hdecls.ofDecls hG.apart).1, ?_⟩
  exact Answer.bind_eq_ok.2 ⟨_, hk n hn.1, Answer.bind_eq_ok.2 ⟨_, hk' n hn.2, rfl⟩⟩

/-- Given enough fuel there is a ground program of the instances that are discovered. -/
theorem exists_reaches_programOf :
    ∃ r, Reaches (fun n => programOf n T F q.main q.printf) (.ok r) := by
  obtain ⟨rank, hsimple⟩ := h.exists_simple hp.plain hp.values
  obtain ⟨hvalues, -⟩ :=
    hsimple.of_discover (h.over_main_valueType hp.plain hp.values) (h.typed_main hp.plain) hF
  have hwrites := (h.writesUnder hp.vars).2
  have hmain := (h.isGround_main hp.vars).2
  obtain ⟨htypes, hmeths⟩ := (hwrites.of_discover hmain fuel none).2 F hF
  exact Grounding.exists_reaches_program (G := ⟨T, F, fuel, topFor T⟩)
    ⟨hwrites, htypes, fun m hm u hu => hmeths m hm u (List.mem_cons_of_mem _ hu)⟩ hsimple.wellFormed.lawful
    (fun u hu => (hvalues u hu).1) hmain q.printf

end Discovered

/-- The ground form of a program is found once checks, discovery and translation find their answers. -/
theorem reaches_groundProgram {fuel : Nat} {p checked r : Program} {t : Ty} {T : Table} {F : Instances}
    (hcheck : checkProgram fuel false p = .ok (t, checked)) (hT : Table.ofDecls checked.decls = .ok T)
    (hnesting : T.checkNesting fuel = .ok ()) (hF : discover fuel T checked.main none = .ok F)
    (hr : Reaches (fun n => programOf n T F checked.main checked.printf) (.ok r)) :
    Reaches (fun n => groundProgram n .standard p) (.ok r) := by
  have hcheck : Reaches (fun n => checkProgram n false p) (.ok (t, checked)) :=
    .of_below (fun hnm => checkProgram_below hnm false p) hcheck
  have hnesting : Reaches (fun n => T.checkNesting n) (.ok ()) := .of_below Table.checkNesting_below hnesting
  have hF : Reaches (fun n => discover n T checked.main none) (.ok F) :=
    .of_below (fun hnm => discover_below hnm checked.main none) hF
  refine (hcheck.mapError MonoError.type).bind (.bind (a := T) ?_ (hnesting.bind (hF.bind hr)))
  rw [hT]
  exact .const _

/-- A program that asserts that a value of an interface is a box, at a type parameter. -/
def unboxing : Program where
  decls :=
    let any := Ty.named "Any" []
    [.type ⟨"Any", [], .anything⟩, .type ⟨"A", [], .struct []⟩,
      .type ⟨"Getter", [⟨"T", any⟩], .interface [.method ⟨"get", [], [], .param "T"⟩]⟩,
      .type ⟨"Box", [⟨"T", any⟩], .struct [⟨"value", .param "T"⟩]⟩,
      .method ⟨"x", "Box", [⟨"T", any⟩], ⟨"get", [], [], .param "T"⟩, .select (.var "x") "value"⟩,
      .method ⟨"x", "A", [], ⟨"open", [⟨"T", any⟩], [⟨"g", .named "Getter" [.param "T"]⟩], .param "T"⟩,
        .select (.assert (.var "g") (.named "Box" [.param "T"])) "value"⟩]
  main := .call (.structLit "A" [] []) "open" [.named "A" []]
    [.structLit "Box" [.named "A" []] [.structLit "A" [] []]]
  printf := false

theorem unboxing_nominal : unboxing.Nominal where
  plain := by
    have hnames : ∀ a ∈ unboxing.typeFormals,
        '\'' ∉ a.toList ∧ a.toList.head? ≠ some 'α' := by decide +kernel
    exact ⟨fun a ha => ordinaryName_of_head (hnames a ha).1 (hnames a ha).2, by decide +kernel⟩
  labels := by decide +kernel
  types a ha k := by
    revert a
    cases k <;> decide +kernel
  values := by decide +kernel
  vars := by decide +kernel

/-- A program with an assertion on a value of a type parameter, which looks at the bound of the
parameter. At the instance the value is of a struct type. -/
def casting : Program where
  decls :=
    [.type ⟨"Any", [], .anything⟩,
      .type ⟨"A", [], .struct []⟩,
      .type ⟨"S", [], .struct []⟩,
      .method ⟨"s", "S", [], ⟨"cast", [⟨"a", .named "Any" []⟩], [⟨"x", .param "a"⟩], .named "A" []⟩,
        .assert (.var "x") (.named "A" [])⟩]
  main := .call (.structLit "S" [] []) "cast" [.named "A" []] [.structLit "A" [] []]
  printf := false

/-- The struct type that an assertion is made on. -/
def assertedConcrete? : TypeError → Option Ty
  | .assertOnConcrete t _ => some t
  | _ => none

theorem of_assertedConcrete? {err : TypeError} {t : Ty} (h : assertedConcrete? err = some t) :
    ∃ e, err = .assertOnConcrete t e := by
  unfold assertedConcrete? at h
  split at h
  · obtain rfl := Option.some.inj h
    exact ⟨_, rfl⟩
  · cases h

end Ground

end FeatherGo
