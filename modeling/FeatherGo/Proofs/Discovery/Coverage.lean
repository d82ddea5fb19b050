import FeatherGo.Proofs.Discovery.Closed
import FeatherGo.Proofs.Discovery.Collected
import FeatherGo.Proofs.Typing.Soundness

/-!
# Discovery covers evaluation

Whatever a checked plain program comes to, the types that it names and the calls that it makes are
among the instances that discovery answers (`covers_of_discover`). A call may come to stand on a
receiver of a subtype of the type that it was collected at; a closed set has the call there as well.
-/

namespace FeatherGo

/-! ## What an expression names and calls -/

/-- An expression names types of a set, and the call that it reduces to next, if it is one, is
among the calls of the set. -/
structure Instances.Covers (F : Instances) (e : Expr) : Prop where
  types : ∀ t ∈ e.namedTypes, t ∈ F.types
  calls : ∀ recv m ts args, e.redex = .call recv m ts args → ⟨recv.runtimeType, m, ts⟩ ∈ F.meths

namespace Typed

variable {T : Table} {strict : Bool} {U : Usage} {Γ : Scope}

/-- The types that a typed expression names are in use. -/
theorem types_of_mem {e : Expr} {t u : Ty} (ht : Typed T strict U Γ e t)
    (hu : u ∈ e.namedTypes) : U.types u := by
  have hall {es : List Expr} {ts : List Ty} (hl : es.length = ts.length)
      (ih : ∀ p ∈ es.zip ts, u ∈ p.1.namedTypes → U.types u) (hu : u ∈ Expr.namedTypesAll es) :
      U.types u := by
    obtain ⟨e, he, hu⟩ := Expr.mem_namedTypesAll.1 hu
    obtain ⟨t, hp⟩ := exists_mem_zip hl he
    exact ih _ hp hu
  induction ht with
  | var => cases hu
  | structLit _ used _ length _ _ _ ih =>
    rcases List.mem_cons.1 hu with rfl | hu
    · exact used
    · exact hall length ih hu
  | select _ _ _ ih => exact ih hu
  | call _ _ _ _ _ _ _ _ length _ _ _ ih ihs =>
    rcases List.mem_append.1 hu with hu | hu
    · exact ih hu
    · exact hall length ihs hu
  | assert _ _ used ih =>
    rcases List.mem_cons.1 hu with rfl | hu
    · exact used
    · exact ih hu
  | sprintf _ length _ ih => exact hall length ih hu
  | lit => cases hu
  | binary _ _ _ ihl ihr =>
    rcases List.mem_append.1 hu with hu | hu
    · exact ihl hu
    · exact ihr hu
  | convert _ ih => exact ih hu

/-- The redex of a typed expression is typed. -/
theorem redex {e : Expr} {t : Ty} (ht : Typed T strict U Γ e t) :
    ∃ t', Typed T strict U Γ e.redex t' := by
  have hfirst {whole : Expr} {es : List Expr} {t : Ty} {ts : List Ty}
      (hw : Typed T strict U Γ whole t) (hl : es.length = ts.length)
      (ih : ∀ p ∈ es.zip ts, ∃ t', Typed T strict U Γ p.1.redex t') :
      ∃ t', Typed T strict U Γ (Expr.redexFirst whole es) t' := by
    rcases Expr.redexFirst_eq whole es with ⟨-, he⟩ | ⟨e, hmem, -, he⟩
    · exact ⟨t, he.symm ▸ hw⟩
    · obtain ⟨t, hp⟩ := exists_mem_zip hl hmem
      rw [he]
      exact ih _ hp
  induction ht with
  | var found => exact ⟨_, .var found⟩
  | structLit closed used resolves length typed length' sub ih =>
    exact hfirst (.structLit closed used resolves length typed length' sub) length ih
  | select typed resolves found ih =>
    rw [Expr.redex]
    split
    · exact ⟨_, .select typed resolves found⟩
    · exact ih
  | call typedRecv used closed methods found arity given within length typed length' sub ih ihs =>
    have hwhole := Typed.call typedRecv used closed methods found arity given within length typed
      length' sub
    rw [Expr.redex]
    split
    · exact ih
    · split
      · exact hfirst hwhole length ihs
      · exact ⟨_, hwhole⟩
  | assert typed closed used ih =>
    rw [Expr.redex]
    split
    · exact ⟨_, .assert typed closed used⟩
    · exact ih
  | @sprintf format args ts used length typed ih =>
    have hwhole : Typed T strict U Γ (.sprintf format args) _ := .sprintf used length typed
    rw [Expr.redex]
    split
    · exact ⟨_, hwhole⟩
    · exact hfirst hwhole length ih
  | lit l => exact ⟨_, .lit l⟩
  | binary lhs rhs agree ihl ihr =>
    rw [Expr.redex]
    split
    · exact ihl
    · split
      · exact ⟨_, .binary lhs rhs agree⟩
      · exact ihr
  | convert typed ih =>
    rw [Expr.redex]
    split
    · exact ⟨_, .convert typed⟩
    · exact ih

end Typed

/-! ## Closed sets support evaluation -/

namespace Closure

variable {T : Table} {strict : Bool} {rank : String → Nat} {fuel : Nat} {F : Instances}

/-- A call in use on a type of a closed set is among its calls: on an interface it has been added
to every type that implements it. -/
theorem Closed.mem_meths (hF : (ground T fuel).Closed F) (h : T.WellFormed strict rank) {t u : Ty}
    {m : String} {ts : List Ty} (ht : t ∈ F.types) (hn : t.isNamed = true)
    (hc : (F.usage T).calls t u m ts) : ⟨t, m, ts⟩ ∈ F.meths := by
  obtain ⟨hs, hu, hm⟩ := hc
  cases hs with
  | refl => exact hm
  | untyped => cases hn
  | interface hi hne hcov =>
    by_cases he : t = u
    · exact he ▸ hm
    · obtain ⟨b, hb⟩ := (hF.meths _ hm).decided
      have hbtrue : T.isInterface u = .ok true := by
        cases u with
        | named c args =>
          have hiff := h.lawful.hasSources.namesInterface_iff hb
          exact hiff.2 hi ▸ hb
        | interface ms => rfl
        | _ => exact hi.elim
      obtain ⟨b, himp, hmem⟩ := (hF.meths _ hm).implementers hbtrue t ht hn he
      obtain ⟨S, W, hS, hW, hcov⟩ := hcov
      have himp : T.implementsBy (T.allMethods []) t u = .ok b :=
        (T.finitary_implementsBy t u).of_methods himp
      rw [Table.implementsBy_interface hne hbtrue hW hS, MethodSet.covers_iff.2 hcov] at himp
      exact hmem (Answer.ok.inj himp).symm

/-- A method's receiver and parameters have closed types where its formals can be put in. -/
theorem closed_scopeAt (h : T.WellFormed strict rank) {md : MethodDecl} (hmd : md ∈ T.methodDecls)
    {args targs : List Ty} (ha : md.Fits T strict args targs) {x : String} {t : Ty}
    (hx : (md.scopeAt args targs).find? x = some t) : t.Closed (T.vocabulary strict) := by
  have hproper := h.methods md hmd
  have hsig := hproper.sig.closed_subst ha.recvLength ha.recv.args
  have htypes := hproper.types_at ha.recvLength ha.recv.args ha.length ha.given
  rcases List.mem_cons.1 (Env.mem_of_find? hx) with hp | hp
  · rw [(Prod.mk.inj hp).2]
    exact ha.recv
  · obtain ⟨p, hp, he⟩ := List.mem_map.1 hp
    have hmem := List.mem_map_of_mem (f := Ty.subst (md.instantiation args targs))
      (Signature.mem_types_param hp)
    rw [← htypes] at hmem
    obtain ⟨t', ht', ht⟩ := List.mem_map.1 hmem
    rw [← (Prod.mk.inj he).2, ← ht]
    refine hsig.closed_subst ?_ ha.given ht'
    rw [hproper.sig.subst_eq_close ha.recv.args]
    simpa [Signature.close] using ha.length

/-- Evaluation is supported by the instances of a closed set. -/
theorem Closed.supported (hF : (ground T fuel).Closed F) (h : T.WellFormed strict rank)
    (hT : T.BodiesTyped strict) : Supported T strict (F.usage T) where
  downward := Usage.downward_of T _ _
  related _ _ _ _ hc := hc.1
  bodies md args targs u hmd ha hrecv hcall := by
    have hproper := h.methods md hmd
    have hmem := hF.mem_meths h hrecv rfl hcall
    have hdone := hF.meths _ hmem
    obtain ⟨b, hb⟩ := hdone.decided
    have hfalse : T.isInterface (.named md.recvType args) = .ok false := by
      cases b with
      | true => exact absurd ((h.lawful.hasSources.namesInterface_iff hb).1 rfl) hproper.concrete
      | false => exact hb
    obtain ⟨t, ht, hs⟩ := hT md hmd args targs ha
    obtain ⟨found, hfound, htypes, hmeths⟩ :=
      hdone.body hfalse hrecv _ _ md rfl hproper.unique ha.recvLength ha.length
    obtain ⟨-, hused⟩ := ht.of_collect h (fun x t hx => closed_scopeAt h hmd ha.toFits hx) rfl hfound
    exact ⟨t, hused.of_subset htypes hmeths, hs⟩

end Closure

/-- An expression that is typed under the instances of a closed set is covered by it. -/
theorem Typed.covered {T : Table} {strict : Bool} {rank : String → Nat} {fuel : Nat}
    {F : Instances} (h : T.WellFormed strict rank) (hT : T.BodiesTyped strict)
    (hF : (Closure.ground T fuel).Closed F) {e : Expr} {t : Ty}
    (ht : Typed T strict (F.usage T) [] e t) : F.Covers e where
  types u hu := ht.types_of_mem hu
  calls recv m ts args hr := by
    obtain ⟨t', ht'⟩ := ht.redex
    rw [hr] at ht'
    obtain ⟨c, cargs, es, u, md, rfl, -, -, hused, hcall, -⟩ :=
      ht'.method_of_call h (hF.supported h hT) (Expr.isValue_of_redex hr)
    exact hF.mem_meths h hused rfl hcall

/-- A typed main expression uses the instances that discovery answers. -/
theorem Typed.of_discover {T : Table} {strict : Bool} {rank : String → Nat} (h : T.WellFormed strict rank)
    {fuel : Nat} {main : Expr} {t : Ty} {limit : Option Nat} {F : Instances}
    (ht : Typed T strict .written [] main t) (hF : discover fuel T main limit = .ok F) :
    Typed T strict (F.usage T) [] main t := by
  obtain ⟨found, hfound, htypes, hmeths⟩ := (Closure.of_discover hF).1
  obtain ⟨-, hused⟩ := ht.of_collect h (fun x t hx => by cases hx) rfl hfound
  exact hused.of_subset htypes hmeths

/-- **Discovery covers every run** of a checked program whose type formals have ordinary names and
where no signature in a type argument has formals of its own. -/
theorem covers_of_discover {fuel fuel' : Nat} {p q : Program} {t : Ty} {T : Table}
    {limit : Option Nat} {F : Instances} (hplain : p.Plain false)
    (h : checkProgram fuel false p = .ok (t, q)) (hT : Table.ofDecls q.decls = .ok T)
    (hF : discover fuel' T q.main limit = .ok F) :
    ∀ n e, T.Reaches q.main n e → F.Covers e := by
  obtain ⟨T', rank, hT', hwf, hbodies, -, hmain⟩ := checkProgram_typed hplain h
  obtain rfl := Except.ok.inj (hT'.symm.trans hT)
  obtain ⟨-, hclosed⟩ := Closure.of_discover hF
  intro n e hr
  obtain ⟨t', ht', -⟩ := (hmain.of_discover hwf hF).reaches hwf (hclosed.supported hwf hbodies) hr
  exact ht'.covered hwf hbodies hclosed

/-- A program that calls a method on an interface. -/
def dispatchingProgram : Program where
  decls := [.type ⟨"Any", [], .anything⟩, .type ⟨"A", [], .struct []⟩,
    .type ⟨"Getter", [⟨"T", .named "Any" []⟩], .interface [.method ⟨"get", [], [], .param "T"⟩]⟩,
    .type ⟨"Box", [⟨"T", .named "Any" []⟩], .struct [⟨"value", .param "T"⟩]⟩,
    .method ⟨"x", "Box", [⟨"T", .named "Any" []⟩], ⟨"get", [], [], .param "T"⟩,
      .select (.var "x") "value"⟩,
    .method ⟨"x", "A", [], ⟨"use", [⟨"T", .named "Any" []⟩],
      [⟨"g", .named "Getter" [.param "T"]⟩], .param "T"⟩, .call (.var "g") "get" [] []⟩]
  main := .call (.structLit "A" [] []) "use" [.named "A" []]
    [.structLit "Box" [.named "A" []] [.structLit "A" [] []]]
  printf := false

theorem dispatchingProgram_plain : dispatchingProgram.Plain false := by
  have hnames : ∀ a ∈ dispatchingProgram.typeFormals,
      '\'' ∉ a.toList ∧ a.toList.head? ≠ some 'α' := by decide +kernel
  exact ⟨fun a ha => ordinaryName_of_head (hnames a ha).1 (hnames a ha).2, by decide +kernel⟩

theorem dispatchingProgram_covers : dispatchingProgram.Plain false
    ∧ ∃ t q T F, checkProgram 9 false dispatchingProgram = .ok (t, q)
      ∧ Table.ofDecls q.decls = .ok T ∧ discover 9 T q.main none = .ok F
      ∧ ∀ n e, T.Reaches q.main n e → F.Covers e := by
  have hok : (checkProgram 9 false dispatchingProgram).any (fun r =>
      (Answer.ofExcept (Table.ofDecls r.2.decls)).any fun T =>
        (discover 9 T r.2.main none).any fun _ => true) = true := by decide +kernel
  obtain ⟨⟨t, q⟩, hq, hok⟩ := Answer.any_eq_true.1 hok
  obtain ⟨T, hT, hok⟩ := Answer.any_eq_true.1 hok
  obtain ⟨F, hF, -⟩ := Answer.any_eq_true.1 hok
  have hT := Answer.ofExcept_eq_ok.1 hT
  exact ⟨dispatchingProgram_plain, t, q, T, F, hq, hT, hF,
    covers_of_discover dispatchingProgram_plain hq hT hF⟩

/-- The method instance that an expression calls next, if it calls one. -/
def Expr.called? (e : Expr) : Option MethodInstance :=
  match e.redex with
  | .call recv m ts _ => some ⟨recv.runtimeType, m, ts⟩
  | _ => none

theorem Instances.Covers.mem_of_called? {F : Instances} {e : Expr} (h : F.Covers e)
    {i : MethodInstance} (hi : e.called? = some i) : i ∈ F.meths := by
  unfold Expr.called? at hi
  split at hi
  · rename_i recv m ts args hredex
    obtain rfl := Option.some.inj hi
    exact h.calls recv m ts args hredex
  · cases hi

/-- The program `capturing` is checked and discovery answers for it, but after four steps it calls a
method at an instance that is not in the answer. -/
theorem capturing_uncovered : (∀ a ∈ capturing.typeFormals, OrdinaryName a)
    ∧ ∃ t q T F e, checkProgram 20 false capturing = .ok (t, q) ∧ Table.ofDecls q.decls = .ok T
      ∧ discover 20 T q.main none = .ok F ∧ T.Reaches q.main 4 e ∧ ¬F.Covers e := by
  have hrun : (checkProgram 20 false capturing).any (fun r =>
      (Answer.ofExcept (Table.ofDecls r.2.decls)).any fun T =>
        (discover 20 T r.2.main none).any fun F =>
          ((Machine.mk T 20).after 4 r.2.main).any fun e =>
            e.called?.any fun i => decide (i ∉ F.meths)) = true := by decide +kernel
  obtain ⟨⟨t, q⟩, hq, hrun⟩ := Answer.any_eq_true.1 hrun
  obtain ⟨T, hT, hrun⟩ := Answer.any_eq_true.1 hrun
  obtain ⟨F, hF, hrun⟩ := Answer.any_eq_true.1 hrun
  obtain ⟨e, he, hrun⟩ := Answer.any_eq_true.1 hrun
  obtain ⟨i, hi, hnot⟩ := (Option.any_eq_true _ _).1 hrun
  exact ⟨capturing_names, t, q, T, F, e, hq, Answer.ofExcept_eq_ok.1 hT, hF, Table.reaches_of_after he,
    fun hcov => of_decide_eq_true hnot (hcov.mem_of_called? hi)⟩

end FeatherGo
