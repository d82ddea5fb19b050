import FeatherGo.Proofs.Methods.Ground
import FeatherGo.Proofs.Methods.Interfaces

/-!
# Instantiation in stages

A method can be instantiated in two stages, at the arguments of its receiver when method sets are formed
and at those of a call later, or in one, at all arguments together. Over declarations that pass their
checks both come to the same bounds, parameters and result (`staged_of_checkDecls`): what the method
set of a closed type offers is the declaration at the receiver's arguments, these hold no type parameter
that the formals of the method could capture, and what is put in first is out of reach of the second
stage. Type arguments may be interfaces whose signatures bind names of the method's formals, or names
that are bound where the arguments are put in.
-/

namespace FeatherGo

namespace Table

variable {T : Table}

/-- What a type that is no interface offers under the name of a method is this method at the arguments
of the type. -/
theorem MethodsUnique.find?_methods (hU : T.MethodsUnique) (hs : T.HasSources) {Δ : Bounds} {n : Nat}
    {c m : String} {args : List Ty} (hc : ¬T.NamesInterface c) {S : MethodSet}
    (hS : T.methods Δ n (.named c args) = .ok S) {s : Signature} (hsig : S.find? m = some s)
    {md : MethodDecl} (hmd : T.method? c m = some md) :
    s = md.sig.subst (instantiation md.recvFormals args) := by
  cases n with
  | zero => cases hS
  | succ n =>
    obtain ⟨v, hv, hS⟩ := Answer.bind_eq_ok.1 hS
    rw [Answer.liftExcept_eq, Answer.ofExcept_eq_ok] at hv
    have hdeclared : T.declaredMethods (T.methods Δ n) args (T.methodsOn c) [] = .ok S := by
      cases v with
      | interface ms =>
        exact absurd ((hs.resolves_interface_iff (resolves_of_resolve hv)).1 ⟨ms, rfl⟩) hc
      | _ => exact hS
    obtain ⟨md', η, hmd', hη, rfl⟩ := (hU.find?_declaredMethods hdeclared).1 hsig
    obtain rfl := Option.some.inj (hmd.symm.trans hmd')
    rw [(receiverBy_eq_some.1 hη).2.1]

end Table

/-- **Instantiation in stages and at once agree.** Let declarations pass their checks and `c args` be a
type without type parameters. What its method set offers under the name of a method declared on `c` has,
once closed type arguments are put in for its formals, the bounds, the parameters and the result that the
declaration has with the arguments of the receiver and of the call put in together. -/
theorem staged_of_checkDecls {C : Checker} {decls decls' : List Decl}
    (hT : Table.ofDecls decls = .ok C.table) (h : C.checkDecls decls = .ok decls') {c m : String}
    {args : List Ty} (hargs : (Ty.named c args).freeParams = []) {n : Nat} {S : MethodSet}
    (hS : C.table.methods [] n (.named c args) = .ok S) {s : Signature} (hs : S.find? m = some s)
    {md : MethodDecl} (hmd : C.table.method? c m = some md) {targs : List Ty}
    (htargs : ∀ t ∈ targs, t.freeParams = []) (hl : targs.length = md.sig.formals.length) :
    s.formals.map (fun f => f.ty.subst (instantiation s.formals targs))
        = md.sig.formals.map (fun f => f.ty.subst (instantiation md.recvFormals args
          ++ instantiation md.sig.formals targs))
      ∧ s.params.map (Slot.map (Ty.subst (instantiation s.formals targs)))
        = md.sig.params.map (Slot.map (Ty.subst (instantiation md.recvFormals args
          ++ instantiation md.sig.formals targs)))
      ∧ s.result.subst (instantiation s.formals targs)
        = md.sig.result.subst (instantiation md.recvFormals args
          ++ instantiation md.sig.formals targs) := by
  obtain ⟨rank, hshaped, -⟩ := Checker.shaped_of_checkDecls hT h
  obtain ⟨-, -, hunique⟩ := Table.ofDecls_eq_ok hT
  obtain ⟨hdecl, rfl, -⟩ := Table.of_method? hmd
  obtain ⟨-, hrecv, -⟩ := (Checker.checked_of_checkDecls hT h).2 md hdecl
  have hclosed : ∀ t ∈ args, t.freeParams = [] := by
    intro t ht
    rw [List.eq_nil_iff_forall_not_mem] at hargs ⊢
    exact fun a ha => hargs a (Ty.mem_freeParamsAll.2 ⟨t, ht, ha⟩)
  have hsig := hunique.find?_methods hshaped.sources
    (Table.not_namesInterface_of_checkReceiver hshaped.sources hrecv) hS hs hmd
  exact md.parts_at hclosed hl.symm htargs hsig

/-- Boxes with a method that takes a function on what it is given, and makes a pair. -/
def joining : List Decl :=
  [.type ⟨"Any", [], .anything⟩,
    .type ⟨"Box", [⟨"a", .named "Any" []⟩], .struct [⟨"f", .param "a"⟩]⟩,
    .type ⟨"Pair", [⟨"a", .named "Any" []⟩, ⟨"b", .named "Any" []⟩],
      .struct [⟨"f", .param "a"⟩, ⟨"g", .param "b"⟩]⟩,
    .method ⟨"x", "Box", [⟨"a", .named "Any" []⟩],
      ⟨"with", [⟨"b", .named "Any" []⟩],
        [⟨"y", .param "b"⟩, ⟨"z", .interface [.method ⟨"m", [⟨"c", .named "Any" []⟩],
          [⟨"w", .param "c"⟩], .named "Pair" [.param "a", .param "b"]⟩]⟩],
        .named "Pair" [.param "a", .param "b"]⟩,
      .structLit "Pair" [.param "a", .param "b"] [.select (.var "x") "f", .var "y"]⟩]

/-- A function on every type to itself, with a name for this type. -/
def identities (a : String) : Ty :=
  .interface [.method ⟨"id", [⟨a, .named "Any" []⟩], [⟨"w", .param a⟩], .param a⟩]

/-- Pairing on a box of functions that bind the name of the method's formal, at functions that bind the
name that its parameter binds. -/
theorem joining_staged : ∃ T decls' S s md, Table.ofDecls joining = .ok T
    ∧ Checker.checkDecls ⟨T, false, 9⟩ joining = .ok decls'
    ∧ T.methods [] 9 (.named "Box" [identities "b"]) = .ok S ∧ S.find? "with" = some s
    ∧ T.method? "Box" "with" = some md
    ∧ (s.params.map (Slot.map (Ty.subst (instantiation s.formals [identities "c"])))
      = md.sig.params.map (Slot.map (Ty.subst (instantiation md.recvFormals [identities "b"]
        ++ instantiation md.sig.formals [identities "c"]))))
    ∧ (s.result.subst (instantiation s.formals [identities "c"])
      = md.sig.result.subst (instantiation md.recvFormals [identities "b"]
        ++ instantiation md.sig.formals [identities "c"])) := by
  have hok : (Answer.ofExcept (Table.ofDecls joining)).any (fun T =>
      (Checker.checkDecls ⟨T, false, 9⟩ joining).any fun _ =>
      (T.methods [] 9 (.named "Box" [identities "b"])).any fun S =>
      (S.find? "with").any fun _ =>
      (T.method? "Box" "with").any fun md => decide (md.sig.formals.length = 1)) = true := by
    decide +kernel
  obtain ⟨T, hT, hok⟩ := Answer.any_eq_true.1 hok
  obtain ⟨decls', hdecls, hok⟩ := Answer.any_eq_true.1 hok
  obtain ⟨S, hS, hok⟩ := Answer.any_eq_true.1 hok
  obtain ⟨s, hs, hok⟩ := (Option.any_eq_true _ _).1 hok
  obtain ⟨md, hmd, hok⟩ := (Option.any_eq_true _ _).1 hok
  have hargs : (Ty.named "Box" [identities "b"]).freeParams = [] := by decide +kernel
  have htargs : ∀ t ∈ [identities "c"], t.freeParams = [] := by decide +kernel
  have hT := Answer.ofExcept_eq_ok.1 hT
  obtain ⟨-, hparams, hresult⟩ := staged_of_checkDecls (C := ⟨T, false, 9⟩) hT hdecls hargs hS hs hmd
    htargs (of_decide_eq_true hok).symm
  exact ⟨T, decls', S, s, md, hT, hdecls, hS, hs, hmd, hparams, hresult⟩

end FeatherGo
