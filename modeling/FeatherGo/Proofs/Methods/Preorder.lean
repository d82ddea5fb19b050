import FeatherGo.Proofs.Methods.Interfaces

/-!
# Implementing is a preorder that respects embedding

Over declarations that pass their checks a well-formed type implements itself, and types that implement
one another can be chained (`implements_preorder_of_checkDecls`): the parts of the relation that ask for
identity and the comparison of method sets fit together, since what covers the methods of an interface
covers whatever those cover. A type whose definition chain ends in an interface offers all methods of
what this interface embeds, with the same signatures, and so implements it. Bounding contexts and the
names of type formals play no role.
-/

namespace FeatherGo

namespace Table

variable {T : Table} {rank : String → Nat} {Δ : Bounds}

/-- An interface whose members are apart implements what it embeds, and offers its methods. -/
theorem Shaped.implementsBy_embedded (h : T.Shaped rank) {t : Ty} {ms : List Member}
    (ht : T.Headed t) (hv : T.resolve t = .ok (.interface ms)) (hapart : T.Apart ms) {c : String}
    {args : List Ty} (hm : .embed c args ∈ ms) :
    ∃ S E, T.allMethods Δ t = .ok S ∧ T.allMethods Δ (.named c args) = .ok E
      ∧ (∀ s ∈ E, S.find? s.name = some s)
      ∧ T.implementsBy (T.allMethods Δ) t (.named c args) = .ok true := by
  have hms := h.headed_of_resolves ht (resolves_of_resolve hv)
  obtain ⟨hn, hc⟩ := hms.embedded hm
  have hsame : T.allMethods Δ t = T.allMethods Δ (.interface ms) := by
    cases t with
    | named d ds => exact allMethods_of_resolve_interface hv
    | _ => rw [Except.ok.inj hv]
  obtain ⟨S, hS⟩ := h.interfaceMethods_total hms trivial Δ
  obtain ⟨E, hE⟩ := h.interfaceMethods_total hc hn Δ
  have hkept (s : Signature) (hs : s ∈ E) : S.find? s.name = some s :=
    h.embedded_of_methods hms hapart hm hS hE (MethodSet.find?_of_mem (sorted_allMethods hE) hs)
  refine ⟨S, E, hsame.trans hS, hE, hkept, ?_⟩
  refine implementsBy_of_covers (fun v he => ?_) (h.isInterface_eq_true hc hn) hE
    (.inr ⟨S, hsame.trans hS, fun s hs => ⟨s, hkept s hs, s.alphaEq_refl⟩⟩)
  subst he
  cases hv

/-- The interface that a well-formed type resolves to has members that are apart. -/
theorem Shaped.apart_of_resolve (h : T.Shaped rank) (hlists : ∀ c ms, T.Lists c ms → T.Apart ms)
    {n : Nat} {t : Ty} (ht : T.okType n Δ t = .ok ()) {ms : List Member}
    (hv : T.resolve t = .ok (.interface ms)) : T.Apart ms := by
  cases t with
  | named c args =>
    obtain ⟨ms', η, hc, rfl⟩ := h.sources.lists_of_resolves (resolves_of_resolve hv)
    exact (hlists c ms' hc).subst η
  | interface ms' =>
    obtain rfl := Ty.interface.inj (Except.ok.inj hv)
    exact (h.apart_of_okMembers ht).1
  | _ => cases Except.ok.inj hv

end Table

/-- **Implementing is a preorder that respects embedding.** Over declarations that pass their checks and
under every bounding context, a well-formed type implements itself; what implements a type that
implements another implements that one; and a well-formed type whose definition chain ends in an
interface has every method of what this interface embeds, with the same signature, and implements it. -/
theorem implements_preorder_of_checkDecls {C : Checker} {decls decls' : List Decl}
    (hT : Table.ofDecls decls = .ok C.table) (h : C.checkDecls decls = .ok decls') (Δ : Bounds) :
    (∀ a, (∃ n, C.table.okType n Δ a = .ok ()) →
      ∃ N, ∀ m ≥ N, C.table.implements m Δ a a = .ok true)
    ∧ (∀ a b c, (∃ n, C.table.implements n Δ a b = .ok true) →
      (∃ n, C.table.implements n Δ b c = .ok true) →
      ∃ N, ∀ m ≥ N, C.table.implements m Δ a c = .ok true)
    ∧ ∀ a ms c args, (∃ n, C.table.okType n Δ a = .ok ()) →
      C.table.resolve a = .ok (.interface ms) → .embed c args ∈ ms →
      ∃ S E, ∃ N, ∀ m ≥ N, C.table.methods Δ m a = .ok S
        ∧ C.table.methods Δ m (.named c args) = .ok E ∧ (∀ s ∈ E, S.find? s.name = some s)
        ∧ C.table.implements m Δ a (.named c args) = .ok true := by
  obtain ⟨rank, hshaped, hlists⟩ := Checker.shaped_of_checkDecls hT h
  have hfin (a b : Ty) := C.table.finitary_implementsBy a b
  refine ⟨fun a ⟨n, ha⟩ => ?_, fun a b c ⟨n, hab⟩ ⟨n', hbc⟩ => ?_, fun a ms c args ⟨n, ha⟩ hv hm => ?_⟩
  · exact (hfin a a).eventually
      (hshaped.implementsBy_refl (Table.headed_of_okType hshaped.sources ha) Δ)
  · exact (hfin a c).eventually
      (Table.implementsBy_trans ((hfin a b).of_methods hab) ((hfin b c).of_methods hbc))
  · obtain ⟨S, E, hS, hE, hkept, himp⟩ := hshaped.implementsBy_embedded (Δ := Δ)
      (Table.headed_of_okType hshaped.sources ha) hv (hshaped.apart_of_resolve hlists ha hv) hm
    obtain ⟨n₁, h₁⟩ := (Finitary.find a).eventually hS
    obtain ⟨n₂, h₂⟩ := (Finitary.find (.named c args)).eventually hE
    obtain ⟨n₃, h₃⟩ := (hfin a (.named c args)).eventually himp
    exact ⟨S, E, n₁ + n₂ + n₃, fun m hm => ⟨h₁ m (by omega), h₂ m (by omega), hkept, h₃ m (by omega)⟩⟩

/-- An interface that embeds another one at its own formal, under a second name, and a struct type with
the methods of both. -/
def embedding : List Decl :=
  [.type ⟨"Any", [], .anything⟩,
    .type ⟨"Maker", [⟨"a", .named "Any" []⟩],
      .interface [.method ⟨"make", [⟨"b", .named "Any" []⟩], [⟨"x", .param "b"⟩], .param "a"⟩]⟩,
    .type ⟨"Keeper", [⟨"a", .named "Any" []⟩],
      .interface [.method ⟨"kept", [], [], .param "a"⟩, .embed "Maker" [.param "a"]]⟩,
    .type ⟨"Store", [⟨"t", .named "Any" []⟩], .named "Keeper" [.param "t"]⟩,
    .type ⟨"Dot", [], .struct []⟩,
    .method ⟨"d", "Dot", [], ⟨"make", [⟨"c", .named "Any" []⟩], [⟨"y", .param "c"⟩], .named "Dot" []⟩,
      .var "d"⟩,
    .method ⟨"d", "Dot", [], ⟨"kept", [], [], .named "Dot" []⟩, .var "d"⟩]

/-- A struct type implements what a store of its values embeds, and so does a store of what a parameter
stands for. -/
theorem embedding_implements_preorder : ∃ T decls', Table.ofDecls embedding = .ok T
    ∧ Checker.checkDecls ⟨T, false, 9⟩ embedding = .ok decls'
    ∧ (∃ N, ∀ m ≥ N, T.implements m [("p", .named "Any" [])] (.named "Store" [.param "p"])
        (.named "Store" [.param "p"]) = .ok true)
    ∧ (∃ N, ∀ m ≥ N, T.implements m [("p", .named "Any" [])] (.named "Dot" [])
        (.named "Maker" [.named "Dot" []]) = .ok true)
    ∧ ∃ S E, ∃ N, ∀ m ≥ N, T.methods [("p", .named "Any" [])] m (.named "Store" [.param "p"]) = .ok S
        ∧ T.methods [("p", .named "Any" [])] m (.named "Maker" [.param "p"]) = .ok E
        ∧ (∀ s ∈ E, S.find? s.name = some s)
        ∧ T.implements m [("p", .named "Any" [])] (.named "Store" [.param "p"])
          (.named "Maker" [.param "p"]) = .ok true := by
  have hok : (Answer.ofExcept (Table.ofDecls embedding)).any (fun T =>
      (Checker.checkDecls ⟨T, false, 9⟩ embedding).any fun _ =>
      (T.okType 9 [("p", .named "Any" [])] (.named "Store" [.param "p"])).any fun _ =>
      (T.implements 9 [("p", .named "Any" [])] (.named "Dot" [])
        (.named "Store" [.named "Dot" []])).any fun b => b &&
      (T.implements 9 [("p", .named "Any" [])] (.named "Store" [.named "Dot" []])
        (.named "Maker" [.named "Dot" []])).any fun b => b &&
      (Answer.ofExcept (T.resolve (.named "Store" [.param "p"]))).any fun v =>
        decide (v = .interface [.method ⟨"kept", [], [], .param "p"⟩, .embed "Maker" [.param "p"]]))
      = true := by
    decide +kernel
  obtain ⟨T, hT, hok⟩ := Answer.any_eq_true.1 hok
  obtain ⟨decls', hdecls, hok⟩ := Answer.any_eq_true.1 hok
  obtain ⟨⟨⟩, hstore, hok⟩ := Answer.any_eq_true.1 hok
  obtain ⟨b, hdot, hok⟩ := Answer.any_eq_true.1 hok
  obtain ⟨rfl, hok⟩ := Bool.and_eq_true_iff.1 hok
  obtain ⟨b, hmaker, hok⟩ := Answer.any_eq_true.1 hok
  obtain ⟨rfl, hok⟩ := Bool.and_eq_true_iff.1 hok
  obtain ⟨v, hv, hok⟩ := Answer.any_eq_true.1 hok
  obtain rfl := of_decide_eq_true hok
  obtain ⟨hrefl, htrans, hembed⟩ := implements_preorder_of_checkDecls (C := ⟨T, false, 9⟩)
    (Answer.ofExcept_eq_ok.1 hT) hdecls [("p", .named "Any" [])]
  exact ⟨T, decls', Answer.ofExcept_eq_ok.1 hT, hdecls, hrefl _ ⟨9, hstore⟩,
    htrans _ _ _ ⟨9, hdot⟩ ⟨9, hmaker⟩,
    hembed _ _ _ _ ⟨9, hstore⟩ (Answer.ofExcept_eq_ok.1 hv)
      (List.mem_cons_of_mem _ (List.mem_singleton_self _))⟩

end FeatherGo
