import FeatherGo.Proofs.Discovery.Fuel
import FeatherGo.Proofs.Discovery.Grounded
import FeatherGo.Proofs.Discovery.Programs
import FeatherGo.Proofs.Discovery.Spans
import FeatherGo.Proofs.Typing.Inference
import Mathlib.Order.Filter.AtTopBot.Basic
import Mathlib.Order.Filter.Finite

/-!
# Discovery without generic methods

Where no method takes type arguments, the check of nesting is enough: discovery of a program that passes
it ends (`discover_ends_of_checkNesting`). Each body then comes up at one instance, so the types in bodies
are finitely many, and so are those that they lead to (`Table.WellFormed.exists_encloses`). Dispatch
changes the receiver of a call, not the types at which it is made: a type that implements an interface
takes a call at the types at which the interface does (`Table.Simple.callTypes_eq_of_implements`).

With generic methods the check does not see every growth, as `swapping` shows.
-/

namespace FeatherGo

open Filter

/-! ## The types in the signature of a call -/

namespace Table

variable {T : Table} {rank : String → Nat}

/-- The types in the signature of a call, at its type arguments. -/
def callTypes (T : Table) (m : MethodInstance) : Set Ty :=
  {u | ∃ S sig, T.allMethods [] m.recv = .ok S ∧ S.find? m.meth = some sig
    ∧ u ∈ sig.types.map (Ty.subst (instantiation sig.formals m.targs))}

theorem callTypes_eq {m : MethodInstance} {S : MethodSet} {sig : Signature}
    (hS : T.allMethods [] m.recv = .ok S) (hsig : S.find? m.meth = some sig) :
    T.callTypes m = {u | u ∈ sig.types.map (Ty.subst (instantiation sig.formals m.targs))} := by
  ext u
  refine ⟨?_, fun hu => ⟨S, sig, hS, hsig, hu⟩⟩
  rintro ⟨S', sig', hS', hsig', hu⟩
  obtain rfl := Answer.ok.inj (hS.symm.trans hS')
  obtain rfl := Option.some.inj (hsig.symm.trans hsig')
  exact hu

theorem Offered.finite_callTypes {m : MethodInstance} (h : T.Offered m) : (T.callTypes m).Finite := by
  obtain ⟨S, sig, hS, hsig, -⟩ := h
  rw [callTypes_eq hS hsig]
  exact List.finite_toSet _

namespace Simple

variable (h : T.Simple rank)
include h

theorem closed_of_callTypes {m : MethodInstance} (hm : m ∈ (sets T).2) {u : Ty} (hu : u ∈ T.callTypes m) :
    u.Closed (T.vocabulary true) := by
  obtain ⟨S, sig, hS, hsig, hwithin⟩ := hm.2
  rw [callTypes_eq hS hsig] at hu
  obtain ⟨t, ht, rfl⟩ := List.mem_map.1 hu
  have hsc := h.wellFormed.closed_of_allMethods hm.1.recv.1 hS sig (MethodSet.mem_of_find? hsig).1
  exact hsc.closed_subst hwithin.length (given_of_over hm.1) ht

/-- A type that implements an interface takes a call at the types at which the interface does. -/
theorem callTypes_eq_of_implements {m : MethodInstance} (hm : m ∈ (sets T).2) {t : Ty} {n : Nat}
    (ht : T.ValueType t) (hn : t.isNamed = true) (hi : T.isInterface m.recv = .ok true)
    (himp : T.implements n [] t m.recv = .ok true) : T.callTypes ⟨t, m.meth, m.targs⟩ = T.callTypes m := by
  obtain ⟨W, sig, hW, hsig, hwithin⟩ := hm.2
  obtain ⟨S, hS⟩ := h.wellFormed.lawful.methods_total ht.1.sealed []
  have hne : ∀ v, t ≠ .var v := by
    rintro v rfl
    cases hn
  obtain ⟨o, ho, heq⟩ := exists_alphaEq_of_implements hne hi himp hS hW hsig
  have hsc := h.wellFormed.closed_of_allMethods hm.1.recv.1 hW sig (MethodSet.mem_of_find? hsig).1
  have hoc := h.wellFormed.closed_of_allMethods ht.1 hS o (MethodSet.mem_of_find? ho).1
  rw [callTypes_eq hW hsig, callTypes_eq (m := ⟨t, m.meth, m.targs⟩) hS ho]
  dsimp only
  rw [hoc.at_eq hsc heq hwithin.length (given_of_over hm.1)]

/-- So does what the interface embeds. -/
theorem callTypes_eq_of_embedded {m : MethodInstance} (hm : m ∈ (sets T).2) {ms : List Member} {d : String}
    {as : List Ty} {n : Nat} {E : MethodSet} (hms : T.resolve m.recv = .ok (.interface ms))
    (hd : .embed d as ∈ ms) (hE : T.methods [] n (.named d as) = .ok E)
    (hsome : (E.find? m.meth).isSome = true) :
    T.callTypes ⟨.named d as, m.meth, m.targs⟩ = T.callTypes m := by
  obtain ⟨S, sig, hS, hsig, -⟩ := hm.2
  obtain ⟨hE', hfound⟩ := h.find?_embedded hm.1.recv hms hd hE hS hsig hsome
  rw [callTypes_eq hS hsig, callTypes_eq (m := ⟨.named d as, m.meth, m.targs⟩) hE' hfound]

end Simple

/-! ## Instances over some types -/

/-- What lies in two saturated sets is saturated. -/
theorem Saturated.inf {S S' : InstanceSets} (h : T.Saturated S) (h' : T.Saturated S') :
    T.Saturated (S ⊓ S') where
  fields t fs ht hfs f hf := ⟨h.fields t fs ht.1 hfs f hf, h'.fields t fs ht.2 hfs f hf⟩
  source c args u ht hu hn := ⟨h.source c args u ht.1 hu hn, h'.source c args u ht.2 hu hn⟩
  embedded c args ms d as ht hms hd :=
    ⟨h.embedded c args ms d as ht.1 hms hd, h'.embedded c args ms d as ht.2 hms hd⟩
  implementers m t n hm hi ht hn himp :=
    ⟨h.implementers m t n hm.1 hi ht.1 hn himp, h'.implementers m t n hm.2 hi ht.2 hn himp⟩
  embeddings m ms d as n E hm hms hd hE hsome :=
    ⟨h.embeddings m ms d as n E hm.1 hms hd hE hsome, h'.embeddings m ms d as n E hm.2 hms hd hE hsome⟩
  signature m n E sig hm hE hsig hl := by
    obtain ⟨hparams, hresult⟩ := h.signature m n E sig hm.1 hE hsig hl
    obtain ⟨hparams', hresult'⟩ := h'.signature m n E sig hm.2 hE hsig hl
    exact ⟨fun p hp => ⟨hparams p hp, hparams' p hp⟩, hresult, hresult'⟩
  body c args m md found hm hr ht hi hmd hl hl' hfound :=
    le_inf (h.body c args m md found hm.1 hr ht.1 hi hmd hl hl' hfound)
      (h'.body c args m md found hm.2 hr ht.2 hi hmd hl hl' hfound)

/-- Types of a set, and calls of some methods on them at types of the set. -/
def setsIn (T : Table) (G : Set Ty) (L : Set (String × List Ty)) : InstanceSets :=
  (G, {m | m.recv ∈ G ∧ (m.meth, m.targs) ∈ L ∧ T.callTypes m ⊆ G})

theorem finite_setsIn {G : Set Ty} {L : Set (String × List Ty)} (hG : G.Finite) (hL : L.Finite) :
    (T.setsIn G L).1.Finite ∧ (T.setsIn G L).2.Finite := by
  refine ⟨hG, (hG.image2 (fun t l => (⟨t, l.1, l.2⟩ : MethodInstance)) hL).subset ?_⟩
  rintro m ⟨hrecv, hm, -⟩
  exact ⟨m.recv, hrecv, _, hm, rfl⟩

/-- **Calls over enclosed types are a saturated set** if bodies hold no others. -/
theorem Simple.saturated_setsIn (h : T.Simple rank) {B : InstanceSets} (hB : T.Saturated B)
    (hle : B ≤ Simple.sets T) {G : Set Ty} {L : Set (String × List Ty)} (hG : T.Encloses G)
    (hbodies : ∀ md ∈ T.methodDecls, ∀ args targs found, md.recvFormals.length = args.length →
      md.sig.formals.length = targs.length → T.Collects (md.scopeAt args targs)
        (md.body.substTypes (md.instantiation args targs)) found → found.sets ≤ B →
        found.sets ≤ T.setsIn G L) :
    T.Saturated (B ⊓ T.setsIn G L) where
  fields t fs ht hfs f hf := ⟨hB.fields t fs ht.1 hfs f hf, hG t ht.2 _ (.field hfs hf)⟩
  source c args u ht hu hn := ⟨hB.source c args u ht.1 hu hn, hG _ ht.2 _ (.source hu hn)⟩
  embedded c args ms d as ht hms hd :=
    ⟨hB.embedded c args ms d as ht.1 hms hd, hG _ ht.2 _ (.embedded hms hd)⟩
  implementers m t n hm hi ht hn himp := by
    refine ⟨hB.implementers m t n hm.1 hi ht.1 hn himp, ht.2, hm.2.2.1, ?_⟩
    rw [h.callTypes_eq_of_implements (hle.2 hm.1) (hle.1 ht.1) hn hi himp]
    exact hm.2.2.2
  embeddings m ms d as n E hm hms hd hE hsome := by
    obtain ⟨c, args, hr⟩ := (hle.2 hm.1).1.recv.exists_named hms
    refine ⟨hB.embeddings m ms d as n E hm.1 hms hd hE hsome, ?_, hm.2.2.1, ?_⟩
    · exact hG _ hm.2.1 _ (hr ▸ .embedded (hr ▸ hms) hd)
    · rw [h.callTypes_eq_of_embedded (hle.2 hm.1) hms hd hE hsome]
      exact hm.2.2.2
  signature m n S sig hm hS hsig hl := by
    obtain ⟨hparams, hresult⟩ := hB.signature m n S sig hm.1 hS hsig hl
    have htypes {t : Ty} (ht : t ∈ sig.types) : t.subst (instantiation sig.formals m.targs) ∈ G :=
      hm.2.2.2 ⟨S, sig, (Finitary.find _).of_methods hS, hsig, List.mem_map_of_mem ht⟩
    exact ⟨fun p hp => ⟨hparams p hp, htypes (Signature.mem_types_param hp)⟩, hresult,
      htypes sig.mem_types_result⟩
  body c args m md found hm hr ht hi hmd hl hl' hfound := by
    have hle := hB.body c args m md found hm.1 hr ht.1 hi hmd hl hl' hfound
    obtain ⟨hdecl, rfl, -⟩ := of_method? hmd
    obtain ⟨recv, meth, targs⟩ := m
    obtain rfl : recv = _ := hr
    exact le_inf hle (hbodies md hdecl args targs found hl hl' hfound hle)

/-! ## Typing answers -/

theorem Simple.eventually_answers (h : T.Simple rank) {S : InstanceSets} (hle : S ≤ Simple.sets T)
    (hground : S ≤ setsOver (fun t => t.isGround = true) fun _ => True) (htypes : S.1.Finite)
    (hmeths : S.2.Finite)
    (hbodies : ∀ᶠ n in atTop, ∀ md ∈ T.methodDecls, ∀ args targs,
      md.recvFormals.length = args.length → md.sig.formals.length = targs.length →
        ∃ found, (Checker.mk T true n).collect [] (md.scopeAt args targs)
          (md.body.substTypes (md.instantiation args targs)) .empty = (.ok (), found)) :
    ∀ᶠ n in atTop, T.Answers n S := by
  have hlawful := h.wellFormed.lawful
  have hmethods {t : Ty} (ht : t.Closed (T.vocabulary true)) :
      ∀ᶠ n in atTop, ∃ E, T.methods [] n t = .ok E := by
    obtain ⟨E, hE⟩ := hlawful.methods_total ht.sealed []
    obtain ⟨k, hk⟩ := (Finitary.find t).eventually hE
    exact eventually_atTop.2 ⟨k, fun n hn => ⟨E, hk n hn⟩⟩
  have himplements : ∀ᶠ n in atTop, ∀ m ∈ S.2, ∀ t ∈ S.1,
      ∃ b, T.implements n [] t m.recv = .ok b := by
    refine (eventually_all_finite hmeths).2 fun m hm => (eventually_all_finite htypes).2 fun t ht => ?_
    have hrecv := (hle.2 hm).1.recv.1
    obtain ⟨b, hb⟩ := hlawful.implementsBy_total hrecv.sealed.inner hrecv.ne_param
      (hlawful.methods_total (hle.1 ht).1.sealed [])
    obtain ⟨k, hk⟩ := (T.finitary_implementsBy t m.recv).eventually hb
    exact eventually_atTop.2 ⟨k, fun n hn => ⟨b, hk n hn⟩⟩
  have hembedded : ∀ᶠ n in atTop, ∀ m ∈ S.2, ∃ us, Closure.embeddedIn T m.recv = .ok us
      ∧ ∀ u ∈ us, ∃ E, T.methods [] n u = .ok E := by
    refine (eventually_all_finite hmeths).2 fun m hm => ?_
    have hrecv := (hle.2 hm).1.recv.1
    obtain ⟨us, hus⟩ := hlawful.embeddedIn_total hrecv.sealed.inner
    have hclosed (u : Ty) (hu : u ∈ us) : u.Closed (T.vocabulary true) := by
      obtain ⟨ms, d, as, hms, hd, rfl⟩ := (Closure.mem_embeddedIn hus).1 hu
      exact (closed_of_embed (h.wellFormed.closed_of_resolves hrecv (resolves_of_resolve hms)) hd).1
    have hall := (eventually_all_finite us.finite_toSet).2 fun u hu => hmethods (hclosed u hu)
    exact hall.mono fun n hn => ⟨us, hus, hn⟩
  have hcalled : ∀ᶠ n in atTop, ∀ m ∈ S.2, ∃ E, T.methods [] n m.recv = .ok E :=
    (eventually_all_finite hmeths).2 fun m hm => hmethods (hle.2 hm).1.recv.1
  filter_upwards [himplements, hembedded, hcalled, hbodies] with n himplements hembedded hcalled hbodies
  exact {
    typesGround := fun t ht => hground.1 ht
    methsGround := fun m hm => List.forall_mem_cons.2
      ⟨(hground.2 hm).recv, fun t ht => ((hground.2 hm).targs t ht).1⟩
    demanded := fun t ht => hlawful.demanded_total (hle.1 ht).1.sealed.inner
    decided := fun m hm => by
      obtain ⟨b, hb, -⟩ := hlawful.shaped.isInterface_total
        (headed_of_scoped (hle.2 hm).1.recv.1.sealed.inner)
      exact ⟨b, hb⟩
    implements := fun m hm _ t ht _ _ => himplements m hm t ht
    embedded := fun m hm _ => hembedded m hm
    methods := hcalled
    bodies := fun c args m md hm hr _ _ hmd hl hl' => by
      obtain ⟨hdecl, rfl, -⟩ := of_method? hmd
      obtain ⟨recv, meth, targs⟩ := m
      obtain rfl : recv = _ := hr
      exact hbodies md hdecl args targs hl hl' }

/-! ## Methods without type arguments -/

/-- No method takes type arguments, by its receiver or of its own. -/
def Monomorphic (T : Table) : Prop := ∀ md ∈ T.methodDecls, md.recvFormals = [] ∧ md.sig.formals = []

instance (T : Table) : Decidable T.Monomorphic :=
  inferInstanceAs (Decidable (∀ md ∈ T.methodDecls, md.recvFormals = [] ∧ md.sig.formals = []))

/-- Bodies come up as they are written. -/
theorem Monomorphic.body_eq (h : T.Monomorphic) {md : MethodDecl} (hmd : md ∈ T.methodDecls)
    {args : List Ty} (hl : md.recvFormals.length = args.length) (targs : List Ty) :
    md.scopeAt args targs = md.scope ∧ md.body.substTypes (md.instantiation args targs) = md.body
      ∧ md.bounds = [] := by
  obtain ⟨hrecv, hformals⟩ := h md hmd
  rw [hrecv] at hl
  obtain rfl := List.eq_nil_of_length_eq_zero hl.symm
  have hη : md.instantiation [] targs = [] := by
    rw [MethodDecl.instantiation, hrecv, hformals]
    rfl
  rw [MethodDecl.scopeAt, MethodDecl.scope, MethodDecl.selfType, hη, hrecv, MethodDecl.bounds, hrecv,
    hformals, Expr.substTypes_nil]
  simp [Ty.subst_nil, formalArguments, Bounds.extend]

/-- The instances that are written: in the main expression, and in bodies. -/
def written (T : Table) (main : Expr) : Set Instances :=
  {F | T.Collects [] main F ∨ ∃ md ∈ T.methodDecls, T.Collects md.scope md.body F}

theorem finite_written (T : Table) (main : Expr) : (T.written main).Finite := by
  have hfinite (Γ : Scope) (e : Expr) : {F | T.Collects Γ e F}.Finite :=
    Set.Subsingleton.finite fun F hF F' hF' => hF.unique hF'
  have hbodies := T.methodDecls.finite_toSet.biUnion fun md _ => hfinite md.scope md.body
  refine ((hfinite [] main).union hbodies).subset ?_
  rintro F (hF | ⟨md, hmd, hF⟩)
  · exact .inl hF
  · exact .inr (Set.mem_biUnion hmd hF)

/-- The types of instances, those of calls included. -/
def typesOf (T : Table) (F : Instances) : Set Ty :=
  {t | t ∈ F.types} ∪ ⋃ m ∈ {m | m ∈ F.meths}, insert m.recv (T.callTypes m)

/-- Calls without their receivers. -/
def callsOf (F : Instances) : Set (String × List Ty) := (fun m => (m.meth, m.targs)) '' {m | m ∈ F.meths}

theorem sets_le_setsIn {F : Instances} {G : Set Ty} {L : Set (String × List Ty)} (htypes : T.typesOf F ⊆ G)
    (hcalls : callsOf F ⊆ L) : F.sets ≤ T.setsIn G L := by
  refine ⟨fun t ht => htypes (.inl ht), fun m hm => ?_⟩
  have hcall : insert m.recv (T.callTypes m) ⊆ G := fun u hu =>
    htypes (.inr (Set.mem_biUnion (x := m) hm hu))
  exact ⟨hcall (.inl rfl), hcalls ⟨m, hm, rfl⟩, fun u hu => hcall (.inr hu)⟩

theorem finite_typesOf {F : Instances} (hF : F.sets ≤ Simple.sets T) : (T.typesOf F).Finite := by
  refine F.types.finite_toSet.union (F.meths.finite_toSet.biUnion fun m hm => ?_)
  exact (hF.2 hm).2.finite_callTypes.insert _

theorem Simple.closed_of_typesOf (h : T.Simple rank) {F : Instances} (hF : F.sets ≤ Simple.sets T) {t : Ty}
    (ht : t ∈ T.typesOf F) : t.Closed (T.vocabulary true) := by
  rcases ht with ht | ht
  · exact (hF.1 ht).1
  · obtain ⟨m, hm, rfl | ht⟩ := Set.mem_iUnion₂.1 ht
    · exact (hF.2 hm).1.recv.1
    · exact h.closed_of_callTypes (hF.2 hm) ht

/-- A saturated set of calls over simple types has a finite saturated part that holds what is written. -/
theorem Simple.exists_finite_saturated (h : T.Simple rank) (hmono : T.Monomorphic)
    (hspans : T.SpansFinitely) {B : InstanceSets} (hB : T.Saturated B) (hle : B ≤ Simple.sets T)
    {main : Expr} (hmain : T.Seeded main B) :
    ∃ S ≤ B, S.1.Finite ∧ S.2.Finite ∧ T.Seeded main S ∧ T.Saturated S := by
  let W := {F | F ∈ T.written main ∧ F.sets ≤ B}
  have hW : W.Finite := (T.finite_written main).subset fun _ hF => hF.1
  have htypes := hW.biUnion fun F hF => finite_typesOf (hF.2.trans hle)
  have hcalls := hW.biUnion fun F _ => F.meths.finite_toSet.image fun m => (m.meth, m.targs)
  obtain ⟨G, hG, hsub, hencloses⟩ := h.wellFormed.exists_encloses hspans htypes fun t ht => by
    obtain ⟨F, hF, ht⟩ := Set.mem_iUnion₂.1 ht
    exact h.closed_of_typesOf (hF.2.trans hle) ht
  have hin {F : Instances} (hF : F ∈ W) : F.sets ≤ T.setsIn G (⋃ F ∈ W, callsOf F) :=
    sets_le_setsIn (fun t ht => hsub (Set.mem_biUnion hF ht)) fun c hc => Set.mem_biUnion hF hc
  obtain ⟨hfinite, hfinite'⟩ := T.finite_setsIn hG hcalls
  refine ⟨B ⊓ T.setsIn G (⋃ F ∈ W, callsOf F), inf_le_left, hfinite.subset Set.inter_subset_right,
    hfinite'.subset Set.inter_subset_right, fun F hF => ?_, ?_⟩
  · exact le_inf (hmain F hF) (hin ⟨.inl hF, hmain F hF⟩)
  · refine h.saturated_setsIn hB hle hencloses fun md hmd args targs found hl _ hfound hfoundB => ?_
    obtain ⟨hscope, hbody, -⟩ := hmono.body_eq hmd hl targs
    rw [hscope, hbody] at hfound
    exact hin ⟨.inr ⟨md, hmd, hfound⟩, hfoundB⟩

end Table

/-! ## Programs -/

namespace ProgramCheck

variable {C : Checker} {p q : Program} {t : Ty} {T : Table} (h : ProgramCheck C p t q T)
include h

/-- Instances are collected from the main expression of a checked program. -/
theorem exists_collect_main :
    ∃ F, (Checker.mk T true C.fuel).collect [] [] q.main .empty = (.ok (), F) :=
  Checker.exists_collect_of_check (Checker.check_lenient h.settled_main) .empty

/-- So they are from bodies as they are written. -/
theorem exists_collect_body {md : MethodDecl} (hmd : md ∈ T.methodDecls) :
    ∃ F, (Checker.mk T true C.fuel).collect md.bounds md.scope md.body .empty = (.ok (), F) := by
  obtain ⟨-, -, u, body, body', hcheck, -⟩ := Checker.of_checkMethodDecl (h.checkMethodDecl_again hmd)
  exact Checker.exists_collect_of_check (Checker.check_lenient hcheck) .empty

end ProgramCheck

/-- **The check of nesting makes discovery end where no method takes type arguments.** A program whose
values have simple types, and whose methods have no type formals, either fails the check or has finitely
many instances: with enough passes, and enough fuel, discovery answers. -/
theorem discover_ends_of_checkNesting {fuel n : Nat} {p q : Program} {t : Ty} {T : Table}
    (hplain : p.Plain true) (hvalues : ∀ u ∈ p.values, u.isSimple = true)
    (hvars : ∀ u ∈ p.types, u.hasVars = false) (h : checkProgram fuel false p = .ok (t, q))
    (hT : Table.ofDecls q.decls = .ok T) (hmono : T.Monomorphic) (hnesting : T.checkNesting n = .ok ()) :
    ∃ most m F, ∀ k ≥ m, discover k T q.main (some most) = .ok F := by
  obtain ⟨T₀, T', hcheck⟩ := exists_programCheck h
  obtain rfl := Except.ok.inj (hT.symm.trans hcheck.checked)
  obtain ⟨rank, hsimple⟩ := hcheck.exists_simple hplain hvalues
  have hground := (hcheck.writesUnder hvars).2.keepsInstances
  have hmain : T.Seeded q.main
      (Table.Simple.sets T ⊓ Table.setsOver (fun t => t.isGround = true) fun _ => True) := by
    refine fun F hF => le_inf ?_ ?_
    · exact hsimple.collects_le (fun x t hx => by cases hx) (hcheck.over_main_valueType hplain hvalues)
        (hcheck.typed_main hplain) hF
    · exact hground.toKeeps.collects_le (fun x t hx => by cases hx)
        ⟨(hcheck.isGround_main hvars).2, fun _ _ => trivial⟩ hF
  obtain ⟨S, hS, htypes, hmeths, hseeded, hsaturated⟩ :=
    hsimple.exists_finite_saturated hmono (Table.spansFinitely_of_checkNesting hnesting)
      (hsimple.saturated.inf hground.saturated) inf_le_left hmain
  have hanswers : ∀ᶠ k in atTop, T.Answers k S := by
    refine hsimple.eventually_answers (hS.trans inf_le_left) (hS.trans inf_le_right) htypes hmeths ?_
    refine eventually_atTop.2 ⟨fuel, fun k hk md hmd args targs hl hl' => ?_⟩
    obtain ⟨hscope, hbody, hbounds⟩ := hmono.body_eq hmd hl targs
    obtain ⟨found, hfound⟩ := hcheck.exists_collect_body hmd
    rw [hscope, hbody]
    rw [hbounds] at hfound
    exact ⟨found, Checker.collect_mono hk hfound⟩
  obtain ⟨m, hm⟩ := eventually_atTop.1 hanswers
  obtain ⟨found, hfound⟩ := hcheck.exists_collect_main
  obtain ⟨most, F, hF⟩ := exists_discover_of_finite
    (Checker.collect_mono (Nat.le_max_right m fuel) hfound) hseeded hsaturated
    (hm _ (Nat.le_max_left m fuel)) htypes hmeths
  exact ⟨most, max m fuel, F, fun k hk => (discover_below hk _ _).ok hF⟩

/-- A method that gives a pair of its receiver and a box of boxes, `S{}.pair()` as the main expression. -/
def enclosing : Program where
  decls :=
    let any := Ty.named "Any" []
    let self := Ty.named "S" []
    let boxed (t : Ty) := Ty.named "Box" [t]
    [.type ⟨"Any", [], .anything⟩, .type ⟨"S", [], .struct []⟩,
      .type ⟨"Box", [⟨"T", any⟩], .struct [⟨"value", .param "T"⟩]⟩,
      .type ⟨"Pair", [⟨"T", any⟩],
        .struct [⟨"fst", .param "T"⟩, ⟨"snd", boxed (boxed (.param "T"))⟩]⟩,
      .method ⟨"s", "S", [], ⟨"pair", [], [], .named "Pair" [self]⟩,
        .structLit "Pair" [self] [.var "s",
          .structLit "Box" [boxed self] [.structLit "Box" [self] [.var "s"]]]⟩]
  main := .call (.structLit "S" [] []) "pair" [] []
  printf := false

theorem enclosing_ends : ∃ t q T, checkProgram 9 false enclosing = .ok (t, q)
    ∧ Table.ofDecls q.decls = .ok T ∧ T.Monomorphic ∧ T.checkNesting 9 = .ok ()
    ∧ ∃ most m F, ∀ k ≥ m, discover k T q.main (some most) = .ok F := by
  have hnames : ∀ a ∈ enclosing.typeFormals,
      '\'' ∉ a.toList ∧ a.toList.head? ≠ some 'α' := by decide +kernel
  have hplain : enclosing.Plain true :=
    ⟨fun a ha => ordinaryName_of_head (hnames a ha).1 (hnames a ha).2, by decide +kernel⟩
  have hok : (checkProgram 9 false enclosing).any (fun r =>
      (Answer.ofExcept (Table.ofDecls r.2.decls)).any fun T =>
        decide T.Monomorphic && (T.checkNesting 9).any fun _ => true) = true := by decide +kernel
  obtain ⟨⟨t, q⟩, hq, hok⟩ := Answer.any_eq_true.1 hok
  obtain ⟨T, hT, hok⟩ := Answer.any_eq_true.1 hok
  obtain ⟨hmono, hnesting⟩ := Bool.and_eq_true_iff.1 hok
  obtain ⟨⟨⟩, hnesting, -⟩ := Answer.any_eq_true.1 hnesting
  have hT := Answer.ofExcept_eq_ok.1 hT
  have hmono := of_decide_eq_true hmono
  exact ⟨t, q, T, hq, hT, hmono, hnesting, discover_ends_of_checkNesting hplain (by decide +kernel)
    (by decide +kernel) hq hT hmono hnesting⟩

end FeatherGo
