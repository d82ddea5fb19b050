import FeatherGo.Proofs.Discovery.Limit
import FeatherGo.Proofs.Discovery.Names
import FeatherGo.Proofs.Types.Ground

/-!
# Discovery stays ground

A type that passes its check is under what is in scope (`Table.under_of_okType`), so a checked program
writes types under the formals of its declarations (`ProgramCheck.writesUnder`). Such declarations keep
types ground (`Table.WritesUnder.keepsInstances`): every rule of discovery puts ground types in for all the
formals that what it demands is under. So discovery does not come upon a type that is not ground, whatever
its limit (`Table.WritesUnder.of_discover`); it may fail in typing, or run into the limit.

The types in a body need not be closed by the formals one after the other: `MethodDecl.instantiation` puts
all of them in at once, and a name that a renaming makes up on the way is bound where it stands.
-/

namespace FeatherGo

/-! ## Types that pass their check -/

namespace Table

variable {T : Table} {n : Nat} {Δ : Bounds}

/-- What is free in a type that passes its check is in scope. -/
theorem mem_names_of_okType {t : Ty} (h : T.okType n Δ t = .ok ()) :
    ∀ a ∈ t.freeParams, a ∈ Δ.names := by
  intro a ha
  induction t using Ty.induction generalizing Δ with
  | param p =>
    obtain ⟨b, hb, -⟩ := Answer.bind_eq_ok.1 h
    rw [Answer.liftExcept_eq, Answer.ofExcept_eq_ok, boundOf_eq_ok] at hb
    exact List.mem_singleton.1 ha ▸ Env.find?_isSome.1 (hb ▸ rfl)
  | named c args ih =>
    obtain ⟨td, -, h⟩ := Answer.bind_eq_ok.1 h
    obtain ⟨⟨⟩, hargs, -⟩ := Answer.bind_eq_ok.1 h
    obtain ⟨u, hu, ha⟩ := Ty.mem_freeParamsAll.1 ha
    exact ih u hu (of_okTypes hargs u hu) ha
  | prim p => cases ha
  | struct fs ih =>
    obtain ⟨f, hf, ha⟩ := Slot.mem_freeParamsAll.1 ha
    exact ih f hf (of_okFields h f hf) ha
  | interface ms ih =>
    obtain ⟨m, hm, ha⟩ := Member.mem_freeParamsAll.1 ha
    have hok := of_okMembers h m hm
    cases m with
    | method s =>
      obtain ⟨-, -, -, htypes⟩ := of_okSignature hok
      obtain ⟨hnot, u, hu, ha⟩ := Signature.mem_freeParams.1 ha
      have hin := ih _ hm u hu (htypes u hu) ha
      rw [names_extend] at hin
      exact (List.mem_append.1 hin).resolve_right hnot
    | embed c args =>
      obtain ⟨-, hargs, -⟩ := hok
      obtain ⟨u, hu, ha⟩ := Ty.mem_freeParamsAll.1 ha
      exact ih _ hm u hu (of_okTypes hargs u hu) ha
  | var v => cases ha

/-- **A type without variables that passes its check is under what is in scope.** -/
theorem under_of_okType {t : Ty} (h : T.okType n Δ t = .ok ()) (hv : t.hasVars = false) :
    t.Under Δ.names :=
  ⟨mem_names_of_okType h, hv⟩

theorem under_of_okSignature {s : Signature} (h : T.okSignature n Δ s = .ok ())
    (hv : ∀ t ∈ s.types, t.hasVars = false) : s.alone.Under Δ.names := by
  obtain ⟨-, -, -, htypes⟩ := of_okSignature h
  refine Signature.under_alone.2 fun t ht => ?_
  have hunder := under_of_okType (htypes t ht) (hv t ht)
  rwa [names_extend] at hunder

end Table

/-! ## Declarations under their formals -/

/-- The signature of a method is under the formals of its receiver, and the types in its body are under
these and its own. -/
structure MethodDecl.WritesUnder (md : MethodDecl) : Prop where
  signature : md.sig.alone.Under (formalNames md.recvFormals)
  body : ∀ t ∈ md.body.types, t.Under md.bounds.names

/-- Declarations write types under their formals. -/
structure Table.WritesUnder (T : Table) : Prop where
  sources : ∀ c td, T.type? c = some td → td.source.Under (formalNames td.formals)
  methods : ∀ md ∈ T.methodDecls, md.WritesUnder

namespace MethodDecl.WritesUnder

variable {md : MethodDecl}

theorem sigTypes (h : md.WritesUnder) {t : Ty} (ht : t ∈ md.sig.types) : t.Under md.bounds.names := by
  rw [names_bounds]
  exact Signature.under_alone.1 h.signature t ht

/-- **Types under the formals of a method are ground at its instances.** -/
theorem isGround_at {t : Ty} (ht : t.Under md.bounds.names) {args targs : List Ty}
    (hl : md.recvFormals.length = args.length) (hargs : ∀ u ∈ args, u.isGround = true)
    (hl' : md.sig.formals.length = targs.length) (htargs : ∀ u ∈ targs, u.isGround = true) :
    (t.subst (md.instantiation args targs)).isGround = true := by
  rw [names_bounds] at ht
  refine ht.isGround_subst (fun a ha => ?_) fun a x hx => ?_
  · rw [instantiation, Env.find?_append, ne_eq, Option.or_eq_none_iff, not_and_or]
    exact (List.mem_append.1 ha).symm.imp (find?_instantiation_ne_none hl')
      (find?_instantiation_ne_none hl)
  · rw [instantiation, Env.find?_append, Option.or_eq_some_iff] at hx
    rcases hx with hx | ⟨-, hx⟩
    · exact htargs x (mem_of_find?_instantiation hx).2
    · exact hargs x (mem_of_find?_instantiation hx).2

end MethodDecl.WritesUnder

/-- The types of a ground signature at ground types. -/
theorem Signature.isGround_at {s : Signature} (hs : s.alone.isGround = true) {targs : List Ty}
    (hl : s.formals.length = targs.length) (htargs : ∀ u ∈ targs, u.isGround = true) {t : Ty}
    (ht : t ∈ s.types) : (t.subst (instantiation s.formals targs)).isGround = true :=
  (under_alone.1 (Ty.under_nil.2 hs) t ht).isGround_instantiate hl htargs

namespace Table.WritesUnder

variable {T : Table} (h : T.WritesUnder)

include h

/-- Declarations under their formals keep types ground. -/
theorem stable : T.Stable [] fun t => t.isGround = true where
  bound hb := by cases hb
  source ht htd hl := (h.sources _ _ htd).isGround_instantiate hl (Ty.isGround_named.1 ht)
  field ht hf := Ty.isGround_struct.1 ht _ hf
  embed ht hm := Member.ground_embed.1 (Ty.isGround_interface.1 ht _ hm)
  method ht hm := Signature.isGround_alone.2 (Ty.isGround_interface.1 ht _ hm)
  declared hmd ht hwithin := by
    rw [← Signature.subst_alone]
    exact (h.methods _ hmd).signature.isGround_instantiate hwithin.length (Ty.isGround_named.1 ht)

/-- **Declarations under their formals keep instances ground.** -/
theorem keepsInstances : T.KeepsInstances [] (fun t => t.isGround = true) fun _ => True where
  bound _ _ hb := by cases hb
  prim _ := rfl
  field _ _ ht hfs _ hf := h.stable.of_structFields ht hfs hf
  signature _ _ _ _ sig _ ht hS hsig hl htargs := by
    have hs := h.stable.of_methods ht hS sig (MethodSet.mem_of_find? hsig).1
    have hat {t : Ty} (ht : t ∈ sig.types) :=
      Signature.isGround_at hs hl (fun u hu => (htargs u hu).1) ht
    exact ⟨fun p hp => hat (Signature.mem_types_param hp), hat sig.mem_types_result⟩
  source _ _ _ ht hu := h.stable.of_underlying ht hu
  embedded _ _ _ _ ht hms hd := h.stable.of_embed ht hms hd
  bodies md hmd args targs ht hl htargs hl' := by
    have hunder := h.methods md hmd
    have hat {t : Ty} (ht' : t.Under md.bounds.names) := MethodDecl.WritesUnder.isGround_at ht' hl
      (Ty.isGround_named.1 ht) hl' fun u hu => (htargs u hu).1
    refine ⟨⟨fun t hmem => ?_, fun _ _ => trivial⟩, fun x t hx => ?_⟩
    · rw [Expr.mem_types, Expr.namedTypes_substTypes, Expr.callArguments_substTypes, List.mem_map,
        List.mem_map] at hmem
      rcases hmem with ⟨u, hu, rfl⟩ | ⟨u, hu, rfl⟩
      · exact hat (hunder.body u (Expr.mem_types.2 (.inl hu)))
      · exact hat (hunder.body u (Expr.mem_types.2 (.inr hu)))
    · have hmem := Env.mem_of_find? hx
      rw [MethodDecl.scopeAt, List.mem_cons] at hmem
      rcases hmem with he | hmem
      · exact (Prod.mk.inj he).2 ▸ ht
      · obtain ⟨p, hp, he⟩ := List.mem_map.1 hmem
        obtain rfl := (Prod.mk.inj he).2
        exact hat (hunder.sigTypes (Signature.mem_types_param hp))

end Table.WritesUnder

/-! ## Checked programs -/

/-- A method of types without variables that passes its check writes types under its formals, before and
after the check. -/
theorem Checker.writesUnder_of_checkMethodDecl {C : Checker} {md md' : MethodDecl}
    (h : C.checkMethodDecl md = .ok md') (hsig : ∀ t ∈ md.sig.types, t.hasVars = false)
    (hbody : ∀ t ∈ md.body.types, t.hasVars = false) : md.WritesUnder ∧ md'.WritesUnder := by
  obtain ⟨-, hheader, u, body, body', hcheck, hcoerce, rfl⟩ := of_checkMethodDecl h
  have hagrees := (agrees_of_coerce hcoerce).trans (agrees_of_check hcheck)
  have hsig := Table.under_of_okSignature (Table.of_checkHeader hheader) hsig
  rw [Table.names_extend] at hsig
  have hbody (t : Ty) (ht : t ∈ md.body.types) :=
    Table.under_of_okType (okType_of_check hcheck t ht) (hbody t ht)
  exact ⟨⟨hsig, hbody⟩, hsig, fun t ht => hbody t (hagrees.mem_types.1 ht)⟩

namespace ProgramCheck

variable {C : Checker} {p q : Program} {t : Ty} {T : Table}

/-- **The declarations of a checked program write types under their formals**, in the source and as they
were checked. -/
theorem writesUnder (h : ProgramCheck C p t q T) (hvars : ∀ u ∈ p.types, u.hasVars = false) :
    C.table.WritesUnder ∧ T.WritesUnder := by
  have hheader {d : Decl} (hd : d ∈ p.decls) {u : Ty} (hu : u ∈ d.headerTypes) : u.hasVars = false :=
    hvars u (Program.mem_types_of_header hd hu)
  have hmethod {md md' : MethodDecl} (hdecl : Decl.method md ∈ p.decls)
      (hcheck : C.checkMethodDecl md = .ok md') : md.WritesUnder ∧ md'.WritesUnder := by
    refine Checker.writesUnder_of_checkMethodDecl hcheck
      (fun u hu => hheader hdecl (List.mem_append_right _ hu)) fun u hu => hvars u ?_
    refine Program.mem_types_of_expr (List.mem_append_left _ ?_) hu
    exact List.mem_flatMap.2 ⟨_, hdecl, List.mem_cons_self⟩
  have hsources : ∀ c td, C.table.type? c = some td → td.source.Under (formalNames td.formals) := by
    intro c td htd
    obtain ⟨hdecl, hok⟩ := (Checker.checked_of_checkDecls h.source h.decls).1 c td htd
    have hunder := Table.under_of_okType (Table.of_checkTypeDecl hok).2.2
      (hheader hdecl (List.mem_append_right _ (List.mem_singleton_self _)))
    rwa [Table.names_extend] at hunder
  refine ⟨⟨hsources, fun md hmd => ?_⟩, fun c td htd => ?_, fun md' hmd' => ?_⟩
  · obtain ⟨hdecl, md', hcheck⟩ := Checker.exists_checkMethodDecl h.source h.decls hmd
    exact (hmethod hdecl hcheck).1
  · rw [← h.same.type?_eq] at htd
    exact hsources c td htd
  · obtain ⟨md, hdecl, -, hcheck⟩ := h.methods md' hmd'
    exact (hmethod hdecl hcheck).2

/-- The main expression of a checked program writes ground types, before and after the check. -/
theorem isGround_main (h : ProgramCheck C p t q T) (hvars : ∀ u ∈ p.types, u.hasVars = false) :
    (∀ u ∈ p.main.types, u.isGround = true) ∧ ∀ u ∈ q.main.types, u.isGround = true := by
  have hmain (u : Ty) (hu : u ∈ p.main.types) : u.isGround = true :=
    Ty.under_nil.1 (Table.under_of_okType (Checker.okType_of_check h.main u hu)
      (hvars u (Program.mem_types_of_expr (List.mem_append_right _ List.mem_cons_self) hu)))
  exact ⟨hmain, fun u hu => hmain u ((Checker.agrees_of_check h.main).mem_types.1 hu)⟩

end ProgramCheck

/-! ## Computations that do not come upon open types -/

/-- A computation does not come upon an open type. -/
def Answer.StaysGround {α : Type} (x : Answer MonoError α) : Prop := ∀ t, x ≠ .error (.notGround t)

namespace Answer.StaysGround

variable {α β : Type}

theorem ok (a : α) : (Answer.ok a).StaysGround := fun _ h => by cases h

theorem unfinished : (Answer.unfinished : Answer MonoError α).StaysGround := fun _ h => by cases h

theorem bind {x : Answer MonoError α} {f : α → Answer MonoError β} (hx : x.StaysGround)
    (hf : ∀ a, x = .ok a → (f a).StaysGround) : (x >>= f).StaysGround := by
  intro t ht
  cases x with
  | ok a => exact hf a rfl t ht
  | error e => exact hx t (congrArg _ (Answer.error.inj ht))
  | unfinished => cases ht

/-- Typing does not ask for ground types. -/
theorem typing (x : Answer TypeError α) : (x.mapError MonoError.type).StaysGround := by
  intro t ht
  cases x <;> cases ht

/-- What is sure to have a result does not come upon an open type. -/
theorem lift {x : Except MonoError α} (h : ∃ a, x = .ok a) : (Answer.ofExcept x).StaysGround := by
  obtain ⟨a, rfl⟩ := h
  exact ok a

end Answer.StaysGround

/-! ## Visits of ground instances -/

/-- The members of a set are over ground types. -/
structure InstanceSets.Ground (S : InstanceSets) : Prop where
  types : ∀ t ∈ S.1, t.isGround = true
  meths : ∀ m ∈ S.2, ∀ t ∈ m.recv :: m.targs, t.isGround = true

namespace Closure

variable {T : Table} {fuel : Nat} {S : InstanceSets}

/-- A visit at a frontier does not come upon an open type. -/
def StaysGround {α : Type} (x : Visit α) (s : Frontier) : Prop := (x s).1.StaysGround

theorem staysGround_of_ends {α : Type} {x : Visit α} {s s' : Frontier} {a : α} (h : x.Ends s a s') :
    StaysGround x s := by
  rw [Track.Ends] at h
  rw [StaysGround, h]
  exact .ok a

theorem staysGround_pure {α : Type} (a : α) (s : Frontier) : StaysGround (pure a) s :=
  staysGround_of_ends (show Track.Ends (pure a) s a s from rfl)

theorem staysGround_state (s : Frontier) : StaysGround Track.state s :=
  staysGround_of_ends (show Track.Ends Track.state s s s from rfl)

theorem staysGround_bind {α β : Type} {x : Visit α} {f : α → Visit β} {s : Frontier}
    (hx : StaysGround x s) (hf : ∀ a s', x.Ends s a s' → StaysGround (f a) s') :
    StaysGround (x >>= f) s := by
  change (Track.bind x f s).1.StaysGround
  rw [StaysGround] at hx
  rw [Track.bind]
  cases hs : x s with
  | mk r s' =>
    rw [hs] at hx
    cases r with
    | ok a => exact hf a s' hs
    | error e => exact fun t ht => hx t (congrArg _ (Answer.error.inj ht))
    | unfinished => exact .unfinished

theorem staysGround_typing {α : Type} (x : Answer TypeError α) (s : Frontier) :
    StaysGround (typing x) s :=
  Answer.StaysGround.typing x

theorem staysGround_addTypes {ts : List Ty} (hts : ∀ t ∈ ts, t.isGround = true) (s : Frontier) :
    StaysGround ((ground T fuel).addTypes ts) s :=
  let ⟨_, h⟩ := exists_addTypes hts s
  staysGround_of_ends h

theorem staysGround_addMethod {m : MethodInstance} (hm : ∀ t ∈ m.recv :: m.targs, t.isGround = true)
    (s : Frontier) : StaysGround ((ground T fuel).addMethod m) s :=
  let ⟨_, _, h⟩ := exists_addMethod hm s
  staysGround_of_ends h

theorem staysGround_addMethods {ms : List MethodInstance}
    (hms : ∀ m ∈ ms, ∀ t ∈ m.recv :: m.targs, t.isGround = true) (s : Frontier) :
    StaysGround ((ground T fuel).addMethods ms) s :=
  let ⟨_, h⟩ := exists_addMethods hms s
  staysGround_of_ends h

section Rules

variable (hG : S.Ground)

include hG

theorem staysGround_addFrom {Γ : Scope} {e : Expr}
    (hfound : ∀ found, T.Collects Γ e found → found.sets ≤ S) (s : Frontier) :
    StaysGround ((ground T fuel).addFrom Γ e) s := by
  rw [addFrom]
  cases hc : (ground T fuel).checker.collect (ground T fuel).bounds Γ e Instances.empty with
  | mk outcome found =>
    refine staysGround_bind (staysGround_typing _ s) fun _ s₁ h₁ => ?_
    obtain ⟨rfl, rfl⟩ := of_typing h₁
    obtain ⟨htypes, hmeths⟩ := Instances.sets_le.1 (hfound found ⟨fuel, hc⟩)
    exact staysGround_bind (staysGround_addTypes (fun t ht => hG.types t (htypes t ht)) s)
      fun _ s₂ _ => staysGround_addMethods (fun m hm => hG.meths m (hmeths m hm)) s₂

theorem staysGround_implementers {m : MethodInstance} (hm : m ∈ S.2) {ts : List Ty}
    (hts : ∀ t ∈ ts, t ∈ S.1) (s : Frontier) :
    StaysGround ((ground T fuel).implementers m ts) s := by
  induction ts generalizing s with
  | nil => exact staysGround_pure () s
  | cons t ts ih =>
    rw [List.forall_mem_cons] at hts
    rw [implementers]
    dsimp only
    split
    · refine staysGround_bind (staysGround_typing _ s) fun b s₁ _ => ?_
      cases b with
      | true =>
        have hground : ∀ u ∈ t :: m.targs, u.isGround = true := List.forall_mem_cons.2
          ⟨hG.types t hts.1, fun u hu => hG.meths m hm u (List.mem_cons_of_mem _ hu)⟩
        exact staysGround_bind (staysGround_addMethod (m := ⟨t, m.meth, m.targs⟩) hground s₁)
          fun _ s₂ _ => ih hts.2 s₂
      | false => exact ih hts.2 s₁
    · exact ih hts.2 s

variable (hS : T.Saturated S)

include hS

theorem staysGround_growTypes {ts : List Ty} (hts : ∀ t ∈ ts, t ∈ S.1) (s : Frontier) :
    StaysGround ((ground T fuel).growTypes ts) s := by
  induction ts generalizing s with
  | nil => exact staysGround_pure () s
  | cons t ts ih =>
    rw [List.forall_mem_cons] at hts
    refine staysGround_bind (staysGround_typing _ s) fun ds s₁ h₁ => ?_
    have hds := Answer.ofExcept_eq_ok.1 (of_typing h₁).1
    exact staysGround_bind (staysGround_addTypes (fun d hd => hG.types d
      (Saturated.mem_of_demands hS hts.1 ((mem_demanded hds).1 hd))) s₁) fun _ s₂ _ => ih hts.2 s₂

theorem staysGround_embeddings {m : MethodInstance} (hm : m ∈ S.2) {ts : List Ty}
    (hts : ∀ t ∈ ts, ∃ ms d as, T.resolve m.recv = .ok (.interface ms) ∧ .embed d as ∈ ms
      ∧ t = .named d as) (s : Frontier) : StaysGround ((ground T fuel).embeddings m ts) s := by
  induction ts generalizing s with
  | nil => exact staysGround_pure () s
  | cons t ts ih =>
    rw [List.forall_mem_cons] at hts
    obtain ⟨⟨ms, d, as, hms, hd, rfl⟩, hts⟩ := hts
    refine staysGround_bind (staysGround_typing _ s) fun E s₁ h₁ => ?_
    obtain ⟨hE, -⟩ := of_typing h₁
    dsimp only
    split
    · rename_i hsome
      have hmem := hS.embeddings m ms d as fuel E hm hms hd hE hsome
      exact staysGround_bind (staysGround_addMethod (hG.meths _ hmem) s₁) fun _ s₂ _ => ih hts s₂
    · exact ih hts s₁

theorem staysGround_signatureTypes {m : MethodInstance} (hm : m ∈ S.2) (s : Frontier) :
    StaysGround ((ground T fuel).signatureTypes m) s := by
  refine staysGround_bind (staysGround_typing _ s) fun E s₁ h₁ => ?_
  obtain ⟨hE, -⟩ := of_typing h₁
  split
  · exact staysGround_pure () s₁
  · rename_i sig hsig
    split
    · rename_i hl
      obtain ⟨hparams, hresult⟩ := hS.signature m fuel E sig hm hE hsig hl
      refine staysGround_addTypes (fun t ht => hG.types t ?_) s₁
      rcases List.mem_append.1 ht with ht | ht
      · obtain ⟨p, hp, rfl⟩ := List.mem_map.1 ht
        exact hparams p hp
      · exact List.mem_singleton.1 ht ▸ hresult
    · exact staysGround_pure () s₁

theorem staysGround_bodies {m : MethodInstance} (hm : m ∈ S.2) {s : Frontier}
    (hs : s.found.Within S) : StaysGround ((ground T fuel).bodies m) s := by
  rw [bodies]
  split
  · rename_i c args hr
    refine staysGround_bind (staysGround_typing _ s) fun b s₁ h₁ => ?_
    obtain ⟨hb, rfl⟩ := of_typing h₁
    have hb := Answer.ofExcept_eq_ok.1 hb
    cases b with
    | true => exact staysGround_pure () s
    | false =>
      refine staysGround_bind (staysGround_state s) fun s₂ s₃ h₂ => ?_
      obtain ⟨rfl, rfl⟩ := Track.of_ends_state h₂
      split
      · rename_i md hmd
        by_cases hmem : m.recv ∈ s.found.types
        · rw [if_pos (hr ▸ hmem)]
          refine staysGround_bind (staysGround_of_ends
            (show ((ground T fuel).visit c m).Ends s _ _ from rfl)) fun seen s₄ _ => ?_
          cases seen with
          | true => exact staysGround_pure () s₄
          | false =>
            rw [Bool.not_false, if_pos rfl, body]
            split
            · rename_i hl
              exact staysGround_addFrom hG (fun found hfound => hS.body c args m md found hm hr
                (hs.le.1 hmem) (hr ▸ hb) hmd hl.1 hl.2 hfound) s₄
            · exact staysGround_pure () s₄
        · rw [if_neg (hr ▸ hmem)]
          exact staysGround_pure () s
      · exact staysGround_pure () s
  · exact staysGround_pure () s

theorem staysGround_growMethod {types : List Ty} (htypes : ∀ t ∈ types, t ∈ S.1)
    {m : MethodInstance} (hm : m ∈ S.2) {s : Frontier} (hs : s.found.Within S) :
    StaysGround ((ground T fuel).growMethod types m) s := by
  have hrest {s : Frontier} (hs : s.found.Within S) : StaysGround (do
      (ground T fuel).signatureTypes m
      (ground T fuel).bodies m : Visit Unit) s :=
    staysGround_bind (staysGround_signatureTypes hG hS hm s) fun _ _ h₁ =>
      staysGround_bodies hG hS hm (within_of_signatureTypes hS hm h₁ hs)
  refine staysGround_bind (staysGround_typing _ s) fun b s₁ h₁ => ?_
  obtain ⟨hb, rfl⟩ := of_typing h₁
  have hb := Answer.ofExcept_eq_ok.1 hb
  dsimp only
  cases b with
  | true =>
    rw [if_pos rfl]
    refine staysGround_bind (staysGround_implementers hG hm htypes s) fun _ s₂ h₂ => ?_
    refine staysGround_bind (staysGround_typing _ s₂) fun us s₃ h₃ => ?_
    obtain ⟨hus, rfl⟩ := of_typing h₃
    have hembedded := fun u hu => (mem_embeddedIn (u := u) (Answer.ofExcept_eq_ok.1 hus)).1 hu
    refine staysGround_bind (staysGround_embeddings hG hS hm hembedded s₂) fun _ s₄ h₄ => ?_
    exact hrest (within_of_embeddings hS hm hembedded h₄
      (within_of_implementers hS hm hb htypes h₂ hs))
  | false =>
    rw [if_neg (by simp)]
    exact hrest hs

theorem staysGround_growMethods {types : List Ty} (htypes : ∀ t ∈ types, t ∈ S.1)
    {ms : List MethodInstance} (hms : ∀ m ∈ ms, m ∈ S.2) {s : Frontier} (hs : s.found.Within S) :
    StaysGround ((ground T fuel).growMethods types ms) s := by
  induction ms generalizing s with
  | nil => exact staysGround_pure () s
  | cons m ms ih =>
    rw [List.forall_mem_cons] at hms
    exact staysGround_bind (staysGround_growMethod hG hS htypes hms.1 hs) fun _ _ h₁ =>
      ih hms.2 (within_of_growMethod hS htypes hms.1 h₁ hs)

theorem staysGround_pass {s : Frontier} (hs : s.found.Within S) :
    StaysGround ((ground T fuel).pass) s := by
  refine staysGround_bind (staysGround_state s) fun s₁ s₂ h₁ => ?_
  obtain ⟨rfl, rfl⟩ := Track.of_ends_state h₁
  refine staysGround_bind (staysGround_growTypes hG hS (fun _ ht => hs.le.1 ht) s) fun _ s₃ h₂ => ?_
  exact staysGround_growMethods hG hS (fun _ ht => hs.le.1 ht) (fun _ hm => hs.le.2 hm)
    (within_of_growTypes hS (fun _ ht => hs.le.1 ht) h₂ hs)

theorem staysGround_runFrom {limit : Option Nat} {rounds passes : Nat} {s : Frontier}
    (hs : s.found.Within S) : StaysGround ((ground T fuel).runFrom limit rounds passes) s := by
  induction rounds generalizing s passes with
  | zero => exact Answer.StaysGround.unfinished
  | succ rounds ih =>
    refine staysGround_bind (staysGround_state s) fun s₁ s₂ h₁ => ?_
    obtain ⟨rfl, rfl⟩ := Track.of_ends_state h₁
    refine staysGround_bind (staysGround_pass hG hS hs) fun _ s₃ h₂ => ?_
    have hs₃ := within_of_pass hS h₂ hs
    refine staysGround_bind (staysGround_state s₃) fun s₄ s₅ h₃ => ?_
    obtain ⟨rfl, rfl⟩ := Track.of_ends_state h₃
    split
    · exact staysGround_pure (passes + 1) s₃
    · split
      · exact fun t ht => by cases ht
      · exact ih hs₃

/-- Discovery within a ground saturated set does not come upon an open type. -/
theorem staysGround_discover {main : Expr} (hmain : T.Seeded main S) (limit : Option Nat) :
    (discover fuel T main limit).StaysGround := by
  have hrun : StaysGround (do
      (ground T fuel).addFrom [] main
      let _ ← (ground T fuel).run limit : Visit Unit) .empty := by
    refine staysGround_bind (staysGround_addFrom hG hmain _) fun _ s₁ h₁ => ?_
    have hs₁ := within_of_addFrom hmain h₁ (Instances.within_empty S)
    exact staysGround_bind (staysGround_runFrom hG hS hs₁) fun _ s₂ _ => staysGround_pure () s₂
  exact Answer.StaysGround.bind hrun fun _ _ => .ok _

end Rules

end Closure

/-- **Discovery stays ground** where declarations write types under their formals: it does not come upon
an open type, whatever its limit, and the instances that it answers are ground. -/
theorem Table.WritesUnder.of_discover {T : Table} (h : T.WritesUnder) {main : Expr}
    (hmain : ∀ t ∈ main.types, t.isGround = true) (fuel : Nat) (limit : Option Nat) :
    (discover fuel T main limit).StaysGround ∧ ∀ F, discover fuel T main limit = .ok F →
      (∀ t ∈ F.types, t.isGround = true) ∧ ∀ m ∈ F.meths, ∀ t ∈ m.recv :: m.targs, t.isGround = true := by
  have hkeeps := h.keepsInstances
  have hground : InstanceSets.Ground (setsOver (fun t => t.isGround = true) fun _ => True) :=
    ⟨fun _ ht => ht, fun m hm =>
      List.forall_mem_cons.2 ⟨hm.recv, fun t ht => (hm.targs t ht).1⟩⟩
  have hseeded : T.Seeded main (setsOver (fun t => t.isGround = true) fun _ => True) :=
    fun _ hfound => hkeeps.toKeeps.collects_le (fun x t hx => by cases hx)
      ⟨hmain, fun _ _ => trivial⟩ hfound
  exact ⟨Closure.staysGround_discover hground hkeeps.saturated hseeded limit, fun F hF =>
    let hwithin := Closure.within_of_discover hkeeps.saturated hseeded hF
    ⟨hwithin.typesGround, hwithin.methsGround⟩⟩

end FeatherGo
