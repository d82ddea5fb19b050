import FeatherGo.Proofs.Declarations.Guarded
import FeatherGo.Proofs.Traits
import FeatherGo.Typing.Declaration

/-!
# Judgments over families of tables and fuels

Typing consults a table through the declarations that it looks up and through method sets. Where the
tables of a family look up the same declarations and its method sets have a trait, every judgment of
typing has the trait (`Uniform.check`, `Uniform.checkDecl`).

Method sets may have the trait only under contexts whose bounds are of a certain form. Checking a
signature extends the context by its formals, so the form is asked of the bounds of every signature
that is nested in a type: `Ty.Guarded`.
-/

namespace FeatherGo

/-! ## Lookups -/

/-- Two tables look up the same types and allow definition chains of the same length. -/
structure Table.Like (T T' : Table) : Prop where
  type? : ∀ c, T.type? c = T'.type? c
  length : T.typeDecls.length = T'.typeDecls.length

namespace Table.Like

theorem refl (T : Table) : T.Like T := ⟨fun _ => rfl, rfl⟩

variable {T T' : Table} (h : T.Like T')

include h

theorem symm : T'.Like T := ⟨fun c => (h.type? c).symm, h.length.symm⟩

theorem typeDecl (c : String) : T.typeDecl c = T'.typeDecl c := by
  rw [Table.typeDecl, Table.typeDecl, h.type?]

theorem applied (c : String) (args : List Ty) : T.applied c args = T'.applied c args := by
  rw [Table.applied, Table.applied, h.typeDecl]

theorem underlying (t : Ty) : T.underlying t = T'.underlying t := by
  cases t with
  | named c args => rw [Table.underlying, Table.underlying, h.applied]
  | _ => rfl

theorem resolveIn (n : Nat) (t : Ty) : T.resolveIn n t = T'.resolveIn n t := by
  induction n generalizing t with
  | zero => cases t <;> rfl
  | succ n ih =>
    cases t with
    | named c args => simp only [Table.resolveIn, h.underlying, ih]
    | _ => rfl

theorem resolve (t : Ty) : T.resolve t = T'.resolve t := by
  rw [Table.resolve, Table.resolve, h.length, h.resolveIn]

theorem isInterface (t : Ty) : T.isInterface t = T'.isInterface t := by
  cases t with
  | named c args => rw [Table.isInterface, Table.isInterface, h.resolve]
  | _ => rfl

theorem structFields (t : Ty) : T.structFields t = T'.structFields t := by
  cases t with
  | named c args => rw [Table.structFields, Table.structFields, h.resolve]
  | _ => rfl

theorem isBound (t : Ty) : T.isBound t = T'.isBound t := by
  cases t with
  | named c args => rw [Table.isBound, Table.isBound, h.isInterface]
  | _ => rfl

end Table.Like

/-! ## Comparing method sets -/

namespace Answer.Trait

variable {ι : Type} (M : Answer.Trait ι) {T : ι → Table} {T₀ : Table}
variable {F : ι → Ty → Answer TypeError MethodSet}

/-- Comparing two types asks for the method sets of these two. -/
theorem implementsBy (hT : ∀ i, (T i).Like T₀) {sub sup : Ty} (hsub : M.Holds fun i => F i sub)
    (hsup : M.Holds fun i => F i sup) : M.Holds fun i => (T i).implementsBy (F i) sub sup := by
  unfold Table.implementsBy
  split
  · exact M.ok _
  · exact M.error _
  · exact M.ok _
  · exact M.ok _
  · exact M.ok _
  · simp only [fun i => (hT i).isInterface]
    refine M.bind (M.ofExcept _) fun b => M.ite ?_ (M.ok _)
    exact M.bind hsup fun wanted => M.ite (M.ok _) (M.bind hsub fun offered => M.ok _)

theorem withinBounds (hT : ∀ i, (T i).Like T₀) {η : Env Ty} {fs : List Slot} {ts : List Ty}
    (hts : ∀ t ∈ ts, M.Holds fun i => F i t)
    (hfs : ∀ f ∈ fs, M.Holds fun i => F i (f.ty.subst η)) :
    M.Holds fun i => (T i).withinBounds (F i) η fs ts := by
  induction fs generalizing ts with
  | nil => exact M.ok _
  | cons f fs ih =>
    cases ts with
    | nil => exact M.ok _
    | cons t ts =>
      rw [List.forall_mem_cons] at hts hfs
      exact M.bind (M.implementsBy hT hts.1 hfs.1) fun b => M.ite (ih hts.2 hfs.2) (M.ok _)

theorem receiverBy (hT : ∀ i, (T i).Like T₀) {formals : List Slot} {args : List Ty}
    (hts : ∀ t ∈ args, M.Holds fun i => F i t)
    (hfs : ∀ f ∈ formals, M.Holds fun i => F i (f.ty.subst (instantiation formals args))) :
    M.Holds fun i => (T i).receiverBy (F i) formals args := by
  unfold Table.receiverBy
  exact M.ite (M.bind (M.withinBounds hT hts hfs) fun b => M.ite (M.ok _) (M.ok _)) (M.ok _)

theorem memberMethods {ms : List Member} (acc : MethodSet)
    (h : ∀ c args, .embed c args ∈ ms → M.Holds fun i => F i (.named c args)) :
    M.Holds fun i => Table.memberMethods (F i) ms acc := by
  induction ms generalizing acc with
  | nil => exact M.ok _
  | cons m ms ih =>
    have ih (acc) := ih acc fun c args hm => h c args (List.mem_cons_of_mem _ hm)
    cases m with
    | method s => exact ih _
    | embed c args => exact M.bind (h c args List.mem_cons_self) fun E => ih _

theorem declaredMethods {args : List Ty} {mds : List MethodDecl} (acc : MethodSet)
    (h : ∀ md ∈ mds, M.Holds fun i => (T i).receiverBy (F i) md.recvFormals args) :
    M.Holds fun i => (T i).declaredMethods (F i) args mds acc := by
  induction mds generalizing acc with
  | nil => exact M.ok _
  | cons md mds ih =>
    rw [List.forall_mem_cons] at h
    refine M.bind h.1 fun r => ?_
    cases r with
    | some η => exact ih _ h.2
    | none => exact ih _ h.2

end Answer.Trait

/-! ## Typing -/

/-- A family of checkers on tables that look up the same types, whose method sets have a trait under
contexts with bounds of a certain form. -/
structure Uniform {ι : Type} (M : Answer.Trait ι) (P : Ty → Prop) (T₀ : Table)
    (C : ι → Checker) : Prop where
  like : ∀ i, (C i).table.Like T₀
  lenient : ∀ i j, (C i).lenient = (C j).lenient
  methods : ∀ {Δ : Bounds}, Δ.All P → ∀ t, M.Holds fun i => (C i).table.methods Δ (C i).fuel t

namespace Uniform

variable {ι : Type} {M : Answer.Trait ι} {P : Ty → Prop} {T₀ : Table} {C : ι → Checker}
variable {Δ : Bounds}

theorem implements (h : Uniform M P T₀ C) (hΔ : Δ.All P) (t u : Ty) :
    M.Holds fun i => (C i).table.implements (C i).fuel Δ t u :=
  M.implementsBy h.like (h.methods hΔ t) (h.methods hΔ u)

theorem argumentsWithin (h : Uniform M P T₀ C) (hΔ : Δ.All P) (place : Place) (η : Env Ty) (fs : List Slot)
    (ts : List Ty) :
    M.Holds fun i => (C i).table.argumentsWithin (C i).fuel Δ place η fs ts := by
  induction fs generalizing ts with
  | nil => exact M.ok _
  | cons f fs ih =>
    cases ts with
    | nil => exact M.ok _
    | cons t ts => exact M.bind (h.implements hΔ _ _) fun b => M.ite (ih ts) (M.error _)

theorem ofExcept {ε α : Type} {x : ι → Except ε α} {y : Except ε α} (hx : ∀ i, x i = y) :
    M.Holds fun i => (liftM (x i) : Answer ε α) := by
  simp only [hx]
  exact M.ofExcept y

mutual

theorem okType (h : Uniform M P T₀ C) {Δ : Bounds} (hΔ : Δ.All P) :
    ∀ t : Ty, t.Guarded P → M.Holds fun i => (C i).table.okType (C i).fuel Δ t
  | .param _, _ => M.bind (M.ofExcept _) fun _ => M.ok _
  | .prim _, _ | .var _, _ => M.ok _
  | .named c args, ht =>
    M.bind (ofExcept fun i => (h.like i).applied c args) fun _ =>
      M.bind (okTypes h hΔ args ht.args) fun _ => h.argumentsWithin hΔ _ _ _ _
  | .struct fs, ht => okFields h hΔ _ _ fs ht.fields
  | .interface ms, ht => okMembers h hΔ _ _ ms ht.members fun _ hs => ht.bounds hs

theorem okTypes (h : Uniform M P T₀ C) {Δ : Bounds} (hΔ : Δ.All P) :
    ∀ ts : List Ty, (∀ t ∈ ts, t.Guarded P) →
      M.Holds fun i => (C i).table.okTypes (C i).fuel Δ ts
  | [], _ => M.ok _
  | t :: ts, ht =>
    M.bind (okType h hΔ t (ht t List.mem_cons_self)) fun _ =>
      okTypes h hΔ ts fun u hu => ht u (List.mem_cons_of_mem _ hu)

theorem okFields (h : Uniform M P T₀ C) {Δ : Bounds} (hΔ : Δ.All P) (whole : Ty)
    (seen : List String) :
    ∀ fs : List Slot, (∀ f ∈ fs, f.ty.Guarded P) →
      M.Holds fun i => (C i).table.okFields (C i).fuel Δ whole seen fs
  | [], _ => M.ok _
  | ⟨_, t⟩ :: fs, hfs =>
    M.ite (M.error _) (M.bind (okType h hΔ t (hfs _ List.mem_cons_self)) fun _ =>
      okFields h hΔ whole _ fs fun f hf => hfs f (List.mem_cons_of_mem _ hf))

theorem okMembers (h : Uniform M P T₀ C) {Δ : Bounds} (hΔ : Δ.All P) (whole : Ty)
    (seen : List String) :
    ∀ ms : List Member, (∀ m ∈ ms, ∀ t ∈ m.types, t.Guarded P) →
      (∀ s, .method s ∈ ms → ∀ f ∈ s.formals, P f.ty) →
      M.Holds fun i => (C i).table.okMembers (C i).fuel Δ whole seen ms
  | [], _, _ => M.ok _
  | .method s :: ms, hms, hb =>
    M.bind (okSignature h hΔ s (hms _ List.mem_cons_self) (hb s List.mem_cons_self)) fun _ =>
      M.bind (M.ofExcept _) fun _ =>
        okMembers h hΔ whole _ ms (fun m hm => hms m (List.mem_cons_of_mem _ hm))
          fun s hs => hb s (List.mem_cons_of_mem _ hs)
  | .embed c args :: ms, hms, hb =>
    M.bind (ofExcept fun i => (h.like i).applied c args) fun _ =>
      M.bind (okTypes h hΔ args (hms _ List.mem_cons_self)) fun _ =>
        M.bind (h.argumentsWithin hΔ _ _ _ _) fun _ =>
          M.bind (ofExcept fun i => (h.like i).isInterface (.named c args)) fun _ =>
            M.ite (M.bind (h.methods hΔ _) fun _ => M.bind (M.ofExcept _) fun _ =>
              okMembers h hΔ whole _ ms (fun m hm => hms m (List.mem_cons_of_mem _ hm))
                fun s hs => hb s (List.mem_cons_of_mem _ hs)) (M.error _)

theorem okSignature (h : Uniform M P T₀ C) {Δ : Bounds} (hΔ : Δ.All P) :
    ∀ s : Signature, (∀ t ∈ s.types, t.Guarded P) → (∀ f ∈ s.formals, P f.ty) →
      M.Holds fun i => (C i).table.okSignature (C i).fuel Δ s
  | ⟨name, fs, ps, r⟩, hs, hb => by
    obtain ⟨hfs, hps, hr⟩ := Signature.forall_types.1 hs
    have hΔ' := hΔ.extend hb
    simp only [Table.okSignature]
    split
    · exact M.error _
    · exact M.bind (okBounds h hΔ' fs hfs) fun _ => M.bind (okParams h hΔ' name [] ps hps) fun _ =>
        okType h hΔ' r hr

theorem okBounds (h : Uniform M P T₀ C) {Δ : Bounds} (hΔ : Δ.All P) :
    ∀ fs : List Slot, (∀ f ∈ fs, f.ty.Guarded P) →
      M.Holds fun i => (C i).table.okBounds (C i).fuel Δ fs
  | [], _ => M.ok _
  | ⟨_, t⟩ :: fs, hfs =>
    M.bind (okType h hΔ t (hfs _ List.mem_cons_self)) fun _ =>
      M.bind (ofExcept fun i => (h.like i).isBound t) fun _ =>
        M.ite (okBounds h hΔ fs fun f hf => hfs f (List.mem_cons_of_mem _ hf)) (M.error _)

theorem okParams (h : Uniform M P T₀ C) {Δ : Bounds} (hΔ : Δ.All P) (meth : String)
    (seen : List String) :
    ∀ ps : List Slot, (∀ p ∈ ps, p.ty.Guarded P) →
      M.Holds fun i => (C i).table.okParams (C i).fuel Δ meth seen ps
  | [], _ => M.ok _
  | ⟨_, t⟩ :: ps, hps =>
    M.ite (M.error _) (M.bind (okType h hΔ t (hps _ List.mem_cons_self)) fun _ =>
      okParams h hΔ meth _ ps fun p hp => hps p (List.mem_cons_of_mem _ hp))

end

/-- What follows on formals that have been checked sees the context extended by them. -/
theorem okFormals_bind (h : Uniform M P T₀ C) {α : Type} (hΔ : Δ.All P) (decl : String)
    {fs : List Slot} (hfs : GuardedFormals P fs) {next : ι → Bounds → Answer TypeError α}
    (hnext : M.Holds fun i => next i (Δ.extend fs)) :
    M.Holds fun i => (C i).table.okFormals (C i).fuel Δ decl fs >>= next i := by
  simp only [Table.okFormals]
  split
  · exact M.error _
  · have hΔ' := hΔ.extend fun f hf => (hfs f hf).1
    simp only [bind_assoc, pure_bind]
    exact M.bind (h.okBounds hΔ' fs fun f hf => (hfs f hf).2) fun _ => hnext

/-! ### Expressions -/

theorem coerce (h : Uniform M P T₀ C) (hΔ : Δ.All P) (t : Ty) (e : Expr) (target : Ty)
    (dest : Destination) : M.Holds fun i => (C i).coerce Δ t e target dest := by
  unfold Checker.coerce
  dsimp only
  split
  · exact M.ite (M.bind (h.implements hΔ _ _) fun b => M.ite (M.ok _) (M.error _)) (M.error _)
  · refine M.ite (M.ok _) (M.ite ?_ (M.error _))
    split
    · exact M.error _
    · exact M.ok _
  · split
    · exact M.error _
    · exact M.bind (h.implements hΔ _ _) fun b => M.ite (M.ok _) (M.error _)
  · exact M.bind (h.implements hΔ _ _) fun b => M.ite (M.ok _) (M.error _)

theorem binary (h : Uniform M P T₀ C) (hΔ : Δ.All P) (op : Operator) (lt : Ty) (l : Expr) (rt : Ty)
    (r whole : Expr) : M.Holds fun i => (C i).binary Δ op lt l rt r whole := by
  unfold Checker.binary
  split
  · refine M.bind ?_ fun x => ?_
    · dsimp only
      split
      · exact M.ok _
      · exact M.bind (h.coerce hΔ _ _ _ _) fun _ => M.ok _
      · exact M.bind (h.coerce hΔ _ _ _ _) fun _ => M.ok _
      · exact M.ite (M.ok _) (M.error _)
    · obtain ⟨p, l, r⟩ := x
      dsimp only
      split
      · exact M.ok _
      · exact M.error _
  · exact M.error _
  · exact M.error _

theorem assertable (h : Uniform M P T₀ C) (hΔ : Δ.All P) (t target : Ty) (whole : Expr) :
    M.Holds fun i => (C i).assertable Δ t target whole := by
  unfold Checker.assertable
  refine M.bind (M.ofExcept _) fun static =>
    M.bind (ofExcept fun i => (h.like i).isInterface static) fun b => M.ite ?_ ?_
  · refine M.bind (ofExcept fun i => (h.like i).isInterface target) fun b => M.ite (M.ok _) ?_
    exact M.bind (h.implements hΔ _ _) fun b => M.ite (M.ok _) (M.error _)
  · by_cases hl : ∃ i, (C i).lenient = true
    · obtain ⟨j, hj⟩ := hl
      simp only [fun i => (h.lenient i j).trans hj, if_true]
      exact M.ok _
    · simp only [fun i => Bool.eq_false_iff.2 fun hi => hl ⟨i, hi⟩, Bool.false_eq_true, if_false]
      exact M.error _

theorem checkAll (h : Uniform M P T₀ C) (hΔ : Δ.All P) {Γ : Scope} {es : List Expr}
    (ih : ∀ e ∈ es, M.Holds fun i => (C i).check Δ Γ e) (targets : List (Ty × Destination)) :
    M.Holds fun i => (C i).checkAll Δ Γ targets es := by
  induction es generalizing targets with
  | nil => cases targets <;> exact M.ok _
  | cons e es ihes =>
    rw [List.forall_mem_cons] at ih
    cases targets with
    | nil => exact M.ok _
    | cons target targets =>
      exact M.bind ih.1 fun r => M.bind (h.coerce hΔ _ _ _ _) fun e' =>
        M.bind (ihes ih.2 targets) fun _ => M.ok _

/-- Typing an expression has the trait that method sets have. -/
theorem check (h : Uniform M P T₀ C) (hΔ : Δ.All P) (Γ : Scope) {e : Expr} (he : e.Guarded P) :
    M.Holds fun i => (C i).check Δ Γ e := by
  induction e using Expr.induction with
  | var x =>
    simp only [Checker.check]
    split
    · exact M.ok _
    · exact M.error _
  | lit l => exact M.ite (M.ok _) (M.error _)
  | structLit c ts es ih =>
    obtain ⟨ht, hes⟩ := he.structLit
    refine M.bind (h.okType hΔ _ ht) fun _ =>
      M.bind (ofExcept fun i => (h.like i).structFields (.named c ts)) fun fields => ?_
    cases fields with
    | none => exact M.error _
    | some fields =>
      refine M.ite ?_ (M.error _)
      exact M.bind (h.checkAll hΔ (fun e hm => ih e hm (hes e hm)) _) fun _ => M.ok _
  | select e f ih =>
    refine M.bind (ih he.select) fun r =>
      M.bind (ofExcept fun i => (h.like i).structFields r.1) fun fields => ?_
    cases fields with
    | none => exact M.error _
    | some fields =>
      dsimp only
      split
      · exact M.ok _
      · exact M.error _
  | call e meth ts es ih ihs =>
    obtain ⟨he, hts, hes⟩ := he.call
    refine M.bind (ih he) fun r => M.bind (h.methods hΔ _) fun S => ?_
    dsimp only
    split
    · exact M.error _
    · refine M.ite ?_ (M.error _)
      refine M.bind (h.okTypes hΔ ts fun t ht => (hts t ht).1) fun _ =>
        M.bind (h.argumentsWithin hΔ _ _ _ _) fun _ => M.ite ?_ (M.error _)
      exact M.bind (h.checkAll hΔ (fun e hm => ihs e hm (hes e hm)) _) fun _ => M.ok _
  | assert e t ih =>
    obtain ⟨he, ht⟩ := he.assert
    exact M.bind (h.okType hΔ t ht) fun _ => M.bind (ih he) fun r =>
      M.bind (h.assertable hΔ _ _ _) fun _ => M.ok _
  | sprintf s es ih =>
    exact M.bind (h.checkAll hΔ (fun e hm => ih e hm (he.sprintf e hm)) _) fun _ => M.ok _
  | binary op l r ihl ihr =>
    obtain ⟨hl, hr⟩ := he.binary
    exact M.bind (ihl hl) fun _ => M.bind (ihr hr) fun _ => h.binary hΔ _ _ _ _ _ _
  | convert k e ih =>
    refine M.bind (ih he.convert) fun r => ?_
    obtain ⟨t, inner⟩ := r
    cases t with
    | prim p =>
      refine M.ite ?_ (M.error _)
      split
      · exact M.error _
      · exact M.ok _
    | _ => exact M.error _

/-! ### Declarations -/

theorem checkTypeDecl (h : Uniform M P T₀ C) {td : TypeDecl} (htd : td.Guarded P) :
    M.Holds fun i => (C i).table.checkTypeDecl (C i).fuel td := by
  have hΔ := Bounds.all_nil.extend fun f hf => (htd.formals f hf).1
  exact h.okFormals_bind Bounds.all_nil td.name htd.formals
    (M.ite (h.okType hΔ _ htd.source) (M.error _))

theorem checkReceiver (h : Uniform M P T₀ C) {md : MethodDecl} (hmd : md.Guarded P) :
    M.Holds fun i => (C i).table.checkReceiver (C i).fuel md := by
  have hΔ := Bounds.all_nil.extend fun f hf => (hmd.recvFormals f hf).1
  have hself := Ty.guarded_self P md.recvType md.recvFormals
  refine M.bind (ofExcept fun i => (h.like i).typeDecl md.recvType) fun td => M.ite (M.error _) ?_
  refine M.bind (ofExcept fun i => (h.like i).isInterface md.selfType) fun b => M.ite (M.error _) ?_
  exact h.okFormals_bind Bounds.all_nil md.sig.name hmd.recvFormals (h.okType hΔ _ hself)

theorem checkHeader (h : Uniform M P T₀ C) {md : MethodDecl} (hmd : md.Guarded P) :
    M.Holds fun i => (C i).table.checkHeader (C i).fuel md := by
  have hΔ := Bounds.all_nil.extend fun f hf => (hmd.recvFormals f hf).1
  refine M.bind (ofExcept fun i => (h.like i).structFields md.selfType) fun fields =>
    M.ite (M.error _) ?_
  exact M.bind (h.okSignature hΔ _ hmd.types hmd.formals) fun _ => M.ite (M.error _) (M.ok _)

theorem checkMethodDecl (h : Uniform M P T₀ C) {md : MethodDecl} (hmd : md.Guarded P) :
    M.Holds fun i => (C i).checkMethodDecl md := by
  have hΔ := hmd.all_bounds.1
  exact M.bind (h.checkReceiver hmd) fun _ => M.bind (h.checkHeader hmd) fun _ =>
    M.bind (h.check hΔ _ hmd.body) fun _ => M.bind (h.coerce hΔ _ _ _ _) fun _ => M.ok _

/-- Checking a declaration has the trait that method sets have. -/
theorem checkDecl (h : Uniform M P T₀ C) {d : Decl} (hd : d.Guarded P) :
    M.Holds fun i => (C i).checkDecl d := by
  cases d with
  | type td => exact M.bind (h.checkTypeDecl hd) fun _ => M.ok _
  | method md => exact M.bind (h.checkMethodDecl hd) fun _ => M.ok _

end Uniform

end FeatherGo
