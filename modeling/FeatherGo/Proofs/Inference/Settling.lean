import FeatherGo.Inference.Elaborate
import FeatherGo.Proofs.Inference.Solving
import FeatherGo.Proofs.Types.Clear
import FeatherGo.Proofs.Typing.Settling
import FeatherGo.Proofs.Typing.Written

/-!
# Inference settles

Inference types an expression part by part and puts the types that it solves for in the place of those
that were left out. On founded declarations it stays with types that are guarded by bounds that may
bound: those of parts, since checks keep them, and those that are solved for, since solutions are made
of parts of types (`Table.assignable_guarded`). So each check on the way settles, and with it inference
(`Checker.settles_infer`). The program that results is as founded as the one that was given, and its
check settles too (`settles_frontEnd`).

Bounds that may not bound are errors that the check of formals reports, but it looks at types under
such bounds first: a type formal that is bounded by itself keeps it going for ever
(`Looping.neverAnswers`).
-/

namespace FeatherGo

open Answer (Settles)
open Answer.Trait (settling)

/-! ## Guarded solutions -/

theorem Table.MayBound.assign {T : Table} {t : Ty} (h : T.MayBound t) (σ : VarSubst) :
    T.MayBound (t.assign σ) := by
  cases t with
  | prim p => rwa [Ty.assign_prim]
  | named c args => rwa [Ty.assign_named]
  | interface ms =>
    rw [Ty.assign_interface]
    intro c args hm
    obtain ⟨m, hmem, he⟩ := List.mem_map.1 hm
    cases m with
    | method s => cases he
    | embed d as =>
      obtain ⟨rfl, -⟩ := Member.embed.inj he
      exact h d as hmem
  | _ => exact h.elim

/-- Assigning guarded types to variables keeps types guarded if it keeps the form of bounds. -/
theorem Ty.Guarded.assign {P : Ty → Prop} (hP : ∀ t σ, P t → P (Ty.assign σ t)) {t : Ty}
    (ht : t.Guarded P) {σ : VarSubst} (hσ : ∀ v u, σ.find? v = some u → u.Guarded P) :
    (t.assign σ).Guarded P := by
  refine Everywhere.assign (fun t hvar ht s hs f hf => ?_) ht
    fun v _ => VarSubst.lookup_of (Ty.Guarded.var P v) (hσ v)
  cases t with
  | interface ms =>
    rw [Ty.assign_interface] at hs
    obtain ⟨m, hm, he⟩ := List.mem_map.1 hs
    cases m with
    | method s' =>
      obtain rfl := Member.method.inj he
      obtain ⟨g, hg, rfl⟩ := List.mem_map.1 hf
      exact hP _ σ (ht s' hm g hg)
    | embed c args => cases he
  | var v => exact absurd rfl (hvar v)
  | _ => simp [Ty.members] at hs

/-- **To be guarded by bounds that may bound is kept by inference.** -/
theorem Table.assignable_guarded (T : Table) : Ty.Assignable (Ty.Guarded T.MayBound) where
  toHereditary := T.hereditary_guarded
  param := Ty.Guarded.param _
  var := Ty.Guarded.var _
  assign ht hσ := ht.assign (fun _ σ h => h.assign σ) hσ

/-! ## Contexts for inference -/

/-- Founded declarations, a context of guarded bounds that may bound, and a scope of guarded types. -/
structure Table.Guards (T : Table) (Δ : Bounds) (Γ : Scope) : Prop where
  founded : T.Founded
  ranking : ∃ rank, T.Ranking rank
  bounds : Δ.All T.MayBound ∧ Δ.All (Ty.Guarded T.MayBound)
  scope : ∀ x t, Γ.find? x = some t → t.Guarded T.MayBound

namespace Table.Guards

variable {T : Table} {Δ : Bounds} {Γ : Scope} (h : T.Guards Δ Γ)

include h

theorem uniform (lenient : Bool) : Uniform settling T.MayBound T fun n => ⟨T, lenient, n⟩ :=
  let ⟨_, hr⟩ := h.ranking
  h.founded.uniform hr lenient

theorem methods (t : Ty) : Settles fun n => T.methods Δ n t :=
  let ⟨_, hr⟩ := h.ranking
  h.founded.settles_methods hr h.bounds.1 t

theorem stable : T.Stable Δ (Ty.Guarded T.MayBound) :=
  T.hereditary_guarded.stable h.founded.writes h.bounds.2

theorem keeps : T.Keeps Δ (Ty.Guarded T.MayBound) fun _ => True :=
  h.founded.writes.keeps T.hereditary_guarded h.bounds.2

end Table.Guards

namespace Checker

variable {T : Table} {lenient : Bool} {Δ : Bounds} {Γ : Scope}

/-! ## Solving for formals -/

theorem settles_solutionsWithin (h : T.Guards Δ Γ) (whole : Expr) (found : List (Nat × Ty × Ty)) :
    Settles fun n => (⟨T, lenient, n⟩ : Checker).solutionsWithin Δ whole found := by
  induction found with
  | nil => exact .ok _
  | cons b found ih =>
    obtain ⟨v, t, bound⟩ := b
    exact settling.bind ((h.uniform lenient).implements h.bounds.1 t bound) fun b =>
      settling.ite ih (.error _)

theorem settles_solveFormals (h : T.Guards Δ Γ) (first : Nat) (formals : List Slot)
    (actuals targets : List Ty) (whole : Expr) : Settles fun n =>
      (⟨T, lenient, n⟩ : Checker).solveFormals Δ first formals actuals targets whole :=
  settling.bind ((Unifier.settles_solve h.methods _).mapError _) fun _ =>
    settling.bind ((settling.ofExcept _).mapError _) fun _ =>
      settling.bind (settles_solutionsWithin h whole _) fun _ => .ok _

theorem exists_of_solvedVars {σ : VarSubst} {vs : List Nat} {ts : List Ty}
    (h : solvedVars σ vs = .ok ts) : ∀ t ∈ ts, ∃ v, t = (Ty.var v).assign σ := by
  induction vs generalizing ts with
  | nil => exact Except.ok.inj h ▸ fun t ht => absurd ht List.not_mem_nil
  | cons v vs ih =>
    simp only [solvedVars] at h
    split at h
    · cases h
    · obtain ⟨rest, hrest, h⟩ := except_bind_eq_ok.1 h
      obtain rfl := Except.ok.inj h
      exact List.forall_mem_cons.2 ⟨⟨v, rfl⟩, ih hrest⟩

theorem guarded_actualType {P : Ty → Prop} {t : Ty} (h : t.Guarded P) : (actualType t).Guarded P := by
  cases t with
  | prim p => exact .prim P p.settled
  | _ => exact h

/-- What is solved for is guarded if the types that flow and those that they flow into are. -/
theorem guarded_of_solveFormals {C : Checker} (h : T.Guards Δ Γ) (hC : C.table = T) {first : Nat}
    {formals : List Slot} {actuals targets : List Ty} {whole : Expr} {ts : List Ty}
    (hactuals : ∀ t ∈ actuals, t.Guarded T.MayBound)
    (htargets : ∀ t ∈ targets, t.Guarded T.MayBound)
    (hts : C.solveFormals Δ first formals actuals targets whole = .ok ts) :
    ∀ t ∈ ts, t.Guarded T.MayBound := by
  subst hC
  obtain ⟨σ, hσ, hts⟩ := Answer.bind_eq_ok.1 hts
  obtain ⟨solved, hsolved, hts⟩ := Answer.bind_eq_ok.1 hts
  obtain ⟨⟨⟩, -, hts⟩ := Answer.bind_eq_ok.1 hts
  obtain rfl := Answer.ok.inj hts
  have hP := C.table.assignable_guarded
  have hover : σ.Over (Ty.Guarded C.table.MayBound) := by
    refine Unifier.over_of_solve hP (Unifier.offers_of_stable hP h.stable) (fun c hc => ?_)
      (Answer.mapError_eq_ok.1 hσ)
    rw [← List.map_uncurry_zip_eq_zipWith] at hc
    obtain ⟨⟨actual, target⟩, hmem, rfl⟩ := List.mem_map.1 hc
    obtain ⟨ha, ht⟩ := List.of_mem_zip hmem
    refine ⟨guarded_actualType (hactuals actual ha), hP.instantiate (htargets target ht) fun a ha => ?_⟩
    obtain ⟨v, -, rfl⟩ := List.mem_map.1 ha
    exact hP.var v
  intro t ht
  obtain ⟨v, rfl⟩ :=
    exists_of_solvedVars (Answer.ofExcept_eq_ok.1 (Answer.mapError_eq_ok.1 hsolved)) t ht
  exact hover.assign hP (hP.var v)

theorem guarded_of_literalTargets {C : Checker} (h : T.Guards Δ Γ) (hC : C.table = T) {td : TypeDecl}
    {count : Nat} {whole : Expr} {ts : List Ty} (hts : C.literalTargets td count whole = .ok ts) :
    ∀ t ∈ ts, t.Guarded T.MayBound := by
  subst hC
  obtain ⟨fields, hfields, hts⟩ := except_bind_eq_ok.1 hts
  cases fields with
  | none => cases hts
  | some fields =>
    dsimp only at hts
    split at hts
    · obtain rfl := Except.ok.inj hts
      intro t ht
      obtain ⟨f, hf, rfl⟩ := List.mem_map.1 ht
      exact h.keeps.field td.selfType fields (Ty.guarded_self _ _ _) hfields f hf
    · cases hts

theorem params_of_callTargets {sig : Signature} {count : Nat} {whole : Expr} {ts : List Ty}
    (hts : callTargets sig count whole = .ok ts) : ts = sig.params.map (·.ty) := by
  rw [callTargets] at hts
  split at hts
  · exact (Except.ok.inj hts).symm
  · cases hts

/-- Inference that ends with a guarded result, or with any error. -/
abbrev InfersGuarded {α : Type} (x : Nat → Track Nat TypeError α) (s : Nat) (Q : α → Prop) : Prop :=
  Track.Settles (fun _ => True) x s fun a _ => Q a

/-- What is solved for with fresh variables. -/
theorem settles_solveFresh (h : T.Guards Δ Γ) (formals : List Slot) {actuals targets : List Ty}
    (whole : Expr) (hactuals : ∀ t ∈ actuals, t.Guarded T.MayBound)
    (htargets : ∀ t ∈ targets, t.Guarded T.MayBound) (s : Nat) :
    InfersGuarded (fun n => (⟨T, lenient, n⟩ : Checker).solveFresh Δ formals actuals targets whole) s
      fun ts => ∀ t ∈ ts, t.Guarded T.MayBound := by
  refine Track.Settles.bind (Q := fun _ _ => True) (.state trivial) fun first s _ => ?_
  refine Track.Settles.bind (Q := fun _ _ => True) (.update trivial) fun _ s _ => ?_
  refine .lift (settles_solveFormals h first formals actuals targets whole) (fun _ _ => trivial) ?_
  rintro ts ⟨n, hn⟩
  exact guarded_of_solveFormals h rfl hactuals htargets (hn n (Nat.le_refl n))

/-- Type arguments are solved for where they were left out: what follows settles for guarded ones. -/
theorem settles_arguments (h : T.Guards Δ Γ) {α : Type} {Q : α → Prop} {c : Prop} [Decidable c]
    {x : Nat → Except TypeError (List Ty)} {y : Except TypeError (List Ty)} (hx : ∀ n, x n = y)
    (hy : ∀ ts, y = .ok ts → ∀ t ∈ ts, t.Guarded T.MayBound) (formals : List Slot)
    {actuals : List Ty} (hactuals : ∀ t ∈ actuals, t.Guarded T.MayBound) (whole : Expr)
    {targs : List Ty} (htargs : ∀ t ∈ targs, t.Guarded T.MayBound)
    {next : Nat → List Ty → Track Nat TypeError α}
    (hnext : ∀ ts, (∀ t ∈ ts, t.Guarded T.MayBound) → ∀ s, InfersGuarded (fun n => next n ts) s Q)
    (s : Nat) : InfersGuarded (fun n => if c then do
        let targets ← x n
        let ts ← solveFresh ⟨T, lenient, n⟩ Δ formals actuals targets whole
        next n ts
      else do
        let ts ← pure targs
        next n ts) s Q := by
  simp only [hx]
  refine .ite (fun _ => ?_) fun _ =>
    Track.Settles.bind (Q := fun ts _ => ts = targs) (.pure rfl) fun ts s hts =>
      hnext ts (hts ▸ htargs) s
  refine Track.Settles.bind (Q := fun (ts : List Ty) _ => ∀ t ∈ ts, t.Guarded T.MayBound)
    (.lift (settling.ofExcept y) (fun _ _ => trivial) fun ts hts => ?_) fun ts s hts =>
      (settles_solveFresh h formals whole hactuals hts s).bind fun ts s hts => hnext ts hts s
  exact hy ts (Answer.ofExcept_eq_ok.1 hts.eq_of_const)

/-! ## Expressions -/

/-- An expression that is guarded, with a type that is. -/
def GuardedTyped (T : Table) (r : Ty × Expr) : Prop :=
  r.1.Guarded T.MayBound ∧ r.2.Guarded T.MayBound

/-- The check that ends each step of inference. -/
theorem settles_recheck (h : T.Guards Δ Γ) {e : Expr} (he : e.Guarded T.MayBound) (s : Nat) :
    InfersGuarded (fun n => (liftM (check ⟨T, lenient, n⟩ Δ Γ e) : Track Nat TypeError (Ty × Expr))) s
      (GuardedTyped T) := by
  refine .lift ((h.uniform lenient).check h.bounds.1 Γ he) (fun _ _ => trivial) ?_
  rintro r ⟨n, hn⟩
  have hcheck : check ⟨T, lenient, n⟩ Δ Γ e = .ok (r.1, r.2) := hn n (Nat.le_refl n)
  exact ⟨kept_of_check h.keeps rfl h.scope he hcheck, (agrees_of_check hcheck).over he⟩

theorem settles_inferAll {es : List Expr}
    (h : ∀ e ∈ es, ∀ s, InfersGuarded (fun n => infer ⟨T, lenient, n⟩ Δ Γ e) s (GuardedTyped T))
    (s : Nat) :
    InfersGuarded (fun n => inferAll ⟨T, lenient, n⟩ Δ Γ es) s fun rs => ∀ r ∈ rs, GuardedTyped T r := by
  induction es generalizing s with
  | nil => exact .pure (List.forall_mem_nil _)
  | cons e es ih =>
    rw [List.forall_mem_cons] at h
    exact (h.1 s).bind fun r s hr => (ih h.2 s).bind fun rs s hrs =>
      .pure (List.forall_mem_cons.2 ⟨hr, hrs⟩)

/-- **Inference of an expression settles**, with a guarded expression and type where it has a value. -/
theorem settles_infer (h : T.Guards Δ Γ) {e : Expr} (he : e.Guarded T.MayBound) (s : Nat) :
    InfersGuarded (fun n => infer ⟨T, lenient, n⟩ Δ Γ e) s (GuardedTyped T) := by
  have hactuals {rs : List (Ty × Expr)} (hrs : ∀ r ∈ rs, GuardedTyped T r) :
      ∀ t ∈ rs.map (·.1), t.Guarded T.MayBound := by
    intro t ht
    obtain ⟨r, hr, rfl⟩ := List.mem_map.1 ht
    exact (hrs r hr).1
  have hparts {rs : List (Ty × Expr)} (hrs : ∀ r ∈ rs, GuardedTyped T r) :
      ∀ e ∈ rs.map (·.2), e.Guarded T.MayBound := by
    intro e he
    obtain ⟨r, hr, rfl⟩ := List.mem_map.1 he
    exact (hrs r hr).2
  induction e using Expr.induction generalizing s with
  | var x => exact settles_recheck h he s
  | lit l => exact settles_recheck h he s
  | structLit c targs es ih =>
    obtain ⟨hself, hes⟩ := he.structLit
    refine (settles_inferAll (fun e hm => ih e hm (hes e hm)) s).bind fun rs s hrs => ?_
    refine (Track.Settles.lift (Q := fun _ _ => True) (settling.ofExcept (T.typeDecl c))
      (fun _ _ => trivial) fun _ _ => trivial).bind fun td s _ => ?_
    exact settles_arguments h
      (x := fun n => literalTargets ⟨T, lenient, n⟩ td rs.length (.structLit c targs es))
      (fun _ => rfl) (fun ts => guarded_of_literalTargets (C := ⟨T, lenient, 0⟩) h rfl) td.formals
      (hactuals hrs) _ hself.args
      (fun ts hts => settles_recheck h (Expr.over_structLit (.named hts) (hparts hrs))) s
  | select e f ih =>
    refine (ih he.select s).bind fun r s hr => ?_
    exact settles_recheck h (Expr.over_select hr.2) s
  | call recv meth targs args ih ihs =>
    obtain ⟨hrecv, htargs, hargs⟩ := he.call
    refine (ih hrecv s).bind fun r s hr => ?_
    refine (settles_inferAll (fun e hm => ihs e hm (hargs e hm)) s).bind fun rs s hrs => ?_
    refine (Track.Settles.lift (h.methods r.1) (fun _ _ => trivial)
      (Q := fun S _ => ∀ sig ∈ S, sig.alone.Guarded T.MayBound) ?_).bind fun S s hS => ?_
    · rintro S ⟨n, hn⟩
      exact h.stable.of_methods hr.1 (hn n (Nat.le_refl n))
    dsimp only
    split
    · exact .fail trivial
    · rename_i sig hsig
      have hsig := hS sig (MethodSet.mem_of_find? hsig).1
      refine settles_arguments h
        (x := fun _ => callTargets sig rs.length (.call recv meth targs args))
        (fun _ => rfl) (fun ts hts => ?_) sig.formals (hactuals hrs) _
        (fun t ht => (htargs t ht).1) (fun ts hts => settles_recheck h
          (Expr.over_call hr.2 (fun t ht => ⟨hts t ht, trivial⟩) (hparts hrs))) s
      rw [params_of_callTargets hts]
      intro t ht
      obtain ⟨p, hp, rfl⟩ := List.mem_map.1 ht
      exact (Ty.Guarded.alone.1 hsig).2 _ (Signature.mem_types_param hp)
  | assert e t ih =>
    obtain ⟨he, ht⟩ := he.assert
    refine (ih he s).bind fun r s hr => ?_
    exact settles_recheck h (Expr.over_assert hr.2 ht) s
  | sprintf f es ih =>
    refine (settles_inferAll (fun e hm => ih e hm (he.sprintf e hm)) s).bind fun rs s hrs => ?_
    exact settles_recheck h (Expr.over_sprintf (hparts hrs)) s
  | binary op l r ihl ihr =>
    obtain ⟨hl, hr⟩ := he.binary
    refine (ihl hl s).bind fun rl s hl => (ihr hr s).bind fun rr s hr => ?_
    exact settles_recheck h (Expr.over_binary hl.2 hr.2) s
  | convert k e ih =>
    refine (ih he.convert s).bind fun r s hr => ?_
    exact settles_recheck h (Expr.over_convert hr.2) s

/-! ## Programs -/

/-- Inference in the bodies of methods settles, and leaves all else as it is. -/
theorem settles_elaborateDecls (hT : T.Founded) (hr : ∃ rank, T.Ranking rank) {decls : List Decl}
    (hdecls : ∀ d ∈ decls, d.Guarded T.MayBound) (s : Nat) :
    InfersGuarded (fun n => elaborateDecls ⟨T, lenient, n⟩ decls) s fun decls' =>
      List.Forall₂ Decl.SameHeader decls decls' ∧ ∀ d ∈ decls', d.Guarded T.MayBound := by
  induction decls generalizing s with
  | nil => exact .pure ⟨.nil, List.forall_mem_nil _⟩
  | cons d decls ih =>
    rw [List.forall_mem_cons] at hdecls
    obtain ⟨hd, hdecls⟩ := hdecls
    cases d with
    | type td =>
      refine (ih hdecls s).bind fun decls' s h => .pure ?_
      exact ⟨.cons (.type td) h.1, List.forall_mem_cons.2 ⟨hd, h.2⟩⟩
    | method md =>
      have hmd : md.Guarded T.MayBound := hd
      have hbody : T.Guards md.bounds md.scope := ⟨hT, hr, hmd.all_bounds, fun _ _ => hmd.of_scope⟩
      refine (settles_infer hbody hmd.body s).bind fun r s hbody => ?_
      refine (ih hdecls s).bind fun decls' s h => .pure ?_
      have hmd' : MethodDecl.Guarded T.MayBound { md with body := r.2 } :=
        ⟨hmd.recvFormals, hmd.formals, hmd.types, hbody.2⟩
      exact ⟨.cons (.method rfl) h.1, List.forall_mem_cons.2 ⟨hmd', h.2⟩⟩

/-- Inference throughout a founded program settles, and gives a program that is founded. -/
theorem settles_elaborate {p : Program} (hp : p.Founded T) (hdecls : Table.ofDecls p.decls = .ok T)
    (hr : ∃ rank, T.Ranking rank) (s : Nat) :
    InfersGuarded (fun n => elaborate ⟨T, lenient, n⟩ p) s fun p' =>
      ∀ T', Table.ofDecls p'.decls = .ok T' → p'.Founded T' := by
  have hmain : T.Guards [] [] :=
    ⟨hp.table, hr, ⟨Bounds.all_nil, Bounds.all_nil⟩, fun x t hx => by cases hx⟩
  refine (settles_elaborateDecls hp.table hr (hp.table.guarded hdecls) s).bind fun decls' s h => ?_
  refine (settles_infer hmain hp.main s).bind fun r s hmain => .pure fun T' hT' => ?_
  obtain ⟨hsame, hguarded⟩ := h
  obtain ⟨T'', hT'', hheaders⟩ := Table.exists_ofDecls hsame hdecls
  obtain rfl := Except.ok.inj (hT''.symm.trans hT')
  refine ⟨hheaders.founded hp.table fun md hmd => ?_, hheaders.mayBound_eq ▸ hmain.2⟩
  exact hguarded _ (Table.mem_decls_of_method hT' hmd)

end Checker

/-- **The front end answers** programs whose bounds may bound and whose interfaces embed no struct: with
enough fuel the check always comes to the same value or error, with assertions on types that are no
interfaces let through or not, and so does inference. -/
theorem settles_frontEnd {p : Program} (h : ∀ T, Table.ofDecls p.decls = .ok T → p.Founded T) :
    (∀ lenient, Settles fun n => checkProgram n lenient p) ∧ Settles fun n => inferProgram n p := by
  refine ⟨settles_checkProgram h, .bind (settling.ofExcept _) fun T hT => ?_⟩
  have hdecls := Answer.ofExcept_eq_ok.1 hT.eq_of_const
  refine .bind (settling.ofExcept T.checkAcyclic) fun _ hacyclic => ?_
  have hr := Table.exists_ranking (Answer.ofExcept_eq_ok.1 hacyclic.eq_of_const)
  obtain ⟨r, s, ⟨n, hn⟩, hend⟩ :=
    @Checker.settles_elaborate T false p (h T hdecls) hdecls hr 0
  have helaborate : Answer.Reaches (fun n => (Checker.elaborate ⟨T, false, n⟩ p 0).1) r :=
    ⟨n, fun m hm => congrArg Prod.fst (hn m hm)⟩
  cases r with
  | ok p' =>
    obtain ⟨r, hr, hcheck⟩ := settles_checkProgram hend false
    exact ⟨r, hr, helaborate.bind hcheck⟩
  | error e => exact ⟨.error e, trivial, helaborate.bind_error⟩
  | unfinished => exact hend.elim

/-- A type whose first bound applies an interface to its second formal, and a call that leaves its
type argument to inference. -/
def omittingProgram : Program where
  decls :=
    let J := Ty.named "J" []
    [.type ⟨"J", [], .interface [.method ⟨"m", [], [], J⟩]⟩,
      .type ⟨"I", [⟨"x", J⟩], .interface []⟩,
      .type ⟨"D", [⟨"a", .named "I" [.param "b"]⟩, ⟨"b", J⟩], .struct []⟩,
      .type ⟨"S", [], .struct []⟩,
      .method ⟨"s", "S", [], ⟨"m", [], [], J⟩, .var "s"⟩,
      .method ⟨"s", "S", [], ⟨"id", [⟨"x", J⟩], [⟨"y", .param "x"⟩], .param "x"⟩, .var "y"⟩]
  main := .call (.structLit "S" [] []) "id" [] [.structLit "S" [] []]
  printf := false

/-- A name whose source is an interface names no struct. -/
theorem Table.not_namesStruct {T : Table} {c : String} {td : TypeDecl} {ms : List Member}
    (htd : T.type? c = some td) (hs : td.source = .interface ms) : ¬T.NamesStruct c := by
  intro h
  cases h with
  | literal declared source =>
    obtain rfl := Option.some.inj (htd.symm.trans declared)
    cases hs.symm.trans source
  | chain declared source _ =>
    obtain rfl := Option.some.inj (htd.symm.trans declared)
    cases hs.symm.trans source

theorem omittingProgram_founded (T : Table) (hT : Table.ofDecls omittingProgram.decls = .ok T) :
    omittingProgram.Founded T := by
  have hJ : T.MayBound (.named "J" []) := Except.ok.inj hT ▸ Table.not_namesStruct rfl rfl
  have hI : T.MayBound (.named "I" [.param "b"]) :=
    Except.ok.inj hT ▸ Table.not_namesStruct rfl rfl
  have hflat {t : Ty} (h : t.flat false = true) : t.Guarded T.MayBound := .of_flat h
  have hnone : GuardedFormals T.MayBound [] := List.forall_mem_nil _
  have htypes {td : TypeDecl} (htd : td ∈ T.typeDecls) : td.source.isSource = true
      ∧ (∀ ms, td.source = .interface ms → T.EmbedsNoStruct ms) ∧ td.Guarded T.MayBound := by
    rw [(Table.ofDecls_eq_ok hT).1] at htd
    simp only [omittingProgram, List.filterMap_cons, Decl.typeDecl?, List.filterMap_nil,
      List.mem_cons, List.not_mem_nil, or_false] at htd
    refine ⟨?_, fun ms hms c args hm => ?_, ?_⟩
    · rcases htd with rfl | rfl | rfl | rfl <;> rfl
    · rcases htd with rfl | rfl | rfl | rfl <;> cases hms <;> simp at hm
    · rcases htd with rfl | rfl | rfl | rfl
      · exact ⟨hnone, hflat rfl⟩
      · exact ⟨List.forall_mem_singleton.2 ⟨hJ, hflat rfl⟩, hflat rfl⟩
      · exact ⟨List.forall_mem_cons.2 ⟨⟨hI, hflat rfl⟩,
          List.forall_mem_singleton.2 ⟨hJ, hflat rfl⟩⟩, hflat rfl⟩
      · exact ⟨hnone, hflat rfl⟩
  have hmethods {md : MethodDecl} (hmd : md ∈ T.methodDecls) : md.Guarded T.MayBound := by
    rw [(Table.ofDecls_eq_ok hT).2.1] at hmd
    simp only [omittingProgram, List.filterMap_cons, Decl.methodDecl?, List.filterMap_nil,
      List.mem_cons, List.not_mem_nil, or_false] at hmd
    have hvar (x : String) : (Expr.var x).Guarded T.MayBound :=
      ⟨List.forall_mem_nil _, List.forall_mem_nil _⟩
    rcases hmd with rfl | rfl
    · exact ⟨hnone, List.forall_mem_nil _, List.forall_mem_singleton.2 (hflat rfl), hvar "s"⟩
    · exact ⟨hnone, List.forall_mem_singleton.2 hJ, fun t ht => hflat (by revert t; decide),
        hvar "y"⟩
  exact ⟨⟨fun c td htd => (htypes (Table.mem_of_type? htd).1).1, fun td htd => (htypes htd).2.1,
    fun td htd => (htypes htd).2.2, fun md => hmethods⟩,
    fun t ht => hflat (by revert t; decide), fun _ _ => trivial⟩

theorem omittingProgram_settles :
    (∀ T, Table.ofDecls omittingProgram.decls = .ok T → omittingProgram.Founded T)
      ∧ (∀ lenient, Settles fun n => checkProgram n lenient omittingProgram)
      ∧ Settles fun n => inferProgram n omittingProgram :=
  ⟨omittingProgram_founded, settles_frontEnd omittingProgram_founded⟩

/-! ## A check that does not end -/

namespace Looping

/-- A type formal that is bounded by itself. -/
def selfBounded : Bounds := [("a", .named "I" [.param "b"]), ("b", .param "b")]

/-- An interface with a method. -/
def J : TypeDecl := ⟨"J", [], .interface [.method ⟨"m", [], [], .named "J" []⟩]⟩

/-- An interface that is generic over types with this method. -/
def I : TypeDecl := ⟨"I", [⟨"x", .named "J" []⟩], .interface []⟩

/-- A struct type whose first bound applies the interface to its second formal, and whose second
formal has itself as bound. -/
def D : TypeDecl := ⟨"D", [⟨"a", .named "I" [.param "b"]⟩, ⟨"b", .param "b"⟩], .struct []⟩

/-- A program whose last declaration has a bound that may not bound. -/
def program : Program where
  decls := [.type J, .type I, .type D]
  main := .lit ⟨.bool true, .typed .bool⟩
  printf := false

/-- The table of the program. -/
def table : Table := ⟨[J, I, D], []⟩

/-- The methods of a formal that is bounded by itself are looked for in its bound. -/
theorem methods_selfBounded (n : Nat) : table.methods selfBounded n (.param "b") = .unfinished := by
  induction n with
  | zero => rfl
  | succ n ih => exact ih

/-- Whether the formal has the method is never decided. -/
theorem implements_selfBounded (n : Nat) :
    table.implements n selfBounded (.param "b") (.named "J" []) = .unfinished := by
  cases n with
  | zero => rfl
  | succ n =>
    cases n with
    | zero => rfl
    | succ n =>
      change (table.methods selfBounded (n + 2) (.param "b") >>= _) = _
      rw [methods_selfBounded]
      rfl

/-- The first bound of the declaration is not decided. -/
theorem checkTypeDecl_unfinished (fuel : Nat) : table.checkTypeDecl fuel D = .unfinished := by
  have hargs (place : Place) (η : Env Ty) (hη : (Ty.named "J" []).subst η = .named "J" []) :
      table.argumentsWithin fuel selfBounded place η I.formals [.param "b"] = .unfinished := by
    rw [I, Table.argumentsWithin, hη, implements_selfBounded]
    rfl
  have hbound : table.okType fuel selfBounded (.named "I" [.param "b"]) = .unfinished :=
    hargs _ _ rfl
  change (((table.okType fuel selfBounded (.named "I" [.param "b"]) >>= _) >>= _) >>= _) = _
  rw [hbound]
  rfl

/-- The check of the program does not finish. -/
theorem checkProgram_unfinished (fuel : Nat) (lenient : Bool) :
    checkProgram fuel lenient program = .unfinished := by
  have hdecl : (⟨table, lenient, fuel⟩ : Checker).checkDecl (.type D) = .unfinished := by
    rw [Checker.checkDecl, checkTypeDecl_unfinished]
    rfl
  have hdecls : (⟨table, lenient, fuel⟩ : Checker).checkDecls program.decls = .unfinished := by
    have hacyclic : table.checkAcyclic = .ok () := rfl
    have hJ : (⟨table, lenient, fuel⟩ : Checker).checkDecl (.type J) = .ok (.type J) := rfl
    have hI : (⟨table, lenient, fuel⟩ : Checker).checkDecl (.type I) = .ok (.type I) := rfl
    simp only [Checker.checkDecls, program, List.mapM_cons, hacyclic, hJ, hI, hdecl]
    rfl
  change ((⟨table, lenient, fuel⟩ : Checker).checkDecls program.decls >>= _) = _
  rw [hdecls]
  rfl

/-- **The front end never answers the program**, however much fuel it has. -/
theorem neverAnswers : (∀ fuel lenient, checkProgram fuel lenient program = .unfinished)
    ∧ ∀ fuel, inferProgram fuel program = .unfinished :=
  -- there is nothing to infer: the program is checked as it stands
  ⟨checkProgram_unfinished, fun fuel => checkProgram_unfinished fuel false⟩

end Looping

end FeatherGo
