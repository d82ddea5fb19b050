import FeatherGo.Proofs.Declarations.Checked
import FeatherGo.Proofs.Diagnostics.Locating

/-!
# Errors of programs are located

An expression may flow into a type after its check has put conversions into it, so the error that it does
not is located unless the text has changed (`Program.Elaborated`). All other errors of a check name the
expression as it is written, or a name or a literal in it (`Program.Source.check`).

So the term of every error that checking a program ends with is within the text of the program, and a
report marks it there, unless the check has made the term (`Program.checkProgram_marks`). The three ways
in which it may have done so each have a program whose report marks the start of the text instead:
`wrapping_not_marked`, `receiver_not_marked` and `embedding_not_marked`. A mark is counted in bytes and
drawn by counting characters. It is drawn where it starts in texts whose characters take one byte each
(`Diagnostic.position_eq`); in others the two counts differ (`wideProgram_mark_shifted`).
-/

namespace FeatherGo

open Text (Within)

namespace Program

variable {p : Program}

/-! ## Elaborated expressions -/

/-- An expression of the program once it has been checked. -/
def Elaborated (p : Program) (e : Expr) : Prop :=
  ∃ (C : Checker) (Δ : Bounds) (Γ : Scope) (e₀ : Expr) (t : Ty),
    Table.ofDecls p.decls = .ok C.table ∧ p.Part e₀ ∧ C.check Δ Γ e₀ = .ok (t, e)

/-- A check gives back literals alone as literals. -/
theorem eq_lit_of_check {C : Checker} {Δ : Bounds} {Γ : Scope} {e : Expr} {t : Ty} {l : Literal}
    (h : C.check Δ Γ e = .ok (t, .lit l)) : e = .lit l := by
  cases e with
  | lit l' => exact (Checker.of_check_lit h).2.symm
  | var x => cases (Checker.of_check_var h).2
  | structLit c ts es =>
    obtain ⟨_, _, -, -, -, -, -, he⟩ := Checker.of_check_structLit h
    cases he
  | select e f =>
    obtain ⟨_, _, _, _, -, -, -, -, he⟩ := Checker.of_check_select h
    cases he
  | call e m ts es =>
    obtain ⟨_, _, _, _, _, -, -, -, -, -, -, -, -, -, he⟩ := Checker.of_check_call h
    cases he
  | assert e u =>
    obtain ⟨_, _, -, -, -, -, he⟩ := Checker.of_check_assert h
    cases he
  | sprintf s es =>
    obtain ⟨_, -, -, he⟩ := Checker.of_check_sprintf h
    cases he
  | binary op l r =>
    obtain ⟨_, _, _, _, -, -, h⟩ := Checker.of_check_binary h
    obtain ⟨_, _, he, -⟩ := Checker.agrees_of_binary h
    cases he
  | convert k e =>
    obtain ⟨_, _, -, -, he⟩ := Checker.of_check_convert h
    cases he

/-- The error names an expression of the program as it is written. -/
theorem Part.locates {e : Expr} (he : p.Part e) {fault : TypeError}
    (hterm : fault.term = some e.render) : p.Locates fault :=
  locates_of_within hterm he.within

namespace Elaborated

variable {e : Expr} (he : p.Elaborated e)

include he

theorem notAssignable (found expected : Ty) (dest : Destination) :
    p.Locates (.notAssignable found expected dest e) := by
  obtain ⟨C, Δ, Γ, e₀, t, htable, hpart, hcheck⟩ := he
  exact locates_of_unwritten rfl (.elaborated htable hpart hcheck)

theorem unfit {k : Kind} {fault : TypeError} (hfault : Checker.unfit e k = some fault) :
    p.Locates fault := by
  cases e with
  | lit l =>
    obtain ⟨C, Δ, Γ, e₀, t, -, hpart, hcheck⟩ := he
    obtain rfl := eq_lit_of_check hcheck
    rw [Checker.unfit] at hfault
    split at hfault
    · cases hfault
    · obtain rfl := Option.some.inj hfault
      exact locates_of_within rfl ((Expr.within_lit l).trans hpart.within)
  | _ => cases hfault

theorem unconvertible {k : Kind} {fault : TypeError}
    (hfault : Checker.unconvertible e k = some fault) : p.Locates fault := by
  cases e with
  | lit l =>
    rw [Checker.unconvertible] at hfault
    split at hfault
    · exact he.unfit hfault
    · cases hfault
  | _ => cases hfault

end Elaborated

namespace Source

variable {C : Checker} (h : p.Source C.table) {Δ : Bounds} (hΔ : Δ.All (Ty.Known p C.table))

include h hΔ

/-! ## Expressions -/

/-- A check that fails with the same error whenever it says no. -/
theorem implements_then {α : Type} {sub sup : Ty} (hsub : sub.Known p C.table)
    (hsup : sup.Known p C.table) {e : TypeError} (he : p.Locates e) (a : α) :
    (do if ← C.table.implements C.fuel Δ sub sup then return a else throw e :
      Answer TypeError α).OnError p.Locates :=
  .bind (h.implements hΔ _ hsub hsup) fun _ _ => .ite (fun _ => .ok _) fun _ => .error he

theorem coerce {t target : Ty} {e : Expr} (dest : Destination) (ht : t.Known p C.table)
    (htarget : target.Known p C.table) (he : p.Elaborated e) :
    (C.coerce Δ t e target dest).OnError p.Locates := by
  unfold Checker.coerce
  dsimp only
  split
  · refine .ite (fun _ => ?_) fun _ => .error (he.notAssignable _ _ _)
    exact h.implements_then hΔ ht (Ty.known_param _) (he.notAssignable _ _ _) e
  · refine .ite (fun _ => .ok _) fun _ => .ite (fun _ => ?_) fun _ => .error (he.notAssignable _ _ _)
    split
    · exact .error (he.unfit ‹_›)
    · exact .ok _
  · split
    · exact .error (he.unfit ‹_›)
    · exact h.implements_then hΔ (Ty.known_prim _) htarget (he.notAssignable _ _ _) _
  · exact h.implements_then hΔ ht htarget (he.notAssignable _ _ _) e

theorem binary (op : Operator) {lhsTy rhsTy : Ty} {lhs rhs whole : Expr}
    (hl : lhsTy.Known p C.table) (hr : rhsTy.Known p C.table) (hlhs : p.Elaborated lhs)
    (hrhs : p.Elaborated rhs) (hwhole : p.Part whole) :
    (C.binary Δ op lhsTy lhs rhsTy rhs whole).OnError p.Locates := by
  have hinvalid (t : Ty) : p.Locates (.invalidOperand op t whole) :=
    hwhole.locates rfl
  unfold Checker.binary
  split
  · refine .bind ?_ fun x _ => ?_
    · dsimp only
      split
      · exact .ok _
      · exact .bind (h.coerce hΔ _ hr hl hrhs) fun _ _ => .ok _
      · exact .bind (h.coerce hΔ _ hl hr hlhs) fun _ _ => .ok _
      · exact .ite (fun _ => .ok _) fun _ => .error (hwhole.locates rfl)
    · obtain ⟨q, l, r⟩ := x
      dsimp only
      split
      · exact .ok _
      · exact .error (hinvalid _)
  · exact .error (hinvalid _)
  · exact .error (hinvalid _)

theorem assertable {t target : Ty} {whole : Expr} (ht : t.Known p C.table)
    (htarget : target.Known p C.table) (hwhole : p.Part whole) :
    (C.assertable Δ t target whole).OnError p.Locates := by
  unfold Checker.assertable
  have hstatic {static : Ty} (hs : Checker.assertedOn Δ t = .ok static) : static.Known p C.table := by
    cases t with
    | param a => exact (h.stable hΔ).bound (Table.boundOf_eq_ok.1 hs)
    | _ =>
      obtain rfl := Except.ok.inj hs
      exact ht
  refine .bind ?_ fun static hs => ?_
  · cases t with
    | param a => exact boundOf Δ a
    | _ => exact .ok _
  have hstatic := hstatic (Answer.ofExcept_eq_ok.1 hs)
  refine .bind (h.isInterface hstatic) fun _ _ => .ite (fun _ => ?_) fun _ => ?_
  · refine .bind (h.isInterface htarget) fun _ _ => .ite (fun _ => .ok _) fun _ => ?_
    exact h.implements_then hΔ htarget hstatic (hwhole.locates rfl) ()
  · exact .ite (fun _ => .ok _) fun _ => .error (hwhole.locates rfl)

/-- The types of a signature that a known type offers are known at known type arguments. -/
theorem known_of_find? {n : Nat} {t : Ty} {S : MethodSet} {m : String} {sig : Signature}
    (ht : t.Known p C.table) (hS : C.table.methods Δ n t = .ok S) (hsig : S.find? m = some sig)
    {targs : List Ty} (htargs : ∀ u ∈ targs, u.Known p C.table) :
    ∀ u ∈ sig.types, (u.subst (instantiation sig.formals targs)).Known p C.table := by
  have hknown := Ty.hereditary_known p C.table
  have halone := (h.stable hΔ).of_methods ht hS sig (MethodSet.mem_of_find? hsig).1
  exact fun u hu => hknown.instantiate (hknown.of_alone halone hu) htargs

variable {Γ : Scope} (hΓ : ∀ x t, Γ.find? x = some t → t.Known p C.table)

include hΓ

/-- What an expression of the program has for a type is known, and what it becomes is elaborated. -/
theorem of_check {e e' : Expr} {t : Ty} (he : p.Part e) (hcheck : C.check Δ Γ e = .ok (t, e')) :
    t.Known p C.table ∧ p.Elaborated e' := by
  refine ⟨?_, C, Δ, Γ, e, t, h.table, he, hcheck⟩
  refine Checker.kept_of_check (h.writes.keeps (Ty.hereditary_known p C.table) hΔ) rfl hΓ ?_ hcheck
  exact ⟨fun u hu => Ty.known_of_writes (he.writes hu), fun _ _ => trivial⟩

theorem checkAll {es : List Expr} (hes : ∀ e ∈ es, p.Part e)
    (ih : ∀ e ∈ es, (C.check Δ Γ e).OnError p.Locates) {targets : List (Ty × Destination)}
    (htargets : ∀ d ∈ targets, d.1.Known p C.table) :
    (C.checkAll Δ Γ targets es).OnError p.Locates := by
  induction es generalizing targets with
  | nil => cases targets <;> exact .ok _
  | cons e es ihs =>
    cases targets with
    | nil => exact .ok _
    | cons target targets =>
      rw [List.forall_mem_cons] at hes ih htargets
      refine .bind ih.1 fun r hr => ?_
      obtain ⟨ht, he⟩ := h.of_check hΔ hΓ hes.1 hr
      refine .bind (h.coerce hΔ _ ht htargets.1 he) fun _ _ => ?_
      exact .bind (ihs hes.2 ih.2 htargets.2) fun _ _ => .ok _

/-- **Errors in checking an expression of the program are located.** -/
theorem check {e : Expr} (he : p.Part e) : (C.check Δ Γ e).OnError p.Locates := by
  induction e using Expr.induction with
  | var x =>
    simp only [Checker.check]
    split
    · exact .ok _
    · exact .error (locates_of_within (s := x) rfl (by simpa only [Expr.render] using he.within))
  | lit l =>
    refine .ite (fun _ => .ok _) fun _ => .error ?_
    exact locates_of_within rfl ((Expr.within_lit l).trans he.within)
  | structLit c ts es ih =>
    have hparts (a : Expr) (ha : a ∈ es) : p.Part a := he.child ha
    have ht : p.Writes (.named c ts) := .expr he (List.mem_singleton_self _)
    refine .bind (h.okType hΔ _ _ ht) fun _ _ => ?_
    refine .bind (h.structFields (Ty.known_of_writes ht)) fun fields? hfields => ?_
    cases fields? with
    | none => exact .error (he.locates rfl)
    | some fields =>
      refine .ite (fun _ => .bind ?_ fun _ _ => .ok _) fun _ => .error (he.locates rfl)
      refine h.checkAll hΔ hΓ hparts (fun a ha => ih a ha (hparts a ha)) fun d hd => ?_
      obtain ⟨f, hf, rfl⟩ := List.mem_map.1 hd
      have hfields := Answer.ofExcept_eq_ok.1 hfields
      exact (h.stable hΔ).of_structFields (Ty.known_of_writes ht) hfields hf
  | select e f ih =>
    have hpart : p.Part e := he.child (List.mem_singleton_self _)
    refine .bind (ih hpart) fun r hr => ?_
    have ht := (h.of_check hΔ hΓ hpart hr).1
    refine .bind (h.structFields ht) fun fields? _ => ?_
    cases fields? with
    | none => exact .error (he.locates rfl)
    | some fields =>
      dsimp only
      split
      · exact .ok _
      · exact .error (locates_of_within rfl ((Expr.within_select e f).trans he.within))
  | call e m ts es ih ihs =>
    have hrecv : p.Part e := he.child List.mem_cons_self
    have hparts (a : Expr) (ha : a ∈ es) : p.Part a := he.child (List.mem_cons_of_mem _ ha)
    have hts (t : Ty) (ht : t ∈ ts) : p.Writes t := .expr he ht
    refine .bind (ih hrecv) fun r hr => ?_
    have ht := (h.of_check hΔ hΓ hrecv hr).1
    refine .bind (h.methods hΔ _ ht) fun S hS => ?_
    dsimp only
    split
    · exact .error (locates_of_within rfl ((Expr.within_call e m ts es).trans he.within))
    · rename_i sig hsig
      have htypes := h.known_of_find? hΔ ht hS hsig fun u hu => Ty.known_of_writes (hts u hu)
      refine .ite (fun _ => ?_) fun _ => .error (he.locates rfl)
      refine .bind (h.okTypes hΔ _ ts hts) fun _ _ => ?_
      refine .bind (h.argumentsWithin hΔ _ (fun _ _ => he.locates rfl) (fun f hf => ?_)
        fun u hu => Ty.known_of_writes (hts u hu)) fun _ _ => ?_
      · exact htypes _ (Signature.mem_types_formal hf)
      refine .ite (fun _ => .bind ?_ fun _ _ => .ok _) fun _ => .error (he.locates rfl)
      refine h.checkAll hΔ hΓ hparts (fun a ha => ihs a ha (hparts a ha)) fun d hd => ?_
      obtain ⟨⟨q, i⟩, hq, rfl⟩ := List.mem_map.1 hd
      exact htypes _ (Signature.mem_types_param (List.fst_mem_of_mem_zipIdx hq))
  | assert e u ih =>
    have hpart : p.Part e := he.child (List.mem_singleton_self _)
    have hu : p.Writes u := .expr he (List.mem_singleton_self _)
    refine .bind (h.okType hΔ _ _ hu) fun _ _ => .bind (ih hpart) fun r hr => ?_
    have ht := (h.of_check hΔ hΓ hpart hr).1
    exact .bind (h.assertable hΔ ht (Ty.known_of_writes hu) he) fun _ _ => .ok _
  | sprintf s es ih =>
    have hparts (a : Expr) (ha : a ∈ es) : p.Part a := he.child ha
    refine .bind ?_ fun _ _ => .ok _
    refine h.checkAll hΔ hΓ hparts (fun a ha => ih a ha (hparts a ha)) fun d hd => ?_
    obtain ⟨i, -, rfl⟩ := List.mem_map.1 hd
    exact Ty.known_of_parts_nil (fun _ _ hm => absurd hm List.not_mem_nil) rfl
  | binary op l r ihl ihr =>
    have hl : p.Part l := he.child List.mem_cons_self
    have hr : p.Part r := he.child (List.mem_cons_of_mem _ (List.mem_singleton_self _))
    refine .bind (ihl hl) fun x hx => .bind (ihr hr) fun y hy => ?_
    obtain ⟨htl, hel⟩ := h.of_check hΔ hΓ hl hx
    obtain ⟨htr, her⟩ := h.of_check hΔ hΓ hr hy
    exact h.binary hΔ op htl htr hel her he
  | convert k e ih =>
    have hpart : p.Part e := he.child (List.mem_singleton_self _)
    refine .bind (ih hpart) fun r hr => ?_
    have hinner := (h.of_check hΔ hΓ hpart hr).2
    obtain ⟨t, inner⟩ := r
    cases t with
    | prim q =>
      refine .ite (fun _ => ?_) fun _ => .error (he.locates rfl)
      split
      · exact .error (hinner.unconvertible ‹_›)
      · exact .ok _
    | _ => exact .error (he.locates rfl)

end Source

/-! ## Declarations -/

namespace Source

variable {T : Table} (h : p.Source T)

include h

theorem checkTypeDecl (n : Nat) {td : TypeDecl} (htd : .type td ∈ p.decls) :
    (T.checkTypeDecl n td).OnError p.Locates := by
  have hformals (f : Slot) (hf : f ∈ td.formals) : p.Writes f.ty := .formal htd hf
  refine .bind (h.okFormals Bounds.all_nil n _ hformals) fun Δ hΔ => ?_
  obtain rfl := (Table.of_okFormals hΔ).1
  refine .ite (fun _ => ?_) fun _ => .error ?_
  · exact h.okType (Bounds.all_nil.extend fun f hf => Ty.known_of_writes (hformals f hf)) n _ (.source htd)
  · exact locates_of_within rfl (td.within_name.trans (within_type htd))

omit h in
theorem okTypes_formalArguments (Δ : Bounds) (n : Nat) (formals : List Slot) :
    (T.okTypes n Δ (formalArguments formals)).OnError p.Locates := by
  induction formals with
  | nil => exact .ok _
  | cons f formals ih =>
    exact .bind (.bind (boundOf Δ f.name) fun _ _ => .ok _) fun _ _ => ih

omit h in
theorem known_formalArguments (formals : List Slot) : ∀ t ∈ formalArguments formals, t.Known p T := by
  intro t ht
  obtain ⟨f, -, rfl⟩ := List.mem_map.1 ht
  exact Ty.known_param _

omit h in
/-- A receiver type that takes the receiver formals is known. -/
theorem known_selfType {md : MethodDecl}
    (hrecv : ∃ td, T.type? md.recvType = some td ∧ td.formals.length = md.recvFormals.length) :
    md.selfType.Known p T := by
  obtain ⟨td, htd, hlength⟩ := hrecv
  refine Ty.Everywhere.iff_parts.2 ⟨.inl ⟨td, htd, ?_⟩, known_formalArguments md.recvFormals⟩
  rw [hlength, formalArguments, List.length_map]

/-- The receiver type is written with bounds, so an error that points at it is located only where it has
no formals. -/
theorem okType_selfType (n : Nat) {Δ : Bounds} (hΔ : Δ.All (Ty.Known p T)) {md : MethodDecl}
    (hmd : .method md ∈ p.decls) (hself : md.selfType.Known p T) :
    (T.okType n Δ md.selfType).OnError p.Locates := by
  refine .bind (h.applied hself.self) fun td htd => ?_
  refine .bind (okTypes_formalArguments Δ n md.recvFormals) fun _ _ => ?_
  refine h.argumentsWithin_named hΔ n (fun arg bound => ?_) (known_formalArguments md.recvFormals)
    (Answer.ofExcept_eq_ok.1 htd)
  by_cases hformals : md.recvFormals = []
  · refine locates_of_within (s := md.recvType) ?_ (md.within_recvType.trans (within_method hmd))
    simp [TypeError.term, Place.render, hformals, formalArguments, Ty.render, Ty.renderAll,
      parenthesised]
  · exact locates_of_unwritten rfl (.receiver hmd hformals)

theorem checkReceiver (n : Nat) {md : MethodDecl} (hmd : .method md ∈ p.decls) :
    (T.checkReceiver n md).OnError p.Locates := by
  have hname : Within md.sig.name p.render :=
    (md.sig.within_name.trans md.within_sig).trans (within_method hmd)
  have hformals (f : Slot) (hf : f ∈ md.recvFormals) : p.Writes f.ty := .receiver hmd hf
  refine .bind (typeDecl (md.within_recvType.trans (within_method hmd))) fun td htd => ?_
  refine .ite (fun _ => .error (locates_of_within rfl hname)) fun hlength => ?_
  have hself : md.selfType.Known p T := known_selfType
    ⟨td, Table.typeDecl_eq_ok.1 (Answer.ofExcept_eq_ok.1 htd), by simpa using hlength⟩
  refine .bind (h.isInterface hself) fun _ _ => ?_
  refine .ite (fun _ => .error (locates_of_within rfl hname)) fun _ => ?_
  refine .bind (h.okFormals Bounds.all_nil n _ hformals) fun Δ hΔ => ?_
  obtain rfl := (Table.of_okFormals hΔ).1
  exact h.okType_selfType n (Bounds.all_nil.extend fun f hf => Ty.known_of_writes (hformals f hf)) hmd
    hself

theorem checkHeader (n : Nat) {md : MethodDecl} (hmd : .method md ∈ p.decls)
    (hself : md.selfType.Known p T) : (T.checkHeader n md).OnError p.Locates := by
  refine .bind (h.structFields hself) fun _ _ => ?_
  refine .ite (fun _ => .error (locates_of_none rfl)) fun _ => ?_
  have hΔ := Bounds.all_nil.extend fun f hf => Ty.known_of_writes (p := p) (T := T) (.receiver hmd hf)
  refine .bind (h.okSignature hΔ n md.sig fun t ht => .signature hmd ht) fun _ _ => ?_
  exact .ite (fun _ => .error (locates_of_none rfl)) fun _ => .ok _

end Source

namespace Source

variable {C : Checker} (h : p.Source C.table)

include h

theorem checkMethodDecl {md : MethodDecl} (hmd : .method md ∈ p.decls) :
    (C.checkMethodDecl md).OnError p.Locates := by
  have hsig (t : Ty) (ht : t ∈ md.sig.types) : t.Known p C.table :=
    Ty.known_of_writes (.signature hmd ht)
  refine .bind (h.checkReceiver _ hmd) fun _ hrecv => ?_
  have hself := known_selfType (p := p) (Table.of_checkReceiver hrecv).1
  refine .bind (h.checkHeader _ hmd hself) fun _ _ => ?_
  have hΔ : md.bounds.All (Ty.Known p C.table) :=
    (Bounds.all_nil.extend fun f hf => Ty.known_of_writes (.receiver hmd hf)).extend
      fun f hf => hsig _ (Signature.mem_types_formal hf)
  have hΓ (x : String) (t : Ty) (hx : md.scope.find? x = some t) : t.Known p C.table := by
    rcases List.mem_cons.1 (Env.mem_of_find? hx) with hb | hb
    · obtain ⟨-, rfl⟩ := Prod.mk.inj hb
      exact hself
    · obtain ⟨f, hf, he⟩ := List.mem_map.1 hb
      obtain ⟨-, rfl⟩ := Prod.mk.inj he
      exact hsig _ (Signature.mem_types_param hf)
  have hbody : p.Part md.body := .body hmd
  refine .bind (h.check hΔ hΓ hbody) fun r hr => ?_
  obtain ⟨ht, he⟩ := h.of_check hΔ hΓ hbody hr
  exact .bind (h.coerce hΔ _ ht (hsig _ md.sig.mem_types_result) he) fun _ _ => .ok _

/-- A declaration that unfolds to itself has its name within the text of the program. -/
theorem unfoldFrom {levels : Nat} {path done : List String} {name : String}
    (hname : Within name p.render) :
    (Answer.ofExcept (C.table.unfoldFrom levels path done name)).OnError p.Locates := by
  induction levels generalizing path done name with
  | zero => exact .error (locates_of_within rfl hname)
  | succ levels ih =>
    rw [Table.unfoldFrom]
    split
    · exact .ok _
    · split
      · exact .error (locates_of_within rfl hname)
      · split
        · exact .ok _
        · rename_i td htd
          refine .ofExcept_bind (.ofExcept_foldlM fun _ c hc => ih ?_) fun _ _ => .ok _
          have hsource : p.Writes td.source := .source (Table.mem_decls_of_type? h.table htd)
          cases hform : td.source with
          | named d args =>
            rw [hform] at hc hsource
            rw [List.mem_singleton.1 hc]
            exact (Ty.within_name d args).trans hsource.within
          | interface ms =>
            rw [hform] at hc hsource
            obtain ⟨m, hm, hc⟩ := List.mem_filterMap.1 hc
            cases m with
            | method s => cases hc
            | embed d args =>
              obtain rfl := Option.some.inj hc
              exact (Ty.within_name d args).trans (hsource.embed hm).within
          | _ =>
            rw [hform] at hc
            cases hc

theorem checkAcyclic : (Answer.ofExcept C.table.checkAcyclic).OnError p.Locates := by
  refine .ofExcept_bind (.ofExcept_foldlM fun _ c hc => h.unfoldFrom ?_) fun _ _ => .ok _
  obtain ⟨td, htd, rfl⟩ := List.mem_map.1 hc
  rw [(Table.ofDecls_eq_ok h.table).1, List.mem_filterMap] at htd
  obtain ⟨d, hd, hsome⟩ := htd
  cases d with
  | type td' =>
    obtain rfl := Option.some.inj hsome
    exact td'.within_name.trans (within_type hd)
  | method md => cases hsome

theorem checkDecls : (C.checkDecls p.decls).OnError p.Locates := by
  refine .bind h.checkAcyclic fun _ _ => .mapM fun d hd => ?_
  cases d with
  | type td => exact .bind (h.checkTypeDecl _ hd) fun _ _ => .ok _
  | method md => exact .bind (h.checkMethodDecl hd) fun _ _ => .ok _

end Source

/-! ## Programs -/

theorem locates_ofDecls (p : Program) :
    (Answer.ofExcept (Table.ofDecls p.decls)).OnError p.Locates := by
  refine .ofExcept_foldlM fun T d hd => ?_
  cases d with
  | type td =>
    rw [Table.add]
    split
    · exact .error (locates_of_within rfl (td.within_name.trans (within_type hd)))
    · exact .ok _
  | method md =>
    rw [Table.add]
    split
    · refine .error (locates_of_within rfl ?_)
      exact (md.sig.within_name.trans md.within_sig).trans (within_method hd)
    · exact .ok _

/-- **Errors of a program are located.** -/
theorem locates_checkProgram (fuel : Nat) (lenient : Bool) (p : Program) :
    (checkProgram fuel lenient p).OnError p.Locates := by
  refine .bind (locates_ofDecls p) fun T hT => ?_
  have hsource : p.Source T := ⟨Answer.ofExcept_eq_ok.1 hT⟩
  refine .bind (Source.checkDecls (C := ⟨T, lenient, fuel⟩) hsource) fun decls _ => ?_
  refine .bind ?_ fun r _ => .ok _
  exact Source.check (C := ⟨T, lenient, fuel⟩) hsource Bounds.all_nil (fun _ _ hx => by cases hx) .main

/-- **A report marks the term of its error.** An error of a program that names a term has it in the text
of the program, unless the check has made the term, and the bytes that are marked are those where it is
found first. -/
theorem checkProgram_marks (fuel : Nat) (lenient : Bool) (p : Program) {e : TypeError} {s : String}
    (h : checkProgram fuel lenient p = .error e) (hterm : e.term = some s) (hne : s ≠ "")
    (hmade : ¬ p.Reworks e) :
    ∃ before after, Diagnostic.First s.toList p.render.toList before after
      ∧ Diagnostic.span p.render e
        = (Diagnostic.bytes before, Diagnostic.bytes before + Diagnostic.bytes s.toList) := by
  have hlocates : p.Locates e := locates_checkProgram fuel lenient p e h
  have hwithin : Within s p.render := hlocates.resolve_right hmade s hterm
  exact Diagnostic.exists_span hterm hne hwithin

end Program

/-- A program that asserts a type on a struct. -/
def assertingProgram : Program where
  decls := [.type ⟨"Any", [], .anything⟩, .type ⟨"A", [], .struct []⟩]
  main := .assert (.structLit "A" [] []) (.named "Any" [])
  printf := false

theorem assertingProgram_marked : ∃ e, checkProgram 9 false assertingProgram = .error e
    ∧ e.term = some "A{}.(Any)" ∧ "A{}.(Any)" ≠ "" ∧ ¬ assertingProgram.Reworks e
    ∧ ∃ before after,
      Diagnostic.First "A{}.(Any)".toList assertingProgram.render.toList before after
      ∧ Diagnostic.span assertingProgram.render e
        = (Diagnostic.bytes before, Diagnostic.bytes before + Diagnostic.bytes "A{}.(Any)".toList) := by
  have hfails : (checkProgram 9 false assertingProgram).fails
      (fun e => e.code == "E0013" && e.term == some "A{}.(Any)") = true := by decide +kernel
  obtain ⟨e, he, hchecks⟩ := Answer.fails_eq_true.1 hfails
  obtain ⟨hcode, hterm⟩ : e.code = "E0013" ∧ e.term = some "A{}.(Any)" := by simpa using hchecks
  have hmade : ¬ assertingProgram.Reworks e := fun h => by
    have := h.code_mem
    rw [hcode] at this
    revert this
    decide
  have hne : "A{}.(Any)" ≠ "" := by decide
  exact ⟨e, he, hterm, hne, hmade, Program.checkProgram_marks 9 false assertingProgram he hterm hne hmade⟩

/-- A program with a name of two bytes. -/
def wideProgram : Program where
  decls := [.type ⟨"Any", [], .anything⟩, .type ⟨"É", [], .struct []⟩]
  main := .assert (.structLit "É" [] []) (.named "Any" [])
  printf := false

/-- A mark is counted in bytes: that of a term with 73 characters before it starts at byte 74. -/
theorem wideProgram_mark_shifted : ∃ e, checkProgram 20 false wideProgram = .error e
    ∧ e.term = some "É{}.(Any)" ∧ "É{}.(Any)".toList <+: wideProgram.render.toList.drop 73
    ∧ (Diagnostic.span wideProgram.render e).1 = 74 := by
  have hfails : (checkProgram 20 false wideProgram).fails (fun e => e.term == some "É{}.(Any)"
      && (Diagnostic.span wideProgram.render e).1 == 74) = true := by decide +kernel
  obtain ⟨e, he, hchecks⟩ := Answer.fails_eq_true.1 hfails
  obtain ⟨hterm, hspan⟩ : e.term = some "É{}.(Any)"
      ∧ (Diagnostic.span wideProgram.render e).1 = 74 := by simpa using hchecks
  exact ⟨e, he, hterm, by decide +kernel, hspan⟩

/-! ## Terms that a check has made -/

/-- A check of the program ends with an error whose term is not in the text of the program, so that the
first byte of the text is marked. -/
def Program.Mismarks (p : Program) (s : String) : Prop :=
  ∃ e, checkProgram 20 false p = .error e ∧ e.term = some s ∧ s ≠ "" ∧ ¬ Within s p.render
    ∧ Diagnostic.span p.render e = (0, 1)

theorem Program.mismarks_of_fails {p : Program} {s : String} (hs : s ≠ "")
    (h : (checkProgram 20 false p).fails (fun e => e.term == some s
      && !decide (s.toList <:+: p.render.toList) && Diagnostic.span p.render e == (0, 1)) = true) :
    p.Mismarks s := by
  obtain ⟨e, he, hchecks⟩ := Answer.fails_eq_true.1 h
  obtain ⟨⟨hterm, hwithin⟩, hspan⟩ : (e.term = some s ∧ ¬ s.toList <:+: p.render.toList)
      ∧ Diagnostic.span p.render e = (0, 1) := by simpa using hchecks
  exact ⟨e, he, hterm, hs, hwithin, hspan⟩

/-- A struct that gets a constant for its field stands where a text is wanted. -/
def wrappingProgram : Program where
  decls := [.type ⟨"W", [], .struct [⟨"x", .ofKind .int64⟩]⟩,
    .type ⟨"H", [], .struct [⟨"w", .ofKind .string⟩]⟩]
  main :=
    let sum := .binary .add (.lit ⟨.int 1, .constant .int32⟩) (.lit ⟨.int 2, .constant .int32⟩)
    .structLit "H" [] [.structLit "W" [] [sum]]
  printf := false

/-- **Terms with conversions put in are not marked.** -/
theorem wrapping_not_marked : wrappingProgram.Mismarks "W{int64(1 + 2)}" :=
  Program.mismarks_of_fails (by decide) (by decide +kernel)

/-- A receiver whose formal has a bound that the type declaration does not allow. -/
def looseProgram : Program where
  decls := [.type ⟨"Any", [], .anything⟩,
    .type ⟨"F", [], .interface [.method ⟨"foo", [], [], .named "F" []⟩]⟩,
    .type ⟨"Box", [⟨"a", .named "F" []⟩], .struct []⟩,
    .method ⟨"b", "Box", [⟨"a", .named "Any" []⟩], ⟨"m", [], [], .named "Any" []⟩, .var "b"⟩]
  main := .lit ⟨.int 1, .constant .int32⟩
  printf := false

/-- **Receiver types are not marked**: they are named without the bounds that a method writes. -/
theorem receiver_not_marked : looseProgram.Mismarks "Box(a)" :=
  Program.mismarks_of_fails (by decide) (by decide +kernel)

/-- A generic interface that embeds another one, which takes no arguments, and is itself embedded. -/
def embeddingProgram : Program where
  decls := [.type ⟨"Any", [], .anything⟩,
    .type ⟨"U", [], .interface [.embed "V" [.ofKind .int32]]⟩,
    .type ⟨"V", [⟨"a", .named "Any" []⟩], .interface [.embed "Any" [.param "a"]]⟩]
  main := .lit ⟨.int 1, .constant .int32⟩
  printf := false

/-- **Types with arguments put in are not marked.** -/
theorem embedding_not_marked : embeddingProgram.Mismarks "Any(int32)" :=
  Program.mismarks_of_fails (by decide) (by decide +kernel)

end FeatherGo
