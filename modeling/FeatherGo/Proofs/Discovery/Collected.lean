import FeatherGo.Proofs.Discovery.Visits
import FeatherGo.Proofs.Typing.Elaboration

/-!
# Collected instances

The instances that are collected from a typed expression are those that it uses: the receiver of a
call is collected at the type which checking gives it, and that is the type which it has.
-/

namespace FeatherGo

/-- What expressions may name and call when some instances are given. -/
def Instances.usage (F : Instances) (T : Table) : Usage := .of T (· ∈ F.types) (· ∈ F.meths)

theorem Instances.le_pushType (F : Instances) (t : Ty) : F.Le (F.pushType t) :=
  ⟨List.prefix_append _ _, List.prefix_rfl⟩

theorem Instances.le_pushMethod (F : Instances) (m : MethodInstance) : F.Le (F.pushMethod m) :=
  ⟨List.prefix_rfl, List.prefix_append _ _⟩

namespace Typed

variable {T : Table} {strict : Bool} {rank : String → Nat} {Γ : Scope} {C : Checker}
  {F F' : Instances}

theorem of_subset (htypes : ∀ t ∈ F.types, t ∈ F'.types) (hmeths : ∀ m ∈ F.meths, m ∈ F'.meths)
    {e : Expr} {t : Ty} (ht : Typed T strict (F.usage T) Γ e t) :
    Typed T strict (F'.usage T) Γ e t := by
  refine ht.mono htypes ?_ fun _ => trivial
  rintro t u m ts ⟨hs, hu, hm⟩
  exact ⟨hs, htypes _ hu, hmeths _ hm⟩

theorem of_le (hle : F.Le F') {e : Expr} {t : Ty} (ht : Typed T strict (F.usage T) Γ e t) :
    Typed T strict (F'.usage T) Γ e t :=
  ht.of_subset (fun _ => hle.mem_types) fun _ => hle.mem_meths

/-- A receiver is collected at the type that it has. -/
theorem eq_of_typeOf (h : T.WellFormed strict rank)
    (hΓ : ∀ x t, Γ.find? x = some t → t.Closed (T.vocabulary strict)) (hC : C.table = T)
    {recv : Expr} {t u v : Ty} (ht : Typed T strict .written Γ recv t) (hp : ∀ p, t ≠ .prim p)
    (hu : C.typeOf [] Γ recv = .ok u) (hv : Checker.assertedOn [] u = .ok v) : v = t := by
  obtain ⟨⟨u', e'⟩, hcheck, hu⟩ := Answer.bind_eq_ok.1 hu
  obtain rfl := Answer.ok.inj hu
  have hwritten : ∀ t u m ts, Usage.written.calls t u m ts → T.Sub t u := by
    rintro t u m ts rfl
    exact .refl t
  rcases ht.eq_of_check h hwritten hΓ hC hcheck with rfl | ⟨p, q, -, rfl, -⟩
  · cases u' with
    | param a => cases hv
    | _ => exact (Except.ok.inj hv).symm
  · exact absurd rfl (hp q)

theorem of_collectAll {es : List Expr} {ts : List Ty} (hl : es.length = ts.length)
    (ih : ∀ p ∈ es.zip ts, ∀ {F F'}, (C.collect [] Γ p.1).Ends F () F' →
      F.Le F' ∧ Typed T strict (F'.usage T) Γ p.1 p.2)
    (hc : (C.collectAll [] Γ es).Ends F () F') :
    F.Le F' ∧ ∀ p ∈ es.zip ts, Typed T strict (F'.usage T) Γ p.1 p.2 := by
  induction es generalizing ts F with
  | nil =>
    obtain ⟨-, rfl⟩ := Track.of_ends_pure hc
    exact ⟨.refl _, by simp⟩
  | cons e es ihes =>
    cases ts with
    | nil => simp at hl
    | cons t ts =>
      rw [List.zip_cons_cons, List.forall_mem_cons] at ih
      obtain ⟨⟨⟩, F₁, h₁, hc⟩ := Track.ends_bind.1 hc
      obtain ⟨hle₁, he⟩ := ih.1 h₁
      obtain ⟨hle, hes⟩ := ihes (by simpa using hl) ih.2 hc
      rw [List.zip_cons_cons, List.forall_mem_cons]
      exact ⟨hle₁.trans hle, he.of_le hle, hes⟩

/-- **A typed expression uses the instances that are collected from it.** -/
theorem of_collect (h : T.WellFormed strict rank)
    (hΓ : ∀ x t, Γ.find? x = some t → t.Closed (T.vocabulary strict)) (hC : C.table = T)
    {e : Expr} {t : Ty} (ht : Typed T strict .written Γ e t)
    (hc : (C.collect [] Γ e).Ends F () F') :
    F.Le F' ∧ Typed T strict (F'.usage T) Γ e t := by
  induction ht generalizing F F' with
  | var found =>
    obtain ⟨-, rfl⟩ := Track.of_ends_pure hc
    exact ⟨.refl _, .var found⟩
  | @structLit c targs _ _ _ closed _ resolves length _ length' sub ih =>
    obtain ⟨⟨⟩, F₁, h₁, hc⟩ := Track.ends_bind.1 hc
    obtain ⟨hle₁, hes⟩ := of_collectAll length (fun p hp => ih p hp) h₁
    obtain rfl := Track.of_ends_update hc
    have hle := F₁.le_pushType (.named c targs)
    exact ⟨hle₁.trans hle, .structLit closed (List.mem_append_right _ List.mem_cons_self) resolves
      length (fun p hp => (hes p hp).of_le hle) length' sub⟩
  | select _ resolves found ih =>
    obtain ⟨hle, he⟩ := ih hc
    exact ⟨hle, .select he resolves found⟩
  | @call recv meth targs args t u S sig ts typedRecv used closed methods found arity given within
      length _ length' sub ih ihs =>
    obtain rfl := used
    have hp : ∀ p, t ≠ .prim p := by
      rintro p rfl
      rw [Table.Sub.allMethods_prim] at methods
      obtain rfl := Answer.ok.inj methods
      cases found
    obtain ⟨⟨⟩, F₁, h₁, hc⟩ := Track.ends_bind.1 hc
    obtain ⟨hle₁, hrecv⟩ := ih h₁
    obtain ⟨⟨⟩, F₂, h₂, hc⟩ := Track.ends_bind.1 hc
    obtain ⟨hle₂, hargs⟩ := of_collectAll length (fun p hp => ihs p hp) h₂
    obtain ⟨u, F₃, h₃, hc⟩ := Track.ends_bind.1 hc
    obtain ⟨hu, rfl⟩ := Track.of_ends_lift h₃
    obtain ⟨v, F₄, h₄, hc⟩ := Track.ends_bind.1 hc
    obtain ⟨hv, rfl⟩ := Track.of_ends_lift h₄
    have hv := Answer.ofExcept_eq_ok.1 hv
    obtain rfl := typedRecv.eq_of_typeOf h hΓ hC hp hu hv
    obtain ⟨⟨⟩, F₅, h₅, hc⟩ := Track.ends_bind.1 hc
    obtain rfl := Track.of_ends_update h₅
    obtain rfl := Track.of_ends_update hc
    have hle := (F₂.le_pushType v).trans ((F₂.pushType v).le_pushMethod ⟨v, meth, targs⟩)
    refine ⟨hle₁.trans (hle₂.trans hle), .call (hrecv.of_le (hle₂.trans hle)) ⟨.refl v, ?_, ?_⟩
      closed methods found arity given within length (fun p hp => (hargs p hp).of_le hle) length'
      sub⟩
    · exact List.mem_append_right _ List.mem_cons_self
    · exact List.mem_append_right _ List.mem_cons_self
  | @assert _ _ target _ closed _ ih =>
    obtain ⟨⟨⟩, F₁, h₁, hc⟩ := Track.ends_bind.1 hc
    obtain ⟨hle₁, he⟩ := ih h₁
    obtain rfl := Track.of_ends_update hc
    have hle := F₁.le_pushType target
    exact ⟨hle₁.trans hle,
      .assert (he.of_le hle) closed (List.mem_append_right _ List.mem_cons_self)⟩
  | sprintf _ length _ ih =>
    obtain ⟨hle, hes⟩ := of_collectAll length (fun p hp => ih p hp) hc
    exact ⟨hle, .sprintf trivial length hes⟩
  | lit l =>
    obtain ⟨-, rfl⟩ := Track.of_ends_pure hc
    exact ⟨.refl _, .lit l⟩
  | binary _ _ agree ihl ihr =>
    obtain ⟨⟨⟩, F₁, h₁, hc⟩ := Track.ends_bind.1 hc
    obtain ⟨hle₁, hl⟩ := ihl h₁
    obtain ⟨hle, hr⟩ := ihr hc
    exact ⟨hle₁.trans hle, .binary (hl.of_le hle) hr agree⟩
  | convert _ ih =>
    obtain ⟨hle, he⟩ := ih hc
    exact ⟨hle, .convert he⟩

end Typed

/-! ## Checked expressions -/

namespace Checker

variable {C : Checker} {Δ : Bounds} {Γ : Scope}

/-- Expressions that flow into as many targets pass their checks. -/
theorem exists_check_of_checkAll {targets : List (Ty × Destination)} {es es' : List Expr}
    (hl : targets.length = es.length) (h : C.checkAll Δ Γ targets es = .ok es') :
    ∀ e ∈ es, ∃ r, C.check Δ Γ e = .ok r := by
  induction es generalizing targets es' with
  | nil => simp
  | cons e es ih =>
    cases targets with
    | nil => cases hl
    | cons target targets =>
      obtain ⟨r, he, h⟩ := Answer.bind_eq_ok.1 h
      obtain ⟨e', -, h⟩ := Answer.bind_eq_ok.1 h
      obtain ⟨rest, hrest, -⟩ := Answer.bind_eq_ok.1 h
      exact List.forall_mem_cons.2 ⟨⟨r, he⟩, ih (Nat.succ.inj hl) hrest⟩

/-- A receiver with methods is no type parameter, or one with a bound. -/
theorem exists_assertedOn {n : Nat} {t : Ty} {S : MethodSet} (h : C.table.methods Δ n t = .ok S) :
    ∃ u, assertedOn Δ t = .ok u := by
  cases t with
  | param p =>
    cases n with
    | zero => cases h
    | succ n =>
      obtain ⟨u, hu, -⟩ := Answer.bind_eq_ok.1 h
      exact ⟨u, Answer.ofExcept_eq_ok.1 hu⟩
  | _ => exact ⟨_, rfl⟩

theorem exists_collectAll {es : List Expr}
    (ih : ∀ e ∈ es, ∀ F, ∃ F', (C.collect Δ Γ e).Ends F () F') (F : Instances) :
    ∃ F', (C.collectAll Δ Γ es).Ends F () F' := by
  induction es generalizing F with
  | nil => exact ⟨F, rfl⟩
  | cons e es ihes =>
    rw [List.forall_mem_cons] at ih
    obtain ⟨F₁, h₁⟩ := ih.1 F
    obtain ⟨F₂, h₂⟩ := ihes ih.2 F₁
    exact ⟨F₂, Track.ends_bind.2 ⟨(), F₁, h₁, h₂⟩⟩

/-- **From an expression that passes its check instances are collected.** -/
theorem exists_collect_of_check {e : Expr} {r : Ty × Expr} (h : C.check Δ Γ e = .ok r) (F : Instances) :
    ∃ F', (C.collect Δ Γ e).Ends F () F' := by
  induction e using Expr.induction generalizing r F with
  | var x => exact ⟨F, rfl⟩
  | lit l => exact ⟨F, rfl⟩
  | structLit c ts es ih =>
    obtain ⟨fields, es', -, -, hl, hall, -⟩ := of_check_structLit h
    have hes := exists_check_of_checkAll ((List.length_map _).trans hl) hall
    obtain ⟨F₁, h₁⟩ := exists_collectAll (fun e he F => (hes e he).elim fun _ hr => ih e he hr F) F
    exact ⟨_, Track.ends_bind.2 ⟨(), F₁, h₁, rfl⟩⟩
  | select e f ih =>
    obtain ⟨te, inner, -, -, he, -⟩ := of_check_select h
    exact ih he F
  | call recv m ts es ih ihs =>
    obtain ⟨tr, recv', S, sig, es', hrecv, hS, -, -, -, -, hl, hall, -⟩ := of_check_call h
    have hes := exists_check_of_checkAll (by simpa using hl) hall
    obtain ⟨F₁, h₁⟩ := ih hrecv F
    obtain ⟨F₂, h₂⟩ := exists_collectAll (fun e he F => (hes e he).elim fun _ hr => ihs e he hr F) F₁
    have ht : C.typeOf Δ Γ recv = .ok tr := Answer.bind_eq_ok.2 ⟨_, hrecv, rfl⟩
    obtain ⟨u, hu⟩ := exists_assertedOn hS
    exact ⟨_, Track.ends_bind.2 ⟨(), F₁, h₁, Track.ends_bind.2 ⟨(), F₂, h₂,
      Track.ends_bind.2 ⟨tr, F₂, congrArg (·, F₂) ht, Track.ends_bind.2 ⟨u, F₂,
        congrArg (·, F₂) (Answer.ofExcept_eq_ok.2 hu), rfl⟩⟩⟩⟩⟩
  | assert e target ih =>
    obtain ⟨te, inner, -, he, -⟩ := of_check_assert h
    obtain ⟨F₁, h₁⟩ := ih he F
    exact ⟨_, Track.ends_bind.2 ⟨(), F₁, h₁, rfl⟩⟩
  | sprintf s es ih =>
    obtain ⟨es', hall, -⟩ := of_check_sprintf h
    have hes := exists_check_of_checkAll (by simp) hall
    exact exists_collectAll (fun e he F => (hes e he).elim fun _ hr => ih e he hr F) F
  | binary op l r ihl ihr =>
    obtain ⟨tl, l', tr, r', hl, hr, -⟩ := of_check_binary h
    obtain ⟨F₁, h₁⟩ := ihl hl F
    obtain ⟨F₂, h₂⟩ := ihr hr F₁
    exact ⟨F₂, Track.ends_bind.2 ⟨(), F₁, h₁, h₂⟩⟩
  | convert k e ih =>
    obtain ⟨p, inner, he, -⟩ := of_check_conversion h
    exact ih he F

end Checker

end FeatherGo
