import FeatherGo.Proofs.Declarations.Tables
import FeatherGo.Proofs.Methods.Total

/-!
# Method sets under closing

Closing a type keeps its methods: what was offered under the bounds of type parameters is offered,
up to the names of formals, once the parameters stand for types within those bounds
(`Table.Lawful.close_methods`). A closed type may offer more, since more receivers may apply to
it; an interface offers exactly the closed signatures. So a type that implements another under bounds
implements it once both are closed (`Table.Lawful.implements_close`), whatever type arguments hold.
-/

namespace FeatherGo.Table

variable {T : Table} {strict : Bool} {rank : String → Nat}

/-- One closed type implements another. -/
def Implements (T : Table) (sub sup : Ty) : Prop :=
  T.implementsBy (T.allMethods []) sub sup = .ok true

/-- The first type offers methods that cover those of the second. -/
def Covers (T : Table) (sub sup : Ty) : Prop :=
  ∃ S W, T.allMethods [] sub = .ok S ∧ T.allMethods [] sup = .ok W ∧ S.Covers W

theorem Covers.trans {t u v : Ty} (h : T.Covers t u) (h' : T.Covers u v) : T.Covers t v := by
  obtain ⟨S, W, hS, hW, hc⟩ := h
  obtain ⟨W', X, hW', hX, hc'⟩ := h'
  obtain rfl := Answer.ok.inj (hW.symm.trans hW')
  exact ⟨S, X, hS, hX, hc.trans hc'⟩

namespace Lawful

/-- A sealed type implements itself and, unless it is a variable, the interfaces whose methods it
covers. -/
theorem implements_iff (h : T.Lawful strict rank) {sub sup : Ty}
    (hsub : sub.Sealed (T.vocabulary strict)) (hsup : sup.Sealed (T.vocabulary strict)) :
    T.Implements sub sup
      ↔ sub = sup ∨ T.InterfaceType sup ∧ (∀ n, sub ≠ .var n) ∧ T.Covers sub sup := by
  by_cases hv : ∃ n, sub = .var n
  · obtain ⟨n, rfl⟩ := hv
    rw [Implements, implementsBy_var hsup.ne_param]
    simp
  · have hv : ∀ n, sub ≠ .var n := fun n he => hv ⟨n, he⟩
    by_cases hi : T.InterfaceType sup
    · obtain ⟨W, hW⟩ := h.methods_total hsup []
      obtain ⟨S, hS⟩ := h.methods_total hsub []
      rw [Implements, implementsBy_interface hv (h.isInterface_eq_true hsup.inner hi) hW hS,
        Answer.ok.injEq, MethodSet.covers_iff]
      constructor
      · exact fun hc => .inr ⟨hi, hv, S, W, hS, hW, hc⟩
      · rintro (rfl | ⟨-, -, S', W', hS', hW', hc⟩)
        · obtain rfl := Answer.ok.inj (hS.symm.trans hW)
          exact MethodSet.covers_refl (sorted_allMethods hS)
        · obtain rfl := Answer.ok.inj (hS.symm.trans hS')
          obtain rfl := Answer.ok.inj (hW.symm.trans hW')
          exact hc
    · rw [Implements, implementsBy_concrete hsup.ne_param (h.isInterface_eq_false hsup.inner hi)]
      simp [hi]

theorem implements_refl (h : T.Lawful strict rank) {t : Ty}
    (ht : t.Sealed (T.vocabulary strict)) : T.Implements t t :=
  (h.implements_iff ht ht).2 (.inl rfl)

/-- Whether a sealed type implements another is decided: it has one answer, found with fuel enough. -/
theorem implements_decided (h : T.Lawful strict rank) {sub sup : Ty}
    (hsub : sub.Sealed (T.vocabulary strict)) (hsup : sup.Sealed (T.vocabulary strict)) :
    ∃ b, (b = true ↔ T.Implements sub sup)
      ∧ (∀ n, Answer.Below (T.implements n [] sub sup) (.ok b))
      ∧ ∃ n, ∀ m ≥ n, T.implements m [] sub sup = .ok b := by
  have hfin := T.finitary_implementsBy sub sup
  obtain ⟨b, hb⟩ := h.implementsBy_total hsup.inner hsup.ne_param (h.methods_total hsub [])
  refine ⟨b, ?_, fun n => ?_, hfin.eventually hb⟩
  · rw [Implements, hb, Answer.ok.injEq]
  · have hbelow := (hfin.chain _ (T.growing_methods [])).below_limit n
    rw [hfin.limit _ (T.growing_methods [])] at hbelow
    exact hb ▸ hbelow

end Lawful

/-! ## Closing under bounds -/

/-- What type parameters stand for keeps within their bounds. -/
structure Realizes (T : Table) (strict : Bool) (Δ : Bounds) (ρ : String → Ty) : Prop where
  scope : ∀ a ∈ Δ.names, Uncanonical a
  bounds : ∀ a b, Δ.find? a = some b → b.Open (T.vocabulary strict) ρ Δ.names ∧ T.BoundType b
  sealing : Sealing (T.vocabulary strict) Δ.names ρ
  within : ∀ a b, Δ.find? a = some b → T.Implements (ρ a) (b.close ρ)

/-- What type parameters stand for is closed and keeps within their bounds, which fit. -/
structure Models (T : Table) (strict : Bool) (Δ : Bounds) (ρ : String → Ty) : Prop where
  scope : ScopeProper Δ.names []
  bounds : ∀ a b, Δ.find? a = some b → b.Fit (T.vocabulary strict) Δ.names [] ∧ T.BoundType b
  closing : Closing (T.vocabulary strict) Δ.names ρ
  within : ∀ a b, Δ.find? a = some b → T.Implements (ρ a) (b.close ρ)

theorem interfaceType_close {t : Ty} (ρ : String → Ty) (h : T.InterfaceType t) :
    T.InterfaceType (t.close ρ) := by
  cases t with
  | named c args =>
    rw [Ty.close_named]
    exact h
  | interface ms =>
    rw [Ty.close_interface]
    trivial
  | _ => exact h.elim

namespace Models

variable {Δ : Bounds} {ρ : String → Ty}

/-- What fits under the bounds is open there. -/
theorem opened (hm : T.Models strict Δ ρ) {t : Ty} (ht : t.Fit (T.vocabulary strict) Δ.names []) :
    t.Open (T.vocabulary strict) ρ Δ.names :=
  ht.scoped.opened hm.scope hm.closing.sealing

theorem realizes (hm : T.Models strict Δ ρ) : T.Realizes strict Δ ρ where
  scope a ha := (hm.scope a ha).1
  bounds a b hb := ⟨hm.opened (hm.bounds a b hb).1, (hm.bounds a b hb).2⟩
  sealing := hm.closing.sealing
  within := hm.within

end Models

/-- No type parameter stands for an inference variable: those implement nothing that may bound. -/
theorem Realizes.ne_var {Δ : Bounds} {ρ : String → Ty} (hm : T.Realizes strict Δ ρ)
    (h : T.Lawful strict rank) {a : String} (ha : a ∈ Δ.names) (n : Nat) : ρ a ≠ .var n := by
  intro he
  obtain ⟨b, hb⟩ := Option.isSome_iff_exists.1 (Env.find?_isSome.2 ha)
  obtain ⟨hopen, hbound⟩ := hm.bounds a b hb
  have himp := hm.within a b hb
  rw [he, h.implements_iff (he ▸ hm.sealing.sealed a ha) (hopen.inner.sealed hm.sealing)] at himp
  rcases himp with himp | ⟨-, hne, -⟩
  · cases b with
    | prim p => cases himp
    | named c args => simp at himp
    | interface ms => simp at himp
    | _ => exact hbound.elim
  · exact hne n rfl

/-- Members close to members that offer the closed signatures, if what they embed does. -/
theorem memberMethods_close {f g : Finder} {ρ : String → Ty} {ms : List Member}
    {acc S : MethodSet} (h : memberMethods f ms acc = .ok S)
    (hfg : ∀ c args, Member.embed c args ∈ ms → ∀ E, f (.named c args) = .ok E →
      g (.named c (args.map (Ty.close ρ))) = .ok (E.map (Signature.close ρ))) :
    memberMethods g (ms.map (Member.close ρ)) (acc.map (Signature.close ρ))
      = .ok (S.map (Signature.close ρ)) := by
  induction ms generalizing acc with
  | nil => rw [← Answer.ok.inj h]; rfl
  | cons m ms ih =>
    have hrest : ∀ c args, Member.embed c args ∈ ms → ∀ E, f (.named c args) = .ok E →
        g (.named c (args.map (Ty.close ρ))) = .ok (E.map (Signature.close ρ)) :=
      fun c args hm => hfg c args (List.mem_cons_of_mem _ hm)
    cases m with
    | method s =>
      have hS := ih h hrest
      rw [MethodSet.map_add fun s => Signature.name_close ρ s] at hS
      exact hS
    | embed c args =>
      obtain ⟨E, hE, hS⟩ := Answer.bind_eq_ok.1 h
      have hS := ih hS hrest
      rw [MethodSet.map_union fun s => Signature.name_close ρ s] at hS
      exact Answer.bind_eq_ok.2 ⟨_, hfg c args List.mem_cons_self E hE, hS⟩

/-- What members offer is listed or embedded. -/
theorem forall_of_memberMethods {f : Finder} {P : Signature → Prop} {ms : List Member}
    {acc S : MethodSet} (h : memberMethods f ms acc = .ok S) (hacc : ∀ s ∈ acc, P s)
    (hm : ∀ s, Member.method s ∈ ms → P s)
    (he : ∀ c args, Member.embed c args ∈ ms → ∀ E, f (.named c args) = .ok E → ∀ s ∈ E, P s) :
    ∀ s ∈ S, P s := by
  induction ms generalizing acc with
  | nil => exact Answer.ok.inj h ▸ hacc
  | cons m ms ih =>
    have hm' : ∀ s, Member.method s ∈ ms → P s := fun s hs => hm s (List.mem_cons_of_mem _ hs)
    have he' : ∀ c args, Member.embed c args ∈ ms → ∀ E, f (.named c args) = .ok E →
        ∀ s ∈ E, P s := fun c args hmem => he c args (List.mem_cons_of_mem _ hmem)
    cases m with
    | method s =>
      refine ih h (fun x hx => ?_) hm' he'
      rcases MethodSet.mem_add hx with rfl | hx
      · exact hm x List.mem_cons_self
      · exact hacc x hx
    | embed c args =>
      obtain ⟨E, hE, hS⟩ := Answer.bind_eq_ok.1 h
      refine ih hS (fun x hx => ?_) hm' he'
      rcases MethodSet.mem_union hx with hx | hx
      · exact hacc x hx
      · exact he c args List.mem_cons_self E hE x hx

/-- A declared method that is offered applies to the arguments. -/
theorem of_mem_declaredMethods {f : Finder} {args : List Ty} {mds : List MethodDecl}
    {acc S : MethodSet} (h : T.declaredMethods f args mds acc = .ok S) {s : Signature}
    (hs : s ∈ S) : s ∈ acc ∨ ∃ md ∈ mds, ∃ η,
      T.receiverBy f md.recvFormals args = .ok (some η) ∧ s = md.sig.subst η := by
  induction mds generalizing acc with
  | nil => exact .inl (Answer.ok.inj h ▸ hs)
  | cons md mds ih =>
    obtain ⟨r, hr, hS⟩ := Answer.bind_eq_ok.1 h
    have hlater : (∃ md' ∈ mds, ∃ η, T.receiverBy f md'.recvFormals args = .ok (some η)
        ∧ s = md'.sig.subst η) → ∃ md' ∈ md :: mds, ∃ η,
          T.receiverBy f md'.recvFormals args = .ok (some η) ∧ s = md'.sig.subst η :=
      fun ⟨md', hmem, hx⟩ => ⟨md', List.mem_cons_of_mem _ hmem, hx⟩
    cases r with
    | none => exact (ih hS).imp_right hlater
    | some η =>
      rcases ih hS with hs | hs
      · rcases MethodSet.mem_add hs with rfl | hs
        · exact .inr ⟨md, List.mem_cons_self, η, hr, rfl⟩
        · exact .inl hs
      · exact .inr (hlater hs)

/-- A declared method that applies to the arguments is offered, or another one of its name is. -/
theorem find?_declaredMethods_isSome {f : Finder} {args : List Ty} {mds : List MethodDecl}
    {acc S : MethodSet} (h : T.declaredMethods f args mds acc = .ok S) (ha : acc.Sorted)
    {name : String} (hn : (acc.find? name).isSome ∨ ∃ md ∈ mds, ∃ η,
      T.receiverBy f md.recvFormals args = .ok (some η) ∧ md.sig.name = name) :
    (S.find? name).isSome := by
  induction mds generalizing acc with
  | nil =>
    rw [← Answer.ok.inj h]
    exact hn.resolve_right fun ⟨md, hmem, _⟩ => absurd hmem List.not_mem_nil
  | cons md mds ih =>
    obtain ⟨r, hr, hS⟩ := Answer.bind_eq_ok.1 h
    have hadd (η : Env Ty) :
        ((acc.add (md.sig.subst η)).find? name).isSome
          ↔ (acc.find? name).isSome ∨ md.sig.name = name := by
      rw [MethodSet.find?_add ha]
      by_cases hs : md.sig.name = name <;> simp [hs]
    cases r with
    | none =>
      refine ih hS ha ?_
      rcases hn with hn | ⟨md', hmem, η, hrecv, hname⟩
      · exact .inl hn
      · rcases List.mem_cons.1 hmem with rfl | hmem
        · rw [hr] at hrecv
          cases hrecv
        · exact .inr ⟨md', hmem, η, hrecv, hname⟩
    | some η =>
      refine ih hS (MethodSet.sorted_add ha) ?_
      rw [hadd]
      rcases hn with hn | ⟨md', hmem, η', hrecv, hname⟩
      · exact .inl (.inl hn)
      · rcases List.mem_cons.1 hmem with rfl | hmem
        · exact .inl (.inr hname)
        · exact .inr ⟨md', hmem, η', hrecv, hname⟩

theorem of_method? {c m : String} {md : MethodDecl} (h : T.method? c m = some md) :
    md ∈ T.methodDecls ∧ md.recvType = c ∧ md.sig.name = m := by
  refine ⟨List.mem_of_find?_eq_some h, ?_⟩
  simpa using List.find?_some h

theorem Lawful.methodsUnique (h : T.Lawful strict rank) : T.MethodsUnique :=
  fun md hmd => (h.methods md hmd).unique

/-- What is offered under a name on a declared type is the method of that name, if it applies. -/
theorem MethodsUnique.find?_declaredMethods (h : T.MethodsUnique) {f : Finder} {c : String}
    {args : List Ty} {S : MethodSet}
    (hS : T.declaredMethods f args (T.methodsOn c) [] = .ok S) {m : String} {s : Signature} :
    S.find? m = some s ↔ ∃ md η, T.method? c m = some md
      ∧ T.receiverBy f md.recvFormals args = .ok (some η) ∧ s = md.sig.subst η := by
  have hfound {s : Signature} (hs : S.find? m = some s) : ∃ md η, T.method? c m = some md
      ∧ T.receiverBy f md.recvFormals args = .ok (some η) ∧ s = md.sig.subst η := by
    obtain ⟨hmem, hname⟩ := MethodSet.mem_of_find? hs
    rcases of_mem_declaredMethods hS hmem with hn | ⟨md, hmd, η, hr, rfl⟩
    · exact absurd hn List.not_mem_nil
    · obtain ⟨hdecl, hc⟩ := mem_methodsOn.1 hmd
      have hu := h md hdecl
      rw [Signature.name_subst] at hname
      rw [hc, hname] at hu
      exact ⟨md, η, hu, hr, rfl⟩
  refine ⟨hfound, ?_⟩
  rintro ⟨md, η, hmd, hr, rfl⟩
  obtain ⟨hdecl, hc, hname⟩ := of_method? hmd
  have hsome := find?_declaredMethods_isSome hS .nil
    (.inr ⟨md, mem_methodsOn.2 ⟨hdecl, hc⟩, η, hr, hname⟩)
  obtain ⟨s, hs⟩ := Option.isSome_iff_exists.1 hsome
  obtain ⟨md', η', hmd', hr', rfl⟩ := hfound hs
  obtain rfl := Option.some.inj (hmd.symm.trans hmd')
  obtain rfl := Option.some.inj (Answer.ok.inj (hr.symm.trans hr'))
  exact hs

/-- Arguments are within bounds if each implements the bound of its formal. -/
theorem withinBounds_eq_true {f : Finder} {η : Env Ty} {fs : List Slot} {ts : List Ty} :
    T.withinBounds f η fs ts = .ok true
      ↔ ∀ p ∈ fs.zip ts, T.implementsBy f p.2 (p.1.ty.subst η) = .ok true := by
  induction fs generalizing ts with
  | nil => simp [withinBounds]
  | cons x fs ih =>
    cases ts with
    | nil => simp [withinBounds]
    | cons t ts =>
      rw [List.zip_cons_cons, List.forall_mem_cons, ← ih, withinBounds, Answer.bind_eq_ok]
      constructor
      · rintro ⟨b, hb, hrest⟩
        cases b with
        | true => exact ⟨hb, hrest⟩
        | false => cases hrest
      · rintro ⟨hb, hrest⟩
        exact ⟨true, hb, hrest⟩

theorem receiverBy_eq_some {f : Finder} {formals : List Slot} {args : List Ty} {η : Env Ty} :
    T.receiverBy f formals args = .ok (some η)
      ↔ formals.length = args.length ∧ η = instantiation formals args
        ∧ ∀ p ∈ formals.zip args, T.implementsBy f p.2 (p.1.ty.subst η) = .ok true := by
  by_cases hl : formals.length = args.length
  · rw [receiverBy, if_pos hl]
    dsimp only
    rw [Answer.bind_eq_ok]
    constructor
    · rintro ⟨b, hb, hη⟩
      cases b with
      | true =>
        obtain rfl := Option.some.inj (Answer.ok.inj hη)
        exact ⟨hl, rfl, withinBounds_eq_true.1 hb⟩
      | false => cases hη
    · rintro ⟨-, rfl, hb⟩
      exact ⟨true, withinBounds_eq_true.2 hb, rfl⟩
  · rw [receiverBy, if_neg hl]
    simp [hl]

/-! ## Closing keeps methods -/

/-- What closing makes of the methods of a type. -/
structure Closes (T : Table) (strict : Bool) (Δ : Bounds) (ρ : String → Ty) (t : Ty)
    (S : MethodSet) : Prop where
  opened : ∀ s ∈ S, s.Open (T.vocabulary strict) ρ Δ.names
  covers : ∃ S', T.allMethods [] (t.close ρ) = .ok S' ∧ S'.Covers (S.map (Signature.close ρ))
  exact : T.InterfaceType t → T.allMethods [] (t.close ρ) = .ok (S.map (Signature.close ρ))

/-- A type that implements another under bounds implements it once both are closed, if closing keeps
the methods that were compared. -/
theorem Lawful.implements_close_of (h : T.Lawful strict rank) {Δ : Bounds} {ρ : String → Ty}
    (hm : T.Realizes strict Δ ρ) {f : Finder}
    (hf : ∀ t S, t.Open (T.vocabulary strict) ρ Δ.names → f t = .ok S → T.Closes strict Δ ρ t S)
    {sub sup : Ty} (hsub : sub.Open (T.vocabulary strict) ρ Δ.names)
    (hsup : sup.Open (T.vocabulary strict) ρ Δ.names)
    (himp : T.implementsBy f sub sup = .ok true) : T.Implements (sub.close ρ) (sup.close ρ) := by
  have hsub' := hsub.inner.sealed hm.sealing
  have hsup' := hsup.inner.sealed hm.sealing
  by_cases heq : sub = sup
  · exact heq ▸ h.implements_refl hsub'
  · by_cases hp : ∃ p, sup = .param p
    · obtain ⟨p, rfl⟩ := hp
      cases sub with
      | param q =>
        obtain rfl : q = p := by simpa [implementsBy] using himp
        exact absurd rfl heq
      | _ => cases himp
    · have hp : ∀ p, sup ≠ .param p := fun p he => hp ⟨p, he⟩
      by_cases hv : ∃ n, sub = .var n
      · obtain ⟨n, rfl⟩ := hv
        rw [implementsBy_var hp] at himp
        exact absurd (by simpa using himp) heq
      · have hv : ∀ n, sub ≠ .var n := fun n he => hv ⟨n, he⟩
        by_cases hi : T.InterfaceType sup
        · have hne : ∀ n, sub.close ρ ≠ .var n := by
            intro n
            cases hsub.inner with
            | param mem => exact hm.ne_var h mem n
            | var m => exact absurd rfl (hv m)
            | _ => simp
          refine (h.implements_iff hsub' hsup').2 (.inr ⟨interfaceType_close ρ hi, hne, ?_⟩)
          obtain ⟨W, hW, hor⟩ :=
            of_implementsBy_interface hv (h.isInterface_eq_true hsup.inner hi) himp
          have hWc := hf sup W hsup hW
          rcases hor with rfl | ⟨S, hS, hcov⟩
          · obtain ⟨S, hS⟩ := h.methods_total hsub' []
            exact ⟨S, _, hS, hWc.exact hi, MethodSet.covers_nil S⟩
          · have hSc := hf sub S hsub hS
            obtain ⟨S', hS', hcov'⟩ := hSc.covers
            refine ⟨S', _, hS', hWc.exact hi, hcov'.trans fun s hs => ?_⟩
            obtain ⟨w, hw, rfl⟩ := List.mem_map.1 hs
            obtain ⟨o, ho, heq⟩ := hcov w hw
            refine ⟨o.close ρ, ?_, ?_⟩
            · rw [Signature.name_close, MethodSet.find?_map fun s => Signature.name_close ρ s, ho]
              rfl
            · exact (hWc.opened w hw).alphaEq_close
                (hSc.opened o (MethodSet.mem_of_find? ho).1) hm.scope heq
        · rw [implementsBy_concrete hp (h.isInterface_eq_false hsup.inner hi)] at himp
          exact absurd (by simpa using himp) heq

/-- Closing keeps the methods of a type. -/
theorem Lawful.close_methods (h : T.Lawful strict rank) {Δ : Bounds} {ρ : String → Ty}
    (hm : T.Realizes strict Δ ρ) {n : Nat} {t : Ty} {S : MethodSet}
    (ht : t.Open (T.vocabulary strict) ρ Δ.names) (hS : T.methods Δ n t = .ok S) :
    T.Closes strict Δ ρ t S := by
  induction n generalizing t S with
  | zero => cases hS
  | succ n ih =>
    rw [methods_succ] at hS
    have hempty (hS : S = []) (hc : T.allMethods [] (t.close ρ) = .ok []) :
        T.Closes strict Δ ρ t S := by
      subst hS
      exact ⟨by simp, ⟨[], hc, MethodSet.covers_nil _⟩, fun _ => hc⟩
    have hexact (hopen : ∀ s ∈ S, s.Open (T.vocabulary strict) ρ Δ.names)
        (he : T.allMethods [] (t.close ρ) = .ok (S.map (Signature.close ρ))) :
        T.Closes strict Δ ρ t S :=
      ⟨hopen, ⟨_, he, MethodSet.covers_refl (sorted_allMethods he)⟩, fun _ => he⟩
    cases ht.inner with
    | @param _ _ a mem =>
      obtain ⟨b, hb, hS⟩ := Answer.bind_eq_ok.1 hS
      rw [Answer.liftExcept_eq, Answer.ofExcept_eq_ok, boundOf_eq_ok] at hb
      obtain ⟨hbopen, -⟩ := hm.bounds a b hb
      have hc := ih hbopen hS
      refine ⟨hc.opened, ?_, fun hi => hi.elim⟩
      obtain ⟨W, hW, hcov⟩ := hc.covers
      have hwithin := hm.within a b hb
      rw [h.implements_iff (hm.sealing.sealed a mem) (hbopen.inner.sealed hm.sealing)] at hwithin
      rcases hwithin with heq | ⟨-, -, S', W', hS', hW', hcov'⟩
      · exact ⟨W, by rw [Ty.close_param, heq, hW], hcov⟩
      · obtain rfl := Answer.ok.inj (hW.symm.trans hW')
        exact ⟨S', hS', hcov'.trans hcov⟩
    | @named _ _ c args head inner =>
      have htc := ht.inner.sealed hm.sealing
      obtain ⟨v, hv, hS⟩ := Answer.bind_eq_ok.1 hS
      rw [Answer.liftExcept_eq, Answer.ofExcept_eq_ok] at hv
      have hres := resolves_of_resolve hv
      have hresc := h.resolves_close hm.sealing ht.inner hres rfl
      rw [Ty.close_named] at htc hresc
      by_cases hi : ∃ ms, v = .interface ms
      · obtain ⟨ms, rfl⟩ := hi
        have hc := ih (h.open_of_resolves hm.sealing ht hres) hS
        have hvc := (h.resolve_iff htc.inner).2 hresc
        rw [Ty.close_interface] at hvc
        refine hexact hc.opened ?_
        have hex := hc.exact trivial
        rw [Ty.close_interface] at hex
        rw [Ty.close_named, allMethods_of_resolve_interface hvc, hex]
      · have hS : T.declaredMethods (T.methods Δ n) args (T.methodsOn c) [] = .ok S := by
          cases v with
          | interface ms => exact absurd ⟨ms, rfl⟩ hi
          | _ => exact hS
        have hnot : ¬T.NamesInterface c := fun hn => hi ((h.resolves_interface_iff hres).2 hn)
        refine ⟨fun s hs => ?_, ?_, fun hi => absurd hi hnot⟩
        · rcases of_mem_declaredMethods hS hs with hs | ⟨md, hmd, η, hr, rfl⟩
          · exact absurd hs List.not_mem_nil
          · obtain ⟨hl, rfl, -⟩ := receiverBy_eq_some.1 hr
            have hlawful := h.methods md (mem_methodsOn.1 hmd).1
            exact hlawful.sig.open_subst hlawful.formals hl hm.sealing ht.args
        · have hvc := (h.resolve_iff htc.inner).2 hresc
          have hnc : ∀ ms, v.close ρ ≠ .interface ms := fun ms he =>
            hnot ((h.resolves_interface_iff hresc).1 ⟨ms, he⟩)
          obtain ⟨S', hS'⟩ := h.methods_total htc []
          have hS'd := hS'
          rw [allMethods_of_resolve hvc hnc] at hS'd
          refine ⟨S', by rw [Ty.close_named, hS'], fun s hs => ?_⟩
          obtain ⟨w, hw, rfl⟩ := List.mem_map.1 hs
          have hfind := MethodSet.find?_of_mem (sorted_declaredMethods hS .nil) hw
          obtain ⟨md, η, hmd, hr, rfl⟩ := (h.methodsUnique.find?_declaredMethods hS).1 hfind
          obtain ⟨hl, rfl, hwithin⟩ := receiverBy_eq_some.1 hr
          have hlawful := h.methods md (of_method? hmd).1
          have hclosed := hlawful.sig.close_subst hlawful.formals hl hm.sealing inner
          refine ⟨(md.sig.subst (instantiation md.recvFormals args)).close ρ, ?_,
            Signature.alphaEq_refl _⟩
          rw [Signature.name_close, h.methodsUnique.find?_declaredMethods hS'd]
          refine ⟨md, _, hmd, receiverBy_eq_some.2 ⟨by simpa using hl, rfl, ?_⟩, hclosed⟩
          rw [List.zip_map_right]
          rintro p hp
          obtain ⟨⟨x, t⟩, hxt, rfl⟩ := List.mem_map.1 hp
          have hx := (List.of_mem_zip hxt).1
          have ht' := (List.of_mem_zip hxt).2
          have hb := hlawful.bounds x hx
          have himp := h.implements_close_of hm (fun t S ht hS => ih ht hS) (ht.args t ht')
            (hb.open_subst hlawful.formals hl hm.sealing ht.args) (hwithin (x, t) hxt)
          rw [hb.close_subst hlawful.formals hl hm.sealing inner] at himp
          exact himp
    | prim p => exact hempty (Answer.ok.inj hS).symm (by rw [allMethods_eq]; rfl)
    | struct inner =>
      refine hempty (Answer.ok.inj hS).symm ?_
      rw [Ty.close_struct, allMethods_eq]
      rfl
    | @interface _ _ ms sound inner =>
      refine hexact ?_ ?_
      · refine forall_of_memberMethods hS (by simp) (fun s hs => ht.method hs) ?_
        exact fun c args hmem E hE => (ih (ht.embed hmem).1 hE).opened
      · rw [Ty.close_interface, allMethods_interface]
        refine memberMethods_close hS fun c args hmem E hE => ?_
        rw [← Ty.close_named]
        exact (ih (ht.embed hmem).1 hE).exact (ht.embed hmem).2
    | var v => exact hempty (Answer.ok.inj hS).symm (by rw [Ty.close_var, allMethods_eq]; rfl)

/-- **A type that implements another under bounds implements it once both are closed.** -/
theorem Lawful.implements_close (h : T.Lawful strict rank) {Δ : Bounds} {ρ : String → Ty}
    (hm : T.Realizes strict Δ ρ) {n : Nat} {sub sup : Ty}
    (hsub : sub.Open (T.vocabulary strict) ρ Δ.names)
    (hsup : sup.Open (T.vocabulary strict) ρ Δ.names)
    (himp : T.implements n Δ sub sup = .ok true) : T.Implements (sub.close ρ) (sup.close ρ) :=
  h.implements_close_of hm (fun _ _ ht hS => h.close_methods hm ht hS) hsub hsup himp

/-! ## Closing what fits -/

namespace WellFormed

variable {Δ : Bounds} {ρ : String → Ty}

/-- What a type that fits offers fits. -/
theorem fit_of_methods (h : T.WellFormed strict rank)
    (hΔ : ∀ a b, Δ.find? a = some b → b.Fit (T.vocabulary strict) Δ.names []) {n : Nat} {t : Ty}
    {S : MethodSet} (ht : t.Fit (T.vocabulary strict) Δ.names []) (hS : T.methods Δ n t = .ok S) :
    ∀ s ∈ S, s.Fit (T.vocabulary strict) Δ.names [] := by
  induction n generalizing t S with
  | zero => cases hS
  | succ n ih =>
    rw [methods_succ] at hS
    cases ht with
    | param mem =>
      obtain ⟨b, hb, hS⟩ := Answer.bind_eq_ok.1 hS
      rw [Answer.liftExcept_eq, Answer.ofExcept_eq_ok, boundOf_eq_ok] at hb
      exact ih (hΔ _ b hb) hS
    | @named _ _ c args head flat fit =>
      have ht : (Ty.named c args).Fit (T.vocabulary strict) Δ.names [] := .named head flat fit
      obtain ⟨v, hv, hS⟩ := Answer.bind_eq_ok.1 hS
      rw [Answer.liftExcept_eq, Answer.ofExcept_eq_ok] at hv
      have hvfit := h.fit_of_resolves ht (resolves_of_resolve hv)
      have hdeclared (hS : T.declaredMethods (T.methods Δ n) args (T.methodsOn c) [] = .ok S) :
          ∀ s ∈ S, s.Fit (T.vocabulary strict) Δ.names [] := by
        intro s hs
        rcases of_mem_declaredMethods hS hs with hs | ⟨md, hmd, η, hr, rfl⟩
        · exact absurd hs List.not_mem_nil
        · obtain ⟨hl, rfl, -⟩ := receiverBy_eq_some.1 hr
          exact (h.methods md (mem_methodsOn.1 hmd).1).sig.fit_subst hl flat fit
      cases v with
      | interface ms => exact ih hvfit hS
      | _ => exact hdeclared hS
    | @interface _ _ ms proper fit =>
      refine forall_of_memberMethods hS (by simp) (fun s hs => ⟨proper _ hs, fit _ hs⟩) ?_
      intro c args hmem E hE
      obtain ⟨-, hh, hflat⟩ := proper _ hmem
      exact ih (.named hh hflat (fit _ hmem)) hE
    | _ => simp [← Answer.ok.inj hS]

/-- A type that implements another under bounds implements it once both are closed. -/
theorem implements_close (h : T.WellFormed strict rank) (hm : T.Models strict Δ ρ) {n : Nat}
    {sub sup : Ty} (hsub : sub.Fit (T.vocabulary strict) Δ.names [])
    (hsup : sup.Fit (T.vocabulary strict) Δ.names [])
    (himp : T.implements n Δ sub sup = .ok true) : T.Implements (sub.close ρ) (sup.close ρ) :=
  h.lawful.implements_close hm.realizes (hm.opened hsub) (hm.opened hsup) himp

end WellFormed

end FeatherGo.Table
