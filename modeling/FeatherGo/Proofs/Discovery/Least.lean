import FeatherGo.Proofs.Discovery.Coverage
import FeatherGo.Proofs.Typing.Fuel
import Mathlib.Order.Bounds.Basic

/-!
# Discovery answers the least saturated set

`Table.Saturated` states the rules of discovery for sets of types and of method instances, without
passes, fuel or an order of visits. Discovery answers the least saturated set that holds the
instances of the main expression (`discover_isLeast`): the last pass shows that the answer is
saturated, and no visit leaves a saturated set (`Closure.within_of_discover`).
-/

namespace FeatherGo

/-- A set of types and a set of method instances. -/
abbrev InstanceSets := Set Ty × Set MethodInstance

/-- The instances of a list without their order. -/
def Instances.sets (F : Instances) : InstanceSets := ({t | t ∈ F.types}, {m | m ∈ F.meths})

theorem Instances.sets_le {F : Instances} {S : InstanceSets} :
    F.sets ≤ S ↔ (∀ t ∈ F.types, t ∈ S.1) ∧ ∀ m ∈ F.meths, m ∈ S.2 := Iff.rfl

namespace Table

/-- The instances that are collected from an expression. -/
def Collects (T : Table) (Γ : Scope) (e : Expr) (found : Instances) : Prop :=
  ∃ fuel, (Checker.mk T true fuel).collect [] Γ e .empty = (.ok (), found)

/-- A set holds the instances that are collected from a main expression. -/
def Seeded (T : Table) (main : Expr) (S : InstanceSets) : Prop :=
  ∀ found, T.Collects [] main found → found.sets ≤ S

/-- A set holds whatever its members demand. -/
structure Saturated (T : Table) (S : InstanceSets) : Prop where
  /-- The types of the fields of a struct type. -/
  fields : ∀ t fs, t ∈ S.1 → T.structFields t = .ok (some fs) → ∀ f ∈ fs, f.ty ∈ S.1
  /-- The source of a defined type. -/
  source : ∀ c args u, .named c args ∈ S.1 → T.underlying (.named c args) = .ok u →
    u.isNamed = true → u ∈ S.1
  /-- What an interface embeds. -/
  embedded : ∀ c args ms d as, .named c args ∈ S.1 →
    T.resolve (.named c args) = .ok (.interface ms) → .embed d as ∈ ms → .named d as ∈ S.1
  /-- A call on an interface, as a call on the types that implement it. -/
  implementers : ∀ m t fuel, m ∈ S.2 → T.isInterface m.recv = .ok true → t ∈ S.1 →
    t.isNamed = true → T.implements fuel [] t m.recv = .ok true → ⟨t, m.meth, m.targs⟩ ∈ S.2
  /-- A call on an interface, as a call on the embedded interfaces that have the method. -/
  embeddings : ∀ m ms d as fuel E, m ∈ S.2 → T.resolve m.recv = .ok (.interface ms) →
    .embed d as ∈ ms → T.methods [] fuel (.named d as) = .ok E → (E.find? m.meth).isSome = true →
    ⟨.named d as, m.meth, m.targs⟩ ∈ S.2
  /-- The parameter types and the result of a call's signature. -/
  signature : ∀ m fuel E sig, m ∈ S.2 → T.methods [] fuel m.recv = .ok E →
    E.find? m.meth = some sig → sig.formals.length = m.targs.length →
    (∀ p ∈ sig.params, p.ty.subst (instantiation sig.formals m.targs) ∈ S.1)
      ∧ sig.result.subst (instantiation sig.formals m.targs) ∈ S.1
  /-- What is collected from the body of a call on a type that is no interface. -/
  body : ∀ c args m md found, m ∈ S.2 → m.recv = .named c args → m.recv ∈ S.1 →
    T.isInterface m.recv = .ok false → T.method? c m.meth = some md →
    md.recvFormals.length = args.length → md.sig.formals.length = m.targs.length →
    T.Collects (Closure.bodyScope m args md) (md.body.substTypes
      (instantiation md.recvFormals args ++ instantiation md.sig.formals m.targs)) found →
    found.sets ≤ S

end Table

variable {T : Table} {fuel : Nat} {F : Instances}

/-! ## The answer is saturated -/

/-- Typing comes to one answer only, whatever the fuel. -/
theorem Answer.eq_of_below {ε α : Type} {x : Nat → Answer ε α}
    (h : ∀ {n m}, n ≤ m → Answer.Below (x n) (x m)) {n m : Nat} {a b : α} (hn : x n = .ok a)
    (hm : x m = .ok b) : a = b := by
  have ha := (h (Nat.le_max_left n m)).ok hn
  have hb := (h (Nat.le_max_right n m)).ok hm
  exact Answer.ok.inj (ha.symm.trans hb)

/-- What is collected from an expression does not depend on the fuel. -/
theorem Table.Collects.unique {Γ : Scope} {e : Expr} {found found' : Instances}
    (h : T.Collects Γ e found) (h' : T.Collects Γ e found') : found = found' := by
  obtain ⟨n, hn⟩ := h
  obtain ⟨m, hm⟩ := h'
  have ha : _ = (Answer.ok (), found) := Checker.collect_mono (Nat.le_max_left n m) hn
  have hb : _ = (Answer.ok (), found') := Checker.collect_mono (Nat.le_max_right n m) hm
  exact (Prod.mk.inj (ha.symm.trans hb)).2

namespace Closure

/-! ## What types demand -/

theorem isInterface_of_resolve {t : Ty} {ms : List Member}
    (h : T.resolve t = .ok (.interface ms)) : T.isInterface t = .ok true := by
  cases t with
  | named c args =>
    rw [Table.isInterface, h]
    rfl
  | interface ms => rfl
  | _ => cases h

/-- What a type embeds is what the interface behind it embeds. -/
theorem mem_embeddedIn {t u : Ty} {us : List Ty} (h : embeddedIn T t = .ok us) :
    u ∈ us ↔ ∃ ms d as, T.resolve t = .ok (.interface ms) ∧ .embed d as ∈ ms ∧ u = .named d as := by
  obtain ⟨v, hv, h⟩ := except_bind_eq_ok.1 h
  rw [hv]
  split at h
  · rename_i ms
    obtain rfl := Except.ok.inj h
    rw [List.mem_filterMap]
    constructor
    · rintro ⟨member, hmember, hu⟩
      split at hu
      · rename_i d as
        exact ⟨ms, d, as, rfl, hmember, (Option.some.inj hu).symm⟩
      · cases hu
    · rintro ⟨ms', d, as, hms, hd, rfl⟩
      obtain rfl := Ty.interface.inj (Except.ok.inj hms)
      exact ⟨_, hd, rfl⟩
  · rename_i hnot
    obtain rfl := Except.ok.inj h
    constructor
    · intro hu
      cases hu
    · rintro ⟨ms, d, as, hms, -⟩
      exact absurd (Except.ok.inj hms) (hnot ms)

/-- A type demands the types of its fields, its source and what it embeds. -/
inductive Demands (T : Table) : Ty → Ty → Prop
  | field {t : Ty} {fs : List Slot} {f : Slot} (fields : T.structFields t = .ok (some fs))
      (mem : f ∈ fs) : Demands T t f.ty
  | source {c : String} {args : List Ty} {u : Ty} (underlying : T.underlying (.named c args) = .ok u)
      (named : u.isNamed = true) : Demands T (.named c args) u
  | embedded {c : String} {args : List Ty} {ms : List Member} {d : String} {as : List Ty}
      (resolve : T.resolve (.named c args) = .ok (.interface ms)) (mem : .embed d as ∈ ms) :
      Demands T (.named c args) (.named d as)

theorem mem_demanded {t d : Ty} {ds : List Ty} (h : demanded T t = .ok ds) :
    d ∈ ds ↔ Demands T t d := by
  obtain ⟨fs?, hfs, h⟩ := except_bind_eq_ok.1 h
  have hfield : d ∈ (fs?.getD []).map (·.ty) ↔
      ∃ fs, T.structFields t = .ok (some fs) ∧ ∃ f ∈ fs, f.ty = d := by
    rw [hfs, List.mem_map]
    cases fs? with
    | none => simp
    | some fs => simp
  cases t with
  | named c args =>
    obtain ⟨u, hu, h⟩ := except_bind_eq_ok.1 h
    obtain ⟨us, hus, h⟩ := except_bind_eq_ok.1 h
    obtain rfl := Except.ok.inj h
    rw [List.mem_append, List.mem_append, hfield, mem_embeddedIn hus, List.mem_filter,
      List.mem_singleton]
    constructor
    · rintro ((⟨fs, hfs, f, hf, rfl⟩ | ⟨rfl, hn⟩) | ⟨ms, d, as, hms, hd, rfl⟩)
      · exact .field hfs hf
      · exact .source hu hn
      · exact .embedded hms hd
    · intro hd
      cases hd with
      | field hfs hf => exact .inl (.inl ⟨_, hfs, _, hf, rfl⟩)
      | source hu' hn => exact .inl (.inr ⟨Except.ok.inj (hu'.symm.trans hu), hn⟩)
      | embedded hms hd => exact .inr ⟨_, _, _, hms, hd, rfl⟩
  | _ =>
    obtain rfl := Except.ok.inj h
    rw [hfield]
    constructor
    · rintro ⟨fs, hfs, f, hf, rfl⟩
      exact .field hfs hf
    · intro hd
      cases hd with
      | field hfs hf => exact ⟨_, hfs, _, hf, rfl⟩

/-! ## The answer is saturated -/

theorem Holds.sets_le {Γ : Scope} {e : Expr} (h : (ground T fuel).Holds Γ e F)
    {found : Instances} (hfound : T.Collects Γ e found) : found.sets ≤ F.sets := by
  obtain ⟨found', hfound', hle⟩ := h
  obtain rfl := hfound.unique ⟨fuel, hfound'⟩
  exact hle

theorem Closed.mem_of_demands (h : (ground T fuel).Closed F) {t d : Ty} (ht : t ∈ F.types)
    (hd : Demands T t d) : d ∈ F.types := by
  obtain ⟨ds, hds, hmem⟩ := h.types t ht
  exact hmem d ((mem_demanded hds).2 hd)

/-- A closed set is saturated. -/
theorem Closed.saturated (h : (ground T fuel).Closed F) : T.Saturated F.sets where
  fields _ _ ht hfs _ hf := h.mem_of_demands ht (.field hfs hf)
  source _ _ _ ht hu hn := h.mem_of_demands ht (.source hu hn)
  embedded _ _ _ _ _ ht hms hd := h.mem_of_demands ht (.embedded hms hd)
  implementers m t n hm hi ht hn himp := by
    by_cases he : t = m.recv
    · subst he
      exact hm
    · obtain ⟨b, hb, hmem⟩ := (h.meths m hm).implementers hi t ht hn he
      exact hmem (Answer.eq_of_below (fun hnm => Table.implements_below hnm [] t m.recv) hb himp)
  embeddings m ms d as n E hm hms hd hE hsome := by
    obtain ⟨us, hus, hall⟩ := (h.meths m hm).embeddings (isInterface_of_resolve hms)
    obtain ⟨E', hE', hmem⟩ := hall _ ((mem_embeddedIn hus).2 ⟨ms, d, as, hms, hd, rfl⟩)
    obtain rfl := Answer.eq_of_below (fun hnm => Table.methods_below hnm [] _) hE' hE
    exact hmem hsome
  signature m n E sig hm hE hsig hl := by
    obtain ⟨E', hE', hmem⟩ := (h.meths m hm).signature
    obtain rfl := Answer.eq_of_below (fun hnm => Table.methods_below hnm [] _) hE' hE
    exact hmem sig hsig hl
  body c args m md found hm hr ht hi hmd hl hl' hfound :=
    ((h.meths m hm).body hi ht c args md hr hmd hl hl').sets_le hfound

end Closure

/-! ## No visit leaves a saturated set -/

/-- Ground instances of a set, each of them once. -/
structure Instances.Within (F : Instances) (S : InstanceSets) : Prop where
  le : F.sets ≤ S
  typesNodup : F.types.Nodup
  methsNodup : F.meths.Nodup
  typesGround : ∀ t ∈ F.types, t.isGround = true
  methsGround : ∀ m ∈ F.meths, ∀ t ∈ m.recv :: m.targs, t.isGround = true

theorem Instances.within_empty (S : InstanceSets) : Instances.empty.Within S :=
  ⟨Instances.sets_le.2 ⟨List.forall_mem_nil _, List.forall_mem_nil _⟩, .nil, .nil,
    List.forall_mem_nil _, List.forall_mem_nil _⟩

namespace Closure

variable {S : InstanceSets} {s s' : Frontier}

theorem isGround_of_permit {ts : List Ty} (h : ((ground T fuel).permit ts).Ends s () s') :
    s = s' ∧ ∀ t ∈ ts, t.isGround = true := by
  obtain ⟨hs, hground⟩ := of_permit h
  refine ⟨hs, fun t ht => ?_⟩
  have hnone := hground t ht
  rw [refusal?, ground] at hnone
  by_cases hg : t.isGround = true
  · exact hg
  · simp [hg] at hnone

theorem within_of_addType {t : Ty} {b : Bool} (ht : t ∈ S.1)
    (h : ((ground T fuel).addType t).Ends s b s') (hs : s.found.Within S) :
    s'.found.Within S := by
  obtain ⟨⟨⟩, s₁, h₁, h⟩ := Track.ends_bind.1 h
  obtain ⟨rfl, hground⟩ := isGround_of_permit h₁
  obtain ⟨s₂, s₃, h₂, h⟩ := Track.ends_bind.1 h
  obtain ⟨rfl, rfl⟩ := Track.of_ends_state h₂
  obtain ⟨⟨⟩, s₄, h₃, h⟩ := Track.ends_bind.1 h
  obtain rfl := Track.of_ends_update h₃
  obtain ⟨-, rfl⟩ := Track.of_ends_pure h
  refine ⟨Instances.sets_le.2 ⟨fun u hu => ?_, hs.le.2⟩, nodup_insertNew hs.typesNodup,
    hs.methsNodup, fun u hu => ?_, hs.methsGround⟩
  all_goals rcases mem_insertNew.1 hu with hu | rfl
  · exact hs.le.1 hu
  · exact ht
  · exact hs.typesGround u hu
  · exact hground u List.mem_cons_self

theorem within_of_addMethod {m : MethodInstance} {b : Bool} (hm : m ∈ S.2)
    (h : ((ground T fuel).addMethod m).Ends s b s') (hs : s.found.Within S) :
    s'.found.Within S := by
  obtain ⟨⟨⟩, s₁, h₁, h⟩ := Track.ends_bind.1 h
  obtain ⟨rfl, hground⟩ := isGround_of_permit h₁
  obtain ⟨s₂, s₃, h₂, h⟩ := Track.ends_bind.1 h
  obtain ⟨rfl, rfl⟩ := Track.of_ends_state h₂
  obtain ⟨⟨⟩, s₄, h₃, h⟩ := Track.ends_bind.1 h
  obtain rfl := Track.of_ends_update h₃
  obtain ⟨-, rfl⟩ := Track.of_ends_pure h
  refine ⟨Instances.sets_le.2 ⟨hs.le.1, fun n hn => ?_⟩, hs.typesNodup,
    nodup_insertNew hs.methsNodup, hs.typesGround, fun n hn => ?_⟩
  all_goals rcases mem_insertNew.1 hn with hn | rfl
  · exact hs.le.2 hn
  · exact hm
  · exact hs.methsGround n hn
  · exact hground

theorem within_of_addTypes {ts : List Ty} (hts : ∀ t ∈ ts, t ∈ S.1)
    (h : ((ground T fuel).addTypes ts).Ends s () s') (hs : s.found.Within S) :
    s'.found.Within S := by
  induction ts generalizing s with
  | nil =>
    obtain ⟨-, rfl⟩ := Track.of_ends_pure h
    exact hs
  | cons t ts ih =>
    rw [List.forall_mem_cons] at hts
    obtain ⟨b, s₁, h₁, h⟩ := Track.ends_bind.1 h
    exact ih hts.2 h (within_of_addType hts.1 h₁ hs)

theorem within_of_addMethods {ms : List MethodInstance} (hms : ∀ m ∈ ms, m ∈ S.2)
    (h : ((ground T fuel).addMethods ms).Ends s () s') (hs : s.found.Within S) :
    s'.found.Within S := by
  induction ms generalizing s with
  | nil =>
    obtain ⟨-, rfl⟩ := Track.of_ends_pure h
    exact hs
  | cons m ms ih =>
    rw [List.forall_mem_cons] at hms
    obtain ⟨b, s₁, h₁, h⟩ := Track.ends_bind.1 h
    exact ih hms.2 h (within_of_addMethod hms.1 h₁ hs)

theorem within_of_addFrom {Γ : Scope} {e : Expr}
    (hfound : ∀ found, T.Collects Γ e found → found.sets ≤ S)
    (h : ((ground T fuel).addFrom Γ e).Ends s () s') (hs : s.found.Within S) :
    s'.found.Within S := by
  rw [addFrom] at h
  cases hc : (ground T fuel).checker.collect (ground T fuel).bounds Γ e Instances.empty with
  | mk outcome found =>
    rw [hc] at h
    obtain ⟨⟨⟩, s₁, h₁, h⟩ := Track.ends_bind.1 h
    obtain ⟨rfl, rfl⟩ := of_typing h₁
    obtain ⟨htypes, hmeths⟩ := Instances.sets_le.1 (hfound found ⟨fuel, hc⟩)
    obtain ⟨⟨⟩, s₂, h₂, h⟩ := Track.ends_bind.1 h
    exact within_of_addMethods hmeths h (within_of_addTypes htypes h₂ hs)

section Rules

variable (hS : T.Saturated S)

include hS

theorem Saturated.mem_of_demands {t d : Ty} (ht : t ∈ S.1) (hd : Demands T t d) : d ∈ S.1 := by
  cases hd with
  | field hfs hf => exact hS.fields _ _ ht hfs _ hf
  | source hu hn => exact hS.source _ _ _ ht hu hn
  | embedded hms hd => exact hS.embedded _ _ _ _ _ ht hms hd

theorem within_of_growTypes {ts : List Ty} (hts : ∀ t ∈ ts, t ∈ S.1)
    (h : ((ground T fuel).growTypes ts).Ends s () s') (hs : s.found.Within S) :
    s'.found.Within S := by
  induction ts generalizing s with
  | nil =>
    obtain ⟨-, rfl⟩ := Track.of_ends_pure h
    exact hs
  | cons t ts ih =>
    rw [List.forall_mem_cons] at hts
    obtain ⟨ds, s₁, h₁, h⟩ := Track.ends_bind.1 h
    obtain ⟨hds, rfl⟩ := of_typing h₁
    obtain ⟨⟨⟩, s₂, h₂, h⟩ := Track.ends_bind.1 h
    have hds := Answer.ofExcept_eq_ok.1 hds
    exact ih hts.2 h (within_of_addTypes
      (fun d hd => Saturated.mem_of_demands hS hts.1 ((mem_demanded hds).1 hd)) h₂ hs)

theorem within_of_implementers {m : MethodInstance} (hm : m ∈ S.2)
    (hi : T.isInterface m.recv = .ok true) {ts : List Ty} (hts : ∀ t ∈ ts, t ∈ S.1)
    (h : ((ground T fuel).implementers m ts).Ends s () s') (hs : s.found.Within S) :
    s'.found.Within S := by
  induction ts generalizing s with
  | nil =>
    obtain ⟨-, rfl⟩ := Track.of_ends_pure h
    exact hs
  | cons t ts ih =>
    rw [List.forall_mem_cons] at hts
    rw [implementers] at h
    dsimp only at h
    by_cases hc : (t.isNamed && decide (t ≠ m.recv)) = true
    · rw [if_pos hc] at h
      obtain ⟨b, s₁, h₁, h⟩ := Track.ends_bind.1 h
      obtain ⟨hb, rfl⟩ := of_typing h₁
      cases b with
      | true =>
        obtain ⟨new, s₂, h₂, h⟩ := Track.ends_bind.1 h
        have hmem := hS.implementers m t fuel hm hi hts.1 (Bool.and_eq_true_iff.1 hc).1 hb
        exact ih hts.2 h (within_of_addMethod hmem h₂ hs)
      | false => exact ih hts.2 h hs
    · rw [if_neg hc] at h
      exact ih hts.2 h hs

theorem within_of_embeddings {m : MethodInstance} (hm : m ∈ S.2) {ts : List Ty}
    (hts : ∀ t ∈ ts, ∃ ms d as, T.resolve m.recv = .ok (.interface ms) ∧ .embed d as ∈ ms
      ∧ t = .named d as)
    (h : ((ground T fuel).embeddings m ts).Ends s () s') (hs : s.found.Within S) :
    s'.found.Within S := by
  induction ts generalizing s with
  | nil =>
    obtain ⟨-, rfl⟩ := Track.of_ends_pure h
    exact hs
  | cons t ts ih =>
    rw [List.forall_mem_cons] at hts
    obtain ⟨⟨ms, d, as, hms, hd, rfl⟩, hts⟩ := hts
    obtain ⟨E, s₁, h₁, h⟩ := Track.ends_bind.1 h
    obtain ⟨hE, rfl⟩ := of_typing h₁
    dsimp only at h
    by_cases hc : (E.find? m.meth).isSome = true
    · rw [if_pos hc] at h
      obtain ⟨new, s₂, h₂, h⟩ := Track.ends_bind.1 h
      have hmem := hS.embeddings m ms d as fuel E hm hms hd hE hc
      exact ih hts h (within_of_addMethod hmem h₂ hs)
    · rw [if_neg hc] at h
      exact ih hts h hs

theorem within_of_signatureTypes {m : MethodInstance} (hm : m ∈ S.2)
    (h : ((ground T fuel).signatureTypes m).Ends s () s') (hs : s.found.Within S) :
    s'.found.Within S := by
  obtain ⟨E, s₁, h₁, h⟩ := Track.ends_bind.1 h
  obtain ⟨hE, rfl⟩ := of_typing h₁
  split at h
  · obtain ⟨-, rfl⟩ := Track.of_ends_pure h
    exact hs
  · rename_i sig hsig
    by_cases hl : sig.formals.length = m.targs.length
    · rw [if_pos hl] at h
      obtain ⟨hparams, hresult⟩ := hS.signature m fuel E sig hm hE hsig hl
      refine within_of_addTypes (fun t ht => ?_) h hs
      rcases List.mem_append.1 ht with ht | ht
      · obtain ⟨p, hp, rfl⟩ := List.mem_map.1 ht
        exact hparams p hp
      · exact List.mem_singleton.1 ht ▸ hresult
    · rw [if_neg hl] at h
      obtain ⟨-, rfl⟩ := Track.of_ends_pure h
      exact hs

theorem within_of_bodies {m : MethodInstance} (hm : m ∈ S.2)
    (h : ((ground T fuel).bodies m).Ends s () s') (hs : s.found.Within S) :
    s'.found.Within S := by
  rw [bodies] at h
  split at h
  · rename_i c args hr
    obtain ⟨b, s₁, h₁, h⟩ := Track.ends_bind.1 h
    obtain ⟨hb, rfl⟩ := of_typing h₁
    have hb := Answer.ofExcept_eq_ok.1 hb
    cases b with
    | true =>
      obtain ⟨-, rfl⟩ := Track.of_ends_pure h
      exact hs
    | false =>
      obtain ⟨s₂, s₃, h₂, h⟩ := Track.ends_bind.1 h
      obtain ⟨rfl, rfl⟩ := Track.of_ends_state h₂
      split at h
      · rename_i md hmd
        by_cases hmem : m.recv ∈ s.found.types
        · rw [if_pos (hr ▸ hmem)] at h
          obtain ⟨seen, s₄, h₄, h⟩ := Track.ends_bind.1 h
          obtain ⟨rfl, -⟩ := of_visit rfl h₄
          cases seen with
          | true =>
            obtain ⟨-, rfl⟩ := Track.of_ends_pure h
            exact hs
          | false =>
            rw [Bool.not_false, if_pos rfl, body] at h
            split at h
            · rename_i hl
              exact within_of_addFrom (fun found hfound =>
                hS.body c args m md found hm hr (hs.le.1 hmem) (hr ▸ hb) hmd hl.1 hl.2 hfound) h hs
            · obtain ⟨-, rfl⟩ := Track.of_ends_pure h
              exact hs
        · rw [if_neg (hr ▸ hmem)] at h
          obtain ⟨-, rfl⟩ := Track.of_ends_pure h
          exact hs
      · obtain ⟨-, rfl⟩ := Track.of_ends_pure h
        exact hs
  · obtain ⟨-, rfl⟩ := Track.of_ends_pure h
    exact hs

theorem within_of_growMethod {types : List Ty} (htypes : ∀ t ∈ types, t ∈ S.1)
    {m : MethodInstance} (hm : m ∈ S.2) (h : ((ground T fuel).growMethod types m).Ends s () s')
    (hs : s.found.Within S) : s'.found.Within S := by
  obtain ⟨b, s₁, h₁, h⟩ := Track.ends_bind.1 h
  obtain ⟨hb, rfl⟩ := of_typing h₁
  have hb := Answer.ofExcept_eq_ok.1 hb
  cases b with
  | true =>
    dsimp only at h
    rw [if_pos rfl] at h
    obtain ⟨⟨⟩, s₂, h₂, h⟩ := Track.ends_bind.1 h
    obtain ⟨us, s₃, h₃, h⟩ := Track.ends_bind.1 h
    obtain ⟨hus, rfl⟩ := of_typing h₃
    obtain ⟨⟨⟩, s₄, h₄, h⟩ := Track.ends_bind.1 h
    obtain ⟨⟨⟩, s₅, h₅, h⟩ := Track.ends_bind.1 h
    have hs₂ := within_of_implementers hS hm hb htypes h₂ hs
    have hs₄ := within_of_embeddings hS hm
      (fun u hu => (mem_embeddedIn (Answer.ofExcept_eq_ok.1 hus)).1 hu) h₄ hs₂
    exact within_of_bodies hS hm h (within_of_signatureTypes hS hm h₅ hs₄)
  | false =>
    dsimp only at h
    rw [if_neg (by simp)] at h
    obtain ⟨⟨⟩, s₅, h₅, h⟩ := Track.ends_bind.1 h
    exact within_of_bodies hS hm h (within_of_signatureTypes hS hm h₅ hs)

theorem within_of_growMethods {types : List Ty} (htypes : ∀ t ∈ types, t ∈ S.1)
    {ms : List MethodInstance} (hms : ∀ m ∈ ms, m ∈ S.2)
    (h : ((ground T fuel).growMethods types ms).Ends s () s') (hs : s.found.Within S) :
    s'.found.Within S := by
  induction ms generalizing s with
  | nil =>
    obtain ⟨-, rfl⟩ := Track.of_ends_pure h
    exact hs
  | cons m ms ih =>
    rw [List.forall_mem_cons] at hms
    obtain ⟨⟨⟩, s₁, h₁, h⟩ := Track.ends_bind.1 h
    exact ih hms.2 h (within_of_growMethod hS htypes hms.1 h₁ hs)

theorem within_of_pass (h : (ground T fuel).pass.Ends s () s') (hs : s.found.Within S) :
    s'.found.Within S := by
  obtain ⟨s₁, s₂, h₁, h⟩ := Track.ends_bind.1 h
  obtain ⟨rfl, rfl⟩ := Track.of_ends_state h₁
  obtain ⟨⟨⟩, s₃, h₃, h⟩ := Track.ends_bind.1 h
  exact within_of_growMethods hS (fun _ ht => hs.le.1 ht) (fun _ hm => hs.le.2 hm) h
    (within_of_growTypes hS (fun _ ht => hs.le.1 ht) h₃ hs)

theorem within_of_runFrom {limit : Option Nat} {rounds passes n : Nat}
    (h : ((ground T fuel).runFrom limit rounds passes).Ends s n s') (hs : s.found.Within S) :
    s'.found.Within S := by
  induction rounds generalizing s passes with
  | zero => cases h
  | succ rounds ih =>
    obtain ⟨s₁, s₂, h₁, h⟩ := Track.ends_bind.1 h
    obtain ⟨rfl, rfl⟩ := Track.of_ends_state h₁
    obtain ⟨⟨⟩, s₃, h₃, h⟩ := Track.ends_bind.1 h
    have hs₃ := within_of_pass hS h₃ hs
    obtain ⟨s₄, s₅, h₄, h⟩ := Track.ends_bind.1 h
    obtain ⟨rfl, rfl⟩ := Track.of_ends_state h₄
    split at h
    · obtain ⟨-, rfl⟩ := Track.of_ends_pure h
      exact hs₃
    · split at h
      · cases h
      · exact ih h hs₃

/-- What discovery answers lies in every saturated set that holds the instances of the main
expression; each instance is there once and is ground. -/
theorem within_of_discover {main : Expr} (hmain : T.Seeded main S) {limit : Option Nat}
    (hF : discover fuel T main limit = .ok F) : F.Within S := by
  obtain ⟨hrun, rfl⟩ := ends_of_found
    (x := do (ground T fuel).addFrom [] main; let _ ← (ground T fuel).run limit) hF
  obtain ⟨⟨⟩, s₁, h₁, h₂⟩ := Track.ends_bind.1 hrun
  obtain ⟨n, s₂, h₂, h₃⟩ := Track.ends_bind.1 h₂
  obtain ⟨-, rfl⟩ := Track.of_ends_pure h₃
  exact within_of_runFrom hS h₂ (within_of_addFrom hmain h₁ (Instances.within_empty S))

end Rules

/-- What discovery answers is the least saturated set that holds the instances of the main
expression. -/
theorem isLeast_of_discover {main : Expr} {limit : Option Nat}
    (hF : discover fuel T main limit = .ok F) :
    IsLeast {S | T.Seeded main S ∧ T.Saturated S} F.sets := by
  obtain ⟨hmain, hclosed⟩ := of_discover hF
  exact ⟨⟨fun _ hfound => hmain.sets_le hfound, hclosed.saturated⟩,
    fun _ hS => (within_of_discover hS.2 hS.1 hF).le⟩

end Closure

/-- **Discovery answers the least saturated set** that holds the instances of the main expression:
each instance is there once, no rule fails at the answer, and other limits or other fuel do not
change it. -/
theorem discover_isLeast {main : Expr} {limit : Option Nat}
    (hF : discover fuel T main limit = .ok F) :
    IsLeast {S | T.Seeded main S ∧ T.Saturated S} F.sets
      ∧ (Closure.ground T fuel).Holds [] main F ∧ (Closure.ground T fuel).Closed F
      ∧ F.types.Nodup ∧ F.meths.Nodup
      ∧ ∀ fuel' limit' F', discover fuel' T main limit' = .ok F' → F'.sets = F.sets := by
  have hleast := Closure.isLeast_of_discover hF
  have hwithin := Closure.within_of_discover hleast.1.2 hleast.1.1 hF
  obtain ⟨hholds, hclosed⟩ := Closure.of_discover hF
  exact ⟨hleast, hholds, hclosed, hwithin.typesNodup, hwithin.methsNodup,
    fun _ _ _ hF' => (Closure.isLeast_of_discover hF').unique hleast⟩

theorem dispatchingProgram_isLeast : ∃ T F, Table.ofDecls dispatchingProgram.decls = .ok T
    ∧ discover 9 T dispatchingProgram.main none = .ok F
    ∧ IsLeast {S | T.Seeded dispatchingProgram.main S ∧ T.Saturated S} F.sets := by
  have hok : (Answer.ofExcept (Table.ofDecls dispatchingProgram.decls)).any (fun T =>
      (discover 9 T dispatchingProgram.main none).any fun _ => true) = true := by decide +kernel
  obtain ⟨T, hT, hok⟩ := Answer.any_eq_true.1 hok
  obtain ⟨F, hF, -⟩ := Answer.any_eq_true.1 hok
  exact ⟨T, F, Answer.ofExcept_eq_ok.1 hT, hF, (discover_isLeast hF).1⟩

end FeatherGo
