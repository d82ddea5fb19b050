import FeatherGo.Proofs.Discovery.Least
import FeatherGo.Proofs.Methods.Stable

/-!
# Properties of types that discovery keeps

What the declarations keep of types (`Table.KeepsInstances`) holds of every instance that discovery
answers: the instances over such types are a saturated set, and the answer is the least one
(`Closure.over_of_discover`).
-/

namespace FeatherGo

/-- A method instance over types of one property, at arguments of another one. -/
structure MethodInstance.Over (P Q : Ty → Prop) (m : MethodInstance) : Prop where
  recv : P m.recv
  targs : ∀ t ∈ m.targs, P t ∧ Q t

/-- Instances over types of one property, at arguments of another one. -/
structure Instances.Over (P Q : Ty → Prop) (F : Instances) : Prop where
  types : ∀ t ∈ F.types, P t
  meths : ∀ m ∈ F.meths, m.Over P Q

namespace Instances.Over

variable {P Q : Ty → Prop} {F : Instances}

theorem empty (P Q : Ty → Prop) : Instances.empty.Over P Q :=
  ⟨fun _ ht => absurd ht List.not_mem_nil, fun _ hm => absurd hm List.not_mem_nil⟩

theorem pushType (h : F.Over P Q) {t : Ty} (ht : P t) : (F.pushType t).Over P Q := by
  refine ⟨fun u hu => ?_, h.meths⟩
  rcases List.mem_append.1 hu with hu | hu
  · exact h.types u hu
  · exact List.mem_singleton.1 hu ▸ ht

theorem pushMethod (h : F.Over P Q) {m : MethodInstance} (hm : m.Over P Q) :
    (F.pushMethod m).Over P Q := by
  refine ⟨h.types, fun n hn => ?_⟩
  rcases List.mem_append.1 hn with hn | hn
  · exact h.meths n hn
  · exact List.mem_singleton.1 hn ▸ hm

end Instances.Over

/-! ## Collected instances -/

namespace Checker

variable {T : Table} {P Q : Ty → Prop} {C : Checker} {Δ : Bounds} {Γ : Scope} {F F' : Instances}

theorem over_of_collectAll {es : List Expr}
    (ih : ∀ e ∈ es, ∀ {F F'}, (C.collect Δ Γ e).Ends F () F' → F.Over P Q → F'.Over P Q)
    (h : (C.collectAll Δ Γ es).Ends F () F') (hF : F.Over P Q) : F'.Over P Q := by
  induction es generalizing F with
  | nil =>
    obtain ⟨-, rfl⟩ := Track.of_ends_pure h
    exact hF
  | cons e es ihes =>
    rw [List.forall_mem_cons] at ih
    obtain ⟨⟨⟩, F₁, h₁, h⟩ := Track.ends_bind.1 h
    exact ihes ih.2 h (ih.1 h₁ hF)

/-- What is collected from an expression over kept types is over them. -/
theorem over_of_collect (hK : T.Keeps Δ P Q) (hC : C.table = T)
    (hΓ : ∀ x t, Γ.find? x = some t → P t) {e : Expr} (he : e.Over P Q)
    (hc : (C.collect Δ Γ e).Ends F () F') (hF : F.Over P Q) : F'.Over P Q := by
  induction e using Expr.induction generalizing F F' with
  | var x =>
    obtain ⟨-, rfl⟩ := Track.of_ends_pure hc
    exact hF
  | structLit c ts es ih =>
    obtain ⟨ht, hes⟩ := he.structLit
    obtain ⟨⟨⟩, F₁, h₁, hc⟩ := Track.ends_bind.1 hc
    obtain rfl := Track.of_ends_update hc
    exact (over_of_collectAll (fun e he => ih e he (hes e he)) h₁ hF).pushType ht
  | select e f ih => exact ih he.select hc hF
  | call recv m ts es ih ihs =>
    obtain ⟨hrecv, hts, hes⟩ := he.call
    obtain ⟨⟨⟩, F₁, h₁, hc⟩ := Track.ends_bind.1 hc
    obtain ⟨⟨⟩, F₂, h₂, hc⟩ := Track.ends_bind.1 hc
    have hF₂ := over_of_collectAll (fun e he => ihs e he (hes e he)) h₂ (ih hrecv h₁ hF)
    obtain ⟨u, F₃, h₃, hc⟩ := Track.ends_bind.1 hc
    obtain ⟨hu, rfl⟩ := Track.of_ends_lift h₃
    obtain ⟨⟨u', e'⟩, hcheck, hu⟩ := Answer.bind_eq_ok.1 hu
    obtain rfl := Answer.ok.inj hu
    obtain ⟨v, F₄, h₄, hc⟩ := Track.ends_bind.1 hc
    obtain ⟨hv, rfl⟩ := Track.of_ends_lift h₄
    have hu := kept_of_check hK hC hΓ hrecv hcheck
    -- A receiver whose type is a type parameter is collected at the bound of the parameter.
    have hv : P v := by
      have hv := Answer.ofExcept_eq_ok.1 hv
      cases u' with
      | param a => exact hK.bound a v hv
      | _ => exact Except.ok.inj hv ▸ hu
    obtain ⟨⟨⟩, F₅, h₅, hc⟩ := Track.ends_bind.1 hc
    obtain rfl := Track.of_ends_update h₅
    obtain rfl := Track.of_ends_update hc
    exact (hF₂.pushType hv).pushMethod ⟨hv, hts⟩
  | assert e t ih =>
    obtain ⟨he, ht⟩ := he.assert
    obtain ⟨⟨⟩, F₁, h₁, hc⟩ := Track.ends_bind.1 hc
    obtain rfl := Track.of_ends_update hc
    exact (ih he h₁ hF).pushType ht
  | sprintf s es ih => exact over_of_collectAll (fun e hm => ih e hm (he.sprintf e hm)) hc hF
  | lit l =>
    obtain ⟨-, rfl⟩ := Track.of_ends_pure hc
    exact hF
  | binary op l r ihl ihr =>
    obtain ⟨hl, hr⟩ := he.binary
    obtain ⟨⟨⟩, F₁, h₁, hc⟩ := Track.ends_bind.1 hc
    exact ihr hr hc (ihl hl h₁ hF)
  | convert k e ih => exact ih he.convert hc hF

end Checker

/-! ## Discovered instances -/

/-- The source of a type with a property has it, what the type embeds has it, and so has what the
bodies of methods hold at such types. -/
structure Table.KeepsInstances (T : Table) (Δ : Bounds) (P Q : Ty → Prop) : Prop
    extends T.Keeps Δ P Q where
  source : ∀ c args u, P (.named c args) → T.underlying (.named c args) = .ok u → P u
  embedded : ∀ t ms d as, P t → T.resolve t = .ok (.interface ms) → .embed d as ∈ ms →
    P (.named d as)
  bodies : ∀ md ∈ T.methodDecls, ∀ args targs, P (.named md.recvType args) →
    md.recvFormals.length = args.length → (∀ t ∈ targs, P t ∧ Q t) →
    md.sig.formals.length = targs.length →
    (md.body.substTypes (md.instantiation args targs)).Over P Q
      ∧ ∀ x t, (md.scopeAt args targs).find? x = some t → P t

namespace Table

variable {T : Table} {P Q : Ty → Prop}

/-- **Declarations keep a hereditary property that they write**, at any type arguments. -/
theorem Writes.keepsInstances (hT : T.Writes P) (hP : Ty.Hereditary P) {Δ : Bounds} (hΔ : Δ.All P) :
    T.KeepsInstances Δ P fun _ => True where
  toKeeps := hT.keeps hP hΔ
  source _ _ _ ht hu := (hP.stable hT hΔ).of_underlying ht hu
  embedded t ms d as ht hms hd := (hP.stable hT hΔ).of_embed ht hms hd
  bodies md hmd args targs ht _ htargs _ := by
    have hη : ∀ a x, (md.instantiation args targs).find? a = some x → P x := by
      intro a x hx
      rw [MethodDecl.instantiation, Env.find?_append, Option.or_eq_some_iff] at hx
      rcases hx with hx | ⟨-, hx⟩
      · exact (htargs x (mem_of_find?_instantiation hx).2).1
      · exact hP.part ht (mem_of_find?_instantiation hx).2
    refine ⟨⟨fun t hmem => ?_, fun _ _ => trivial⟩, fun x t hx => ?_⟩
    · rw [Expr.mem_types, Expr.namedTypes_substTypes, Expr.callArguments_substTypes, List.mem_map,
        List.mem_map] at hmem
      rcases hmem with ⟨u, hu, rfl⟩ | ⟨u, hu, rfl⟩
      · exact hP.subst (hT.bodies md hmd u (Expr.mem_types.2 (.inl hu))) hη
      · exact hP.subst (hT.bodies md hmd u (Expr.mem_types.2 (.inr hu))) hη
    · have hmem := Env.mem_of_find? hx
      rw [MethodDecl.scopeAt, List.mem_cons] at hmem
      rcases hmem with he | hmem
      · exact (Prod.mk.inj he).2 ▸ ht
      · obtain ⟨p, hp, he⟩ := List.mem_map.1 hmem
        obtain rfl := (Prod.mk.inj he).2
        exact hP.subst (hP.of_alone (hT.signatures md hmd) (Signature.mem_types_param hp)) hη

/-- The instances over types of one property, at arguments of another one. -/
def setsOver (P Q : Ty → Prop) : InstanceSets := ({t | P t}, {m | m.Over P Q})

theorem Keeps.collects_le (h : T.Keeps [] P Q) {Γ : Scope} (hΓ : ∀ x t, Γ.find? x = some t → P t)
    {e : Expr} (he : e.Over P Q) {found : Instances} (hc : T.Collects Γ e found) :
    found.sets ≤ setsOver P Q := by
  obtain ⟨fuel, hc⟩ := hc
  have hfound := Checker.over_of_collect h rfl hΓ he hc (.empty P Q)
  exact Instances.sets_le.2 ⟨hfound.types, hfound.meths⟩

/-- **The instances over kept types are a saturated set.** -/
theorem KeepsInstances.saturated (h : T.KeepsInstances [] P Q) : T.Saturated (setsOver P Q) where
  fields t fs ht hfs f hf := h.field t fs ht hfs f hf
  source c args u ht hu _ := h.source c args u ht hu
  embedded c args ms d as ht hms hd := h.embedded _ ms d as ht hms hd
  implementers _ _ _ hm _ ht _ _ := ⟨ht, hm.targs⟩
  embeddings m ms d as _ _ hm hms hd _ _ := ⟨h.embedded m.recv ms d as hm.recv hms hd, hm.targs⟩
  signature m n S sig hm hS hsig hl :=
    h.signature n m.recv S m.meth sig m.targs hm.recv hS hsig hl hm.targs
  body c args m md found hm hr _ _ hmd hl hl' hfound := by
    obtain ⟨hdecl, hc, -⟩ := of_method? hmd
    obtain ⟨hbody, hscope⟩ := h.bodies md hdecl args m.targs (hc ▸ hr ▸ hm.recv) hl hm.targs hl'
    refine h.toKeeps.collects_le (fun x t hx => ?_) hbody hfound
    rw [Closure.bodyScope, hr, ← hc] at hx
    exact hscope x t hx

end Table

/-- **The instances that discovery answers are over kept types**, each is there once, and they are
ground. -/
theorem Closure.over_of_discover {T : Table} {P Q : Ty → Prop} (h : T.KeepsInstances [] P Q)
    {fuel : Nat} {main : Expr} (hmain : main.Over P Q) {limit : Option Nat} {F : Instances}
    (hF : discover fuel T main limit = .ok F) : F.Over P Q ∧ F.Within (Table.setsOver P Q) := by
  have hwithin := within_of_discover h.saturated
    (fun _ hfound => h.toKeeps.collects_le (fun x t hx => by cases hx) hmain hfound) hF
  obtain ⟨htypes, hmeths⟩ := Instances.sets_le.1 hwithin.le
  exact ⟨⟨htypes, hmeths⟩, hwithin⟩

end FeatherGo
