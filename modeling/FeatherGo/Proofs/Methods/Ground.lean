import FeatherGo.Proofs.Declarations.Lexicon
import FeatherGo.Proofs.Methods.Instances
import FeatherGo.Proofs.Types.Agreement

/-!
# Methods at ground type arguments

At ground type arguments signatures that agree and have no canonical names have the same types
(`Signature.at_eq_of_alphaEq`). At arguments without type parameters the signature of a method at the
receiver's arguments has the types of the declaration with all arguments put in at once
(`MethodDecl.types_at`). No signature has to be closed, and type arguments may hold signatures with
formals.
-/

namespace FeatherGo

/-- A ground type has no free parameters. -/
theorem Ty.freeParams_of_isGround {t : Ty} (h : t.isGround = true) : t.freeParams = [] := by
  rw [isGround, Bool.and_eq_true, List.isEmpty_iff] at h
  exact h.1

/-! ## Signatures at ground type arguments -/

namespace Signature

/-- No type parameter in a signature has a canonical name, free or bound. -/
def Uncanonical (s : Signature) : Prop :=
  ∀ t ∈ s.types, (∀ a ∈ t.freeParams, ∀ i, a ≠ canonicalName i)
    ∧ ∀ a ∈ t.binders, ∀ i, a ≠ canonicalName i

variable {s o : Signature} {ts : List Ty}

theorem Uncanonical.canonicalApart (h : s.Uncanonical) : s.CanonicalApart := by
  intro q hq
  obtain ⟨i, -, rfl⟩ := List.mem_map.1 hq
  refine ⟨fun hfree => ?_, fun t ht hb => (h t ht).2 _ hb _ rfl⟩
  obtain ⟨-, t, ht, hq⟩ := mem_freeParams.1 hfree
  exact (h t ht).1 _ hq _ rfl

/-- A signature over a lexicon without canonical names has none. -/
theorem Over.uncanonical {L : Lexicon} (hs : s.Over L)
    (hL : ∀ a, L.param a → ∀ i, a ≠ canonicalName i) : s.Uncanonical :=
  fun _ ht => ⟨fun a ha => hL a ((hs.types _ ht).of_mem_freeParams ha),
    fun a ha => hL a ((hs.types _ ht).of_mem_binders ha)⟩

/-- **Signatures that agree have the same types at ground arguments.** -/
theorem at_eq_of_alphaEq (ho : o.Uncanonical) (hs : s.Uncanonical) (h : o.alphaEq s = true)
    (hl : s.formals.length = ts.length) (hts : ∀ t ∈ ts, t.isGround = true) :
    o.types.map (Ty.subst (instantiation o.formals ts))
      = s.types.map (Ty.subst (instantiation s.formals ts)) := by
  obtain ⟨-, hf, -, htypes⟩ := alphaEq_iff.1 h
  have hfree : ∀ t ∈ ts, t.freeParams = [] := fun t ht => Ty.freeParams_of_isGround (hts t ht)
  have hat := ho.canonicalApart.types_eq .nil hfree (hf.trans hl)
  rwa [htypes, ← hs.canonicalApart.types_eq .nil hfree hl] at hat

end Signature

/-- **The types in a declared signature at arguments without type parameters** of the receiver and of
the call, put in one after the other or at once. -/
theorem MethodDecl.types_at {md : MethodDecl} {args ts : List Ty}
    (hargs : ∀ t ∈ args, t.freeParams = []) (hl : md.sig.formals.length = ts.length)
    (hts : ∀ t ∈ ts, t.freeParams = []) :
    (md.sig.subst (FeatherGo.instantiation md.recvFormals args)).types.map
        (Ty.subst (FeatherGo.instantiation
          (md.sig.subst (FeatherGo.instantiation md.recvFormals args)).formals ts))
      = md.sig.types.map (Ty.subst (md.instantiation args ts)) := by
  have hrecv : (FeatherGo.instantiation md.recvFormals args).Ground := .zip _ hargs
  have h := Signature.types_subst_instantiate hrecv hts hl
  rwa [Signature.instantiate, Signature.types_map] at h

/-- The bounds, the parameters and the result of a method at arguments without type parameters, put in
at once or one after the other. -/
theorem MethodDecl.parts_at {md : MethodDecl} {args ts : List Ty}
    (hargs : ∀ t ∈ args, t.freeParams = []) (hl : md.sig.formals.length = ts.length)
    (hts : ∀ t ∈ ts, t.freeParams = []) {s : Signature}
    (hs : s = md.sig.subst (FeatherGo.instantiation md.recvFormals args)) :
    s.formals.map (fun f => f.ty.subst (FeatherGo.instantiation s.formals ts))
        = md.sig.formals.map (fun f => f.ty.subst (md.instantiation args ts))
      ∧ s.params.map (Slot.map (Ty.subst (FeatherGo.instantiation s.formals ts)))
        = md.sig.params.map (Slot.map (Ty.subst (md.instantiation args ts)))
      ∧ s.result.subst (FeatherGo.instantiation s.formals ts)
        = md.sig.result.subst (md.instantiation args ts) := by
  have htypes := md.types_at hargs hl hts
  subst hs
  obtain ⟨hbounds, htypes, hresult⟩ := Signature.parts_eq (Signature.length_formals_subst _ _)
    (Signature.length_params_subst _ _) htypes
  refine ⟨hbounds, Slot.ext_lists ?_ ?_, hresult⟩
  · simpa [Slot.map, Function.comp_def] using md.sig.map_name_params_subst _
  · simpa [Slot.map, Function.comp_def] using htypes

end FeatherGo
