import FeatherGo.Proofs.Methods.Closing
import FeatherGo.Proofs.Types.Agreement

/-!
# Methods at type arguments

The signatures that a closed type offers are closed. At closed type arguments, signatures that agree
have the same bounds, parameter types and result (`Signature.Closed.at_eq`), and the signature that a
declared type offers has those of the declaration, with the arguments of the receiver and of the call
put in at once (`MethodDecl.Proper.types_at`).
-/

namespace FeatherGo

/-- Types of values that may be given as type arguments. -/
def Table.Given (T : Table) (strict : Bool) (ts : List Ty) : Prop :=
  ∀ t ∈ ts, t.Closed (T.vocabulary strict) ∧ t.flat strict = true

namespace Signature

variable {V : Vocabulary} {s o : Signature} {ts : List Ty}

/-- The types in a closed signature are written under its formals. -/
theorem Closed.written (h : s.Closed V) {t : Ty} (ht : t ∈ s.types) :
    t.Written V (FeatherGo.formalNames s.formals) where
  fit := by
    have hfit := h.fit.types t ht
    have hstems : s.formalNames.map stem = s.formalNames := map_eq_self_iff.2 h.text.formals
    rw [hstems, List.append_nil] at hfit
    exact hfit
  text := h.text.types t ht

/-- The types in a closed signature at closed arguments are closed. -/
theorem Closed.closed_subst (h : s.Closed V) (hl : s.formals.length = ts.length)
    (hts : ∀ t ∈ ts, t.Closed V ∧ t.flat V.strict = true) {t : Ty} (ht : t ∈ s.types) :
    (t.subst (instantiation s.formals ts)).Closed V :=
  (h.written ht).closed_subst hl hts

/-- The types of a closed signature at type arguments, by substitution. -/
theorem Closed.typesAt_eq (h : s.Closed V) (hl : s.formals.length = ts.length)
    (hts : ∀ t ∈ ts, t.Closed V ∧ t.flat V.strict = true) (ρ : String → Ty) :
    s.typesAt ρ ts = s.types.map (Ty.subst (instantiation s.formals ts)) := by
  rw [typesAt]
  refine List.map_congr_left fun t ht => ?_
  rw [(h.written ht).subst_eq_close hts]
  refine Ty.close_congr fun a ha => ?_
  have hmem := (h.written ht).fit.mem_scope ha
  obtain ⟨x, hx⟩ := Option.isSome_iff_exists.1 ((find?_instantiation_isSome hl).2 hmem)
  rw [assign, Env.lookup, hx]
  rfl

/-- Closed signatures that agree have the same types at closed type arguments. -/
theorem Closed.at_eq (ho : o.Closed V) (hs : s.Closed V) (h : o.alphaEq s = true)
    (hl : s.formals.length = ts.length)
    (hts : ∀ t ∈ ts, t.Closed V ∧ t.flat V.strict = true) :
    o.types.map (Ty.subst (instantiation o.formals ts))
      = s.types.map (Ty.subst (instantiation s.formals ts)) := by
  obtain ⟨-, hf, -, -⟩ := alphaEq_iff.1 h
  rw [← hs.typesAt_eq hl hts .param, ← ho.typesAt_eq (hf.trans hl) hts .param]
  exact hs.fit.typesAt_of_alphaEq ho.fit (scopeProper_nil []) h .param hl

/-- The types of a signature at flat type arguments fit where the arguments fit. -/
theorem Fit.fit_at {scope : List String} (h : s.Fit V scope [])
    (hl : s.formals.length = ts.length) (hflat : ∀ t ∈ ts, t.flat V.strict = true)
    (hfit : ∀ t ∈ ts, t.Fit V scope []) {t : Ty} (ht : t ∈ s.types) :
    (t.subst (instantiation s.formals ts)).Fit V scope [] := by
  have hθ := fit_instantiation hl hflat hfit
  refine (h.types t ht).subst ⟨hθ.entries, fun a ha hn => ?_⟩ fun _ ha =>
    absurd ha List.not_mem_nil
  rcases List.mem_append.1 ha with ha | ha
  · exact hθ.rest a ha hn
  · exact ha

/-- The types of a signature at type arguments, closed, are those that a closed signature which
agrees with it has at the closed arguments. -/
theorem Fit.close_at {scope : List String} {ρ : String → Ty} (h : s.Fit V scope [])
    (hsc : ScopeProper scope []) (hρ : Closing V scope ρ) (ho : o.Closed V)
    (heq : o.alphaEq (s.close ρ) = true) (hl : s.formals.length = ts.length)
    (hts : ∀ t ∈ ts.map (Ty.close ρ), t.Closed V ∧ t.flat V.strict = true) :
    s.types.map (fun t => (t.subst (instantiation s.formals ts)).close ρ)
      = o.types.map (Ty.subst (instantiation o.formals (ts.map (Ty.close ρ)))) := by
  have hl' : s.formals.length = (ts.map (Ty.close ρ)).length := by simpa using hl
  have hlc : (s.close ρ).formals.length = (ts.map (Ty.close ρ)).length := by
    simpa [close] using hl
  rw [ho.at_eq (h.closed hρ) heq hlc hts, ← (h.closed hρ).typesAt_eq hlc hts .param,
    h.typesAt_close hρ _ hl', typesAt]
  refine List.map_congr_left fun t ht => ?_
  rw [(h.types t ht).close_subst (hsc.under h.proper.sound) ?_ ρ]
  · refine Ty.close_congr fun a _ => ?_
    rw [Env.closing, assign, find?_instantiation_map]
    cases (instantiation s.formals ts).find? a <;> rfl
  · exact fun a x hx => .inr (List.mem_append_left _
      (List.mem_map_of_mem (mem_of_find?_instantiation hx).1))

end Signature

namespace Table

variable {T : Table} {strict : Bool} {rank : String → Nat}

/-- What a closed interface lists is closed. -/
theorem closed_of_method {V : Vocabulary} {ms : List Member} (h : (Ty.interface ms).Closed V)
    {s : Signature} (hm : Member.method s ∈ ms) : s.Closed V := by
  have htext := h.text
  rw [Ty.Text, Ty.close_interface, Ty.interface.injEq] at htext
  have hself := Member.method.inj (map_eq_self_iff.1 htext _ hm)
  refine ⟨?_, ?_⟩
  · cases h.fit with
    | interface proper fit => exact ⟨proper _ hm, fit _ hm⟩
  · rw [Signature.Text, Ty.Text, Signature.close_alone, Signature.alone_inj]
    exact hself

/-- The signatures that a closed type offers are closed. -/
theorem WellFormed.closed_of_methods (h : T.WellFormed strict rank) {n : Nat} {t : Ty}
    {S : MethodSet} (ht : t.Closed (T.vocabulary strict)) (hS : T.methods [] n t = .ok S) :
    ∀ s ∈ S, s.Closed (T.vocabulary strict) := by
  induction n generalizing t S with
  | zero => cases hS
  | succ n ih =>
    rw [methods_succ] at hS
    have hempty (hS : Answer.ok [] = (Answer.ok S : Answer TypeError MethodSet)) :
        ∀ s ∈ S, s.Closed (T.vocabulary strict) := by
      rw [← Answer.ok.inj hS]
      simp
    cases t with
    | interface ms =>
      exact forall_of_memberMethods hS (by simp) (fun s hs => closed_of_method ht hs)
        fun c args hm E hE => ih (closed_of_embed ht hm).1 hE
    | named c args =>
      obtain ⟨v, hv, hS⟩ := Answer.bind_eq_ok.1 hS
      rw [Answer.liftExcept_eq, Answer.ofExcept_eq_ok] at hv
      have hdeclared (hS : T.declaredMethods (T.methods [] n) args (T.methodsOn c) [] = .ok S) :
          ∀ s ∈ S, s.Closed (T.vocabulary strict) := by
        intro s hs
        rcases of_mem_declaredMethods hS hs with hs | ⟨md, hmd, η, hr, rfl⟩
        · exact absurd hs List.not_mem_nil
        · obtain ⟨hl, rfl, -⟩ := receiverBy_eq_some.1 hr
          exact (h.methods md (mem_methodsOn.1 hmd).1).sig.closed_subst hl ht.args
      cases v with
      | interface ms => exact ih (h.closed_of_resolves ht (resolves_of_resolve hv)) hS
      | _ => exact hdeclared hS
    | param a => exact absurd rfl (ht.ne_param a)
    | _ => exact hempty hS

theorem WellFormed.closed_of_allMethods (h : T.WellFormed strict rank) {t : Ty} {S : MethodSet}
    (ht : t.Closed (T.vocabulary strict)) (hS : T.allMethods [] t = .ok S) :
    ∀ s ∈ S, s.Closed (T.vocabulary strict) := by
  obtain ⟨n, hn⟩ := (T.growing_methods [] t).exists_eq_limit
  exact h.closed_of_methods ht (hn.trans hS)

end Table

/-! ## Declared methods -/

/-- The substitution with which a method's body runs. -/
def MethodDecl.instantiation (md : MethodDecl) (recvArgs targs : List Ty) : Env Ty :=
  FeatherGo.instantiation md.recvFormals recvArgs
    ++ FeatherGo.instantiation md.sig.formals targs

namespace MethodDecl.Proper

variable {T : Table} {strict : Bool} {md : MethodDecl} {args ts : List Ty}

/-- The types in a declared signature at the receiver's arguments and at type arguments, put in one
after the other or at once. -/
theorem types_at (h : md.Proper T (T.vocabulary strict))
    (hl : md.recvFormals.length = args.length) (hargs : T.Given strict args)
    (hlt : md.sig.formals.length = ts.length) (hts : T.Given strict ts) :
    (md.sig.subst (FeatherGo.instantiation md.recvFormals args)).types.map
        (Ty.subst (FeatherGo.instantiation
          (md.sig.subst (FeatherGo.instantiation md.recvFormals args)).formals ts))
      = md.sig.types.map (Ty.subst (md.instantiation args ts)) := by
  have hclosed := h.sig.closed_subst hl hargs
  have hclose := h.sig.subst_eq_close hargs
  have hlen : (md.sig.subst (FeatherGo.instantiation md.recvFormals args)).formals.length
      = ts.length := by
    rw [hclose]
    simpa [Signature.close] using hlt
  rw [← hclosed.typesAt_eq hlen hts .param, hclose,
    h.sig.fit.typesAt_close (closing_of_args hl hargs) _ hlt, Signature.typesAt]
  refine List.map_congr_left fun t ht => ?_
  have hfit := h.sig.fit.types t ht
  rw [hfit.subst_eq_close (h.sig.text.types t ht) ?_]
  · refine Ty.close_congr fun a _ => ?_
    rw [Signature.assign, Env.lookup, Env.lookup, MethodDecl.instantiation, Env.find?_append]
    cases Env.find? (FeatherGo.instantiation md.sig.formals ts) a <;> rfl
  · intro a x hx q hq
    have hx : x.freeParams = [] := by
      rw [MethodDecl.instantiation, Env.find?_append] at hx
      cases hy : Env.find? (FeatherGo.instantiation md.sig.formals ts) a with
      | some y =>
        rw [hy, Option.some_or, Option.some.injEq] at hx
        exact hx ▸ (hts y (mem_of_find?_instantiation hy).2).1.freeParams_eq_nil
      | none =>
        rw [hy, Option.none_or] at hx
        exact (hargs x (mem_of_find?_instantiation hx).2).1.freeParams_eq_nil
    rw [hx] at hq
    exact absurd hq List.not_mem_nil

end MethodDecl.Proper

end FeatherGo
