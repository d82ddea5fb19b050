import FeatherGo.Proofs.Types.Undisturbed

/-!
# Signatures that agree

Two signatures agree if their canonical forms have the same types (`Signature.alphaEq`). They are then
alike wherever they are used: after any substitution of closed types, and with closed type arguments put
in for their formals, they have the same bounds, parameter types and result
(`Signature.instantiate_of_alphaEq`).

Canonical names are not chosen apart from the names in a signature. A free type parameter of such a name
is taken for a formal, and a formal of such a name in a nested signature is renamed; signatures that
differ in these may agree (`Signature.not_instantiate_of_alphaEq`). So the canonical names that a signature
is given must occur in it neither free nor below its own formals (`Signature.CanonicalApart`).
-/

namespace FeatherGo

/-! ## Substitutions of closed types -/

/-- What a substitution puts in mentions no type parameter. -/
def Env.Ground (η : Env Ty) : Prop := ∀ a x, η.find? a = some x → x.freeParams = []

namespace Env.Ground

variable {η θ : Env Ty}

theorem nil : Env.Ground [] := nofun

theorem append (hη : η.Ground) (hθ : θ.Ground) : Env.Ground (η ++ θ) := by
  intro a x hx
  rw [Env.find?_append] at hx
  cases hy : θ.find? a with
  | some y =>
    rw [hy] at hx
    exact Option.some.inj hx ▸ hθ a y hy
  | none =>
    rw [hy] at hx
    exact hη a x hx

theorem zip (names : List String) {ts : List Ty} (h : ∀ t ∈ ts, t.freeParams = []) :
    Env.Ground (names.zip ts) :=
  fun _ x hx => h x (List.of_mem_zip (Env.mem_of_find? hx)).2

theorem avoids (h : η.Ground) (names : List String) : η.Avoids names := by
  intro a x hx q hq
  rw [h a x hx] at hq
  exact absurd hq List.not_mem_nil

end Env.Ground

/-- A type without free parameters is what it was after a ground substitution. -/
theorem Ty.subst_of_freeParams_eq_nil {t : Ty} {θ : Env Ty} (ht : t.freeParams = [])
    (hθ : θ.Ground) : t.subst θ = t :=
  (undisturbed_of_avoids (hθ.avoids _)).subst_eq_self (by simp [ht])

namespace Signature

variable {s o : Signature} {η : Env Ty} {ts : List Ty}

theorem relabelling_eq_zip (names fresh : List String) :
    relabelling names fresh = names.zip (fresh.map Ty.param) := by
  rw [relabelling, List.zip_map_right]
  rfl

theorem formals_instantiation_subst (h : η.Avoids s.formalNames) (ts : List Ty) :
    instantiation (s.subst η).formals ts = instantiation s.formals ts := by
  rw [subst_of_avoids h]
  exact congrArg (List.zip · ts) (formalNames_map _ s)

/-- The parts of two signatures whose types agree position by position. -/
theorem parts_eq {f g : Ty → Ty} (hf : o.formals.length = s.formals.length)
    (hp : o.params.length = s.params.length) (h : o.types.map f = s.types.map g) :
    o.formals.map (fun x => f x.ty) = s.formals.map (fun x => g x.ty)
      ∧ o.params.map (fun x => f x.ty) = s.params.map (fun x => g x.ty)
      ∧ f o.result = g s.result := by
  simp only [types, List.map_append, List.map_map, List.append_assoc, List.map_cons,
    List.map_nil] at h
  obtain ⟨hformals, h⟩ := List.append_inj h (by simpa using hf)
  obtain ⟨hparams, hresult⟩ := List.append_inj h (by simpa using hp)
  exact ⟨hformals, hparams, by simpa using hresult⟩

/-! ## Signatures at type arguments -/

/-- A signature with type arguments put in for its formals. -/
def instantiate (s : Signature) (ts : List Ty) : Signature :=
  s.map (Ty.subst (instantiation s.formals ts))

/-- The canonical names of a signature's formals occur in it neither free nor below its formals. -/
def CanonicalApart (s : Signature) : Prop :=
  ∀ q ∈ canonicalNames s.formals.length, q ∉ s.freeParams ∧ ∀ t ∈ s.types, q ∉ t.binders

instance (s : Signature) : Decidable s.CanonicalApart :=
  inferInstanceAs (Decidable (∀ q ∈ canonicalNames s.formals.length,
    q ∉ s.freeParams ∧ ∀ t ∈ s.types, q ∉ t.binders))

/-- A substitution of closed types and closed type arguments go in one after the other or at once. -/
theorem types_subst_instantiate (hη : η.Ground) (hts : ∀ t ∈ ts, t.freeParams = [])
    (hl : s.formals.length = ts.length) :
    ((s.subst η).instantiate ts).types
      = s.types.map (Ty.subst (η ++ instantiation s.formals ts)) := by
  have hcall : Env.Ground (instantiation s.formals ts) := .zip _ hts
  have havoids := hη.avoids s.formalNames
  rw [instantiate, types_map, formals_instantiation_subst havoids, subst_of_avoids havoids, types_map,
    List.map_map]
  refine List.map_congr_left fun t _ => ?_
  refine Ty.subst_subst ((hη.avoids _).visible _) (hcall.avoids _) ((hη.append hcall).avoids _)
    (fun _ _ => hcall.avoids _) fun a _ => ?_
  rw [lookup_visible, Env.lookup, Env.lookup, Env.find?_append]
  split
  · rename_i hf
    obtain ⟨x, hx⟩ := Option.isSome_iff_exists.1 ((find?_instantiation_isSome hl).2 hf)
    rw [Ty.subst_param, hx]
    rfl
  · rename_i hf
    have hnone : Env.find? (instantiation s.formals ts) a = none := Env.find?_zip_eq_none hf
    rw [hnone, Option.none_or]
    cases hx : η.find? a with
    | some x => exact Ty.subst_of_freeParams_eq_nil (hη a x hx) hcall
    | none =>
      rw [Option.getD_none, Ty.subst_param, hnone]
      rfl

/-- The types of a signature at closed types, by way of its canonical form. -/
theorem CanonicalApart.types_eq (hs : s.CanonicalApart) (hη : η.Ground)
    (hts : ∀ t ∈ ts, t.freeParams = []) (hl : s.formals.length = ts.length) :
    s.types.map (Ty.subst (η ++ instantiation s.formals ts))
      = s.canonical.types.map (Ty.subst (η ++ (canonicalNames ts.length).zip ts)) := by
  have hcanonical : Env.Ground (η ++ (canonicalNames ts.length).zip ts) := hη.append (.zip _ hts)
  have hcall : Env.Ground (η ++ instantiation s.formals ts) := hη.append (.zip _ hts)
  rw [types_canonical, List.map_map, hl]
  refine List.map_congr_left fun t ht => ?_
  refine (Ty.subst_subst ?_ (hcanonical.avoids _) (hcall.avoids _) (fun _ _ => hcanonical.avoids _)
    fun a ha => ?_).symm
  · intro a x hx q hq
    rw [relabelling_eq_zip] at hx
    obtain ⟨n, hn, rfl⟩ := List.mem_map.1 (List.of_mem_zip (Env.mem_of_find? hx)).2
    obtain rfl := List.mem_singleton.1 hq
    exact (hs q (hl ▸ hn)).2 t ht
  · rw [relabelling_eq_zip, Env.lookup, Env.lookup, Env.find?_append, instantiation,
      show s.formals.map (·.name) = s.formalNames from rfl]
    by_cases hf : a ∈ s.formalNames
    · obtain ⟨i, hi, hfind⟩ := Env.exists_find?_zip hf
      rw [length_formalNames] at hi hfind
      have hlt : i < ts.length := hl ▸ hi
      have hc : (canonicalNames ts.length)[i]? = some (canonicalName (i + 1)) := by
        simp [canonicalNames, hlt]
      have ht : ts[i]? = some ts[i] := List.getElem?_eq_getElem hlt
      rw [hfind _ (by simpa using hl), hfind ts hl, List.getElem?_map, hc, ht, Option.map_some,
        Option.getD_some, Ty.subst_param, Env.find?_append,
        Env.find?_zip_of_nodup (nodup_canonicalNames _) hc ht]
      rfl
    · have hnot : a ∉ canonicalNames ts.length := fun hmem =>
        (hs a (hl ▸ hmem)).1 (mem_freeParams.2 ⟨hf, t, ht, ha⟩)
      rw [Env.find?_zip_eq_none hf, Env.find?_zip_eq_none hf, Option.getD_none, Ty.subst_param,
        Env.find?_append, Env.find?_zip_eq_none hnot]

/-- **Signatures that agree are alike wherever they are used.** After a substitution of closed types, and
with closed type arguments in place of their formals, they have the same bounds, parameter types and
result, if their canonical names occur in them neither free nor below their formals. -/
theorem instantiate_of_alphaEq {a b : Signature} (h : a.alphaEq b = true) (ha : a.CanonicalApart)
    (hb : b.CanonicalApart) {η : Env Ty} (hη : ∀ p x, η.find? p = some x → x.freeParams = [])
    {ts : List Ty} (hts : ∀ t ∈ ts, t.freeParams = []) (hl : ts.length = a.formals.length) :
    ((a.subst η).instantiate ts).formals.map (·.ty)
        = ((b.subst η).instantiate ts).formals.map (·.ty)
      ∧ ((a.subst η).instantiate ts).params.map (·.ty)
        = ((b.subst η).instantiate ts).params.map (·.ty)
      ∧ ((a.subst η).instantiate ts).result = ((b.subst η).instantiate ts).result := by
  obtain ⟨-, hf, hp, htypes⟩ := alphaEq_iff.1 h
  have hη : η.Ground := hη
  have hparts (s : Signature) : ((s.subst η).instantiate ts).formals.length = s.formals.length
      ∧ ((s.subst η).instantiate ts).params.length = s.params.length := by
    rw [instantiate, subst_of_avoids (hη.avoids _)]
    simp [map]
  have heq : ((a.subst η).instantiate ts).types.map id = ((b.subst η).instantiate ts).types.map id := by
    rw [types_subst_instantiate hη hts hl.symm, types_subst_instantiate hη hts (hf.symm.trans hl.symm),
      ha.types_eq hη hts hl.symm, hb.types_eq hη hts (hf.symm.trans hl.symm), htypes]
  obtain ⟨hfa, hpa⟩ := hparts a
  obtain ⟨hfb, hpb⟩ := hparts b
  exact parts_eq (hfa.trans (hf.trans hfb.symm)) (hpa.trans (hp.trans hpb.symm)) heq

/-- The signature `m(a Any, b Box(a))(x b) Pair(a, p)`, with names for its formals. -/
def paired (a b : String) : Signature :=
  ⟨"m", [⟨a, .named "Any" []⟩, ⟨b, .named "Box" [.param a]⟩], [⟨"x", .param b⟩],
    .named "Pair" [.param a, .param "p"]⟩

/-- Other names for the formals make no difference, once the free parameter stands for a type and the
formals for others. -/
theorem instantiate_paired :
    (((paired "a" "b").subst [("p", .prim (.typed .int32))]).instantiate
        [.prim (.typed .bool), .named "Dot" []]).formals.map (·.ty)
      = (((paired "c" "a").subst [("p", .prim (.typed .int32))]).instantiate
        [.prim (.typed .bool), .named "Dot" []]).formals.map (·.ty)
    ∧ (((paired "a" "b").subst [("p", .prim (.typed .int32))]).instantiate
        [.prim (.typed .bool), .named "Dot" []]).params.map (·.ty)
      = (((paired "c" "a").subst [("p", .prim (.typed .int32))]).instantiate
        [.prim (.typed .bool), .named "Dot" []]).params.map (·.ty)
    ∧ (((paired "a" "b").subst [("p", .prim (.typed .int32))]).instantiate
        [.prim (.typed .bool), .named "Dot" []]).result
      = (((paired "c" "a").subst [("p", .prim (.typed .int32))]).instantiate
        [.prim (.typed .bool), .named "Dot" []]).result := by
  have hentries : ∀ e ∈ [("p", Ty.prim (.typed .int32))], e.2.freeParams = [] := by decide +kernel
  exact instantiate_of_alphaEq (by decide +kernel) (by decide +kernel) (by decide +kernel)
    (fun p x hx => hentries (p, x) (Env.mem_of_find? hx)) (by decide +kernel) (by decide +kernel)

/-- A free type parameter that has the first canonical name is taken for the first formal. -/
theorem not_instantiate_of_alphaEq :
    ¬∀ (a b : Signature) (η : Env Ty) (ts : List Ty), a.alphaEq b = true →
      (∀ p x, η.find? p = some x → x.freeParams = []) →
      (∀ p ∈ a.freeParams ++ b.freeParams, (η.find? p).isSome) →
      (∀ t ∈ ts, t.freeParams = []) → ts.length = a.formals.length →
      ((a.subst η).instantiate ts).formals.map (·.ty)
          = ((b.subst η).instantiate ts).formals.map (·.ty)
        ∧ ((a.subst η).instantiate ts).params.map (·.ty)
          = ((b.subst η).instantiate ts).params.map (·.ty)
        ∧ ((a.subst η).instantiate ts).result = ((b.subst η).instantiate ts).result := by
  intro h
  have hentries : ∀ e ∈ [("α1", Ty.prim (.typed .int32))], e.2.freeParams = [] := by decide +kernel
  obtain ⟨-, -, hresult⟩ := h (generic (.param "a") (.param "α1")) (generic (.param "a") (.param "a"))
    [("α1", .prim (.typed .int32))] [.prim (.typed .bool)] (by decide +kernel)
    (fun p x hx => hentries (p, x) (Env.mem_of_find? hx)) (by decide +kernel) (by decide +kernel)
    (by decide +kernel)
  exact absurd hresult (by decide +kernel)

end Signature

end FeatherGo
