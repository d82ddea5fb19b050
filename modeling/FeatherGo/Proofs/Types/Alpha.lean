import FeatherGo.Proofs.Types.Closed
import Mathlib.Data.List.Nodup

/-!
# Signatures up to the names of their formals

`Signature.alphaEq` compares canonical signatures. Signatures that agree so have the same bounds,
parameter types and results at any type arguments and under any closing
(`Signature.Scoped.typesAt_of_alphaEq`). What a closing or a substitution makes of a signature is, at
any type arguments, what the signature is there (`Signature.Scoped.typesAt_close`,
`Signature.Scoped.typesAt_subst`).
-/

namespace FeatherGo

namespace Signature

/-! ## Signatures that fit -/

/-- A signature fits in a scope and under formals of given stems. -/
structure Fit (V : Vocabulary) (scope stems : List String) (s : Signature) : Prop where
  proper : (Member.method s).Proper V stems
  types : ∀ t ∈ s.types, t.Fit V (s.formalNames ++ scope) (s.formalNames.map stem ++ stems)

/-- A signature as an interface of its own. -/
def alone (s : Signature) : Ty := .interface [.method s]

variable {V : Vocabulary} {apart : Bool} {scope scope' stems stems' : List String} {s : Signature}
  {θ : Env Ty} {ρ : String → Ty}

theorem fit_alone : s.alone.Fit V scope stems ↔ s.Fit V scope stems := by
  constructor
  · intro h
    cases h with
    | interface proper fit =>
      exact ⟨proper _ List.mem_cons_self, fit _ List.mem_cons_self⟩
  · intro h
    refine .interface ?_ ?_ <;> rw [List.forall_mem_singleton]
    · exact h.proper
    · exact h.types

theorem subst_alone : s.alone.subst θ = (s.subst θ).alone := by
  simp [alone]

theorem close_alone : s.alone.close ρ = (s.close ρ).alone := by
  simp [alone, Member.close]

theorem alone_inj {s s' : Signature} : s.alone = s'.alone ↔ s = s' := by
  simp [alone]

/-- A text among signatures: nested formals and its own are unprimed. -/
def Text (s : Signature) : Prop := s.alone.Text

theorem Text.formals (h : s.Text) : ∀ a ∈ s.formalNames, Unprimed a :=
  Ty.Text.formals h List.mem_cons_self

theorem Text.types (h : s.Text) : ∀ t ∈ s.types, t.Text := Ty.Text.types h List.mem_cons_self

theorem text_close (hρ : ∀ a, (ρ a).Text) (s : Signature) : (s.close ρ).Text := by
  rw [Text, ← close_alone]
  exact Ty.text_close hρ _

/-- A signature of a closed interface. -/
structure Closed (V : Vocabulary) (s : Signature) : Prop where
  fit : s.Fit V [] []
  text : s.Text

theorem Fit.closed (h : s.Fit V scope stems) (hρ : Closing V scope ρ) : (s.close ρ).Closed V := by
  obtain ⟨hfit, htext⟩ := (fit_alone.2 h).closed hρ
  rw [close_alone] at hfit htext
  exact ⟨fit_alone.1 hfit, htext⟩

/-! ## Signatures that are scoped -/

/-- A signature is scoped under formals of given stems. -/
structure Scoped (V : Vocabulary) (apart : Bool) (scope stems : List String) (s : Signature) :
    Prop where
  sound : (Member.method s).Sound V apart stems
  types : ∀ t ∈ s.types, t.Scoped V apart (s.formalNames ++ scope) (s.formalNames.map stem ++ stems)

theorem Fit.scoped (h : s.Fit V scope stems) : s.Scoped V true scope stems :=
  ⟨h.proper.sound, fun t ht => (h.types t ht).scoped⟩

theorem scoped_alone : s.alone.Scoped V apart scope stems ↔ s.Scoped V apart scope stems := by
  constructor
  · intro h
    cases h with
    | interface sound inner =>
      exact ⟨sound _ List.mem_cons_self, inner _ List.mem_cons_self⟩
  · intro h
    refine .interface ?_ ?_ <;> rw [List.forall_mem_singleton]
    · exact h.sound
    · exact h.types

theorem Scoped.subst (h : s.Scoped V apart scope stems) (hθ : θ.Scoped V apart scope scope')
    (hs : apart = true → ∀ a ∈ stems', a ∈ stems) : (s.subst θ).Scoped V apart scope' stems' := by
  rw [← scoped_alone, ← subst_alone]
  exact (scoped_alone.2 h).subst hθ hs

theorem Scoped.loose (h : s.Scoped V apart scope stems) : s.Scoped V false scope [] :=
  scoped_alone.1 (scoped_alone.2 h).loose

theorem Scoped.close_subst (h : s.Scoped V true scope stems) (hsc : ScopeProper scope stems)
    (hdom : ∀ a x, θ.find? a = some x → Unprimed a ∨ stem a ∈ stems) (ρ : String → Ty) :
    (s.subst θ).close ρ = s.close (θ.closing ρ) := by
  rw [← alone_inj, ← close_alone, ← close_alone, ← subst_alone]
  exact (scoped_alone.2 h).close_subst hsc hdom ρ

theorem Scoped.close (h : s.Scoped V apart scope stems) (hρ : Sealing V scope ρ) :
    (s.close ρ).Scoped V false [] [] := by
  rw [← scoped_alone, ← close_alone]
  exact ((scoped_alone.2 h).sealed hρ).inner

/-- The stems of the formals are all different, and so are the formals. -/
theorem Scoped.nodup (h : s.Scoped V apart scope stems) : s.formalNames.Nodup :=
  List.Nodup.of_map stem h.sound.1

theorem Fit.nodup (h : s.Fit V scope stems) : s.formalNames.Nodup := h.scoped.nodup

/-! ## Signatures at type arguments -/

/-- The closing under which the formals stand for type arguments. -/
def assign (ρ : String → Ty) (s : Signature) (ts : List Ty) (a : String) : Ty :=
  ((instantiation s.formals ts).find? a).getD (ρ a)

/-- The bounds, the parameter types and the result at type arguments. -/
def typesAt (ρ : String → Ty) (s : Signature) (ts : List Ty) : List Ty :=
  s.types.map (Ty.close (s.assign ρ ts))

/-- The canonical names of a number of formals. -/
def canonicalNames (n : Nat) : List String := (List.range n).map fun i => canonicalName (i + 1)

@[simp] theorem length_canonicalNames (n : Nat) : (canonicalNames n).length = n := by
  simp [canonicalNames]

theorem canonicalName_injective {i j : Nat} (h : canonicalName i = canonicalName j) : i = j := by
  have hd : Nat.toDigits 10 i = Nat.toDigits 10 j := by
    have h := congrArg String.toList h
    rw [toList_canonicalName, toList_canonicalName] at h
    exact (List.cons.inj h).2
  rw [← @Nat.ofDigitChars_ten_toDigits i, hd, Nat.ofDigitChars_ten_toDigits]

theorem nodup_canonicalNames (n : Nat) : (canonicalNames n).Nodup := by
  rw [canonicalNames]
  exact List.Nodup.map (fun i j h => by simpa using canonicalName_injective h) List.nodup_range

theorem types_canonical (s : Signature) :
    s.canonical.types
      = s.types.map (Ty.subst (relabelling s.formalNames (canonicalNames s.formals.length))) :=
  types_rename _

/-- Two signatures agree if their canonical forms have the same types. -/
theorem alphaEq_iff {a b : Signature} :
    a.alphaEq b = true ↔ a.name = b.name ∧ a.formals.length = b.formals.length
      ∧ a.params.length = b.params.length ∧ a.canonical.types = b.canonical.types := by
  simp only [alphaEq, Bool.and_eq_true, beq_iff_eq]
  constructor
  · rintro ⟨⟨⟨⟨⟨hn, hf⟩, hp⟩, htf⟩, htp⟩, htr⟩
    exact ⟨hn, hf, hp, by rw [types, types, htf, htp, htr]⟩
  · rintro ⟨hn, hf, hp, ht⟩
    have hlf : (a.canonical.formals.map (·.ty)).length = (b.canonical.formals.map (·.ty)).length := by
      simpa [canonical, rename, renameWith, map] using hf
    have hlp : (a.canonical.params.map (·.ty)).length = (b.canonical.params.map (·.ty)).length := by
      simpa [canonical, rename, renameWith, map] using hp
    simp only [types, List.append_assoc] at ht
    obtain ⟨htf, ht⟩ := List.append_inj ht hlf
    obtain ⟨htp, htr⟩ := List.append_inj ht hlp
    exact ⟨⟨⟨⟨⟨hn, hf⟩, hp⟩, htf⟩, htp⟩, by simpa using htr⟩

theorem alphaEq_refl (s : Signature) : s.alphaEq s = true := alphaEq_iff.2 ⟨rfl, rfl, rfl, rfl⟩

theorem alphaEq_trans {a b c : Signature} (h : a.alphaEq b = true) (h' : b.alphaEq c = true) :
    a.alphaEq c = true := by
  obtain ⟨hn, hf, hp, ht⟩ := alphaEq_iff.1 h
  obtain ⟨hn', hf', hp', ht'⟩ := alphaEq_iff.1 h'
  exact alphaEq_iff.2 ⟨hn.trans hn', hf.trans hf', hp.trans hp', ht.trans ht'⟩

/-- The canonical names stand for type arguments. -/
def assignCanonical (ρ : String → Ty) (ts : List Ty) (a : String) : Ty :=
  (Env.find? ((canonicalNames ts.length).zip ts) a).getD (ρ a)

theorem assign_formal {ρ : String → Ty} {s : Signature} {ts : List Ty} (hn : s.formalNames.Nodup)
    {i : Nat} {a : String} {t : Ty} (ha : s.formalNames[i]? = some a) (ht : ts[i]? = some t) :
    s.assign ρ ts a = t := by
  have hfind : Env.find? (instantiation s.formals ts) a = some t :=
    Env.find?_zip_of_nodup hn ha ht
  rw [assign, hfind]
  rfl

theorem assign_other {ρ : String → Ty} {s : Signature} {ts : List Ty} {a : String}
    (ha : a ∉ s.formalNames) : s.assign ρ ts a = ρ a := by
  have hnone : Env.find? (instantiation s.formals ts) a = none := Env.find?_zip_eq_none ha
  rw [assign, hnone]
  rfl

/-- Where there are as many type arguments as formals, every formal has one. -/
theorem exists_argument {s : Signature} {ts : List Ty} (hl : s.formals.length = ts.length) {i : Nat}
    {f : String} (hf : s.formalNames[i]? = some f) : ∃ t, ts[i]? = some t := by
  have hlt : i < ts.length := by
    rw [← hl, ← length_formalNames]
    exact (List.getElem?_eq_some_iff.1 hf).1
  exact ⟨ts[i], List.getElem?_eq_getElem hlt⟩

theorem find?_relabelling_canonicalNames {s : Signature} {n : Nat} {a : String} {x : Ty}
    (hx : (relabelling s.formalNames (canonicalNames n)).find? a = some x) :
    ∀ q ∈ x.freeParams, ∃ i, q = canonicalName i := by
  obtain ⟨_, c, _, hc, rfl⟩ := of_find?_relabelling hx
  obtain ⟨i, _, rfl⟩ := List.mem_map.1 (List.mem_of_getElem? hc)
  intro q hq
  rw [Ty.freeParams, List.mem_singleton] at hq
  exact ⟨i + 1, hq⟩

section Scoped

variable {V : Vocabulary} {apart : Bool} {scope stems : List String} {s o : Signature}
  {ρ : String → Ty} {ts : List Ty}

/-- Closing a canonical type under canonical names that stand for type arguments gives the type at
those arguments. -/
theorem Scoped.closing_canonical (h : s.Scoped V apart scope stems)
    (hsc : ∀ a ∈ scope, Uncanonical a) (ρ : String → Ty) (hl : s.formals.length = ts.length)
    {a : String} (ha : a ∈ s.formalNames ++ scope) :
    (relabelling s.formalNames (canonicalNames ts.length)).closing (assignCanonical ρ ts) a
      = s.assign ρ ts a := by
  have hlen : s.formalNames.length = (canonicalNames ts.length).length := by simpa using hl
  rw [Env.closing]
  by_cases hf : a ∈ s.formalNames
  · obtain ⟨i, hi⟩ := List.mem_iff_getElem?.1 hf
    obtain ⟨t, ht⟩ := exists_argument hl hi
    have hc : (canonicalNames ts.length)[i]? = some (canonicalName (i + 1)) := by
      simp [canonicalNames, (List.getElem?_eq_some_iff.1 ht).1]
    have hfind : (relabelling s.formalNames (canonicalNames ts.length)).find? a
        = some (.param (canonicalName (i + 1))) := by
      have hmap : relabelling s.formalNames (canonicalNames ts.length)
          = s.formalNames.zip ((canonicalNames ts.length).map Ty.param) := by
        rw [relabelling, List.zip_map_right]
        rfl
      rw [hmap]
      exact Env.find?_zip_of_nodup h.nodup hi (by rw [List.getElem?_map, hc]; rfl)
    rw [hfind, assign_formal h.nodup hi ht, Option.getD_some, Ty.close_param, assignCanonical,
      Env.find?_zip_of_nodup (nodup_canonicalNames _) hc ht]
    rfl
  · have hnone := (find?_relabelling_eq_none hlen).2 hf
    have hnot : a ∉ canonicalNames ts.length := by
      intro hmem
      obtain ⟨i, -, rfl⟩ := List.mem_map.1 hmem
      have hu := hsc _ ((List.mem_append.1 ha).resolve_left hf)
      exact hu (i + 1) (stem_canonicalName (i + 1))
    rw [hnone, assign_other hf, Option.getD_none, Ty.close_param, assignCanonical,
      Env.find?_zip_eq_none hnot]
    rfl

theorem Scoped.typesAt_eq (h : s.Scoped V apart scope stems) (hsc : ∀ a ∈ scope, Uncanonical a)
    (ρ : String → Ty) (hl : s.formals.length = ts.length) :
    s.typesAt ρ ts = s.canonical.types.map (Ty.close (assignCanonical ρ ts)) := by
  rw [typesAt, types_canonical, List.map_map, hl]
  refine List.map_congr_left fun u hu => ?_
  rw [Function.comp_apply, (h.types u hu).close_subst_canonical fun a x hx =>
    find?_relabelling_canonicalNames hx]
  exact Ty.close_congr fun a ha =>
    (h.closing_canonical hsc ρ hl ((h.types u hu).mem_scope ha)).symm

/-- Signatures that agree have the same types at any type arguments. -/
theorem Scoped.typesAt_of_alphaEq (hs : s.Scoped V apart scope stems)
    (ho : o.Scoped V apart scope stems) (hsc : ∀ a ∈ scope, Uncanonical a)
    (h : o.alphaEq s = true) (ρ : String → Ty) (hl : s.formals.length = ts.length) :
    o.typesAt ρ ts = s.typesAt ρ ts := by
  obtain ⟨-, hf, -, ht⟩ := alphaEq_iff.1 h
  rw [hs.typesAt_eq hsc ρ hl, ho.typesAt_eq hsc ρ (hf.trans hl), ht]

/-- On a text the canonical types are the types at canonical names. -/
theorem Scoped.types_canonical (h : s.Scoped V apart scope stems) (ht : s.Text) :
    s.canonical.types
      = s.typesAt .param ((canonicalNames s.formals.length).map .param) := by
  rw [Signature.types_canonical, typesAt]
  refine List.map_congr_left fun u hu => ?_
  have hmap : relabelling s.formalNames (canonicalNames s.formals.length)
      = instantiation s.formals ((canonicalNames s.formals.length).map Ty.param) := by
    rw [relabelling, instantiation, List.zip_map_right]
    rfl
  rw [(h.types u hu).subst_eq_close (ht.types u hu) fun a x hx =>
    find?_relabelling_canonicalNames hx, hmap]
  rfl

/-- A closed signature at type arguments is the signature as it was at those arguments. -/
theorem Scoped.typesAt_close (h : s.Scoped V true scope stems)
    (hρ : ∀ a ∈ scope, (ρ a).freeParams = []) (hρt : ∀ a, (ρ a).Text) (σ : String → Ty)
    (hl : s.formals.length = ts.length) : (s.close ρ).typesAt σ ts = s.typesAt ρ ts := by
  rw [typesAt, types_close, List.map_map, typesAt]
  refine List.map_congr_left fun u hu => ?_
  have hopen : ∀ a ∈ s.formalNames ++ scope, ∀ q ∈ (shield ρ s.formalNames a).freeParams,
      q ∈ s.formalNames.map stem ++ stems := by
    intro a ha q hq
    rw [shield] at hq
    split at hq
    · rename_i hf
      rw [Ty.freeParams, List.mem_singleton] at hq
      exact List.mem_append_left _ (hq ▸ List.mem_map_of_mem hf)
    · rename_i hf
      rw [hρ a ((List.mem_append.1 ha).resolve_left hf)] at hq
      exact absurd hq List.not_mem_nil
  rw [Function.comp_apply, (h.types u hu).close_close hopen]
  refine Ty.close_congr fun a ha => ?_
  have ha := (h.types u hu).mem_scope ha
  by_cases hf : a ∈ s.formalNames
  · obtain ⟨i, hi⟩ := List.mem_iff_getElem?.1 hf
    obtain ⟨t, ht⟩ := exists_argument hl hi
    have hstem : (s.close ρ).formalNames[i]? = some (stem a) := by
      rw [formalNames_close, List.getElem?_map, hi]
      rfl
    rw [shield, if_pos hf, Ty.close_param, assign_formal h.nodup hi ht,
      assign_formal (by simpa using h.sound.1) hstem ht]
  · rw [shield, if_neg hf, assign_other hf]
    have hfree := hρ a ((List.mem_append.1 ha).resolve_left hf)
    exact (Ty.close_congr_of_freeParams_eq_nil hfree _ .param).trans (hρt a)

/-- A substituted signature at type arguments is the signature at those arguments, with the entries
closed. -/
theorem Scoped.typesAt_subst {θ : Env Ty} (h : s.Scoped V true scope stems)
    (hsc : ScopeProper scope stems)
    (hdom : ∀ a x, θ.find? a = some x → Unprimed a ∨ stem a ∈ stems) (ρ : String → Ty)
    (hl : s.formals.length = ts.length) :
    (s.subst θ).typesAt ρ ts = s.typesAt (θ.closing ρ) ts := by
  have hstems := s.map_stem_formalNames_subst θ
  have hnodup : (s.subst θ).formalNames.Nodup := List.Nodup.of_map stem (hstems ▸ h.sound.1)
  refine map_close_types_subst h.sound h.types hsc hdom
    ⟨fun i f f' hf hf' => ?_, fun a ha => assign_other ha, fun a ha => assign_other ha⟩
  obtain ⟨t, ht⟩ := exists_argument hl hf
  rw [assign_formal h.nodup hf ht, assign_formal hnodup hf' ht]

end Scoped

section Fit

variable {V : Vocabulary} {scope stems : List String} {s o : Signature} {ρ : String → Ty}
  {ts : List Ty}

/-- Signatures that agree have the same types at any type arguments. -/
theorem Fit.typesAt_of_alphaEq (hs : s.Fit V scope stems) (ho : o.Fit V scope stems)
    (hsc : ScopeProper scope stems) (h : o.alphaEq s = true) (ρ : String → Ty)
    (hl : s.formals.length = ts.length) : o.typesAt ρ ts = s.typesAt ρ ts :=
  hs.scoped.typesAt_of_alphaEq ho.scoped (fun a ha => (hsc a ha).1) h ρ hl

/-- A closed signature at type arguments is the signature as it was at those arguments. -/
theorem Fit.typesAt_close (h : s.Fit V scope stems) (hρ : Closing V scope ρ) (σ : String → Ty)
    (hl : s.formals.length = ts.length) : (s.close ρ).typesAt σ ts = s.typesAt ρ ts :=
  h.scoped.typesAt_close (fun a ha => (hρ.closed a ha).freeParams_eq_nil) hρ.text σ hl

end Fit

end Signature

end FeatherGo
