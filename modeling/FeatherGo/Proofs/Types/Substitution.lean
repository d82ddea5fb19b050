import FeatherGo.Proofs.Types.Induction

/-!
# Equations of substitution

`Ty.substAt` recurs on a depth bound because renaming a signature's formals is a substitution of its
own. A renaming keeps the depth of a type, so the bound plays no role once it is large enough, and
`Ty.subst` satisfies the equations one expects: it passes to the types directly inside, and in a
signature it is one of three things, by `Signature.subst_of_hidden`, `Signature.subst_of_apart` and
`Signature.subst_of_capture`.
-/

namespace FeatherGo

namespace Env

variable {α : Type}

/-- The entries whose names pass a test. -/
theorem find?_filter (env : Env α) (keep : String → Bool) (a : String) :
    Env.find? (env.filter fun b => keep b.1) a = if keep a then env.find? a else none := by
  induction env with
  | nil => simp
  | cons b rest ih =>
    obtain ⟨k, x⟩ := b
    by_cases hk : keep k = true
    · simp only [List.filter_cons, hk, if_true, Env.find?, ih]
      by_cases ha : keep a = true
      · simp [ha]
      · have hne : k ≠ a := by
          rintro rfl
          exact ha hk
        simp [ha, hne]
    · simp only [List.filter_cons, hk, Env.find?]
      by_cases ha : keep a = true
      · have hne : k ≠ a := by
          rintro rfl
          exact hk ha
        simp [ih, ha, hne]
      · simp [ih, ha]

theorem mem_of_find? {env : Env α} {a : String} {x : α} (h : env.find? a = some x) :
    (a, x) ∈ env := by
  induction env with
  | nil => simp at h
  | cons b rest ih =>
    obtain ⟨k, y⟩ := b
    rw [Env.find?] at h
    cases hr : Env.find? rest a with
    | some z =>
      rw [hr] at h
      exact List.mem_cons_of_mem _ (ih (by simpa using h ▸ hr))
    | none =>
      rw [hr] at h
      by_cases hk : k = a
      · simp only [hk, if_true, Option.none_or, Option.some.injEq] at h
        simp [hk, h]
      · simp [hk] at h

theorem find?_isSome {env : Env α} {a : String} : (env.find? a).isSome ↔ a ∈ env.names := by
  induction env with
  | nil => simp [Env.names]
  | cons b rest ih =>
    obtain ⟨k, y⟩ := b
    simp only [Env.find?, Env.names, List.map_cons, List.mem_cons, Option.isSome_or,
      Bool.or_eq_true, ih]
    by_cases hk : k = a
    · simp [hk]
    · simp [hk, Ne.symm hk]

theorem find?_eq_none {env : Env α} {a : String} : env.find? a = none ↔ a ∉ env.names := by
  rw [← find?_isSome]
  cases env.find? a <;> simp

theorem mem_entries {env : Env α} {x : α} : x ∈ env.entries ↔ ∃ a, env.find? a = some x := by
  simp only [Env.entries, List.mem_filterMap]
  constructor
  · rintro ⟨⟨a, _⟩, -, h⟩
    exact ⟨a, h⟩
  · rintro ⟨a, h⟩
    exact ⟨(a, x), mem_of_find? h, h⟩

theorem find?_zip_eq_none {names : List String} {xs : List α} {a : String} (ha : a ∉ names) :
    Env.find? (names.zip xs) a = none := by
  rw [find?_eq_none]
  intro hmem
  obtain ⟨⟨b, x⟩, hb, rfl⟩ := List.mem_map.1 hmem
  exact ha (List.of_mem_zip hb).1

/-- A name of a list stands at a position where it is bound, whatever the list is zipped with. -/
theorem exists_find?_zip {names : List String} {a : String} (ha : a ∈ names) :
    ∃ i < names.length, ∀ {β : Type} (ys : List β), names.length = ys.length →
      Env.find? (names.zip ys) a = ys[i]? := by
  induction names with
  | nil => cases ha
  | cons n ns ih =>
    by_cases hmem : a ∈ ns
    · obtain ⟨i, hi, hfind⟩ := ih hmem
      refine ⟨i + 1, by simpa using hi, fun ys hl => ?_⟩
      cases ys with
      | nil => simp at hl
      | cons y ys =>
        have hlen : ns.length = ys.length := by simpa using hl
        rw [List.zip_cons_cons, Env.find?, hfind ys hlen, List.getElem?_cons_succ,
          List.getElem?_eq_getElem (hlen ▸ hi)]
        rfl
    · obtain rfl := (List.mem_cons.1 ha).resolve_right hmem
      refine ⟨0, by simp, fun ys hl => ?_⟩
      cases ys with
      | nil => simp at hl
      | cons y ys =>
        rw [List.zip_cons_cons, Env.find?, find?_zip_eq_none hmem]
        simp

/-- The entry of a name among positions: that of the last position that carries it. -/
theorem find?_zip_of_nodup {names : List String} {xs : List α} (hn : names.Nodup) {i : Nat}
    {a : String} {x : α} (ha : names[i]? = some a) (hx : xs[i]? = some x) :
    Env.find? (names.zip xs) a = some x := by
  induction names generalizing xs i with
  | nil => simp at ha
  | cons n ns ih =>
    rw [List.nodup_cons] at hn
    cases xs with
    | nil => simp at hx
    | cons y ys =>
      cases i with
      | zero =>
        simp only [List.getElem?_cons_zero, Option.some.injEq] at ha hx
        subst ha hx
        simp [Env.find?, find?_zip_eq_none hn.1]
      | succ i =>
        simp only [List.getElem?_cons_succ] at ha hx
        simp [Env.find?, ih hn.2 ha hx]

end Env

/-! ## Signatures under a substitution -/

namespace Signature

/-- The entries that count inside a signature: its formals hide entries of their names. -/
def visible (s : Signature) (η : Env Ty) : Env Ty := η.filter fun (p, _) => p ∉ s.formalNames

/-- The type parameters that a substitution brings into a signature. -/
def imported (s : Signature) (η : Env Ty) : List String :=
  (s.visible η).entries.flatMap Ty.freeParams

/-- The names of the formals once those that a substitution mentions are renamed. -/
def freshFor (s : Signature) (η : Env Ty) : List String :=
  freshNames (s.imported η) (s.imported η ++ s.formalNames) s.formalNames

/-- The substitution of names for names, by position. -/
def relabelling (names fresh : List String) : Env Ty :=
  (names.zip fresh).map fun (f, n) => (f, .param n)

theorem find?_visible (s : Signature) (η : Env Ty) (a : String) :
    (s.visible η).find? a = if a ∈ s.formalNames then none else η.find? a := by
  have h := Env.find?_filter η (fun p => decide (p ∉ s.formalNames)) a
  by_cases ha : a ∈ s.formalNames <;> simpa [visible, ha] using h

theorem mem_imported {s : Signature} {η : Env Ty} {q : String} :
    q ∈ s.imported η
      ↔ ∃ a x, a ∉ s.formalNames ∧ η.find? a = some x ∧ q ∈ x.freeParams := by
  simp only [imported, List.mem_flatMap, Env.mem_entries, find?_visible]
  constructor
  · rintro ⟨x, ⟨a, ha⟩, hq⟩
    by_cases hf : a ∈ s.formalNames
    · simp [hf] at ha
    · exact ⟨a, x, hf, by simpa [hf] using ha, hq⟩
  · rintro ⟨a, x, hf, ha, hq⟩
    exact ⟨x, ⟨a, by simpa [hf] using ha⟩, hq⟩

variable {sub : Env Ty → Ty → Ty} {η : Env Ty} {s : Signature}

/-- Nothing counts: the formals hide every entry. -/
theorem substWith_of_hidden (h : (s.visible η).isEmpty = true) : s.substWith sub η = s := by
  rw [substWith]
  exact if_pos h

/-- No formal is mentioned: all keep their names. -/
theorem substWith_of_apart (h : (s.visible η).isEmpty = false)
    (hf : ∀ f ∈ s.formalNames, f ∉ s.imported η) :
    s.substWith sub η = s.map (sub (s.visible η)) := by
  have hany : s.formalNames.any (· ∈ s.imported η) = false := by
    simpa [List.any_eq_false] using hf
  rw [substWith]
  refine (if_neg (by simpa [visible] using h)).trans (if_neg ?_)
  simpa [imported, visible] using hany

/-- Some formal is mentioned: renaming comes first. -/
theorem substWith_of_capture (h : (s.visible η).isEmpty = false) {f : String}
    (hf : f ∈ s.formalNames) (hi : f ∈ s.imported η) :
    s.substWith sub η = (s.renameWith sub (s.freshFor η)).map (sub (s.visible η)) := by
  have hany : s.formalNames.any (· ∈ s.imported η) = true := by
    simp only [List.any_eq_true]
    exact ⟨f, hf, by simpa using hi⟩
  rw [substWith]
  exact (if_neg (by simpa [visible] using h)).trans (if_pos hany)

@[simp] theorem name_map (f : Ty → Ty) (s : Signature) : (s.map f).name = s.name := rfl

@[simp] theorem types_map (f : Ty → Ty) (s : Signature) : (s.map f).types = s.types.map f := by
  simp [types, map, Slot.map, Function.comp_def]

@[simp] theorem formalNames_map (f : Ty → Ty) (s : Signature) :
    (s.map f).formalNames = s.formalNames := by
  simp [formalNames, map, Slot.map, Function.comp_def]

@[simp] theorem map_ty_relabel (fs : List Slot) (ns : List String) :
    (relabel fs ns).map (·.ty) = fs.map (·.ty) := by
  induction fs generalizing ns with
  | nil => cases ns <;> rfl
  | cons f fs ih => cases ns <;> simp [relabel, ih]

theorem map_name_relabel (fs : List Slot) (ns : List String) (h : ns.length = fs.length) :
    (relabel fs ns).map (·.name) = ns := by
  induction fs generalizing ns with
  | nil =>
    cases ns with
    | nil => rfl
    | cons n ns => simp at h
  | cons f fs ih =>
    cases ns with
    | nil => simp at h
    | cons n ns => simp [relabel, ih ns (by simpa using h)]

@[simp] theorem types_renameWith (names : List String) :
    (s.renameWith sub names).types = s.types.map (sub (relabelling s.formalNames names)) := by
  simp [renameWith, types, map, Slot.map, Function.comp_def, relabelling]

@[simp] theorem map_name_params_map (f : Ty → Ty) (s : Signature) :
    (s.map f).params.map (·.name) = s.params.map (·.name) := by
  simp [map, Slot.map, Function.comp_def]

@[simp] theorem map_name_params_renameWith (names : List String) :
    (s.renameWith sub names).params.map (·.name) = s.params.map (·.name) := by
  simp [renameWith, map, Slot.map, Function.comp_def]

theorem formalNames_renameWith (names : List String) (h : names.length = s.formals.length) :
    (s.renameWith sub names).formalNames = names := by
  rw [renameWith, formalNames]
  exact map_name_relabel _ _ (by simpa [map] using h)

@[simp] theorem name_substWith (sub : Env Ty → Ty → Ty) (η : Env Ty) (s : Signature) :
    (s.substWith sub η).name = s.name := by
  rw [substWith]
  dsimp only
  split
  · rfl
  · split <;> rfl

end Signature

/-! ## The depth bound plays no role -/

/-- The entries of a substitution are type parameters. -/
def Env.IsRenaming (η : Env Ty) : Prop := ∀ a x, η.find? a = some x → ∃ q, x = .param q

theorem Signature.isRenaming_relabelling (names fresh : List String) :
    Env.IsRenaming (Signature.relabelling names fresh) := by
  intro a x h
  obtain ⟨⟨f, n⟩, -, hx⟩ := List.mem_map.1 (Env.mem_of_find? h)
  exact ⟨n, (Prod.mk.inj hx).2.symm⟩

theorem Signature.isRenaming_visible {η : Env Ty} (h : η.IsRenaming) (s : Signature) :
    (s.visible η).IsRenaming := by
  intro a x hx
  rw [Signature.find?_visible] at hx
  by_cases ha : a ∈ s.formalNames
  · simp [ha] at hx
  · exact h a x (by simpa [ha] using hx)

/-- What a substitution in a signature does to the types inside: a composition of substitutions. -/
theorem Signature.types_substWith {sub : Env Ty → Ty → Ty} {η : Env Ty} {s : Signature} :
    (s.substWith sub η).types = s.types
      ∨ (s.substWith sub η).types = s.types.map (sub (s.visible η))
      ∨ (s.substWith sub η).types
          = s.types.map fun t =>
              sub (s.visible η) (sub (Signature.relabelling s.formalNames (s.freshFor η)) t) := by
  cases he : (s.visible η).isEmpty with
  | true => exact .inl (by rw [Signature.substWith_of_hidden he])
  | false =>
    by_cases hc : ∃ f ∈ s.formalNames, f ∈ s.imported η
    · obtain ⟨f, hf, hi⟩ := hc
      refine .inr (.inr ?_)
      rw [Signature.substWith_of_capture he hf hi]
      simp [Function.comp_def]
    · refine .inr (.inl ?_)
      rw [Signature.substWith_of_apart he fun f hf hi => hc ⟨f, hf, hi⟩, Signature.types_map]

theorem Ty.depth_substAt_le {η : Env Ty} (hη : η.IsRenaming) (n k : Nat) (t : Ty) :
    (t.substAt n η).depth ≤ k ↔ t.depth ≤ k := by
  induction n generalizing η t k with
  | zero => rfl
  | succ n ih =>
    cases k with
    | zero =>
      have := (t.substAt (n + 1) η).depth_pos
      have := t.depth_pos
      omega
    | succ k =>
      cases t with
      | param p =>
        rw [Ty.substAt]
        cases hp : η.find? p with
        | none => rfl
        | some x =>
          obtain ⟨q, rfl⟩ := hη p x hp
          rfl
      | named c args =>
        rw [Ty.substAt, Ty.depth_named_le, Ty.depth_named_le, List.forall_mem_map]
        exact forall₂_congr fun a _ => ih hη k a
      | prim p => rfl
      | struct fs =>
        rw [Ty.substAt, Ty.depth_struct_le, Ty.depth_struct_le, List.forall_mem_map]
        exact forall₂_congr fun f _ => ih hη k f.ty
      | interface ms =>
        rw [Ty.substAt, Ty.depth_interface_le, Ty.depth_interface_le, List.forall_mem_map]
        refine forall₂_congr fun m _ => ?_
        cases m with
        | method s =>
          have hv := Signature.isRenaming_visible hη s
          have hr := Signature.isRenaming_relabelling s.formalNames (s.freshFor η)
          simp only [Member.substWith, Member.types]
          rcases @Signature.types_substWith (Ty.substAt n) η s with h | h | h
          · rw [h]
          · rw [h, List.forall_mem_map]
            exact forall₂_congr fun t _ => ih hv k t
          · rw [h, List.forall_mem_map]
            exact forall₂_congr fun t _ => (ih hv k _).trans (ih hr k t)
        | embed c args =>
          simp only [Member.substWith, Member.types, List.forall_mem_map]
          exact forall₂_congr fun a _ => ih hη k a
      | var v => rfl

theorem Signature.map_congr {f g : Ty → Ty} {s : Signature} (h : ∀ t ∈ s.types, f t = g t) :
    s.map f = s.map g := by
  obtain ⟨hf, hp, hr⟩ := Signature.forall_types.1 h
  simp only [Signature.map, Signature.mk.injEq, true_and]
  refine ⟨List.map_congr_left fun x hx => ?_, List.map_congr_left fun x hx => ?_, hr⟩
  · simp [Slot.map, hf x hx]
  · simp [Slot.map, hp x hx]

/-- Slots with the same names and types are the same. -/
theorem Slot.ext_lists {fs gs : List Slot} (hn : fs.map (·.name) = gs.map (·.name))
    (ht : fs.map (·.ty) = gs.map (·.ty)) : fs = gs := by
  induction fs generalizing gs with
  | nil =>
    cases gs with
    | nil => rfl
    | cons g gs => simp at hn
  | cons f fs ih =>
    cases gs with
    | nil => simp at hn
    | cons g gs =>
      obtain ⟨a, t⟩ := f
      obtain ⟨b, u⟩ := g
      simp only [List.map_cons, List.cons.injEq] at hn ht
      obtain ⟨rfl, hn⟩ := hn
      obtain ⟨rfl, ht⟩ := ht
      rw [ih hn ht]

/-- Signatures with the same names and types are the same. -/
theorem Signature.ext_types {s s' : Signature} (hm : s.name = s'.name)
    (hf : s.formalNames = s'.formalNames) (hp : s.params.map (·.name) = s'.params.map (·.name))
    (ht : s.types = s'.types) : s = s' := by
  have hlf : s.formals.length = s'.formals.length := by
    simpa [Signature.formalNames] using congrArg List.length hf
  have hlp : s.params.length = s'.params.length := by simpa using congrArg List.length hp
  simp only [Signature.types, List.append_assoc] at ht
  obtain ⟨htf, ht⟩ := List.append_inj ht (by simpa using hlf)
  obtain ⟨htp, htr⟩ := List.append_inj ht (by simpa using hlp)
  obtain ⟨m, fs, ps, r⟩ := s
  obtain ⟨m', fs', ps', r'⟩ := s'
  simp only [Signature.mk.injEq]
  exact ⟨hm, Slot.ext_lists hf htf, Slot.ext_lists hp htp, by simpa using htr⟩

theorem Slot.map_eq_self {f : Ty → Ty} {fs : List Slot} (h : ∀ x ∈ fs, f x.ty = x.ty) :
    fs.map (Slot.map f) = fs := by
  refine (List.map_congr_left (g := id) fun x hx => ?_).trans (List.map_id fs)
  obtain ⟨a, t⟩ := x
  exact congrArg (Slot.mk a) (h _ hx)

theorem Signature.map_eq_self {f : Ty → Ty} {s : Signature} (h : ∀ t ∈ s.types, f t = t) :
    s.map f = s := by
  obtain ⟨hf, hp, hr⟩ := Signature.forall_types.1 h
  obtain ⟨m, fs, ps, r⟩ := s
  rw [Signature.map, Slot.map_eq_self hf, Slot.map_eq_self hp, hr]

/-- Substitution in a signature depends on substitution in its types alone, before and after a
renaming. -/
theorem Signature.substWith_congr {sub sub' : Env Ty → Ty → Ty} {η : Env Ty} {s : Signature}
    (h : ∀ t ∈ s.types, ∀ θ, sub θ t = sub' θ t)
    (hr : ∀ t ∈ s.types, ∀ θ r : Env Ty, r.IsRenaming → sub θ (sub' r t) = sub' θ (sub' r t)) :
    s.substWith sub η = s.substWith sub' η := by
  cases he : (s.visible η).isEmpty with
  | true => rw [substWith_of_hidden he, substWith_of_hidden he]
  | false =>
    by_cases hc : ∃ f ∈ s.formalNames, f ∈ s.imported η
    · obtain ⟨f, hf, hi⟩ := hc
      rw [substWith_of_capture he hf hi, substWith_of_capture he hf hi]
      have hren : s.renameWith sub (s.freshFor η) = s.renameWith sub' (s.freshFor η) := by
        rw [renameWith, renameWith]
        rw [map_congr fun t ht => h t ht _]
      rw [hren]
      apply map_congr
      intro t ht
      rw [types_renameWith] at ht
      obtain ⟨u, hu, rfl⟩ := List.mem_map.1 ht
      exact hr u hu _ _ (isRenaming_relabelling _ _)
    · have hf : ∀ f ∈ s.formalNames, f ∉ s.imported η := fun f hf hi => hc ⟨f, hf, hi⟩
      rw [substWith_of_apart he hf, substWith_of_apart he hf]
      exact map_congr fun t ht => h t ht _

theorem Ty.substAt_eq_substAt {n m : Nat} {t : Ty} (hn : t.depth ≤ n) (hm : t.depth ≤ m)
    (η : Env Ty) : t.substAt n η = t.substAt m η := by
  induction n generalizing m t η with
  | zero =>
    have := t.depth_pos
    omega
  | succ n ih =>
    cases m with
    | zero =>
      have := t.depth_pos
      omega
    | succ m =>
      cases t with
      | param p => rfl
      | named c args =>
        rw [Ty.depth_named_le] at hn hm
        simp only [Ty.substAt, Ty.named.injEq, true_and]
        exact List.map_congr_left fun a ha => ih (hn a ha) (hm a ha) η
      | prim p => rfl
      | struct fs =>
        rw [Ty.depth_struct_le] at hn hm
        simp only [Ty.substAt, Ty.struct.injEq]
        refine List.map_congr_left fun f hf => ?_
        simp only [Slot.map, ih (hn f hf) (hm f hf) η]
      | interface ms =>
        rw [Ty.depth_interface_le] at hn hm
        simp only [Ty.substAt, Ty.interface.injEq]
        refine List.map_congr_left fun x hx => ?_
        have hn := hn x hx
        have hm := hm x hx
        cases x with
        | method s =>
          simp only [Member.substWith, Member.method.injEq]
          apply Signature.substWith_congr
          · intro t ht θ
            exact ih (hn t ht) (hm t ht) θ
          · intro t ht θ r hr
            exact ih ((Ty.depth_substAt_le hr m n t).2 (hn t ht))
              ((Ty.depth_substAt_le hr m m t).2 (hm t ht)) θ
        | embed c args =>
          simp only [Member.substWith, Member.embed.injEq, true_and]
          exact List.map_congr_left fun a ha => ih (hn a ha) (hm a ha) η
      | var v => rfl

theorem Ty.substAt_eq_subst {n : Nat} {t : Ty} (h : t.depth ≤ n) (η : Env Ty) :
    t.substAt n η = t.subst η :=
  Ty.substAt_eq_substAt h (Nat.le_refl _) η

/-! ## The equations -/

namespace Ty

variable {η : Env Ty}

@[simp] theorem subst_param (p : String) : (Ty.param p).subst η = (η.find? p).getD (.param p) :=
  rfl

@[simp] theorem subst_prim (p : Prim) : (Ty.prim p).subst η = .prim p := rfl

@[simp] theorem subst_var (n : Nat) : (Ty.var n).subst η = .var n := rfl

@[simp] theorem subst_named (c : String) (args : List Ty) :
    (Ty.named c args).subst η = .named c (args.map (Ty.subst η)) := by
  have h := Ty.depthAll_le.1 (Nat.le_refl (Ty.depthAll args))
  rw [Ty.subst, show (Ty.named c args).depth = Ty.depthAll args + 1 from Nat.add_comm _ _]
  simp only [Ty.substAt, Ty.named.injEq, true_and]
  exact List.map_congr_left fun a ha => substAt_eq_subst (h a ha) η

@[simp] theorem subst_struct (fs : List Slot) :
    (Ty.struct fs).subst η = .struct (fs.map (Slot.map (Ty.subst η))) := by
  have h := Slot.depthAll_le.1 (Nat.le_refl (Slot.depthAll fs))
  rw [Ty.subst, show (Ty.struct fs).depth = Slot.depthAll fs + 1 from Nat.add_comm _ _]
  simp only [Ty.substAt, Ty.struct.injEq]
  exact List.map_congr_left fun f hf => by simp only [Slot.map, substAt_eq_subst (h f hf) η]

@[simp] theorem subst_interface (ms : List Member) :
    (Ty.interface ms).subst η = .interface (ms.map (Member.subst η)) := by
  have h := Member.depthAll_le.1 (Nat.le_refl (Member.depthAll ms))
  rw [Ty.subst, show (Ty.interface ms).depth = Member.depthAll ms + 1 from Nat.add_comm _ _]
  simp only [Ty.substAt, Ty.interface.injEq]
  refine List.map_congr_left fun x hx => ?_
  have h := h x hx
  cases x with
  | method s =>
    simp only [Member.substWith, Member.subst, Member.method.injEq]
    apply Signature.substWith_congr
    · intro t ht θ
      exact substAt_eq_subst (h t ht) θ
    · intro t ht θ r hr
      have hd := Ty.depth_substAt_le hr t.depth (Member.depthAll ms) t
      exact substAt_eq_subst (hd.2 (h t ht)) θ
  | embed c args =>
    simp only [Member.substWith, Member.subst, Member.embed.injEq, true_and]
    exact List.map_congr_left fun a ha => substAt_eq_subst (h a ha) η

end Ty

/-- The empty substitution changes nothing. -/
theorem Ty.subst_nil (t : Ty) : t.subst [] = t := by
  induction t using Ty.induction with
  | param p => rfl
  | named c args ih =>
    rw [Ty.subst_named, List.map_congr_left ih, List.map_id']
  | prim p => rfl
  | struct fs ih =>
    rw [Ty.subst_struct, Slot.map_eq_self ih]
  | interface ms ih =>
    rw [Ty.subst_interface, Ty.interface.injEq]
    refine (List.map_congr_left (g := id) fun m hm => ?_).trans (List.map_id ms)
    cases m with
    | method s => exact congrArg Member.method (Signature.substWith_of_hidden rfl)
    | embed c args =>
      have hargs : args.map (Ty.subst []) = args :=
        (List.map_congr_left (ih _ hm)).trans (List.map_id' args)
      exact congrArg (Member.embed c) hargs
  | var n => rfl

@[simp] theorem Member.subst_method (η : Env Ty) (s : Signature) :
    (Member.method s).subst η = .method (s.subst η) := rfl

@[simp] theorem Member.subst_embed (η : Env Ty) (c : String) (args : List Ty) :
    (Member.embed c args).subst η = .embed c (args.map (Ty.subst η)) := rfl

namespace Signature

variable {η : Env Ty} {s : Signature}

@[simp] theorem name_subst (η : Env Ty) (s : Signature) : (s.subst η).name = s.name :=
  name_substWith _ _ _

theorem subst_nil (s : Signature) : s.subst [] = s := substWith_of_hidden rfl

/-- No formal is mentioned: all keep their names. -/
theorem subst_of_apart (hf : ∀ f ∈ s.formalNames, f ∉ s.imported η) :
    s.subst η = s.map (Ty.subst (s.visible η)) := by
  cases he : (s.visible η).isEmpty with
  | true =>
    have hnil : s.visible η = [] := List.isEmpty_iff.1 he
    rw [subst, substWith_of_hidden he, hnil]
    exact (map_eq_self fun t _ => Ty.subst_nil t).symm
  | false => exact substWith_of_apart he hf

/-- Some formal is mentioned: renaming comes first. -/
theorem subst_of_capture {f : String} (hf : f ∈ s.formalNames) (hi : f ∈ s.imported η) :
    s.subst η = (s.rename (s.freshFor η)).map (Ty.subst (s.visible η)) := by
  refine substWith_of_capture ?_ hf hi
  cases he : (s.visible η).isEmpty with
  | true => simp [imported, List.isEmpty_iff.1 he, Env.entries] at hi
  | false => rfl

@[simp] theorem types_rename (names : List String) :
    (s.rename names).types = s.types.map (Ty.subst (relabelling s.formalNames names)) :=
  types_renameWith names

end Signature

end FeatherGo
