import FeatherGo.Ty.Subst

/-!
# Induction over types

Types nest through lists of arguments, slots and members. `Ty.induction` hides the lists: a property
of every type holds if it passes from the types directly inside a type to the type. The functions
that walk types are restated here in terms of the types directly inside.
-/

namespace FeatherGo

/-- A function leaves a list as it is if it does so with every element. -/
theorem map_eq_self_iff {α : Type} {f : α → α} {l : List α} :
    l.map f = l ↔ ∀ a ∈ l, f a = a := by
  have h := @List.map_inj_left _ _ l f id
  rwa [List.map_id] at h

/-- The types in a signature: its bounds, its parameter types and its result. -/
def Signature.types (s : Signature) : List Ty :=
  s.formals.map (·.ty) ++ s.params.map (·.ty) ++ [s.result]

/-- The types directly inside an interface member. -/
def Member.types : Member → List Ty
  | .method s => s.types
  | .embed _ args => args

theorem Signature.mem_types {s : Signature} {t : Ty} :
    t ∈ s.types ↔ (∃ f ∈ s.formals, f.ty = t) ∨ (∃ p ∈ s.params, p.ty = t) ∨ t = s.result := by
  simp [Signature.types]

theorem Signature.mem_types_result (s : Signature) : s.result ∈ s.types :=
  mem_types.2 (.inr (.inr rfl))

theorem Signature.mem_types_param {s : Signature} {p : Slot} (hp : p ∈ s.params) : p.ty ∈ s.types :=
  mem_types.2 (.inr (.inl ⟨p, hp, rfl⟩))

theorem Signature.mem_types_formal {s : Signature} {f : Slot} (hf : f ∈ s.formals) :
    f.ty ∈ s.types :=
  mem_types.2 (.inl ⟨f, hf, rfl⟩)

theorem Signature.forall_types {s : Signature} {P : Ty → Prop} :
    (∀ t ∈ s.types, P t)
      ↔ (∀ f ∈ s.formals, P f.ty) ∧ (∀ p ∈ s.params, P p.ty) ∧ P s.result := by
  simp only [Signature.mem_types]
  constructor
  · intro h
    exact ⟨fun f hf => h _ (.inl ⟨f, hf, rfl⟩), fun p hp => h _ (.inr (.inl ⟨p, hp, rfl⟩)),
      h _ (.inr (.inr rfl))⟩
  · rintro ⟨hf, hp, hr⟩ t (⟨f, hm, rfl⟩ | ⟨p, hm, rfl⟩ | rfl)
    · exact hf f hm
    · exact hp p hm
    · exact hr

/-! ## Depth -/

theorem Ty.depthAll_le {ts : List Ty} {n : Nat} :
    Ty.depthAll ts ≤ n ↔ ∀ t ∈ ts, t.depth ≤ n := by
  induction ts with
  | nil => simp [Ty.depthAll]
  | cons t ts ih => rw [Ty.depthAll, Nat.max_le, ih, List.forall_mem_cons]

theorem Slot.depthAll_le {fs : List Slot} {n : Nat} :
    Slot.depthAll fs ≤ n ↔ ∀ f ∈ fs, f.ty.depth ≤ n := by
  induction fs with
  | nil => simp [Slot.depthAll]
  | cons f fs ih =>
    obtain ⟨x, t⟩ := f
    rw [Slot.depthAll, Nat.max_le, ih, List.forall_mem_cons]

theorem Member.depthAll_le {ms : List Member} {n : Nat} :
    Member.depthAll ms ≤ n ↔ ∀ m ∈ ms, ∀ t ∈ m.types, t.depth ≤ n := by
  induction ms with
  | nil => simp [Member.depthAll]
  | cons m ms ih =>
    cases m with
    | method s =>
      obtain ⟨x, fs, ps, r⟩ := s
      simp only [Member.depthAll, Nat.max_le, ih, List.forall_mem_cons, Slot.depthAll_le]
      simp only [Member.types, Signature.forall_types]
    | embed c args =>
      simp only [Member.depthAll, Nat.max_le, ih, List.forall_mem_cons, Ty.depthAll_le]
      simp only [Member.types]

theorem Ty.depth_named_le {c : String} {args : List Ty} {n : Nat} :
    (Ty.named c args).depth ≤ n + 1 ↔ ∀ a ∈ args, a.depth ≤ n := by
  rw [← Ty.depthAll_le, Ty.depth]
  omega

theorem Ty.depth_struct_le {fs : List Slot} {n : Nat} :
    (Ty.struct fs).depth ≤ n + 1 ↔ ∀ f ∈ fs, f.ty.depth ≤ n := by
  rw [← Slot.depthAll_le, Ty.depth]
  omega

theorem Ty.depth_interface_le {ms : List Member} {n : Nat} :
    (Ty.interface ms).depth ≤ n + 1 ↔ ∀ m ∈ ms, ∀ t ∈ m.types, t.depth ≤ n := by
  rw [← Member.depthAll_le, Ty.depth]
  omega

theorem Ty.depth_pos (t : Ty) : 0 < t.depth := by
  cases t <;> simp only [Ty.depth] <;> omega

/-- A property of types that passes from the types directly inside a type to the type holds of
every type. -/
theorem Ty.induction {P : Ty → Prop} (param : ∀ p, P (.param p))
    (named : ∀ c args, (∀ a ∈ args, P a) → P (.named c args)) (prim : ∀ p, P (.prim p))
    (struct : ∀ fs, (∀ f ∈ fs, P f.ty) → P (.struct fs))
    (interface : ∀ ms, (∀ m ∈ ms, ∀ t ∈ m.types, P t) → P (.interface ms))
    (var : ∀ n, P (.var n)) (t : Ty) : P t := by
  have bounded : ∀ n, ∀ t : Ty, t.depth ≤ n → P t := by
    intro n
    induction n with
    | zero =>
      intro t h
      have := t.depth_pos
      omega
    | succ n ih =>
      intro t h
      cases t with
      | param p => exact param p
      | named c args => exact named c args fun a ha => ih a (Ty.depth_named_le.1 h a ha)
      | prim p => exact prim p
      | struct fs => exact struct fs fun f hf => ih f.ty (Ty.depth_struct_le.1 h f hf)
      | interface ms =>
        exact interface ms fun m hm t ht => ih t (Ty.depth_interface_le.1 h m hm t ht)
      | var v => exact var v
  exact bounded t.depth t (Nat.le_refl _)

/-! ## Free parameters -/

/-- The type parameters free in an interface member. -/
def Member.freeParams : Member → List String
  | .method s => s.freeParams
  | .embed _ args => Ty.freeParamsAll args

theorem Ty.mem_freeParamsAll {ts : List Ty} {q : String} :
    q ∈ Ty.freeParamsAll ts ↔ ∃ t ∈ ts, q ∈ t.freeParams := by
  induction ts with
  | nil => simp [Ty.freeParamsAll]
  | cons t ts ih => simp [Ty.freeParamsAll, ih]

theorem Slot.mem_freeParamsAll {fs : List Slot} {q : String} :
    q ∈ Slot.freeParamsAll fs ↔ ∃ f ∈ fs, q ∈ f.ty.freeParams := by
  induction fs with
  | nil => simp [Slot.freeParamsAll]
  | cons f fs ih =>
    obtain ⟨x, t⟩ := f
    simp [Slot.freeParamsAll, ih]

theorem Member.mem_freeParamsAll {ms : List Member} {q : String} :
    q ∈ Member.freeParamsAll ms ↔ ∃ m ∈ ms, q ∈ m.freeParams := by
  induction ms with
  | nil => simp [Member.freeParamsAll]
  | cons m ms ih =>
    cases m with
    | method s =>
      obtain ⟨x, fs, ps, r⟩ := s
      simp only [Member.freeParamsAll, List.mem_append, ih, List.mem_cons, exists_eq_or_imp]
      rfl
    | embed c args =>
      simp only [Member.freeParamsAll, List.mem_append, ih, List.mem_cons, exists_eq_or_imp]
      rfl

theorem Signature.mem_freeParams {s : Signature} {q : String} :
    q ∈ s.freeParams ↔ q ∉ s.formalNames ∧ ∃ t ∈ s.types, q ∈ t.freeParams := by
  simp only [Signature.freeParams, List.mem_filter, List.mem_append, Slot.mem_freeParamsAll,
    Signature.mem_types, decide_eq_true_eq]
  constructor
  · rintro ⟨(⟨f, hf, h⟩ | ⟨p, hp, h⟩) | h, hn⟩
    · exact ⟨hn, _, .inl ⟨f, hf, rfl⟩, h⟩
    · exact ⟨hn, _, .inr (.inl ⟨p, hp, rfl⟩), h⟩
    · exact ⟨hn, _, .inr (.inr rfl), h⟩
  · rintro ⟨hn, t, (⟨f, hf, rfl⟩ | ⟨p, hp, rfl⟩ | rfl), h⟩
    · exact ⟨.inl (.inl ⟨f, hf, h⟩), hn⟩
    · exact ⟨.inl (.inr ⟨p, hp, h⟩), hn⟩
    · exact ⟨.inr h, hn⟩

end FeatherGo
