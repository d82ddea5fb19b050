import FeatherGo.Proofs.Types.Closing

/-!
# Types that fit

Capture-avoiding substitution adds primes to a formal until its name is unused, but it looks at the
names that come in only, not at those that are replaced or stand already. `Ty.Fit` is what keeps
this from going wrong: nested formals have stems of their own, apart from those of the formals around
them, free type parameters are in scope and are unprimed unless a formal around them was renamed,
and what is given as a type argument is flat: no signature in it binds formals.
-/

namespace FeatherGo

mutual

/-- No signature in the type binds formals; a strict type has no anonymous parts and no untyped
primitives at all. -/
def Ty.flat (strict : Bool) : Ty → Bool
  | .param _ => true
  | .named _ args => Ty.flatAll strict args
  | .prim p => !strict || !p.untyped
  | .struct fs => !strict && Slot.flatAll strict fs
  | .interface ms => !strict && Member.flatAll strict ms
  | .var _ => !strict
termination_by structural t => t

/-- All types are flat. -/
def Ty.flatAll (strict : Bool) : List Ty → Bool
  | [] => true
  | t :: ts => t.flat strict && Ty.flatAll strict ts

/-- The types of all slots are flat. -/
def Slot.flatAll (strict : Bool) : List Slot → Bool
  | [] => true
  | ⟨_, t⟩ :: fs => t.flat strict && Slot.flatAll strict fs

/-- No member binds formals, and the types in all members are flat. -/
def Member.flatAll (strict : Bool) : List Member → Bool
  | [] => true
  | .method ⟨_, fs, ps, r⟩ :: ms =>
    fs.isEmpty && Slot.flatAll strict ps && r.flat strict && Member.flatAll strict ms
  | .embed _ args :: ms => Ty.flatAll strict args && Member.flatAll strict ms

end

/-- The formals that an interface member binds. -/
def Member.formalNames : Member → List String
  | .method s => s.formalNames
  | .embed _ _ => []

section Flat

variable {strict : Bool}

theorem Ty.flatAll_iff {ts : List Ty} :
    Ty.flatAll strict ts = true ↔ ∀ t ∈ ts, t.flat strict = true := by
  induction ts with
  | nil => simp [Ty.flatAll]
  | cons t ts ih => simp [Ty.flatAll, ih]

theorem Slot.flatAll_iff {fs : List Slot} :
    Slot.flatAll strict fs = true ↔ ∀ f ∈ fs, f.ty.flat strict = true := by
  induction fs with
  | nil => simp [Slot.flatAll]
  | cons f fs ih =>
    obtain ⟨x, t⟩ := f
    simp [Slot.flatAll, ih]

theorem Member.flatAll_iff {ms : List Member} :
    Member.flatAll strict ms = true
      ↔ ∀ m ∈ ms, m.formalNames = [] ∧ ∀ t ∈ m.types, t.flat strict = true := by
  induction ms with
  | nil => simp [Member.flatAll]
  | cons m ms ih =>
    rw [List.forall_mem_cons, ← ih]
    cases m with
    | method s =>
      obtain ⟨x, fs, ps, r⟩ := s
      simp only [Member.flatAll, Bool.and_eq_true, Member.types, Signature.forall_types,
        Slot.flatAll_iff, Member.formalNames, Signature.formalNames, List.map_eq_nil_iff,
        List.isEmpty_iff]
      constructor
      · rintro ⟨⟨⟨rfl, hp⟩, hr⟩, hms⟩
        exact ⟨⟨rfl, by simp, hp, hr⟩, hms⟩
      · rintro ⟨⟨rfl, -, hp, hr⟩, hms⟩
        exact ⟨⟨⟨rfl, hp⟩, hr⟩, hms⟩
    | embed c args =>
      simp [Member.flatAll, Member.types, Ty.flatAll_iff, Member.formalNames]

@[simp] theorem Ty.flat_param (a : String) : (Ty.param a).flat strict = true := rfl

theorem Ty.flat_named {c : String} {args : List Ty} :
    (Ty.named c args).flat strict = true ↔ ∀ t ∈ args, t.flat strict = true := by
  rw [Ty.flat, Ty.flatAll_iff]

theorem Ty.flat_struct {fs : List Slot} :
    (Ty.struct fs).flat strict = true ↔ strict = false ∧ ∀ f ∈ fs, f.ty.flat strict = true := by
  rw [Ty.flat, Bool.and_eq_true, Slot.flatAll_iff, Bool.not_eq_true']

theorem Ty.flat_interface {ms : List Member} :
    (Ty.interface ms).flat strict = true
      ↔ strict = false ∧ ∀ m ∈ ms, m.formalNames = [] ∧ ∀ t ∈ m.types, t.flat strict = true := by
  rw [Ty.flat, Bool.and_eq_true, Member.flatAll_iff, Bool.not_eq_true']

end Flat

/-- What types may be made of: which names are applied to how many arguments, which names are
embedded in interfaces, and whether type arguments are strict. -/
structure Vocabulary where
  strict : Bool
  heads : String → Nat → Prop
  embeds : String → Prop

/-- A name that canonical signatures do not give to a formal, not even with its primes taken off. -/
def Uncanonical (name : String) : Prop := ∀ i, stem name ≠ Signature.canonicalName i

/-- A name that neither renaming nor canonical signatures make up: it holds no prime and is not an
`α` with a number. -/
def OrdinaryName (a : String) : Prop := '\'' ∉ a.toList ∧ ∀ i, a ≠ Signature.canonicalName i

theorem OrdinaryName.unprimed {a : String} (h : OrdinaryName a) : Unprimed a := by
  have hfilter : a.toList.filter (· ≠ '\'') = a.toList := by
    rw [List.filter_eq_self]
    intro c hc
    have hne : c ≠ '\'' := fun he => h.1 (he ▸ hc)
    simpa using hne
  rw [Unprimed, stem, hfilter, String.ofList_toList]

theorem OrdinaryName.uncanonical {a : String} (h : OrdinaryName a) : Uncanonical a := by
  intro i
  rw [h.unprimed]
  exact h.2 i

/-- A name that begins otherwise than canonical names and holds no prime is ordinary. -/
theorem ordinaryName_of_head {a : String} (hp : '\'' ∉ a.toList) (hh : a.toList.head? ≠ some 'α') :
    OrdinaryName a := by
  refine ⟨hp, ?_⟩
  rintro i rfl
  rw [Signature.canonicalName, String.toList_append] at hh
  exact hh rfl

/-- What an interface member has to satisfy apart from its types: its formals have stems of their
own, apart from those given, and what it embeds may be embedded. -/
def Member.Proper (V : Vocabulary) (stems : List String) : Member → Prop
  | .method s =>
    (s.formalNames.map stem).Nodup ∧ ∀ f ∈ s.formalNames, stem f ∉ stems ∧ Uncanonical f
  | .embed c args =>
    V.embeds c ∧ V.heads c args.length ∧ ∀ a ∈ args, a.flat V.strict = true

/-- A type fits in a scope and under formals of given stems: its free type parameters are in scope,
its names are in the vocabulary, type arguments are flat, and nested formals are proper. -/
inductive Ty.Fit (V : Vocabulary) : List String → List String → Ty → Prop
  | param {scope stems : List String} {a : String} (mem : a ∈ scope) : Fit V scope stems (.param a)
  | named {scope stems : List String} {c : String} {args : List Ty}
      (head : V.heads c args.length) (flat : ∀ a ∈ args, a.flat V.strict = true)
      (fit : ∀ a ∈ args, Fit V scope stems a) : Fit V scope stems (.named c args)
  | prim {scope stems : List String} (p : Prim) : Fit V scope stems (.prim p)
  | struct {scope stems : List String} {fs : List Slot}
      (fit : ∀ f ∈ fs, Fit V scope stems f.ty) : Fit V scope stems (.struct fs)
  | interface {scope stems : List String} {ms : List Member}
      (proper : ∀ m ∈ ms, m.Proper V stems)
      (fit : ∀ m ∈ ms, ∀ t ∈ m.types,
        Fit V (m.formalNames ++ scope) (m.formalNames.map stem ++ stems) t) :
      Fit V scope stems (.interface ms)
  | var {scope stems : List String} (n : Nat) : Fit V scope stems (.var n)

theorem Member.Proper.mono {V : Vocabulary} {stems stems' : List String} {m : Member}
    (h : m.Proper V stems) (hs : ∀ a ∈ stems', a ∈ stems) : m.Proper V stems' := by
  cases m with
  | method s => exact ⟨h.1, fun f hf => ⟨fun hm => (h.2 f hf).1 (hs _ hm), (h.2 f hf).2⟩⟩
  | embed c args => exact h

/-- The names in scope are not canonical, and unprimed unless a formal around was renamed. -/
def ScopeProper (scope stems : List String) : Prop :=
  ∀ a ∈ scope, Uncanonical a ∧ (Unprimed a ∨ stem a ∈ stems)

namespace Ty.Fit

variable {V : Vocabulary} {scope scope' stems stems' : List String} {t : Ty}

/-- Nothing is known of nested formals in a flat type, so the scope may grow. -/
theorem weaken (h : t.Fit V scope stems) (hf : t.flat V.strict = true)
    (hs : ∀ a ∈ scope, a ∈ scope') : t.Fit V scope' stems' := by
  induction h generalizing scope' stems' with
  | param mem => exact .param (hs _ mem)
  | named head flat _ ih => exact .named head flat fun a ha => ih a ha (flat a ha) hs
  | prim p => exact .prim p
  | struct _ ih => exact .struct fun f hm => ih f hm ((Ty.flat_struct.1 hf).2 f hm) hs
  | interface proper _ ih =>
    have hf := (Ty.flat_interface.1 hf).2
    refine .interface (fun m hm => ?_) fun m hm u hu => ?_
    · have hp := proper m hm
      cases m with
      | method s =>
        have hn : s.formalNames = [] := (hf _ hm).1
        simp [Member.Proper, hn]
      | embed c args => exact hp
    · refine ih m hm u hu ((hf m hm).2 u hu) fun a ha => ?_
      rw [(hf m hm).1] at ha
      exact List.mem_append_right _ (hs a ha)
  | var n => exact .var n

/-- The scope may change beyond the free type parameters. -/
theorem mono (h : t.Fit V scope stems) (hs : ∀ a ∈ scope, a ∈ scope')
    (hst : ∀ a ∈ stems', a ∈ stems) : t.Fit V scope' stems' := by
  induction h generalizing scope' stems' with
  | param mem => exact .param (hs _ mem)
  | named head flat _ ih => exact .named head flat fun a ha => ih a ha hs hst
  | prim p => exact .prim p
  | struct _ ih => exact .struct fun f hm => ih f hm hs hst
  | interface proper _ ih =>
    refine .interface (fun m hm => (proper m hm).mono hst) fun m hm u hu => ih m hm u hu ?_ ?_
    · intro a ha
      exact (List.mem_append.1 ha).elim (List.mem_append_left _)
        fun ha => List.mem_append_right _ (hs a ha)
    · intro a ha
      exact (List.mem_append.1 ha).elim (List.mem_append_left _)
        fun ha => List.mem_append_right _ (hst a ha)
  | var n => exact .var n

end Ty.Fit

end FeatherGo
