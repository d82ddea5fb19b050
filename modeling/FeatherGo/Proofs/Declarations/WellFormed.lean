import FeatherGo.Proofs.Declarations.Acyclic
import FeatherGo.Proofs.Types.Steady
import FeatherGo.Typing.Declaration

/-!
# Well-formed declarations

What the checks of declarations establish, as a property of the table alone: every source, bound and
signature is written under its formals, declared names take the arguments they are given, what is
embedded is an interface, and unfolding ends. `Ty.Spelled.close_subst` is how types in declarations are
used: instantiating one at open arguments and closing the result is instantiating it at the closed
arguments. For that a type need only be spelled under its formals; where its own type arguments are
flat too it is written under them, and flat arguments that fit keep it so (`Ty.Written.fit_subst`).
-/

namespace FeatherGo

namespace Table

variable (T : Table)

/-- The definition chain of a declared name ends in an interface. -/
inductive NamesInterface : String → Prop
  | literal {c : String} {td : TypeDecl} {ms : List Member} (declared : T.type? c = some td)
      (source : td.source = .interface ms) : NamesInterface c
  | chain {c c' : String} {td : TypeDecl} {args : List Ty} (declared : T.type? c = some td)
      (source : td.source = .named c' args) (next : NamesInterface c') : NamesInterface c

/-- Types that are interfaces, by their definition chains. -/
def InterfaceType : Ty → Prop
  | .interface _ => True
  | .named c _ => T.NamesInterface c
  | _ => False

/-- Types that may bound a type formal. -/
def BoundType : Ty → Prop
  | .prim _ => True
  | t => T.InterfaceType t

/-- The types that a table's names make. -/
def vocabulary (strict : Bool) : Vocabulary where
  strict := strict
  heads c n := ∃ td, T.type? c = some td ∧ td.formals.length = n
  embeds := T.NamesInterface

end Table

/-! ## Spelled and written types -/

/-- A type spelled under formals: it is scoped, its own nested formals are unprimed and apart from those
around it. -/
structure Ty.Spelled (V : Vocabulary) (names : List String) (t : Ty) : Prop where
  inner : t.Scoped V true names names
  text : t.Text

/-- A signature spelled under formals. -/
structure Signature.Spelled (V : Vocabulary) (names : List String) (s : Signature) : Prop where
  inner : s.Scoped V true names names
  text : s.Text

/-- A type written under formals: it fits, its own nested formals are unprimed and apart from those
around it. -/
structure Ty.Written (V : Vocabulary) (names : List String) (t : Ty) : Prop where
  fit : t.Fit V names names
  text : t.Text

/-- A signature written under formals. -/
structure Signature.Written (V : Vocabulary) (names : List String) (s : Signature) : Prop where
  fit : s.Fit V names names
  text : s.Text

theorem Ty.Written.spelled {V : Vocabulary} {names : List String} {t : Ty} (h : t.Written V names) :
    t.Spelled V names := ⟨h.fit.scoped, h.text⟩

theorem Signature.Written.spelled {V : Vocabulary} {names : List String} {s : Signature}
    (h : s.Written V names) : s.Spelled V names := ⟨h.fit.scoped, h.text⟩

/-- The names of type formals. -/
def formalNames (formals : List Slot) : List String := formals.map (·.name)

/-- Formals are all different, unprimed and not canonical. -/
structure FormalsProper (formals : List Slot) : Prop where
  nodup : (formalNames formals).Nodup
  unprimed : ∀ a ∈ formalNames formals, Unprimed a
  uncanonical : ∀ a ∈ formalNames formals, Uncanonical a

theorem FormalsProper.scope {formals : List Slot} (h : FormalsProper formals)
    (stems : List String) : ScopeProper (formalNames formals) stems :=
  fun a ha => ⟨h.uncanonical a ha, .inl (h.unprimed a ha)⟩

/-! ## Instantiations -/

section Instantiation

variable {V : Vocabulary} {formals : List Slot} {args : List Ty}

theorem find?_instantiation_isSome (h : formals.length = args.length) {a : String} :
    ((instantiation formals args).find? a).isSome ↔ a ∈ formalNames formals := by
  have hmap : Env.names (instantiation formals args) = formalNames formals :=
    List.map_fst_zip (by simp [h])
  rw [Env.find?_isSome, hmap]

theorem find?_instantiation_ne_none (h : formals.length = args.length) {a : String}
    (ha : a ∈ formalNames formals) : (instantiation formals args).find? a ≠ none := by
  intro hx
  have hsome := (find?_instantiation_isSome h).2 ha
  rw [hx] at hsome
  cases hsome

theorem mem_of_find?_instantiation {a : String} {x : Ty}
    (h : (instantiation formals args).find? a = some x) : a ∈ formalNames formals ∧ x ∈ args :=
  List.of_mem_zip (Env.mem_of_find? h)

theorem find?_instantiation_map (f : Ty → Ty) (formals : List Slot) (args : List Ty) (a : String) :
    (instantiation formals (args.map f)).find? a
      = ((instantiation formals args).find? a).map f := by
  have hmap : instantiation formals (args.map f)
      = (instantiation formals args).map fun b => (b.1, f b.2) := by
    rw [instantiation, instantiation, List.zip_map_right]
    rfl
  rw [hmap]
  generalize instantiation formals args = env
  induction env with
  | nil => rfl
  | cons b rest ih =>
    obtain ⟨k, x⟩ := b
    rw [List.map_cons, Env.find?, Env.find?, ih]
    cases Env.find? rest a with
    | some y => rfl
    | none =>
      by_cases hk : k = a <;> simp [hk]

/-- Flat arguments that fit give a substitution that fits. -/
theorem fit_instantiation {scope stems : List String} (h : formals.length = args.length)
    (hflat : ∀ a ∈ args, a.flat V.strict = true) (hfit : ∀ a ∈ args, a.Fit V scope stems) :
    Env.Fit V (instantiation formals args) (formalNames formals) scope stems where
  entries a x hx := by
    have hmem := (mem_of_find?_instantiation hx).2
    exact ⟨hflat x hmem, hfit x hmem⟩
  rest _ ha hx := absurd hx (find?_instantiation_ne_none h ha)

/-- Scoped arguments give a substitution that is scoped. -/
theorem scoped_instantiation {scope : List String} (h : formals.length = args.length)
    (hargs : ∀ a ∈ args, a.Scoped V false scope []) :
    Env.Scoped V false (instantiation formals args) (formalNames formals) scope where
  entries _ x hx _ _ hw := (hargs x (mem_of_find?_instantiation hx).2).mono hw
    fun hf => absurd hf (by simp)
  rest _ ha hx := absurd hx (find?_instantiation_ne_none h ha)

/-- Open arguments give a substitution whose entries are open. -/
theorem open_instantiation {ρ : String → Ty} {scope : List String} (h : formals.length = args.length)
    (hargs : ∀ a ∈ args, a.Open V ρ scope) :
    Env.Open V ρ (instantiation formals args) (formalNames formals) scope where
  entries _ x hx := hargs x (mem_of_find?_instantiation hx).2
  rest _ ha hx := absurd hx (find?_instantiation_ne_none h ha)

/-- Closing what arguments give for a formal is what the closed arguments give. -/
theorem closing_instantiation (h : formals.length = args.length) (ρ : String → Ty) {a : String}
    (ha : a ∈ formalNames formals) :
    (instantiation formals args).closing ρ a
      = (instantiation formals (args.map (Ty.close ρ))).lookup a := by
  obtain ⟨x, hx⟩ := Option.isSome_iff_exists.1 ((find?_instantiation_isSome h).2 ha)
  rw [Env.closing, Env.lookup, find?_instantiation_map, hx]
  rfl

theorem exists_lookup_instantiation (h : formals.length = args.length) {a : String}
    (ha : a ∈ formalNames formals) : ∃ x ∈ args, (instantiation formals args).lookup a = x := by
  obtain ⟨x, hx⟩ := Option.isSome_iff_exists.1 ((find?_instantiation_isSome h).2 ha)
  exact ⟨x, (mem_of_find?_instantiation hx).2, by rw [Env.lookup, hx]; rfl⟩

/-- Sealed arguments seal the formals. -/
theorem sealing_of_args (h : formals.length = args.length) (hargs : ∀ a ∈ args, a.Sealed V) :
    Sealing V (formalNames formals) (instantiation formals args).lookup where
  text a := by
    rw [Env.lookup]
    cases hx : (instantiation formals args).find? a with
    | none => exact Ty.text_param a
    | some x => exact (hargs x (mem_of_find?_instantiation hx).2).text
  sealed a ha := by
    obtain ⟨x, hx, he⟩ := exists_lookup_instantiation h ha
    exact he ▸ hargs x hx

/-- Closed arguments close the formals. -/
theorem closing_of_args (h : formals.length = args.length)
    (hargs : ∀ a ∈ args, a.Closed V ∧ a.flat V.strict = true) :
    Closing V (formalNames formals) (instantiation formals args).lookup where
  text := (sealing_of_args h fun a ha => (hargs a ha).1.sealed).text
  closed a ha := by
    obtain ⟨x, hx, he⟩ := exists_lookup_instantiation h ha
    exact he ▸ (hargs x hx).1
  flat a ha := by
    obtain ⟨x, hx, he⟩ := exists_lookup_instantiation h ha
    exact he ▸ (hargs x hx).2

end Instantiation

namespace Ty.Spelled

variable {V : Vocabulary} {formals : List Slot} {args : List Ty} {t : Ty} {scope : List String}
  {ρ : String → Ty}

/-- A spelled type at scoped arguments is scoped. -/
theorem scoped_subst (h : t.Spelled V (formalNames formals)) (hl : formals.length = args.length)
    (hargs : ∀ a ∈ args, a.Scoped V false scope []) :
    (t.subst (instantiation formals args)).Scoped V false scope [] :=
  h.inner.loose.subst (scoped_instantiation hl hargs) fun _ _ ha => ha

/-- A spelled type at open arguments is open. -/
theorem open_subst (h : t.Spelled V (formalNames formals)) (hp : FormalsProper formals)
    (hl : formals.length = args.length) (hρ : Sealing V scope ρ)
    (hargs : ∀ a ∈ args, a.Open V ρ scope) : (t.subst (instantiation formals args)).Open V ρ scope :=
  h.inner.open_subst (hp.scope _)
    (fun _ _ hx => .inl (hp.unprimed _ (mem_of_find?_instantiation hx).1))
    (open_instantiation hl hargs) hρ

/-- A spelled type at sealed arguments is the type closed by them. -/
theorem subst_eq_close (h : t.Spelled V (formalNames formals)) (hargs : ∀ a ∈ args, a.Sealed V) :
    t.subst (instantiation formals args) = t.close (instantiation formals args).lookup := by
  refine h.inner.subst_eq_close h.text fun a x hx q hq => ?_
  rw [(hargs x (mem_of_find?_instantiation hx).2).freeParams_eq_nil] at hq
  exact absurd hq List.not_mem_nil

/-- Instantiating a spelled type and closing the result is instantiating it at closed arguments. -/
theorem close_subst (h : t.Spelled V (formalNames formals)) (hp : FormalsProper formals)
    (hl : formals.length = args.length) (hρ : Sealing V scope ρ)
    (hargs : ∀ a ∈ args, a.Scoped V false scope []) :
    (t.subst (instantiation formals args)).close ρ
      = t.subst (instantiation formals (args.map (Ty.close ρ))) := by
  have hsealed : ∀ a ∈ args.map (Ty.close ρ), a.Sealed V :=
    List.forall_mem_map.2 fun a ha => (hargs a ha).sealed hρ
  rw [h.subst_eq_close hsealed, h.inner.close_subst (hp.scope _) ?_ ρ]
  · exact Ty.close_congr fun a ha => closing_instantiation hl ρ (h.inner.mem_scope ha)
  · exact fun a x hx => .inl (hp.unprimed a (mem_of_find?_instantiation hx).1)

end Ty.Spelled

namespace Signature.Spelled

variable {V : Vocabulary} {formals : List Slot} {args : List Ty} {s : Signature}
  {scope : List String} {ρ : String → Ty}

theorem alone (h : s.Spelled V (FeatherGo.formalNames formals)) :
    s.alone.Spelled V (FeatherGo.formalNames formals) := ⟨scoped_alone.2 h.inner, h.text⟩

theorem open_subst (h : s.Spelled V (FeatherGo.formalNames formals)) (hp : FormalsProper formals)
    (hl : formals.length = args.length) (hρ : Sealing V scope ρ)
    (hargs : ∀ a ∈ args, a.Open V ρ scope) : (s.subst (instantiation formals args)).Open V ρ scope :=
  h.inner.open_subst (hp.scope _)
    (fun _ _ hx => .inl (hp.unprimed _ (mem_of_find?_instantiation hx).1))
    (open_instantiation hl hargs) hρ

theorem subst_eq_close (h : s.Spelled V (FeatherGo.formalNames formals))
    (hargs : ∀ a ∈ args, a.Sealed V) :
    s.subst (instantiation formals args) = s.close (instantiation formals args).lookup := by
  rw [← alone_inj, ← subst_alone, ← close_alone]
  exact h.alone.subst_eq_close hargs

/-- Instantiating a spelled signature and closing the result is instantiating it at closed
arguments. -/
theorem close_subst (h : s.Spelled V (FeatherGo.formalNames formals)) (hp : FormalsProper formals)
    (hl : formals.length = args.length) (hρ : Sealing V scope ρ)
    (hargs : ∀ a ∈ args, a.Scoped V false scope []) :
    (s.subst (instantiation formals args)).close ρ
      = s.subst (instantiation formals (args.map (Ty.close ρ))) := by
  rw [← alone_inj, ← close_alone, ← subst_alone, ← subst_alone]
  exact h.alone.close_subst hp hl hρ hargs

end Signature.Spelled

namespace Ty.Written

variable {V : Vocabulary} {formals : List Slot} {args : List Ty} {t : Ty}

/-- A written type at flat arguments that fit in a scope fits there. -/
theorem fit_subst (h : t.Written V (formalNames formals)) (hl : formals.length = args.length)
    {scope : List String} (hflat : ∀ a ∈ args, a.flat V.strict = true)
    (hfit : ∀ a ∈ args, a.Fit V scope []) :
    (t.subst (instantiation formals args)).Fit V scope [] :=
  h.fit.subst (fit_instantiation hl hflat hfit) fun _ ha => absurd ha List.not_mem_nil

/-- A written type at closed arguments is the type closed by them. -/
theorem subst_eq_close (h : t.Written V (formalNames formals))
    (hargs : ∀ a ∈ args, a.Closed V ∧ a.flat V.strict = true) :
    t.subst (instantiation formals args) = t.close (instantiation formals args).lookup :=
  h.spelled.subst_eq_close fun a ha => (hargs a ha).1.sealed

/-- A written type at closed arguments is closed. -/
theorem closed_subst (h : t.Written V (formalNames formals)) (hl : formals.length = args.length)
    (hargs : ∀ a ∈ args, a.Closed V ∧ a.flat V.strict = true) :
    (t.subst (instantiation formals args)).Closed V := by
  rw [h.subst_eq_close hargs]
  exact h.fit.closed (closing_of_args hl hargs)

end Ty.Written

namespace Signature.Written

variable {V : Vocabulary} {formals : List Slot} {args : List Ty} {s : Signature}

theorem alone (h : s.Written V (FeatherGo.formalNames formals)) :
    s.alone.Written V (FeatherGo.formalNames formals) := ⟨fit_alone.2 h.fit, h.text⟩

theorem fit_subst (h : s.Written V (FeatherGo.formalNames formals))
    (hl : formals.length = args.length) {scope : List String}
    (hflat : ∀ a ∈ args, a.flat V.strict = true) (hfit : ∀ a ∈ args, a.Fit V scope []) :
    (s.subst (instantiation formals args)).Fit V scope [] := by
  rw [← fit_alone, ← subst_alone]
  exact h.alone.fit_subst hl hflat hfit

theorem subst_eq_close (h : s.Written V (FeatherGo.formalNames formals))
    (hargs : ∀ a ∈ args, a.Closed V ∧ a.flat V.strict = true) :
    s.subst (instantiation formals args) = s.close (instantiation formals args).lookup :=
  h.spelled.subst_eq_close fun a ha => (hargs a ha).1.sealed

theorem closed_subst (h : s.Written V (FeatherGo.formalNames formals))
    (hl : formals.length = args.length)
    (hargs : ∀ a ∈ args, a.Closed V ∧ a.flat V.strict = true) :
    (s.subst (instantiation formals args)).Closed V := by
  rw [h.subst_eq_close hargs]
  exact h.fit.closed (closing_of_args hl hargs)

end Signature.Written

/-! ## Tables -/

/-- A type declaration whose source is spelled under its formals. -/
structure TypeDecl.Lawful (V : Vocabulary) (td : TypeDecl) : Prop where
  formals : FormalsProper td.formals
  source : td.source.Spelled V (formalNames td.formals)
  isSource : td.source.isSource = true

/-- A method whose header is spelled under the formals of its receiver, and whose formals have bounds
that may bound. -/
structure MethodDecl.Lawful (T : Table) (V : Vocabulary) (md : MethodDecl) : Prop where
  recv : V.heads md.recvType md.recvFormals.length
  concrete : ¬T.NamesInterface md.recvType
  formals : FormalsProper md.recvFormals
  bounds : ∀ f ∈ md.recvFormals, f.ty.Spelled V (formalNames md.recvFormals)
  sig : md.sig.Spelled V (formalNames md.recvFormals)
  boundTypes : ∀ f ∈ md.recvFormals ++ md.sig.formals, T.BoundType f.ty
  unique : T.method? md.recvType md.sig.name = some md

/-- What the checks of declarations establish, whatever type arguments hold. -/
structure Table.Lawful (T : Table) (strict : Bool) (rank : String → Nat) : Prop where
  ranking : T.Ranking rank
  types : ∀ c td, T.type? c = some td → td.Lawful (T.vocabulary strict)
  methods : ∀ md ∈ T.methodDecls, md.Lawful T (T.vocabulary strict)

/-- A type declaration whose source is written under its formals. -/
structure TypeDecl.Proper (V : Vocabulary) (td : TypeDecl) : Prop where
  formals : FormalsProper td.formals
  source : td.source.Written V (formalNames td.formals)
  isSource : td.source.isSource = true

/-- A method whose header is written under the formals of its receiver, and whose formals have
bounds that may bound. -/
structure MethodDecl.Proper (T : Table) (V : Vocabulary) (md : MethodDecl) : Prop where
  recv : V.heads md.recvType md.recvFormals.length
  concrete : ¬T.NamesInterface md.recvType
  formals : FormalsProper md.recvFormals
  bounds : ∀ f ∈ md.recvFormals, f.ty.Written V (formalNames md.recvFormals)
  sig : md.sig.Written V (formalNames md.recvFormals)
  boundTypes : ∀ f ∈ md.recvFormals ++ md.sig.formals, T.BoundType f.ty
  unique : T.method? md.recvType md.sig.name = some md

/-- What the checks of declarations establish where type arguments are flat. -/
structure Table.WellFormed (T : Table) (strict : Bool) (rank : String → Nat) : Prop where
  ranking : T.Ranking rank
  types : ∀ c td, T.type? c = some td → td.Proper (T.vocabulary strict)
  methods : ∀ md ∈ T.methodDecls, md.Proper T (T.vocabulary strict)

theorem TypeDecl.Proper.lawful {V : Vocabulary} {td : TypeDecl} (h : td.Proper V) : td.Lawful V :=
  ⟨h.formals, h.source.spelled, h.isSource⟩

theorem MethodDecl.Proper.lawful {T : Table} {V : Vocabulary} {md : MethodDecl} (h : md.Proper T V) :
    md.Lawful T V :=
  ⟨h.recv, h.concrete, h.formals, fun f hf => (h.bounds f hf).spelled, h.sig.spelled, h.boundTypes,
    h.unique⟩

theorem Table.WellFormed.lawful {T : Table} {strict : Bool} {rank : String → Nat}
    (h : T.WellFormed strict rank) : T.Lawful strict rank :=
  ⟨h.ranking, fun c td htd => (h.types c td htd).lawful, fun md hmd => (h.methods md hmd).lawful⟩

end FeatherGo
