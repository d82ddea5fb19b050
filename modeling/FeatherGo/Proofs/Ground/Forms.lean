import FeatherGo.Proofs.Discovery.Callable
import FeatherGo.Proofs.Ground.Exact
import FeatherGo.Proofs.Typing.Precise

/-!
# Ground forms of the types of values

The type of a value has a ground form: a primitive type itself, an instance of a declared type the type
that is declared for it (`Grounding.Form`). Ground forms are well formed, implement each other where the
types do, and have the ground forms of what the types have: of a field for a field, and the image of a
method at type arguments for every call that was discovered.
-/

namespace FeatherGo

/-- A declared type that takes no arguments is well formed. -/
theorem Table.okType_of_formals {T : Table} {c : String} {td : TypeDecl} (htd : T.type? c = some td)
    (hformals : td.formals = []) (n : Nat) (Δ : Bounds) : T.okType n Δ (.named c []) = .ok () := by
  refine Answer.bind_eq_ok.2 ⟨td, Answer.ofExcept_eq_ok.2 (Table.applied_eq_ok.2 ⟨htd, ?_⟩), ?_⟩
  · rw [hformals]
    rfl
  · rw [hformals]
    rfl

namespace Ground

namespace Grounding

/-- The ground form of the type of a value. -/
inductive Form (G : Grounding) : Ty → Ty → Prop
  | prim (p : Prim) : Form G (.prim p) (.prim p)
  | named {c : String} {args : List Ty} (mem : .named c args ∈ G.instances.types) :
      Form G (.named c args) (.named (typeName c args) [])

/-- Slots have the names of others and the ground forms of their types. -/
def Forms (G : Grounding) : List Slot → List Slot → Prop :=
  List.Forall₂ fun f f' => f'.name = f.name ∧ G.Form f.ty f'.ty

variable {G : Grounding} {T' : Table} {N : String → Prop} {rank : String → Nat} {t t' u u' : Ty}

namespace Form

theorem ne_var (h : G.Form t t') (n : Nat) : t ≠ .var n ∧ t' ≠ .var n := by
  cases h <;> simp

theorem ne_param (h : G.Form t t') (p : String) : t ≠ .param p ∧ t' ≠ .param p := by
  cases h <;> simp

/-- The ground form of a type is its image. -/
theorem imageTy_eq [Digest] (hG : G.Regular N) (h : G.Form t t') : imageTy G.top t = .ok t' := by
  cases h with
  | prim p => rfl
  | named mem => rw [imageTy, if_pos (hG.types _ mem)]

theorem unique [Digest] (hG : G.Regular N) (h : G.Form t t') (hu : imageTy G.top t = .ok u') : t' = u' :=
  Except.ok.inj ((h.imageTy_eq hG).symm.trans hu)

/-- The ground form of an untyped primitive type alone is untyped. -/
theorem typed (h : G.Form t t') (ht : ∀ k, t ≠ .prim ⟨k, true⟩) (k : Kind) : t' ≠ .prim ⟨k, true⟩ := by
  cases h with
  | prim p => exact ht k
  | named => simp

end Form

namespace Forms

theorem map_name {fs fs' : List Slot} (h : G.Forms fs fs') : fs'.map (·.name) = fs.map (·.name) := by
  induction h with
  | nil => rfl
  | cons hf _ ih => rw [List.map_cons, List.map_cons, hf.1, ih]

theorem find? {fs fs' : List Slot} (h : G.Forms fs fs') {x : String} {f : Slot}
    (hf : fs.find? (fun f => f.name = x) = some f) :
    ∃ f', fs'.find? (fun f => f.name = x) = some f' ∧ G.Form f.ty f'.ty := by
  induction h with
  | nil => cases hf
  | @cons g g' fs fs' hg _ ih =>
    rw [List.find?_cons] at hf ⊢
    rw [hg.1]
    by_cases hx : g.name = x
    · rw [decide_eq_true hx] at hf ⊢
      obtain rfl := Option.some.inj hf
      exact ⟨g', rfl, hg.2⟩
    · rw [decide_eq_false hx] at hf ⊢
      exact ih hf

end Forms

variable [Digest]

/-- What the types of values in a program and its ground form rest on: the instances are regular and
closed, the table holds their ground declarations, and types and calls are those of a program whose values
have simple types. -/
structure Typable (G : Grounding) (T' : Table) (N : String → Prop) (rank : String → Nat) : Prop where
  regular : G.Regular N
  closed : (Closure.ground G.table G.fuel).Closed G.instances
  declared : G.Declared T'
  simple : G.table.Simple rank
  values : ∀ t ∈ G.instances.types, G.table.ValueType t
  offered : ∀ m ∈ G.instances.meths,
    m.Over G.table.ValueType (fun t => t.flat true = true) ∧ G.table.Offered m

namespace Typable

variable (h : G.Typable T' N rank)
include h

/-- A type among the instances has a ground form. -/
theorem exists_form (ht : t ∈ G.instances.types) : ∃ t', G.Form t t' := by
  obtain ⟨hclosed, hsimple⟩ := h.values t ht
  cases t with
  | prim p => exact ⟨_, .prim p⟩
  | named c args => exact ⟨_, .named ht⟩
  | param p => exact absurd rfl (hclosed.ne_param p)
  | _ => cases hsimple

/-- The image of a type among the instances is its ground form. -/
theorem form_of_imageTy (ht : t ∈ G.instances.types) (ht' : imageTy G.top t = .ok t') : G.Form t t' := by
  obtain ⟨u, hu⟩ := h.exists_form ht
  exact hu.unique h.regular ht' ▸ hu

/-- Ground forms are well formed. -/
theorem okType_form (hform : G.Form t t') (n : Nat) (Δ : Bounds) : T'.okType n Δ t' = .ok () := by
  cases hform with
  | prim p => rfl
  | @named c args mem =>
    obtain ⟨td, -, htd⟩ := h.declared.types c args mem
    exact Table.okType_of_formals htd (h.declared.formals _ td htd) n Δ

/-- A ground form is an interface just if the type is one. -/
theorem isInterface_form (hform : G.Form t t') :
    ∃ b, G.table.isInterface t = .ok b ∧ T'.isInterface t' = .ok b := by
  cases hform with
  | prim p => exact ⟨false, rfl, rfl⟩
  | named mem => exact h.declared.isInterface h.regular.saturated mem

/-- The ground form of an interface is an interface. -/
theorem isInterface_of_interfaceType (hform : G.Form t t') (hi : G.table.InterfaceType t) :
    T'.isInterface t' = .ok true := by
  obtain ⟨b, hb, hb'⟩ := h.isInterface_form hform
  cases hform with
  | prim p => exact hi.elim
  | named mem => rwa [(h.simple.wellFormed.lawful.hasSources.namesInterface_iff hb).2 hi] at hb'

/-- **Ground forms implement each other where the types do.** -/
theorem implements_form (ht : G.Form t t') (hu : G.Form u u') (himp : G.table.Implements t u) :
    T'.Implements t' u' := by
  obtain ⟨b, hb, hb'⟩ := h.isInterface_form hu
  cases b with
  | false =>
    rw [Table.Implements, Table.implementsBy_concrete (fun p => (hu.ne_param p).1) hb, Answer.ok.injEq,
      decide_eq_true_iff] at himp
    subst himp
    rw [Table.Implements, Table.implementsBy_concrete (fun p => (hu.ne_param p).2) hb',
      ht.unique h.regular (hu.imageTy_eq h.regular), decide_eq_true rfl]
  | true =>
    obtain ⟨W, hW, hor⟩ := Table.of_implementsBy_interface (fun n => (ht.ne_var n).1) hb himp
    cases hu with
    | prim p => cases hb
    | @named d ds mem =>
      obtain ⟨W, W', hsets⟩ := h.regular.exists_sets h.declared mem
      obtain rfl := Answer.ok.inj (hW.symm.trans hsets.generic)
      refine Table.implementsBy_of_covers (fun n => (ht.ne_var n).2) hb' hsets.ground ?_
      have hnil (hnil : W = []) : W' = [] := by
        refine List.eq_nil_iff_forall_not_mem.2 fun x hx => ?_
        cases (hsets.mem x).1 hx with
        | placeholder hs => simp [hnil] at hs
        | image hs => simp [hnil] at hs
      rcases hor with hW | ⟨S, hS, hcovers⟩
      · exact .inl (hnil hW)
      · cases ht with
        | prim p =>
          rw [Table.Sub.allMethods_prim] at hS
          obtain rfl := Answer.ok.inj hS
          refine .inl (hnil (List.eq_nil_iff_forall_not_mem.2 fun s hs => ?_))
          obtain ⟨o, ho, -⟩ := hcovers s hs
          cases ho
        | named mem' =>
          obtain ⟨S', S'', hsets'⟩ := h.regular.exists_sets h.declared mem'
          obtain rfl := Answer.ok.inj (hS.symm.trans hsets'.generic)
          exact .inr ⟨S'', hsets'.ground, Sets.covers h.regular mem' mem hsets' hsets hb hcovers⟩

/-! ## What flows -/

/-- The ground form of what flows into a type flows into another one. -/
def Place (G : Grounding) (T' : Table) (d d' : Ty) : Prop :=
  ∀ t t', G.Form t t' → G.table.Flows t d → T'.Flows t' d'

omit [Digest] h in
/-- Every value that has a type flows into the interface that asks for nothing. -/
theorem place_anything : Place G T' .anything .anything := by
  intro t t' hform hflows
  cases hflows with
  | typed typed =>
    refine .typed (hform.typed typed) ?_
    exact Table.implementsBy_of_covers (fun n => (hform.ne_var n).2) rfl
      (Table.allMethods_interface _ _) (.inl rfl)

theorem place_form (hu : G.Form u u') : Place G T' u u' := by
  intro t t' hform hflows
  cases hflows with
  | loose untyped =>
    cases hu with
    | prim q =>
      cases hform with
      | prim p => exact .loose untyped
  | typed typed within => exact .typed (hform.typed typed) (h.implements_form hform hu within)

/-! ## Fields and methods -/

theorem forms_of_imageSlots {fs fs' : List Slot} (himages : imageSlots G.top fs = .ok fs')
    (hfs : ∀ f ∈ fs, f.ty ∈ G.instances.types) : G.Forms fs fs' := by
  obtain ⟨hnames, hall⟩ := imageSlots_eq_ok himages
  clear himages
  induction hall with
  | nil => exact .nil
  | cons himage _ ih =>
    rw [List.forall_mem_cons] at hfs
    obtain ⟨hname, hnames⟩ := List.cons.inj hnames
    exact .cons ⟨hname, h.form_of_imageTy hfs.1 himage⟩ (ih hfs.2 hnames)

/-- The fields of a ground form are those of the type, at the ground forms of their types. -/
theorem fields_form {fields : List Slot} (hform : G.Form t t')
    (hfields : G.table.Resolves t (.struct fields)) :
    ∃ fields', T'.structFields t' = .ok (some fields') ∧ G.Forms fields fields' := by
  cases hform with
  | prim p => cases hfields
  | @named c args mem =>
    have hlawful := h.simple.wellFormed.lawful
    have hres := (hlawful.resolve_iff (h.values _ mem).1.sealed.inner).2 hfields
    have hstruct : G.table.structFields (.named c args) = .ok (some fields) := by
      rw [Table.structFields, hres]
      rfl
    obtain ⟨v, v', hv, -, himage, hv', -⟩ := h.declared.resolve_other h.regular.saturated mem
      (by rw [Table.isInterface, hres]; rfl)
    obtain rfl := Except.ok.inj (hres.symm.trans hv)
    obtain ⟨fields', himages, heq⟩ := except_bind_eq_ok.1 himage
    obtain rfl := Except.ok.inj heq
    refine ⟨fields', by rw [Table.structFields, hv']; rfl, ?_⟩
    exact h.forms_of_imageSlots himages fun f hf =>
      h.regular.saturated.fields _ fields mem hstruct f hf

/-- The image of a signature that an instance offers takes and gives the ground forms of the types that the
signature has at the type arguments. -/
theorem forms_of_isImage {c : String} {args : List Ty} {S : MethodSet} {s x : Signature} {m : MethodInstance}
    (hS : G.table.allMethods [] (.named c args) = .ok S) (hs : s ∈ S) (hx : G.IsImage (.named c args) s m x) :
    x.formals = [] ∧ G.Forms (s.params.map (Slot.map (Ty.subst (instantiation s.formals m.targs)))) x.params
      ∧ G.Form (s.result.subst (instantiation s.formals m.targs)) x.result := by
  obtain ⟨hmem, hrecv, hmeth, harity⟩ := mem_instancesOf.1 hx.mem
  obtain ⟨-, hformals, hparams, hresult⟩ := of_imageSignature hx.image
  obtain ⟨n, hn⟩ := (Finitary.find _).eventually hS
  have hfind := MethodSet.find?_of_mem (Table.sorted_allMethods hS) hs
  rw [← hmeth] at hfind
  obtain ⟨htypes, htype⟩ :=
    h.regular.saturated.signature m n S s hmem (hrecv ▸ hn n le_rfl) hfind harity.symm
  refine ⟨hformals, h.forms_of_imageSlots hparams fun f hf => ?_, h.form_of_imageTy htype hresult⟩
  obtain ⟨p, hp, rfl⟩ := List.mem_map.1 hf
  exact htypes p hp

/-- A discovered call is that of a ground method: without type arguments, at the ground forms of the types
that the signature has at those of the call. -/
theorem call_form {S : MethodSet} {sig : Signature} {meth : String} {targs : List Ty} (hform : G.Form t t')
    (hS : G.table.allMethods [] t = .ok S) (hsig : S.find? meth = some sig)
    (harity : sig.formals.length = targs.length) (hmem : ⟨t, meth, targs⟩ ∈ G.instances.meths) :
    ∃ S' x, T'.allMethods [] t' = .ok S' ∧ S'.find? (methodName meth targs) = some x ∧ x.formals = []
      ∧ G.Forms (sig.params.map (Slot.map (Ty.subst (instantiation sig.formals targs)))) x.params
      ∧ G.Form (sig.result.subst (instantiation sig.formals targs)) x.result := by
  cases hform with
  | prim p =>
    rw [Table.Sub.allMethods_prim] at hS
    obtain rfl := Answer.ok.inj hS
    cases hsig
  | named mem =>
    obtain ⟨S, S', hsets⟩ := h.regular.exists_sets h.declared mem
    obtain rfl := Answer.ok.inj (hS.symm.trans hsets.generic)
    obtain ⟨hs, rfl⟩ := MethodSet.mem_of_find? hsig
    obtain ⟨x, hx⟩ := hsets.images sig hs _ (mem_instancesOf.2 ⟨hmem, rfl, rfl, harity.symm⟩)
    have hfind := MethodSet.find?_of_mem (Table.sorted_allMethods hsets.ground)
      ((hsets.mem x).2 (.image hs hx))
    exact ⟨S', x, hsets.ground, hx.name_eq ▸ hfind, h.forms_of_isImage hS hs hx⟩

end Typable

end Grounding

end Ground

end FeatherGo
