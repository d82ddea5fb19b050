import FeatherGo.Proofs.Expressions.Induction
import Mathlib.Data.List.Basic

/-!
# What expressions write

The types that an expression names and those that its calls give as type arguments make up the types
that it writes (`Expr.mem_types`). Substitution of types changes them one by one and leaves the texts
that are formatted alone.
-/

namespace FeatherGo

namespace Expr

mutual

/-- The types of the struct literals in an expression and the targets of its assertions. -/
def namedTypes : Expr → List Ty
  | .var _ | .lit _ => []
  | .structLit c targs elems => .named c targs :: namedTypesAll elems
  | .select e _ => namedTypes e
  | .call recv _ _ args => namedTypes recv ++ namedTypesAll args
  | .assert e ty => ty :: namedTypes e
  | .sprintf _ args => namedTypesAll args
  | .binary _ lhs rhs => namedTypes lhs ++ namedTypes rhs
  | .convert _ e => namedTypes e

/-- The types of the struct literals in some expressions and the targets of their assertions. -/
def namedTypesAll : List Expr → List Ty
  | [] => []
  | e :: es => namedTypes e ++ namedTypesAll es

end

mutual

/-- The types that calls in an expression give as type arguments. -/
def callArguments : Expr → List Ty
  | .var _ | .lit _ => []
  | .structLit _ _ es => callArgumentsAll es
  | .select e _ => e.callArguments
  | .call e _ ts es => e.callArguments ++ ts ++ callArgumentsAll es
  | .assert e _ => e.callArguments
  | .sprintf _ es => callArgumentsAll es
  | .binary _ l r => l.callArguments ++ r.callArguments
  | .convert _ e => e.callArguments

/-- The types that calls in some expressions give as type arguments. -/
def callArgumentsAll : List Expr → List Ty
  | [] => []
  | e :: es => e.callArguments ++ callArgumentsAll es

end

mutual

/-- The texts that an expression formats. -/
def formats : Expr → List String
  | .var _ | .lit _ => []
  | .structLit _ _ es => formatsAll es
  | .select e _ => e.formats
  | .call e _ _ es => e.formats ++ formatsAll es
  | .assert e _ => e.formats
  | .sprintf s es => s :: formatsAll es
  | .binary _ l r => l.formats ++ r.formats
  | .convert _ e => e.formats

/-- The texts that some expressions format. -/
def formatsAll : List Expr → List String
  | [] => []
  | e :: es => e.formats ++ formatsAll es

end

theorem typesAll_eq (es : List Expr) : typesAll es = es.flatMap types := by
  induction es with
  | nil => rfl
  | cons e es ih => rw [typesAll, ih, List.flatMap_cons]

theorem namedTypesAll_eq (es : List Expr) : namedTypesAll es = es.flatMap namedTypes := by
  induction es with
  | nil => rfl
  | cons e es ih => rw [namedTypesAll, ih, List.flatMap_cons]

theorem callArgumentsAll_eq (es : List Expr) : callArgumentsAll es = es.flatMap callArguments := by
  induction es with
  | nil => rfl
  | cons e es ih => rw [callArgumentsAll, ih, List.flatMap_cons]

theorem formatsAll_eq (es : List Expr) : formatsAll es = es.flatMap formats := by
  induction es with
  | nil => rfl
  | cons e es ih => rw [formatsAll, ih, List.flatMap_cons]

theorem mem_typesAll {es : List Expr} {t : Ty} : t ∈ typesAll es ↔ ∃ e ∈ es, t ∈ e.types := by
  rw [typesAll_eq, List.mem_flatMap]

theorem mem_namedTypesAll {es : List Expr} {t : Ty} :
    t ∈ namedTypesAll es ↔ ∃ e ∈ es, t ∈ e.namedTypes := by
  rw [namedTypesAll_eq, List.mem_flatMap]

theorem mem_callArgumentsAll {es : List Expr} {t : Ty} :
    t ∈ callArgumentsAll es ↔ ∃ e ∈ es, t ∈ e.callArguments := by
  rw [callArgumentsAll_eq, List.mem_flatMap]

theorem formatsAll_eq_nil {es : List Expr} : formatsAll es = [] ↔ ∀ e ∈ es, e.formats = [] := by
  rw [formatsAll_eq, List.flatMap_eq_nil_iff]

/-- The types that an expression writes at its head. -/
def headTypes : Expr → List Ty
  | .structLit c ts _ => [.named c ts]
  | .call _ _ ts _ => ts
  | .assert _ t => [t]
  | _ => []

/-- What an expression writes, it writes at the head or in a part. -/
theorem mem_types_iff {e : Expr} {t : Ty} :
    t ∈ e.types ↔ t ∈ e.headTypes ∨ ∃ a ∈ e.children, t ∈ a.types := by
  cases e <;> simp [types, headTypes, children, mem_typesAll] <;> tauto

/-- An expression writes the types that it names and those that its calls give. -/
theorem mem_types {e : Expr} {t : Ty} :
    t ∈ e.types ↔ t ∈ e.namedTypes ∨ t ∈ e.callArguments := by
  have hall {es : List Expr}
      (ih : ∀ e ∈ es, t ∈ e.types ↔ t ∈ e.namedTypes ∨ t ∈ e.callArguments) :
      t ∈ typesAll es ↔ t ∈ namedTypesAll es ∨ t ∈ callArgumentsAll es := by
    rw [mem_typesAll, mem_namedTypesAll, mem_callArgumentsAll, ← exists_or]
    refine exists_congr fun e => ?_
    rw [← and_or_left, and_congr_right_iff]
    exact ih e
  induction e using Expr.induction with
  | var x => simp [types, namedTypes, callArguments]
  | structLit c ts es ih =>
    rw [types, namedTypes, callArguments, List.mem_cons, List.mem_cons, hall ih, or_assoc]
  | select e f ih => exact ih
  | call e m ts es ih ihs =>
    simp only [types, namedTypes, callArguments, List.mem_append, ih, hall ihs]
    grind
  | assert e u ih =>
    simp only [types, namedTypes, callArguments, List.mem_append, List.mem_cons, List.not_mem_nil,
      or_false, ih]
    grind
  | sprintf s es ih => exact hall ih
  | lit l => simp [types, namedTypes, callArguments]
  | binary op l r ihl ihr =>
    simp only [types, namedTypes, callArguments, List.mem_append, ihl, ihr]
    grind
  | convert k e ih => exact ih

/-- A property of the types that an expression writes, and one of those that its calls give. -/
structure Over (P Q : Ty → Prop) (e : Expr) : Prop where
  types : ∀ t ∈ e.types, P t
  calls : ∀ t ∈ e.callArguments, Q t

namespace Over

variable {P Q : Ty → Prop}

/-- What holds of an expression holds of its parts. -/
theorem of_part {e e' : Expr} (h : e.Over P Q) (ht : ∀ t ∈ e'.types, t ∈ e.types)
    (hc : ∀ t ∈ e'.callArguments, t ∈ e.callArguments) : e'.Over P Q :=
  ⟨fun t hm => h.types t (ht t hm), fun t hm => h.calls t (hc t hm)⟩

theorem structLit {c : String} {ts : List Ty} {es : List Expr}
    (h : (Expr.structLit c ts es).Over P Q) : P (.named c ts) ∧ ∀ e ∈ es, e.Over P Q := by
  refine ⟨h.types _ List.mem_cons_self, fun e he => h.of_part (fun t ht => ?_) fun t ht => ?_⟩
  · exact List.mem_cons_of_mem _ (mem_typesAll.2 ⟨e, he, ht⟩)
  · exact mem_callArgumentsAll.2 ⟨e, he, ht⟩

theorem select {e : Expr} {f : String} (h : (Expr.select e f).Over P Q) : e.Over P Q :=
  h.of_part (fun _ ht => ht) fun _ ht => ht

theorem call {e : Expr} {m : String} {ts : List Ty} {es : List Expr}
    (h : (Expr.call e m ts es).Over P Q) :
    e.Over P Q ∧ (∀ t ∈ ts, P t ∧ Q t) ∧ ∀ a ∈ es, a.Over P Q := by
  refine ⟨h.of_part (fun t ht => ?_) fun t ht => ?_, fun t ht => ⟨h.types t ?_, h.calls t ?_⟩,
    fun a ha => h.of_part (fun t ht => ?_) fun t ht => ?_⟩
  · simp [Expr.types, ht]
  · simp [Expr.callArguments, ht]
  · simp [Expr.types, ht]
  · simp [Expr.callArguments, ht]
  · exact List.mem_append_right _ (mem_typesAll.2 ⟨a, ha, ht⟩)
  · exact List.mem_append_right _ (mem_callArgumentsAll.2 ⟨a, ha, ht⟩)

theorem assert {e : Expr} {t : Ty} (h : (Expr.assert e t).Over P Q) : e.Over P Q ∧ P t :=
  ⟨h.of_part (fun _ ht => List.mem_append_left _ ht) fun _ ht => ht,
    h.types t (List.mem_append_right _ List.mem_cons_self)⟩

theorem sprintf {s : String} {es : List Expr} (h : (Expr.sprintf s es).Over P Q) :
    ∀ e ∈ es, e.Over P Q :=
  fun e he => h.of_part (fun _ ht => mem_typesAll.2 ⟨e, he, ht⟩)
    fun _ ht => mem_callArgumentsAll.2 ⟨e, he, ht⟩

theorem binary {op : Operator} {l r : Expr} (h : (Expr.binary op l r).Over P Q) :
    l.Over P Q ∧ r.Over P Q :=
  ⟨h.of_part (fun _ ht => List.mem_append_left _ ht) fun _ ht => List.mem_append_left _ ht,
    h.of_part (fun _ ht => List.mem_append_right _ ht) fun _ ht => List.mem_append_right _ ht⟩

theorem convert {k : Kind} {e : Expr} (h : (Expr.convert k e).Over P Q) : e.Over P Q :=
  h.of_part (fun _ ht => ht) fun _ ht => ht

end Over

section

variable {P Q : Ty → Prop} {es : List Expr}

/-- What holds of the parts of an expression, and of the types that it writes itself, holds of it. -/
theorem over_all (h : ∀ e ∈ es, e.Over P Q) :
    (∀ t ∈ typesAll es, P t) ∧ ∀ t ∈ callArgumentsAll es, Q t := by
  constructor
  · intro t ht
    obtain ⟨e, he, ht⟩ := mem_typesAll.1 ht
    exact (h e he).types t ht
  · intro t ht
    obtain ⟨e, he, ht⟩ := mem_callArgumentsAll.1 ht
    exact (h e he).calls t ht

theorem over_structLit {c : String} {ts : List Ty} (ht : P (.named c ts))
    (hes : ∀ e ∈ es, e.Over P Q) : (structLit c ts es).Over P Q :=
  ⟨List.forall_mem_cons.2 ⟨ht, (over_all hes).1⟩, (over_all hes).2⟩

theorem over_select {e : Expr} {f : String} (he : e.Over P Q) : (select e f).Over P Q :=
  ⟨he.types, he.calls⟩

theorem over_call {e : Expr} {m : String} {ts : List Ty} (he : e.Over P Q)
    (hts : ∀ t ∈ ts, P t ∧ Q t) (hes : ∀ e ∈ es, e.Over P Q) : (call e m ts es).Over P Q := by
  obtain ⟨htypes, hcalls⟩ := over_all hes
  exact ⟨List.forall_mem_append.2 ⟨List.forall_mem_append.2 ⟨he.types, fun t ht => (hts t ht).1⟩, htypes⟩,
    List.forall_mem_append.2 ⟨List.forall_mem_append.2 ⟨he.calls, fun t ht => (hts t ht).2⟩, hcalls⟩⟩

theorem over_assert {e : Expr} {t : Ty} (he : e.Over P Q) (ht : P t) : (assert e t).Over P Q :=
  ⟨List.forall_mem_append.2 ⟨he.types, List.forall_mem_singleton.2 ht⟩, he.calls⟩

theorem over_sprintf {s : String} (hes : ∀ e ∈ es, e.Over P Q) : (sprintf s es).Over P Q :=
  ⟨(over_all hes).1, (over_all hes).2⟩

theorem over_binary {op : Operator} {l r : Expr} (hl : l.Over P Q) (hr : r.Over P Q) :
    (binary op l r).Over P Q :=
  ⟨List.forall_mem_append.2 ⟨hl.types, hr.types⟩, List.forall_mem_append.2 ⟨hl.calls, hr.calls⟩⟩

theorem over_convert {k : Kind} {e : Expr} (he : e.Over P Q) : (convert k e).Over P Q :=
  ⟨he.types, he.calls⟩

end

/-! ## Substitution of types -/

section Subst

variable (η : Env Ty)

theorem namedTypes_substTypes (e : Expr) :
    (e.substTypes η).namedTypes = e.namedTypes.map (Ty.subst η) := by
  have hall {es : List Expr}
      (ih : ∀ e ∈ es, (e.substTypes η).namedTypes = e.namedTypes.map (Ty.subst η)) :
      namedTypesAll (substTypesAll η es) = (namedTypesAll es).map (Ty.subst η) := by
    rw [substTypesAll_eq, namedTypesAll_eq, namedTypesAll_eq, List.flatMap_map, List.map_flatMap]
    exact List.flatMap_congr ih
  induction e using Expr.induction with
  | var x => rfl
  | structLit c ts es ih =>
    rw [substTypes, namedTypes, namedTypes, hall ih, List.map_cons, Ty.subst_named]
  | select e f ih => exact ih
  | call e m ts es ih ihs =>
    rw [substTypes, namedTypes, namedTypes, ih, hall ihs, List.map_append]
  | assert e t ih => rw [substTypes, namedTypes, namedTypes, ih, List.map_cons]
  | sprintf s es ih => exact hall ih
  | lit l => rfl
  | binary op l r ihl ihr =>
    rw [substTypes, namedTypes, namedTypes, ihl, ihr, List.map_append]
  | convert k e ih => exact ih

theorem callArguments_substTypes (e : Expr) :
    (e.substTypes η).callArguments = e.callArguments.map (Ty.subst η) := by
  have hall {es : List Expr}
      (ih : ∀ e ∈ es, (e.substTypes η).callArguments = e.callArguments.map (Ty.subst η)) :
      callArgumentsAll (substTypesAll η es) = (callArgumentsAll es).map (Ty.subst η) := by
    rw [substTypesAll_eq, callArgumentsAll_eq, callArgumentsAll_eq, List.flatMap_map,
      List.map_flatMap]
    exact List.flatMap_congr ih
  induction e using Expr.induction with
  | var x => rfl
  | structLit c ts es ih => exact hall ih
  | select e f ih => exact ih
  | call e m ts es ih ihs =>
    rw [substTypes, callArguments, callArguments, ih, hall ihs, List.map_append, List.map_append]
  | assert e t ih => exact ih
  | sprintf s es ih => exact hall ih
  | lit l => rfl
  | binary op l r ihl ihr =>
    rw [substTypes, callArguments, callArguments, ihl, ihr, List.map_append]
  | convert k e ih => exact ih

theorem formats_substTypes (e : Expr) : (e.substTypes η).formats = e.formats := by
  have hall {es : List Expr} (ih : ∀ e ∈ es, (e.substTypes η).formats = e.formats) :
      formatsAll (substTypesAll η es) = formatsAll es := by
    rw [substTypesAll_eq, formatsAll_eq, formatsAll_eq, List.flatMap_map]
    exact List.flatMap_congr ih
  induction e using Expr.induction with
  | var x => rfl
  | structLit c ts es ih => exact hall ih
  | select e f ih => exact ih
  | call e m ts es ih ihs => rw [substTypes, formats, formats, ih, hall ihs]
  | assert e t ih => exact ih
  | sprintf s es ih => rw [substTypes, formats, formats, hall ih]
  | lit l => rfl
  | binary op l r ihl ihr => rw [substTypes, formats, formats, ihl, ihr]
  | convert k e ih => exact ih

end Subst

end Expr

end FeatherGo
