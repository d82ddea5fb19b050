import FeatherGo.Instance.Basic
import FeatherGo.Proofs.Expressions.Types
import FeatherGo.Proofs.Literals.Results
import FeatherGo.Proofs.Methods.Instances

/-!
# Typing of closed expressions

`Typed` is what evaluation keeps of the types of a program: it holds of expressions without type
parameters, and allows a subtype wherever a value may come to stand. Untyped constants may stand for
primitive values: a declared type may be untyped and takes constants of every kind, and an assertion looks
at the kind of a constant alone.

A `Usage` says which types an expression may name and which calls it may hold; a call is related to
the static type that its receiver had where it was written.
-/

namespace FeatherGo

/-- A value of the first type may stand where the second is expected. Untyped constants may where a
primitive type is. -/
inductive Table.Sub (T : Table) : Ty → Ty → Prop
  | refl (t : Ty) : Sub T t t
  | untyped (k : Kind) (p : Prim) : Sub T (.prim (.constant k)) (.prim p)
  | interface {sub sup : Ty} (interface : T.InterfaceType sup) (ne_var : ∀ n, sub ≠ .var n)
      (covers : T.Covers sub sup) : Sub T sub sup

namespace Table.Sub

variable {T : Table} {strict : Bool} {rank : String → Nat}

/-- A primitive type has no methods. -/
theorem allMethods_prim (Δ : Bounds) (p : Prim) : T.allMethods Δ (.prim p) = .ok [] := by
  rw [allMethods_eq]
  rfl

theorem trans {t u v : Ty} (h : T.Sub t u) (h' : T.Sub u v) : T.Sub t v := by
  cases h' with
  | refl => exact h
  | untyped k p =>
    cases h with
    | refl => exact .untyped k p
    | untyped j => exact .untyped j p
    | interface hi => exact hi.elim
  | interface hi hne hc =>
    cases h with
    | refl => exact .interface hi hne hc
    | untyped =>
      obtain ⟨S, W, hS, hW, hcov⟩ := hc
      rw [allMethods_prim] at hS
      exact .interface hi (by simp) ⟨S, W, (allMethods_prim [] _).trans hS, hW, hcov⟩
    | interface _ hne' hc' => exact .interface hi hne' (hc'.trans hc)

/-- What implements a type may stand for it. -/
theorem of_implements (h : T.WellFormed strict rank) {t u : Ty}
    (ht : t.Closed (T.vocabulary strict)) (hu : u.Closed (T.vocabulary strict))
    (himp : T.Implements t u) : T.Sub t u := by
  rcases (h.lawful.implements_iff ht.sealed hu.sealed).1 himp with rfl | ⟨hi, hne, hc⟩
  · exact .refl _
  · exact .interface hi hne hc

/-- What may stand for a type implements it, but for primitive types. -/
theorem implements (h : T.WellFormed strict rank) {t u : Ty}
    (ht : t.Closed (T.vocabulary strict)) (hu : u.Closed (T.vocabulary strict))
    (hs : T.Sub t u) (hp : ∀ p, t ≠ .prim p) : T.Implements t u := by
  rw [h.lawful.implements_iff ht.sealed hu.sealed]
  cases hs with
  | refl => exact .inl rfl
  | untyped k => exact absurd rfl (hp (.constant k))
  | interface hi hne hc => exact .inr ⟨hi, hne, hc⟩

/-- Only the type itself may stand for a type with fields. -/
theorem eq_of_struct (h : T.WellFormed strict rank) {t u : Ty} {fs : List Slot}
    (hs : T.Sub t u) (hu : T.Resolves u (.struct fs)) : t = u := by
  cases hs with
  | refl => rfl
  | untyped => cases hu
  | interface hi =>
    cases u with
    | named c args =>
      obtain ⟨ms, hms⟩ := (h.lawful.resolves_interface_iff hu).2 hi
      cases hms
    | interface ms => cases hu
    | _ => exact hi.elim

/-- What may stand for a type has its methods, up to the names of formals. -/
theorem find?_methods {t u : Ty} (hs : T.Sub t u) {S : MethodSet} (hS : T.allMethods [] u = .ok S)
    {m : String} {sig : Signature} (hm : S.find? m = some sig) :
    ∃ S' o, T.allMethods [] t = .ok S' ∧ S'.find? m = some o ∧ o.alphaEq sig = true := by
  cases hs with
  | refl => exact ⟨S, sig, hS, hm, sig.alphaEq_refl⟩
  | untyped =>
    rw [allMethods_prim] at hS
    obtain rfl := Answer.ok.inj hS
    cases hm
  | interface _ _ hc =>
    obtain ⟨S', W, hS', hW, hcov⟩ := hc
    obtain rfl := Answer.ok.inj (hS.symm.trans hW)
    obtain ⟨hmem, hname⟩ := MethodSet.mem_of_find? hm
    obtain ⟨o, ho, heq⟩ := hcov sig hmem
    exact ⟨S', o, hS', hname ▸ ho, heq⟩

/-- Only primitive types may stand for a primitive type. -/
theorem eq_prim {t : Ty} {p : Prim} (hs : T.Sub t (.prim p)) : ∃ q, t = .prim q := by
  cases hs with
  | refl => exact ⟨p, rfl⟩
  | untyped => exact ⟨_, rfl⟩
  | interface hi => exact hi.elim

/-- Of primitive types the same one may stand for another, or an untyped one. -/
theorem prim_iff {p q : Prim} : T.Sub (.prim p) (.prim q) ↔ p = q ∨ p.untyped = true := by
  constructor
  · intro hs
    cases hs with
    | refl => exact .inl rfl
    | untyped => exact .inr rfl
    | interface hi => exact hi.elim
  · rintro (rfl | hp)
    · exact .refl _
    · obtain ⟨k, _⟩ := p
      obtain rfl := hp
      exact .untyped k q

/-- The common type of operands that agree is kept, up to untyped ones. -/
theorem commonPrim {p p' q q' : Prim} (hp : T.Sub (.prim p') (.prim p)) (hq : T.Sub (.prim q') (.prim q))
    (agree : p.untyped = false → q.untyped = false → p = q) :
    T.Sub (.prim (Operator.commonPrim p' q')) (.prim (Operator.commonPrim p q)) := by
  rw [prim_iff] at hp hq ⊢
  unfold Operator.commonPrim
  grind

/-- Operands that agree go on to. -/
theorem agree {p p' q q' : Prim} (hp : T.Sub (.prim p') (.prim p)) (hq : T.Sub (.prim q') (.prim q))
    (agree : p.untyped = false → q.untyped = false → p = q) (hp' : p'.untyped = false)
    (hq' : q'.untyped = false) : p' = q' := by
  rw [prim_iff] at hp hq
  grind

theorem resultPrim {p q : Prim} (h : T.Sub (.prim p) (.prim q)) (op : Operator) :
    T.Sub (.prim (op.resultPrim p)) (.prim (op.resultPrim q)) := by
  unfold Operator.resultPrim
  split
  · exact h
  · exact .refl _

theorem of_mem_zip_self {ts : List Ty} {p : Ty × Ty} (hp : p ∈ ts.zip ts) : T.Sub p.1 p.2 := by
  obtain ⟨i, hi⟩ := List.mem_iff_getElem?.1 hp
  obtain ⟨h1, h2⟩ := List.getElem?_zip_eq_some.1 hi
  rw [Option.some.inj (h1.symm.trans h2)]
  exact .refl _

end Table.Sub

/-- What an expression may name: types, and calls on a receiver of a type, written at a static type
of the receiver, of a method at type arguments; and whether it may format values. -/
structure Usage where
  types : Ty → Prop
  calls : Ty → Ty → String → List Ty → Prop
  prints : Prop

namespace Usage

/-- Every type may be named, and calls stand where they were written. -/
def written : Usage := ⟨fun _ => True, fun t u _ _ => t = u, True⟩

/-- The types and the calls of given instances, and calls on receivers that came to stand for
those. -/
def of (T : Table) (types : Ty → Prop) (meths : MethodInstance → Prop) : Usage :=
  ⟨types, fun t u m ts => T.Sub t u ∧ types u ∧ meths ⟨u, m, ts⟩, True⟩

end Usage

/-- An expression without type parameters has a type. -/
inductive Typed (T : Table) (strict : Bool) (U : Usage) (Γ : Scope) : Expr → Ty → Prop
  | var {x : String} {t : Ty} (found : Γ.find? x = some t) : Typed T strict U Γ (.var x) t
  | structLit {c : String} {targs : List Ty} {elems : List Expr} {ts : List Ty}
      {fields : List Slot} (closed : (Ty.named c targs).Closed (T.vocabulary strict))
      (used : U.types (.named c targs)) (resolves : T.Resolves (.named c targs) (.struct fields))
      (length : elems.length = ts.length) (typed : ∀ p ∈ elems.zip ts, Typed T strict U Γ p.1 p.2)
      (length' : ts.length = (fields.map (·.ty)).length)
      (sub : ∀ p ∈ ts.zip (fields.map (·.ty)), T.Sub p.1 p.2) :
      Typed T strict U Γ (.structLit c targs elems) (.named c targs)
  | select {e : Expr} {t : Ty} {field : String} {fields : List Slot} {f : Slot}
      (typed : Typed T strict U Γ e t) (resolves : T.Resolves t (.struct fields))
      (found : fields.find? (fun f => f.name = field) = some f) :
      Typed T strict U Γ (.select e field) f.ty
  | call {recv : Expr} {meth : String} {targs : List Ty} {args : List Expr} {t u : Ty}
      {S : MethodSet} {sig : Signature} {ts : List Ty} (typedRecv : Typed T strict U Γ recv t)
      (used : U.calls t u meth targs) (closed : u.Closed (T.vocabulary strict))
      (methods : T.allMethods [] u = .ok S) (found : S.find? meth = some sig)
      (arity : sig.formals.length = targs.length) (given : T.Given strict targs)
      (within : ∀ p ∈ sig.formals.zip targs,
        T.Implements p.2 (p.1.ty.subst (instantiation sig.formals targs)))
      (length : args.length = ts.length) (typed : ∀ p ∈ args.zip ts, Typed T strict U Γ p.1 p.2)
      (length' : ts.length
        = (sig.params.map fun p => p.ty.subst (instantiation sig.formals targs)).length)
      (sub : ∀ p ∈ ts.zip (sig.params.map fun p => p.ty.subst (instantiation sig.formals targs)),
        T.Sub p.1 p.2) :
      Typed T strict U Γ (.call recv meth targs args)
        (sig.result.subst (instantiation sig.formals targs))
  | assert {e : Expr} {t target : Ty} (typed : Typed T strict U Γ e t)
      (closed : target.Closed (T.vocabulary strict)) (used : U.types target) :
      Typed T strict U Γ (.assert e target) target
  | sprintf {format : String} {args : List Expr} {ts : List Ty} (used : U.prints)
      (length : args.length = ts.length)
      (typed : ∀ p ∈ args.zip ts, Typed T strict U Γ p.1 p.2) :
      Typed T strict U Γ (.sprintf format args) (.ofKind .string)
  | lit (l : Literal) : Typed T strict U Γ (.lit l) (.prim l.prim)
  | binary {op : Operator} {l r : Expr} {p q : Prim} (lhs : Typed T strict U Γ l (.prim p))
      (rhs : Typed T strict U Γ r (.prim q))
      (agree : p.untyped = false → q.untyped = false → p = q) :
      Typed T strict U Γ (.binary op l r) (.prim (op.resultPrim (Operator.commonPrim p q)))
  | convert {k : Kind} {e : Expr} {p : Prim} (typed : Typed T strict U Γ e (.prim p)) :
      Typed T strict U Γ (.convert k e) (.ofKind k)

namespace Typed

variable {T : Table} {strict : Bool} {rank : String → Nat} {U U' : Usage} {Γ : Scope}

/-- The type of an expression over closed types is closed. -/
theorem closed (h : T.WellFormed strict rank)
    (hΓ : ∀ x t, Γ.find? x = some t → t.Closed (T.vocabulary strict)) {e : Expr} {t : Ty}
    (ht : Typed T strict U Γ e t) : t.Closed (T.vocabulary strict) := by
  induction ht with
  | var found => exact hΓ _ _ found
  | structLit closed => exact closed
  | select _ fields found ih =>
    obtain ⟨hfit, htext⟩ := h.closed_of_resolves ih fields
    have hmem := List.mem_of_find?_eq_some found
    cases hfit with
    | struct fit => exact ⟨fit _ hmem, htext.struct _ hmem⟩
  | call _ _ closed methods found arity given _ _ _ _ _ =>
    have hsig := h.closed_of_allMethods closed methods _ (MethodSet.mem_of_find? found).1
    exact hsig.closed_subst arity given (Signature.mem_types_result _)
  | assert _ closed => exact closed
  | _ => exact ⟨.prim _, rfl⟩

/-- A usage that allows what an expression names, calls and formats keeps its type. -/
theorem change (hcalls : ∀ t u m ts, U.calls t u m ts → U'.calls t u m ts) {e : Expr} {t : Ty}
    (ht : Typed T strict U Γ e t) (htypes : ∀ u ∈ e.namedTypes, U.types u → U'.types u)
    (hprints : e.formats ≠ [] → U.prints → U'.prints) : Typed T strict U' Γ e t := by
  have hall {es : List Expr} {ts : List Ty}
      (ih : ∀ p ∈ es.zip ts, (∀ u ∈ p.1.namedTypes, U.types u → U'.types u) →
        (p.1.formats ≠ [] → U.prints → U'.prints) → Typed T strict U' Γ p.1 p.2)
      (htypes : ∀ u ∈ Expr.namedTypesAll es, U.types u → U'.types u)
      (hprints : Expr.formatsAll es ≠ [] → U.prints → U'.prints) :
      ∀ p ∈ es.zip ts, Typed T strict U' Γ p.1 p.2 := by
    intro p hp
    have hmem := (List.of_mem_zip hp).1
    exact ih p hp (fun u hu => htypes u (Expr.mem_namedTypesAll.2 ⟨_, hmem, hu⟩))
      fun hne => hprints fun hnil => hne (Expr.formatsAll_eq_nil.1 hnil _ hmem)
  induction ht with
  | var found => exact .var found
  | structLit closed used fields length _ length' sub ih =>
    rw [Expr.namedTypes, List.forall_mem_cons] at htypes
    exact .structLit closed (htypes.1 used) fields length (hall ih htypes.2 hprints) length' sub
  | select _ fields found ih => exact .select (ih htypes hprints) fields found
  | call _ used closed methods found arity given within length _ length' sub ih ihs =>
    rw [Expr.namedTypes, List.forall_mem_append] at htypes
    rw [Expr.formats, ne_eq, List.append_eq_nil_iff, not_and_or] at hprints
    exact .call (ih htypes.1 fun hne => hprints (.inl hne)) (hcalls _ _ _ _ used) closed methods
      found arity given within length (hall ihs htypes.2 fun hne => hprints (.inr hne)) length' sub
  | assert _ closed used ih =>
    rw [Expr.namedTypes, List.forall_mem_cons] at htypes
    exact .assert (ih htypes.2 hprints) closed (htypes.1 used)
  | sprintf used length _ ih =>
    refine .sprintf (hprints (by simp [Expr.formats]) used) length
      (hall ih htypes fun _ => hprints (by simp [Expr.formats]))
  | lit l => exact .lit l
  | binary _ _ agree ihl ihr =>
    rw [Expr.namedTypes, List.forall_mem_append] at htypes
    rw [Expr.formats, ne_eq, List.append_eq_nil_iff, not_and_or] at hprints
    exact .binary (ihl htypes.1 fun hne => hprints (.inl hne))
      (ihr htypes.2 fun hne => hprints (.inr hne)) agree
  | convert _ ih => exact .convert (ih htypes hprints)

/-- Less usage keeps types. -/
theorem mono (htypes : ∀ t, U.types t → U'.types t)
    (hcalls : ∀ t u m ts, U.calls t u m ts → U'.calls t u m ts) (hprints : U.prints → U'.prints)
    {e : Expr} {t : Ty} (ht : Typed T strict U Γ e t) : Typed T strict U' Γ e t :=
  ht.change hcalls (fun u _ => htypes u) fun _ => hprints

end Typed

/-! ## Lists of expressions -/

/-- Each of some expressions has a subtype of what is expected in its place. -/
def TypedAll (T : Table) (strict : Bool) (U : Usage) (Γ : Scope) (es : List Expr)
    (targets : List Ty) : Prop :=
  ∃ ts : List Ty, es.length = ts.length ∧ (∀ p ∈ es.zip ts, Typed T strict U Γ p.1 p.2)
    ∧ ts.length = targets.length ∧ ∀ p ∈ ts.zip targets, T.Sub p.1 p.2

namespace TypedAll

variable {T : Table} {strict : Bool} {U : Usage} {Γ : Scope}

theorem nil : TypedAll T strict U Γ [] [] := ⟨[], rfl, by simp, rfl, by simp⟩

theorem cons_iff {e : Expr} {es : List Expr} {target : Ty} {targets : List Ty} :
    TypedAll T strict U Γ (e :: es) (target :: targets)
      ↔ (∃ t, Typed T strict U Γ e t ∧ T.Sub t target) ∧ TypedAll T strict U Γ es targets := by
  constructor
  · rintro ⟨ts, hl, hts, hl', hsub⟩
    cases ts with
    | nil => simp at hl
    | cons t ts =>
      rw [List.zip_cons_cons, List.forall_mem_cons] at hts hsub
      exact ⟨⟨t, hts.1, hsub.1⟩, ts, by simpa using hl, hts.2, by simpa using hl', hsub.2⟩
  · rintro ⟨⟨t, ht, hs⟩, ts, hl, hts, hl', hsub⟩
    refine ⟨t :: ts, by simpa using hl, ?_, by simpa using hl', ?_⟩
    · rw [List.zip_cons_cons, List.forall_mem_cons]
      exact ⟨ht, hts⟩
    · rw [List.zip_cons_cons, List.forall_mem_cons]
      exact ⟨hs, hsub⟩

theorem length_eq {es : List Expr} {targets : List Ty} (h : TypedAll T strict U Γ es targets) :
    es.length = targets.length := by
  obtain ⟨ts, hl, -, hl', -⟩ := h
  rw [hl, hl']

end TypedAll

end FeatherGo
