import FeatherGo.Proofs.Discovery.Kept

/-!
# Discovered instances are proper

The declarations of a plain program keep types closed (`Table.WellFormed.keepsInstances_closed`), so
whatever discovery adds is closed, and it is added once (`Closure.proper_of_discover`).
-/

namespace FeatherGo

/-- What the bodies of methods write is written under their formals. -/
def Table.BodiesWritten (T : Table) (strict : Bool) : Prop :=
  ∀ md ∈ T.methodDecls, md.body.Written (T.vocabulary strict) md.bounds.names

/-- Instances of closed types, at closed flat type arguments, each of them once. -/
structure Instances.Proper (V : Vocabulary) (F : Instances) : Prop where
  closed : F.Over (Ty.Closed V) fun t => t.flat V.strict = true
  typesNodup : F.types.Nodup
  methsNodup : F.meths.Nodup

namespace Table

variable {T : Table} {strict : Bool} {rank : String → Nat}

/-- A body over closed types is found where the formals of its method can be put in. -/
theorem closed_body {md : MethodDecl} (hw : md.body.Written (T.vocabulary strict) md.bounds.names)
    {args targs : List Ty} (ha : md.Fits T strict args targs) :
    (md.body.substTypes (md.instantiation args targs)).Closed (T.vocabulary strict) :=
  hw.closed_subst (closing_instantiation ha) fun _ _ hx =>
    (closed_of_find?_instantiation ha hx).1.freeParams_eq_nil

/-- The declarations of a plain program keep types closed. -/
theorem WellFormed.keepsInstances_closed (h : T.WellFormed strict rank) (hT : T.BodiesWritten strict) :
    T.KeepsInstances [] (Ty.Closed (T.vocabulary strict)) fun t => t.flat strict = true where
  toKeeps := h.keeps_closed
  source c args u ht hu := by
    obtain ⟨td, htd, hl, rfl⟩ := underlying_eq_ok.1 hu
    exact (h.types _ td htd).source.closed_subst hl ht.args
  embedded _ _ _ _ ht hms hd :=
    (closed_of_embed (h.closed_of_resolves ht (resolves_of_resolve hms)) hd).1
  bodies md hmd args targs ht hl htargs hl' := by
    have ha : md.Fits T strict args targs := ⟨ht, hl, htargs, hl'⟩
    exact ⟨closed_body (hT md hmd) ha, fun _ _ hx => Closure.closed_scopeAt h hmd ha hx⟩

end Table

/-- **The instances that discovery answers are closed, and each is there once.** -/
theorem Closure.proper_of_discover {T : Table} {strict : Bool} {rank : String → Nat}
    (h : T.WellFormed strict rank) (hT : T.BodiesWritten strict) {fuel : Nat} {main : Expr}
    (hmain : main.Closed (T.vocabulary strict)) {limit : Option Nat} {F : Instances}
    (hF : discover fuel T main limit = .ok F) : F.Proper (T.vocabulary strict) := by
  obtain ⟨hover, hwithin⟩ := over_of_discover (h.keepsInstances_closed hT) hmain hF
  exact ⟨hover, hwithin.typesNodup, hwithin.methsNodup⟩

end FeatherGo
