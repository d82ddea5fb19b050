import FeatherGo.Proofs.Methods.Settling

/-!
# Checking comes to an end

Where bounds may bound and interfaces embed no struct, the check of a program settles, whatever else
is wrong with the program (`settles_checkProgram`).
-/

namespace FeatherGo

open Answer (Settles Reaches)
open Answer.Trait (settling)

/-- Typing on founded declarations settles. -/
theorem Table.Founded.uniform {T : Table} (hT : T.Founded) {rank : String → Nat}
    (hr : T.Ranking rank) (lenient : Bool) :
    Uniform settling T.MayBound T fun n => ⟨T, lenient, n⟩ where
  like _ := .refl T
  lenient _ _ := rfl
  methods hΔ t := hT.settles_methods hr hΔ t

/-- A program whose declarations are founded and whose main expression is guarded by bounds that may
bound. -/
structure Program.Founded (p : Program) (T : Table) : Prop where
  table : T.Founded
  main : p.main.Guarded T.MayBound

/-- The declarations of a founded table are guarded by bounds that may bound. -/
theorem Table.Founded.guarded {T : Table} (hT : T.Founded) {decls : List Decl}
    (h : Table.ofDecls decls = .ok T) : ∀ d ∈ decls, d.Guarded T.MayBound := by
  obtain ⟨htypes, hmethods, -⟩ := ofDecls_eq_ok h
  intro d hd
  cases d with
  | type td => exact hT.types td (htypes ▸ List.mem_filterMap.2 ⟨_, hd, rfl⟩)
  | method md => exact hT.methods md (hmethods ▸ List.mem_filterMap.2 ⟨_, hd, rfl⟩)

/-- The check of founded declarations settles. -/
theorem Table.Founded.settles_checkDecls {T : Table} (hT : T.Founded) (lenient : Bool)
    {decls : List Decl} (h : Table.ofDecls decls = .ok T) :
    Settles fun n => (⟨T, lenient, n⟩ : Checker).checkDecls decls := by
  refine .bind (settling.ofExcept T.checkAcyclic) fun _ hacyclic => ?_
  obtain ⟨rank, hr⟩ := exists_ranking (Answer.ofExcept_eq_ok.1 hacyclic.eq_of_const)
  exact settling.mapM fun d hd => (hT.uniform hr lenient).checkDecl (hT.guarded h d hd)

/-- **The check of a program ends** if bounds may bound and interfaces embed no struct, with
assertions on types that are no interfaces let through or not. -/
theorem settles_checkProgram {p : Program}
    (h : ∀ T, Table.ofDecls p.decls = .ok T → p.Founded T) (lenient : Bool) :
    Settles fun n => checkProgram n lenient p := by
  refine .bind (settling.ofExcept _) fun T hT => ?_
  have hdecls := Answer.ofExcept_eq_ok.1 hT.eq_of_const
  obtain ⟨hT, hmain⟩ := h T hdecls
  refine .bind (hT.settles_checkDecls lenient hdecls) fun decls' hchecked => ?_
  obtain ⟨n, hn⟩ := hchecked
  obtain ⟨hacyclic, -⟩ := Checker.of_checkDecls (hn n (Nat.le_refl n))
  obtain ⟨rank, hr⟩ := Table.exists_ranking hacyclic
  exact settling.bind ((hT.uniform hr lenient).check Bounds.all_nil [] hmain) fun _ => settling.ok _

end FeatherGo
