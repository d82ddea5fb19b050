import FeatherGo.Proofs.Discovery.Callable
import FeatherGo.Proofs.Typing.Rechecking

/-!
# Programs whose values have simple types

What a checked program declares passes its checks again over its own table, and is plain where the source
is. Where the values of the source have simple types, the declarations are simple (`Table.Simple`), and the
main expression writes types of values.
-/

namespace FeatherGo

/-- The types of values that a declaration writes: of fields, or of what its methods take and give. -/
def Decl.values : Decl → List Ty
  | .type td => td.source.values
  | .method md => md.sig.values

/-- The types of values that a program writes: in its declarations, and those that its expressions name. -/
def Program.values (p : Program) : List Ty :=
  p.decls.flatMap Decl.values ++ p.exprs.flatMap Expr.namedTypes

namespace Program

variable {p : Program} {u : Ty}

theorem mem_values_of_decl {d : Decl} (hd : d ∈ p.decls) (hu : u ∈ d.values) : u ∈ p.values :=
  List.mem_append_left _ (List.mem_flatMap.2 ⟨d, hd, hu⟩)

theorem mem_values_of_expr {e : Expr} (he : e ∈ p.exprs) (hu : u ∈ e.namedTypes) : u ∈ p.values :=
  List.mem_append_right _ (List.mem_flatMap.2 ⟨e, he, hu⟩)

end Program

/-! ## Checked programs -/

namespace ProgramCheck

variable {C : Checker} {p q : Program} {t : Ty} {T : Table} (h : ProgramCheck C p t q T)
include h

theorem type?_mem {c : String} {td : TypeDecl} (htd : T.type? c = some td) : Decl.type td ∈ p.decls :=
  Table.mem_decls_of_type? h.source (h.same.type?_eq c ▸ htd)

/-- The declared types of a checked program pass their checks over its own table. -/
theorem checkTypeDecl_again {td : TypeDecl} (htd : td ∈ T.typeDecls) :
    T.checkTypeDecl C.fuel td = .ok () := by
  have hdecl : C.checkDecl (.type td) = .ok (.type td) :=
    Answer.bind_eq_ok.2 ⟨(), h.checkTypeDecl htd, rfl⟩
  rw [h.same.checkDecl_eq] at hdecl
  obtain ⟨⟨⟩, hcheck, -⟩ := Answer.bind_eq_ok.1 hdecl
  exact hcheck

/-- The methods of a checked program pass their checks unchanged. -/
theorem checkMethodDecl_again {md : MethodDecl} (hmd : md ∈ T.methodDecls) :
    (Checker.mk T C.lenient C.fuel).checkMethodDecl md = .ok md := by
  obtain ⟨md₀, -, -, hcheck⟩ := h.methods md hmd
  have hdecl : C.checkDecl (.method md₀) = .ok (.method md) := Answer.bind_eq_ok.2 ⟨md, hcheck, rfl⟩
  have hagain := Checker.checkDecl_again hdecl
  rw [h.same.checkDecl_eq] at hagain
  obtain ⟨md', hcheck, he⟩ := Answer.bind_eq_ok.1 hagain
  obtain rfl := Decl.method.inj (Answer.ok.inj he)
  exact hcheck

/-- The main expression of a checked program is settled. -/
theorem settled_main : (Checker.mk T C.lenient C.fuel).Settled [] [] q.main t := by
  have hsettled := Checker.settled_of_check h.main
  rwa [Checker.Settled, h.same.check_eq] at hsettled

/-- The methods of a checked program are plain where the source is. -/
theorem plain_method {strict : Bool} (hplain : p.Plain strict) {md : MethodDecl} (hmd : md ∈ T.methodDecls) :
    (Decl.method md).Plain strict ∧ md.body.Plain strict := by
  obtain ⟨⟨e, he, hagrees⟩, -⟩ := h.written_body hplain hmd
  obtain ⟨md₀, hdecl, -, hcheck⟩ := h.methods md hmd
  obtain ⟨-, -, _, _, body, -, -, rfl⟩ := Checker.of_checkMethodDecl hcheck
  exact ⟨⟨(hplain.decl hdecl).formals, (hplain.decl hdecl).types⟩, hagrees.over (hplain.expr he)⟩

/-- The main expression of a checked program is plain where the source is. -/
theorem plain_main {strict : Bool} (hplain : p.Plain strict) : q.main.Plain strict :=
  (h.closed_main hplain).1.over hplain.main

section Values

variable (hplain : p.Plain true) (hvalues : ∀ u ∈ p.values, u.isSimple = true)
include hplain hvalues

/-- What a checked program with values of simple types declares is simple. -/
theorem exists_simple : ∃ rank, T.Simple rank := by
  obtain ⟨rank, -, hwf⟩ := h.exists_wellFormed hplain
  refine ⟨rank, hwf, ?_, h.bodiesTyped hplain, fun md hmd => (h.written_body hplain hmd).2, ?_, ?_⟩
  · exact hwf.lawful.shaped.apart_of_lists fun c td htd =>
      (Table.of_checkTypeDecl (h.checkTypeDecl_again (Table.mem_of_type? htd).1)).2.2
  · refine ⟨fun c td htd u hu => ?_, fun md hmd => ?_⟩
    · exact hvalues u (Program.mem_values_of_decl (h.type?_mem htd) hu)
    · obtain ⟨md₀, hdecl, -, hcheck⟩ := h.methods md hmd
      obtain ⟨-, -, _, _, _, -, -, rfl⟩ := Checker.of_checkMethodDecl hcheck
      rw [Ty.Valued, Signature.values_alone]
      exact fun u hu => hvalues u (Program.mem_values_of_decl hdecl hu)
  · intro md hmd u hu
    obtain ⟨⟨e, he, hagrees⟩, -⟩ := h.written_body hplain hmd
    exact hvalues u (Program.mem_values_of_expr he (hagrees.named ▸ hu))

/-- The main expression writes types of values. -/
theorem over_main_valueType : q.main.Over T.ValueType fun t => t.flat true = true := by
  obtain ⟨hagrees, hclosed, -⟩ := h.closed_main hplain
  refine ⟨fun u hu => ⟨hclosed.types u hu, ?_⟩, hclosed.calls⟩
  rcases Expr.mem_types.1 hu with hu | hu
  · have hmain : p.main ∈ p.exprs := List.mem_append_right _ List.mem_cons_self
    exact hvalues u (Program.mem_values_of_expr hmain (hagrees.named ▸ hu))
  · exact Ty.isSimple_of_flat (hclosed.calls u hu)

end Values

end ProgramCheck

end FeatherGo
