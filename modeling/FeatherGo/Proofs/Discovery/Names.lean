import FeatherGo.Proofs.Declarations.Lexicon
import FeatherGo.Proofs.Discovery.Kept

/-!
# Names in discovered instances

Discovery makes up no names but by adding primes to type formals: the instances of a checked program
are over every lexicon that holds the names of the program and is closed under primes
(`ProgramCheck.over_of_discover`).
-/

namespace FeatherGo

/-! ## Declarations over a lexicon -/

/-- The sources of types, the signatures of methods and the types in their bodies hold names of a
lexicon alone. -/
structure Table.Over (L : Lexicon) (T : Table) : Prop where
  sources : ∀ c td, T.type? c = some td → td.source.Over L
  signatures : ∀ md ∈ T.methodDecls, md.sig.Over L
  bodies : ∀ md ∈ T.methodDecls, ∀ t ∈ md.body.types, t.Over L

/-- To be over a lexicon that is closed under primes is hereditary. -/
theorem Lexicon.Primes.hereditary {L : Lexicon} (hL : L.Primes) : Ty.Hereditary (Ty.Over L) where
  prim := Ty.over_prim
  part ht ha u hu := ht u (Ty.mem_preorder.2 (.inr ⟨_, ha, hu⟩))
  embed ht hm :=
    Ty.over_named.2 ⟨(Ty.over_interface.1 ht _ hm).labels _ List.mem_cons_self,
      (Ty.over_interface.1 ht _ hm).types⟩
  method ht hs := Ty.over_interface.2 fun _ hm =>
    List.mem_singleton.1 hm ▸ Ty.over_interface.1 ht _ hs
  subst ht hη := ht.subst hL hη

namespace Table.Over

variable {T : Table} {L : Lexicon}

theorem writes (h : T.Over L) : T.Writes (Ty.Over L) where
  sources := h.sources
  signatures md hmd := Ty.over_interface.2 fun _ hm => List.mem_singleton.1 hm ▸ h.signatures md hmd
  bodies := h.bodies

/-- A type over a lexicon offers signatures over it. -/
theorem of_methods (h : T.Over L) (hL : L.Primes) {n : Nat} {t : Ty} {S : MethodSet}
    (ht : t.Over L) (hS : T.methods [] n t = .ok S) : ∀ s ∈ S, s.Over L := fun s hs =>
  Ty.over_interface.1 ((hL.hereditary.stable h.writes Bounds.all_nil).of_methods ht hS s hs) _
    (List.mem_singleton_self _)

/-- **Declarations over a lexicon keep types over it.** -/
theorem keepsInstances (h : T.Over L) (hL : L.Primes) :
    T.KeepsInstances [] (Ty.Over L) fun _ => True :=
  h.writes.keepsInstances hL.hereditary Bounds.all_nil

end Table.Over

/-! ## Checked programs over a lexicon -/

/-- The names in the header of a declaration, but for type parameters and for what its types hold. -/
def Decl.labels : Decl → List String
  | .type td => [td.name]
  | .method md => md.recvType :: (Member.method md.sig).labels

namespace Program

/-- The names of types, methods, fields and value parameters that a program declares, or writes in
its types. -/
def labels (p : Program) : List String :=
  p.decls.flatMap Decl.labels ++ p.types.flatMap fun t => t.preorder.flatMap Ty.labels

/-- The names that a program writes are in a lexicon. -/
structure Over (L : Lexicon) (p : Program) : Prop where
  labels : ∀ a ∈ p.labels, L.name a
  formals : ∀ a ∈ p.typeFormals, L.param a

variable {L : Lexicon} {p : Program}

/-- A type of the program that passes its check in a scope of the program is over the lexicon. -/
theorem Over.of_okType (h : p.Over L) {t : Ty} (ht : t ∈ p.types) {T : Table} {n : Nat} {Δ : Bounds}
    (hΔ : ∀ a ∈ Δ.names, L.param a) (hok : T.okType n Δ t = .ok ()) : t.Over L := by
  refine Table.over_of_okType hΔ (fun a ha => h.formals a ?_) (fun u hu a ha => h.labels a ?_) hok
  · exact List.mem_append_right _ (List.mem_flatMap.2 ⟨t, ht, ha⟩)
  · exact List.mem_append_right _
      (List.mem_flatMap.2 ⟨t, ht, List.mem_flatMap.2 ⟨u, hu, ha⟩⟩)

theorem mem_types_of_header {d : Decl} (hd : d ∈ p.decls) {t : Ty} (ht : t ∈ d.headerTypes) :
    t ∈ p.types :=
  List.mem_append_left _ (List.mem_flatMap.2 ⟨d, hd, ht⟩)

theorem mem_types_of_expr {e : Expr} (he : e ∈ p.exprs) {t : Ty} (ht : t ∈ e.types) : t ∈ p.types :=
  List.mem_append_right _ (List.mem_flatMap.2 ⟨e, he, ht⟩)

theorem Over.formals_of_decl (h : p.Over L) {d : Decl} (hd : d ∈ p.decls) :
    ∀ a ∈ d.formalNames, L.param a :=
  fun a ha => h.formals a (List.mem_append_left _ (List.mem_flatMap.2 ⟨d, hd, ha⟩))

theorem Over.labels_of_decl (h : p.Over L) {d : Decl} (hd : d ∈ p.decls) :
    ∀ a ∈ d.labels, L.name a :=
  fun a ha => h.labels a (List.mem_append_left _ (List.mem_flatMap.2 ⟨d, hd, ha⟩))

end Program

namespace ProgramCheck

variable {C : Checker} {p q : Program} {t : Ty} {T : Table} {L : Lexicon}

/-- The declarations of a checked program are over a lexicon that holds the names of the source. -/
theorem over_table (h : ProgramCheck C p t q T) (hp : p.Over L) : T.Over L := by
  have hmethod : ∀ md' ∈ T.methodDecls, md'.sig.Over L ∧ ∀ t ∈ md'.body.types, t.Over L := by
    intro md' hmd'
    obtain ⟨md, hdecl, -, hcheck⟩ := h.methods md' hmd'
    obtain ⟨-, hheader, u, body, body', hbody, hcoerce, rfl⟩ := Checker.of_checkMethodDecl hcheck
    have hformals := hp.formals_of_decl hdecl
    constructor
    · obtain ⟨-, -, -, htypes⟩ := Table.of_okSignature (Table.of_checkHeader hheader)
      refine ⟨fun a ha => hp.labels_of_decl hdecl a (List.mem_cons_of_mem _ ha),
        fun a ha => hformals a (List.mem_append_right _ ha), fun t ht => ?_⟩
      refine hp.of_okType (Program.mem_types_of_header hdecl (List.mem_append_right _ ht))
        (fun a ha => hformals a ?_) (htypes t ht)
      rwa [Table.names_extend, Table.names_extend] at ha
    · intro t ht
      have hagrees := (Checker.agrees_of_coerce hcoerce).trans (Checker.agrees_of_check hbody)
      have ht := hagrees.mem_types.1 ht
      have hexpr : md.body ∈ p.exprs :=
        List.mem_append_left _ (List.mem_flatMap.2 ⟨_, hdecl, List.mem_cons_self⟩)
      refine hp.of_okType (Program.mem_types_of_expr hexpr ht) (fun a ha => hformals a ?_)
        (Checker.okType_of_check hbody t ht)
      rwa [MethodDecl.names_bounds] at ha
  refine ⟨fun c td htd => ?_, fun md hmd => (hmethod md hmd).1, fun md hmd => (hmethod md hmd).2⟩
  rw [← h.same.type?_eq] at htd
  obtain ⟨hdecl, hok⟩ := (Checker.checked_of_checkDecls h.source h.decls).1 c td htd
  refine hp.of_okType
    (Program.mem_types_of_header hdecl (List.mem_append_right _ (List.mem_singleton_self _)))
    (fun a ha => hp.formals_of_decl hdecl a ?_) (Table.of_checkTypeDecl hok).2.2
  rwa [Table.names_extend] at ha

/-- The main expression of a checked program is over a lexicon that holds the names of the source. -/
theorem over_main (h : ProgramCheck C p t q T) (hp : p.Over L) :
    q.main.Over (Ty.Over L) fun _ => True := by
  refine ⟨fun t ht => ?_, fun _ _ => trivial⟩
  have ht := (Checker.agrees_of_check h.main).mem_types.1 ht
  exact hp.of_okType (Program.mem_types_of_expr (List.mem_append_right _ List.mem_cons_self) ht)
    (fun a ha => absurd ha List.not_mem_nil) (Checker.okType_of_check h.main t ht)

/-- **The instances of a checked program are over a lexicon that holds its names.** -/
theorem over_of_discover (h : ProgramCheck C p t q T) (hp : p.Over L) (hL : L.Primes) {fuel : Nat}
    {limit : Option Nat} {F : Instances} (hF : discover fuel T q.main limit = .ok F) :
    F.Over (Ty.Over L) (fun _ => True) ∧ F.Within (Table.setsOver (Ty.Over L) fun _ => True) :=
  Closure.over_of_discover ((h.over_table hp).keepsInstances hL) (h.over_main hp) hF

end ProgramCheck

end FeatherGo
