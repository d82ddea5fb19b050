import FeatherGo.Proofs.Declarations.Checked
import FeatherGo.Proofs.Declarations.Guarded
import FeatherGo.Proofs.Methods.Stable

/-!
# Founded declarations

What may bound a type formal are primitives and interfaces that embed no struct (`Table.MayBound`).
Declarations whose bounds all may bound and whose interfaces embed no struct are founded
(`Table.Founded`): gathering the methods of a bound need not look at the arguments of a type. The types
that such declarations write are guarded by bounds that may bound, and that is a hereditary property
(`Table.hereditary_guarded`).
-/

namespace FeatherGo

namespace Table

/-- The definition chain of a declared name ends in a struct. -/
inductive NamesStruct (T : Table) : String → Prop
  | literal {c : String} {td : TypeDecl} {fs : List Slot} (declared : T.type? c = some td)
      (source : td.source = .struct fs) : NamesStruct T c
  | chain {c c' : String} {td : TypeDecl} {args : List Ty} (declared : T.type? c = some td)
      (source : td.source = .named c' args) (next : NamesStruct T c') : NamesStruct T c

/-- An interface embeds no name of a struct. -/
def EmbedsNoStruct (T : Table) (ms : List Member) : Prop :=
  ∀ c args, .embed c args ∈ ms → ¬T.NamesStruct c

/-- Types that may bound a type formal: primitives, interfaces that embed no struct, and declared
names of no struct. -/
def MayBound (T : Table) : Ty → Prop
  | .prim _ => True
  | .interface ms => T.EmbedsNoStruct ms
  | .named c _ => ¬T.NamesStruct c
  | .param _ | .struct _ | .var _ => False

/-- Declarations whose sources are structs, interfaces or names, whose interfaces embed no struct, and
whose formals have bounds that may bound, those of nested signatures included. -/
structure Founded (T : Table) : Prop where
  sources : T.HasSources
  embeds : ∀ td ∈ T.typeDecls, ∀ ms, td.source = .interface ms → T.EmbedsNoStruct ms
  types : ∀ td ∈ T.typeDecls, td.Guarded T.MayBound
  methods : ∀ md ∈ T.methodDecls, md.Guarded T.MayBound

variable {T : Table}

/-- A definition chain ends in a struct, as its name says, or in an interface. -/
theorem HasSources.struct_or_interface (h : T.HasSources) {c : String} {args : List Ty} {v : Ty}
    (hv : T.Resolves (.named c args) v) :
    (T.NamesStruct c ∧ ∃ fs, v = .struct fs) ∨ ∃ ms, v = .interface ms := by
  generalize ht : Ty.named c args = t at hv
  induction hv generalizing c args with
  | stop unnamed => exact (ht ▸ unnamed : Ty.Unnamed (.named c args)).elim
  | step head rest ih =>
    obtain ⟨rfl, rfl⟩ := Ty.named.inj ht
    obtain ⟨td, htd, -, rfl⟩ := underlying_eq_ok.1 head
    have hform := h _ td htd
    cases hs : td.source with
    | struct fs =>
      rw [hs, Ty.subst_struct] at rest
      cases rest
      exact .inl ⟨.literal htd hs, _, rfl⟩
    | interface ms =>
      rw [hs, Ty.subst_interface] at rest
      cases rest
      exact .inr ⟨_, rfl⟩
    | named d ds =>
      rcases ih (c := d) (by rw [hs, Ty.subst_named]) with ⟨hstruct, hv⟩ | hv
      · exact .inl ⟨.chain htd hs hstruct, hv⟩
      · exact .inr hv
    | _ => simp [hs, Ty.isSource] at hform

theorem EmbedsNoStruct.subst {ms : List Member} (h : T.EmbedsNoStruct ms) (η : Env Ty) :
    T.EmbedsNoStruct (ms.map (Member.subst η)) := by
  intro c args hm
  obtain ⟨as, hm', -⟩ := exists_of_embed_mem_map hm
  exact h c as hm'

theorem MayBound.subst {t : Ty} (h : T.MayBound t) (η : Env Ty) : T.MayBound (t.subst η) := by
  cases t with
  | prim p => exact h
  | named c args =>
    rw [Ty.subst_named]
    exact h
  | interface ms =>
    rw [Ty.subst_interface]
    exact EmbedsNoStruct.subst h η
  | _ => exact h.elim

/-! ## Guarded types -/

/-- **To be guarded by bounds that may bound is hereditary.** -/
theorem hereditary_guarded (T : Table) : Ty.Hereditary (Ty.Guarded T.MayBound) where
  prim := Ty.Guarded.prim _
  part ht ha := ht.of_mem_parts ha
  embed ht hm := Ty.Guarded.named (ht.members _ hm)
  method ht hs := Ty.Guarded.alone.2 ⟨ht.bounds hs, ht.members _ hs⟩
  subst ht hη := ht.subst (fun _ η h => h.subst η) hη

theorem Founded.writes (hT : T.Founded) : T.Writes (Ty.Guarded T.MayBound) where
  sources _ _ htd := (hT.types _ (mem_of_type? htd).1).source
  signatures md hmd := Ty.Guarded.alone.2 ⟨(hT.methods md hmd).formals, (hT.methods md hmd).types⟩
  bodies md hmd := (hT.methods md hmd).body.types

/-! ## Headers -/

theorem SameHeaders.namesStruct {T' : Table} (h : SameHeaders T T') {c : String}
    (hc : T.NamesStruct c) : T'.NamesStruct c := by
  induction hc with
  | literal declared source => exact .literal ((h.type?_eq _).symm.trans declared) source
  | chain declared source _ ih => exact .chain ((h.type?_eq _).symm.trans declared) source ih

/-- What may bound depends on the headers of declarations alone. -/
theorem SameHeaders.mayBound_eq {T' : Table} (h : SameHeaders T T') : T.MayBound = T'.MayBound := by
  have hstruct (c : String) : T.NamesStruct c ↔ T'.NamesStruct c :=
    ⟨h.namesStruct, h.symm.namesStruct⟩
  funext t
  cases t with
  | named c args => exact propext (not_congr (hstruct c))
  | interface ms =>
    refine propext (forall₃_congr fun c args _ => not_congr (hstruct c))
  | _ => rfl

/-- Other bodies leave declarations founded if they are guarded as well. -/
theorem SameHeaders.founded {T' : Table} (h : SameHeaders T T') (hT : T.Founded)
    (hmethods : ∀ md ∈ T'.methodDecls, md.Guarded T.MayBound) : T'.Founded where
  sources c td htd := hT.sources c td ((h.type?_eq c).trans htd)
  embeds td htd ms hms c args hm hc :=
    hT.embeds td (h.types ▸ htd) ms hms c args hm (h.symm.namesStruct hc)
  types td htd := h.mayBound_eq ▸ hT.types td (h.types ▸ htd)
  methods := h.mayBound_eq ▸ hmethods

end Table

end FeatherGo
