import FeatherGo.Proofs.Methods.Stable
import FeatherGo.Proofs.Typing.Formation
import FeatherGo.Proofs.Typing.Programs

/-!
# Names of fields and parameters

In a checked program no two fields of a struct type and no two parameters of a signature share a name.
Instances keep these names, so they are apart in whatever a type comes to and offers
(`Table.SlotsApart.conveys`).
-/

namespace FeatherGo

/-- At the head of a type no two fields and no two parameters of a signature share a name. -/
def Ty.SlotsApart : Ty → Prop
  | .struct fs => (fs.map (·.name)).Nodup
  | .interface ms => ∀ s, .method s ∈ ms → (s.params.map (·.name)).Nodup
  | _ => True

theorem Ty.SlotsApart.subst {t : Ty} (h : t.SlotsApart) (ht : ∀ a, t ≠ .param a) (η : Env Ty) :
    (t.subst η).SlotsApart := by
  cases t with
  | param a => exact absurd rfl (ht a)
  | struct fs =>
    rw [Ty.subst_struct, Ty.SlotsApart, List.map_map]
    exact h
  | interface ms =>
    rw [Ty.subst_interface]
    intro s hs
    obtain ⟨m, hm, he⟩ := List.mem_map.1 hs
    cases m with
    | method o =>
      have hs : s = o.subst η := (Member.method.inj he).symm
      rw [hs, Signature.map_name_params_subst]
      exact h o hm
    | embed c args => cases he
  | named c args =>
    rw [Ty.subst_named]
    trivial
  | prim p => trivial
  | var n => trivial

namespace Table

variable {T : Table}

/-- The declarations repeat no name among fields or parameters. -/
structure SlotsApart (T : Table) : Prop where
  sources : ∀ c td, T.type? c = some td → td.source.SlotsApart
  signatures : ∀ md ∈ T.methodDecls, (md.sig.params.map (·.name)).Nodup

namespace SlotsApart

/-- **Declarations convey that slots are apart.** -/
theorem conveys (h : T.SlotsApart) (hsources : T.HasSources) : T.Conveys [] Ty.SlotsApart where
  bound hb := by cases hb
  source := by
    intro c args td _ htd _
    refine (h.sources c td htd).subst (fun a ha => ?_) _
    have hsource := hsources c td htd
    rw [ha] at hsource
    cases hsource
  embed _ _ := trivial
  method ht hs := fun _ ho => Member.method.inj (List.mem_singleton.1 ho) ▸ ht _ hs
  declared := by
    intro md args hmd _ _ o ho
    rw [Member.method.inj (List.mem_singleton.1 ho), Signature.map_name_params_subst]
    exact h.signatures md hmd

variable (h : T.SlotsApart) (hsources : T.HasSources) {c : String} {args : List Ty}
include h hsources

/-- The fields of a declared type have names of their own. -/
theorem nodup_fields {fs : List Slot} (hfs : T.Resolves (.named c args) (.struct fs)) :
    (fs.map (·.name)).Nodup :=
  (h.conveys hsources).of_resolves (t := .named c args) trivial hfs

/-- The parameters of each signature that a declared type offers have names of their own. -/
theorem nodup_params {n : Nat} {S : MethodSet} (hS : T.methods [] n (.named c args) = .ok S)
    {s : Signature} (hs : s ∈ S) : (s.params.map (·.name)).Nodup :=
  (h.conveys hsources).of_methods (t := .named c args) trivial hS s hs s (List.mem_singleton_self _)

end SlotsApart

/-! ## Declarations that pass their checks -/

theorem nodup_params_of_okSignature {n : Nat} {Δ : Bounds} {s : Signature}
    (h : T.okSignature n Δ s = .ok ()) : (s.params.map (·.name)).Nodup := by
  obtain ⟨m, fs, ps, r⟩ := s
  rw [okSignature] at h
  split at h
  · cases h
  · obtain ⟨⟨⟩, -, h⟩ := Answer.bind_eq_ok.1 h
    obtain ⟨⟨⟩, hparams, -⟩ := Answer.bind_eq_ok.1 h
    exact (okParams_iff.1 hparams).1

theorem slotsApart_of_okType {n : Nat} {Δ : Bounds} {t : Ty} (h : T.okType n Δ t = .ok ()) :
    t.SlotsApart := by
  cases t with
  | struct fs => exact (okFields_iff.1 h).1
  | interface ms => exact fun s hs => nodup_params_of_okSignature (of_okMembers h _ hs)
  | _ => trivial

/-- What the check of a header says of names: no field is named like the method, and no parameter like
the receiver. -/
theorem names_of_checkHeader {n : Nat} {md : MethodDecl} (h : T.checkHeader n md = .ok ()) :
    (∃ fs, T.structFields md.selfType = .ok fs ∧ ∀ f ∈ fs.getD [], f.name ≠ md.sig.name)
      ∧ ∀ p ∈ md.sig.params, p.name ≠ md.recv := by
  obtain ⟨fs, hfs, h⟩ := Answer.bind_eq_ok.1 h
  dsimp only at h
  split at h
  · cases h
  · rename_i hfields
    obtain ⟨⟨⟩, -, h⟩ := Answer.bind_eq_ok.1 h
    split at h
    · cases h
    · rename_i hparams
      simp only [Bool.not_eq_true, List.any_eq_false, decide_eq_true_eq] at hfields hparams
      exact ⟨⟨fs, Answer.ofExcept_eq_ok.1 hfs, hfields⟩, hparams⟩

end Table

end FeatherGo
