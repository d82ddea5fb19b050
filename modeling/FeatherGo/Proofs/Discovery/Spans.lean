import FeatherGo.Proofs.Discovery.Nesting
import FeatherGo.Proofs.Discovery.Proper
import Mathlib.Data.Set.Finite.Lattice
import Mathlib.Logic.Relation

/-!
# What the check of nesting says of types

A type spans what it demands, what that demands, and so on. Where the check of nesting accepts the
generic types, finitely many closed types lead to finitely many (`Table.WellFormed.exists_encloses`).

The search from a generic type ends only when it has found all that the type spans at its own formals.
What an instance demands is the instance of what the generic type demands
(`Table.WellFormed.exists_demands_of_close`), so it spans instances of finitely many types, and what its
arguments span. Types without formals are not searched; there are finitely many of them, and sets are
settled up to them first.
-/

namespace FeatherGo

open Closure (Demands)

/-! ## What a search from a type has found -/

namespace Closure

variable {K : Closure} {s s' : Frontier}

theorem meths_of_addType {t : Ty} {b : Bool} (h : (K.addType t).Ends s b s') :
    s'.found.meths = s.found.meths := by
  obtain ⟨⟨⟩, s₁, h₁, h⟩ := Track.ends_bind.1 h
  obtain ⟨rfl, -⟩ := of_permit h₁
  obtain ⟨s₂, s₃, h₂, h⟩ := Track.ends_bind.1 h
  obtain ⟨rfl, rfl⟩ := Track.of_ends_state h₂
  obtain ⟨⟨⟩, s₄, h₃, h⟩ := Track.ends_bind.1 h
  obtain rfl := Track.of_ends_update h₃
  obtain ⟨-, rfl⟩ := Track.of_ends_pure h
  rfl

theorem meths_of_addTypes {ts : List Ty} (h : (K.addTypes ts).Ends s () s') :
    s'.found.meths = s.found.meths := by
  induction ts generalizing s with
  | nil =>
    obtain ⟨-, rfl⟩ := Track.of_ends_pure h
    rfl
  | cons t ts ih =>
    obtain ⟨b, s₁, h₁, h⟩ := Track.ends_bind.1 h
    exact (ih h).trans (meths_of_addType h₁)

theorem meths_of_growTypes {ts : List Ty} (h : (K.growTypes ts).Ends s () s') :
    s'.found.meths = s.found.meths := by
  induction ts generalizing s with
  | nil =>
    obtain ⟨-, rfl⟩ := Track.of_ends_pure h
    rfl
  | cons t ts ih =>
    obtain ⟨ds, s₁, h₁, h⟩ := Track.ends_bind.1 h
    obtain ⟨-, rfl⟩ := of_typing h₁
    obtain ⟨⟨⟩, s₂, h₂, h⟩ := Track.ends_bind.1 h
    exact (ih h).trans (meths_of_addTypes h₂)

/-- A run that ends over types alone has found all that they demand. -/
theorem types_of_runFrom {limit : Option Nat} {rounds passes n : Nat} (hs : s.found.meths = [])
    (h : (K.runFrom limit rounds passes).Ends s n s') :
    s.found.Le s'.found ∧ ∀ t ∈ s'.found.types, K.TypeDone t s'.found := by
  induction rounds generalizing s passes with
  | zero => cases h
  | succ rounds ih =>
    obtain ⟨s₁, s₂, h₁, h⟩ := Track.ends_bind.1 h
    obtain ⟨rfl, rfl⟩ := Track.of_ends_state h₁
    obtain ⟨⟨⟩, s₃, h₃, h⟩ := Track.ends_bind.1 h
    -- Without calls a pass applies the rules for types alone.
    obtain ⟨s₄, s₅, h₄, h₃⟩ := Track.ends_bind.1 h₃
    obtain ⟨rfl, rfl⟩ := Track.of_ends_state h₄
    obtain ⟨⟨⟩, s₆, h₅, h₃⟩ := Track.ends_bind.1 h₃
    rw [hs] at h₃
    obtain ⟨-, rfl⟩ := Track.of_ends_pure h₃
    obtain ⟨hext, hdone⟩ := of_growTypes h₅
    obtain ⟨s₇, s₈, h₆, h⟩ := Track.ends_bind.1 h
    obtain ⟨rfl, rfl⟩ := Track.of_ends_state h₆
    by_cases hsize : s₆.found.size = s.found.size
    · rw [if_pos hsize] at h
      obtain ⟨-, rfl⟩ := Track.of_ends_pure h
      refine ⟨hext.found, fun t ht => hdone t ?_⟩
      rwa [hext.found.eq_of_size hsize] at ht
    · rw [if_neg hsize] at h
      split at h
      · cases h
      · obtain ⟨hle, hall⟩ := ih ((meths_of_growTypes h₅).trans hs) h
        exact ⟨hext.found.trans hle, hall⟩

end Closure

namespace Table

variable {T : Table} {n : Nat}

/-- The types that a type leads to. -/
def spans (T : Table) (t : Ty) : Set Ty := {u | Relation.ReflTransGen (Demands T) t u}

/-- A generic type that passes the check of nesting spans finitely many open types. -/
theorem finite_spans_of_checkTypeNesting {td : TypeDecl} (h : T.checkTypeNesting n td = .ok ()) :
    (T.spans td.selfType).Finite := by
  rw [checkTypeNesting_eq] at h
  obtain ⟨⟨⟩, hsearch, -⟩ := Answer.bind_eq_ok.1 h
  have hends : (T.typeSearch n td).Ends .empty () (T.typeSearch n td .empty).2 :=
    Prod.ext hsearch rfl
  obtain ⟨b, s₁, h₁, h₂⟩ := Track.ends_bind.1 hends
  obtain ⟨k, s₂, h₂, h₃⟩ := Track.ends_bind.1 h₂
  obtain ⟨-, hs₂⟩ := Track.of_ends_pure h₃
  obtain ⟨-, hself⟩ := Closure.of_addType h₁
  obtain ⟨hle, hdone⟩ := Closure.types_of_runFrom (Closure.meths_of_addType h₁) h₂
  refine s₂.found.types.finite_toSet.subset fun u hu => ?_
  induction hu with
  | refl => exact hle.mem_types hself
  | tail _ hd ih =>
    obtain ⟨ds, hds, hmem⟩ := hdone _ ih
    exact hmem _ ((Closure.mem_demanded hds).2 hd)

/-- The check of nesting is made of every generic type. -/
theorem checkTypeNesting_of_checkNesting (h : T.checkNesting n = .ok ()) {td : TypeDecl}
    (htd : td ∈ T.typeDecls) (hformals : td.formals ≠ []) : T.checkTypeNesting n td = .ok () := by
  obtain ⟨⟨⟩, htypes, -⟩ := Answer.bind_eq_ok.1 h
  generalize T.typeDecls = tds at htypes htd
  induction tds with
  | nil => cases htd
  | cons td' tds ih =>
    rw [checkTypesNesting] at htypes
    rcases List.mem_cons.1 htd with rfl | htd
    · rw [if_pos (by simpa using hformals)] at htypes
      obtain ⟨⟨⟩, hok, -⟩ := Answer.bind_eq_ok.1 htypes
      exact hok
    · split at htypes
      · obtain ⟨⟨⟩, -, htypes⟩ := Answer.bind_eq_ok.1 htypes
        exact ih htypes htd
      · exact ih htypes htd

/-! ## What instances demand -/

section Instances

variable {strict : Bool} {rank : String → Nat}

theorem Lawful.embeddedIn_total (h : T.Lawful strict rank) {t : Ty} {scope : List String}
    (ht : t.Scoped (T.vocabulary strict) false scope []) : ∃ us, Closure.embeddedIn T t = .ok us := by
  obtain ⟨v, hv⟩ := h.resolve_total ht
  rw [Closure.embeddedIn, hv]
  cases v <;> exact ⟨_, rfl⟩

/-- What a type demands has an answer where the type is scoped. -/
theorem Lawful.demanded_total (h : T.Lawful strict rank) {t : Ty} {scope : List String}
    (ht : t.Scoped (T.vocabulary strict) false scope []) : ∃ ds, Closure.demanded T t = .ok ds := by
  obtain ⟨us, hus⟩ := h.embeddedIn_total ht
  cases t with
  | named c args =>
    obtain ⟨v, hv⟩ := h.resolve_total ht
    obtain ⟨u, hu⟩ : ∃ u, T.underlying (.named c args) = .ok u := by
      cases resolves_of_resolve hv with
      | step head => exact ⟨_, head⟩
      | stop unnamed => exact unnamed.elim
    obtain ⟨fs, hfs⟩ : ∃ fs, T.structFields (.named c args) = .ok fs := by
      rw [structFields, hv]
      cases v <;> exact ⟨_, rfl⟩
    exact ⟨_, except_bind_eq_ok.2 ⟨fs, hfs, except_bind_eq_ok.2 ⟨u, hu,
      except_bind_eq_ok.2 ⟨us, hus, rfl⟩⟩⟩⟩
  | _ => exact ⟨_, rfl⟩

namespace WellFormed

variable (h : T.WellFormed strict rank)
include h

theorem finite_demands {t : Ty} (ht : t.Closed (T.vocabulary strict)) :
    {d | Demands T t d}.Finite := by
  obtain ⟨ds, hds⟩ := h.lawful.demanded_total ht.sealed.inner
  exact ds.finite_toSet.subset fun d hd => (Closure.mem_demanded hds).2 hd

/-- What a closed type demands is closed. -/
theorem closed_of_demands {t d : Ty} (ht : t.Closed (T.vocabulary strict)) (hd : Demands T t d) :
    d.Closed (T.vocabulary strict) := by
  cases hd with
  | field hfs hf => exact h.keeps_closed.field _ _ ht hfs _ hf
  | source hu _ =>
    obtain ⟨td, htd, hl, rfl⟩ := underlying_eq_ok.1 hu
    exact (h.types _ td htd).source.closed_subst hl ht.args
  | embedded hms hd => exact (closed_of_embed (h.closed_of_resolves ht (resolves_of_resolve hms)) hd).1

section

variable {scope : List String} {ρ : String → Ty} (hρ : Closing (T.vocabulary strict) scope ρ)
include hρ

/-- The chains of an instance end where those of the generic type do, at its arguments. -/
theorem exists_resolve_of_close {c : String} {args : List Ty} {v : Ty}
    (ht : (Ty.named c args).Fit (T.vocabulary strict) scope [])
    (hv : T.Resolves ((Ty.named c args).close ρ) v) :
    ∃ w, T.resolve (.named c args) = .ok w ∧ w.Fit (T.vocabulary strict) scope []
      ∧ ((∃ fs, w = .struct fs) ∨ ∃ ms, w = .interface ms) ∧ v = w.close ρ := by
  obtain ⟨w, hw⟩ := h.lawful.resolve_total ht.scoped.loose
  have hres := resolves_of_resolve hw
  refine ⟨w, hw, h.fit_of_resolves ht hres, ?_, ?_⟩
  · exact (h.lawful.hasSources.struct_or_interface hres).imp_left And.right
  · exact hv.unique (h.lawful.resolves_close hρ.sealing ht.scoped.loose hres rfl)

/-- **What an instance demands is the instance of what the generic type demands.** -/
theorem exists_demands_of_close {t d : Ty} (ht : t.Fit (T.vocabulary strict) scope [])
    (hp : ∀ a, t ≠ .param a) (hd : Demands T (t.close ρ) d) :
    ∃ e, Demands T t e ∧ e.Fit (T.vocabulary strict) scope [] ∧ d = e.close ρ := by
  cases t with
  | param a => exact absurd rfl (hp a)
  | named c args =>
    generalize hc : (Ty.named c args).close ρ = u at hd
    cases hd with
    | field hfs hf =>
      subst hc
      obtain ⟨w, hw, hfit, ⟨gs, rfl⟩ | ⟨ms, rfl⟩, he⟩ :=
        h.exists_resolve_of_close hρ ht (Checker.resolves_of_structFields hfs)
      · rw [Ty.close_struct] at he
        obtain rfl := Ty.struct.inj he
        obtain ⟨g, hg, rfl⟩ := List.mem_map.1 hf
        cases hfit with
        | struct fit => exact ⟨g.ty, .field (by rw [structFields, hw]; rfl) hg, fit g hg, rfl⟩
      · rw [Ty.close_interface] at he
        cases he
    | source hu hn =>
      rw [Ty.close_named] at hc
      obtain ⟨rfl, rfl⟩ := Ty.named.inj hc
      obtain ⟨td, htd, hl, rfl⟩ := underlying_eq_ok.1 hu
      have hl : td.formals.length = args.length := by simpa using hl
      have hproper := h.types _ td htd
      cases ht with
      | named _ flat fit =>
        rw [← hproper.source.spelled.close_subst hproper.formals hl hρ.sealing
          fun a ha => (fit a ha).scoped.loose] at hn ⊢
        refine ⟨_, .source (underlying_eq_ok.2 ⟨td, htd, hl, rfl⟩) ?_,
          hproper.source.fit_subst hl flat fit, rfl⟩
        have hsource := hproper.isSource
        cases hs : td.source <;> simp_all [Ty.isSource, Ty.isNamed, Ty.head?]
    | embedded hms hd =>
      rw [← hc] at hms
      obtain ⟨w, hw, hfit, ⟨gs, rfl⟩ | ⟨ms, rfl⟩, he⟩ :=
        h.exists_resolve_of_close hρ ht (resolves_of_resolve hms)
      · rw [Ty.close_struct] at he
        cases he
      · rw [Ty.close_interface] at he
        obtain rfl := Ty.interface.inj he
        obtain ⟨m, hm, he⟩ := List.mem_map.1 hd
        cases m with
        | method s => cases he
        | embed d as =>
          obtain ⟨rfl, rfl⟩ := Member.embed.inj he
          cases hfit with
          | interface proper fit =>
            obtain ⟨-, hh, hflat⟩ := proper _ hm
            exact ⟨_, .embedded hw hm, .named hh hflat (fit _ hm), (Ty.close_named ..).symm⟩
  | struct fs =>
    rw [Ty.close_struct] at hd
    cases hd with
    | field hfs hf =>
      obtain rfl := Option.some.inj (Except.ok.inj hfs)
      obtain ⟨g, hg, rfl⟩ := List.mem_map.1 hf
      cases ht with
      | struct fit => exact ⟨g.ty, .field rfl hg, fit g hg, rfl⟩
  | interface ms =>
    rw [Ty.close_interface] at hd
    cases hd with
    | field hfs _ => cases hfs
  | prim p =>
    cases hd with
    | field hfs _ => cases hfs
  | var n =>
    cases hd with
    | field hfs _ => cases hfs

end

end WellFormed

end Instances

/-! ## Sets that hold what their members demand -/

/-- The declared types without formals. -/
def roots (T : Table) : Set Ty :=
  {t | ∃ td, T.type? td.name = some td ∧ td.formals = [] ∧ t = td.selfType}

/-- A set holds what its members demand, those without formals apart. -/
def Confines (T : Table) (S : Set Ty) : Prop := ∀ t ∈ S, t ∉ T.roots → ∀ d, Demands T t d → d ∈ S

/-- A set holds what its members demand. -/
def Encloses (T : Table) (S : Set Ty) : Prop := ∀ t ∈ S, ∀ d, Demands T t d → d ∈ S

theorem finite_roots (T : Table) : T.roots.Finite := by
  refine (T.typeDecls.finite_toSet.image TypeDecl.selfType).subset ?_
  rintro _ ⟨td, htd, -, rfl⟩
  exact ⟨td, (mem_of_type? htd).1, rfl⟩

theorem Confines.biUnion {ι : Type} {A : Set ι} {S : ι → Set Ty} (h : ∀ i ∈ A, T.Confines (S i)) :
    T.Confines (⋃ i ∈ A, S i) := by
  intro t ht hroot d hd
  obtain ⟨i, hi, ht⟩ := Set.mem_iUnion₂.1 ht
  exact Set.mem_iUnion₂.2 ⟨i, hi, h i hi t ht hroot d hd⟩

/-- The types that generic types span at their own formals are finitely many. -/
def SpansFinitely (T : Table) : Prop :=
  ∀ td ∈ T.typeDecls, td.formals ≠ [] → (T.spans td.selfType).Finite

/-- The instances of what a generic type spans. -/
def spansAt (T : Table) (strict : Bool) (td : TypeDecl) (ρ : String → Ty) : Set Ty :=
  {u | ∃ e ∈ T.spans td.selfType,
    e.Fit (T.vocabulary strict) (formalNames td.formals) [] ∧ u = e.close ρ}

theorem finite_spansAt {strict : Bool} {td : TypeDecl} (h : (T.spans td.selfType).Finite)
    (ρ : String → Ty) : (T.spansAt strict td ρ).Finite := by
  refine (h.image (Ty.close ρ)).subset ?_
  rintro _ ⟨e, he, -, rfl⟩
  exact ⟨e, he, rfl⟩

theorem spansFinitely_of_checkNesting (h : T.checkNesting n = .ok ()) : T.SpansFinitely :=
  fun _ htd hformals =>
    finite_spans_of_checkTypeNesting (checkTypeNesting_of_checkNesting h htd hformals)

namespace WellFormed

variable {strict : Bool} {rank : String → Nat}

/-- A declared type fits under its own formals. -/
theorem fit_selfType {td : TypeDecl} (htd : T.type? td.name = some td) :
    td.selfType.Fit (T.vocabulary strict) (formalNames td.formals) [] := by
  refine .named ⟨td, htd, by simp [formalArguments]⟩ ?_ ?_
  all_goals
    intro a ha
    obtain ⟨f, hf, rfl⟩ := List.mem_map.1 ha
  · rfl
  · exact .param (List.mem_map_of_mem hf)

theorem closed_of_roots {t : Ty} (ht : t ∈ T.roots) : t.Closed (T.vocabulary strict) := by
  obtain ⟨td, htd, hformals, rfl⟩ := ht
  refine ⟨?_, ?_⟩
  · simpa [hformals, formalNames] using fit_selfType htd
  · simp [TypeDecl.selfType, hformals, formalArguments, Ty.Text]

variable (h : T.WellFormed strict rank) (hspans : T.SpansFinitely)
include h

/-- Instances are confined with their arguments. -/
theorem confines_spansAt {td : TypeDecl} {ρ : String → Ty} {S : Set Ty} (hS : T.Confines S)
    (hρ : Closing (T.vocabulary strict) (formalNames td.formals) ρ)
    (hargs : ∀ a ∈ formalNames td.formals, ρ a ∈ S) :
    T.Confines (S ∪ T.spansAt strict td ρ) := by
  rintro t (ht | ⟨e, he, hfit, rfl⟩) hroot d hd
  · exact .inl (hS t ht hroot d hd)
  · by_cases hp : ∃ a, e = .param a
    · obtain ⟨a, rfl⟩ := hp
      cases hfit with
      | param mem => exact .inl (hS _ (hargs a mem) hroot d hd)
    · obtain ⟨e', hd', hfit', rfl⟩ := h.exists_demands_of_close hρ hfit (fun a ha => hp ⟨a, ha⟩) hd
      exact .inr ⟨e', .tail he hd', hfit', rfl⟩

include hspans

/-- A closed type lies in a finite set that holds what its members demand, those without formals apart. -/
theorem exists_confines {t : Ty} (ht : t.Closed (T.vocabulary strict)) :
    ∃ S : Set Ty, S.Finite ∧ t ∈ S ∧ T.Confines S := by
  induction t using Ty.induction_parts with
  | step t ih =>
    -- The parts of a type are confined, and the union over them is.
    have hparts (hclosed : ∀ a ∈ t.parts, a.Closed (T.vocabulary strict)) :
        ∃ S : Set Ty, S.Finite ∧ (∀ a ∈ t.parts, a ∈ S) ∧ T.Confines S := by
      choose! S hfinite hmem hS using fun a ha => ih a ha (hclosed a ha)
      exact ⟨⋃ a ∈ {a | a ∈ t.parts}, S a, t.parts.finite_toSet.biUnion hfinite,
        fun a ha => Set.mem_biUnion (x := a) ha (hmem a ha), .biUnion hS⟩
    cases t with
    | named c args =>
      obtain ⟨S, hfinite, hmem, hS⟩ := hparts fun a ha => (ht.args a ha).1
      obtain ⟨td, htd, hl⟩ : ∃ td, T.type? c = some td ∧ td.formals.length = args.length := by
        cases ht.fit with
        | named head => exact head
      obtain ⟨htd', rfl⟩ := mem_of_type? htd
      by_cases hformals : td.formals = []
      · have hroot : Ty.named td.name args ∈ T.roots := by
          refine ⟨td, htd, hformals, ?_⟩
          rw [hformals] at hl
          obtain rfl := List.eq_nil_of_length_eq_zero hl.symm
          simp [TypeDecl.selfType, hformals, formalArguments]
        exact ⟨{.named td.name args}, Set.finite_singleton _, rfl, fun u hu hnot =>
          absurd (hu ▸ hroot) hnot⟩
      · have hproper := h.types _ td htd
        have hρ := closing_of_args hl ht.args
        have hself : Ty.named td.name args
            = td.selfType.close (instantiation td.formals args).lookup := by
          rw [TypeDecl.selfType, Ty.close_named, formalArguments, List.map_map, Ty.named.injEq]
          exact ⟨rfl, (map_lookup_instantiation hproper.formals.nodup hl).symm⟩
        refine ⟨_, hfinite.union (finite_spansAt (hspans td htd' hformals) _),
          .inr ⟨td.selfType, .refl, fit_selfType htd, hself⟩,
          h.confines_spansAt hS hρ fun a ha => ?_⟩
        obtain ⟨x, hx, he⟩ := exists_lookup_instantiation hl ha
        exact he ▸ hmem x hx
    | struct fs =>
      obtain ⟨hfit, htext⟩ := ht
      have hfields : ∀ f ∈ fs, f.ty.Closed (T.vocabulary strict) := by
        cases hfit with
        | struct fit => exact fun f hf => ⟨fit f hf, htext.struct f hf⟩
      obtain ⟨S, hfinite, hmem, hS⟩ := hparts (List.forall_mem_map.2 hfields)
      refine ⟨insert (.struct fs) S, hfinite.insert _, .inl rfl, ?_⟩
      rintro u (rfl | hu) hroot d hd
      · cases hd with
        | field hfs hf =>
          obtain rfl := Option.some.inj (Except.ok.inj hfs)
          exact .inr (hmem _ (List.mem_map_of_mem hf))
      · exact .inr (hS u hu hroot d hd)
    | _ =>
      refine ⟨_, Set.finite_singleton _, rfl, ?_⟩
      rintro _ rfl - d hd
      cases hd with
      | field hfs _ => cases hfs

/-- **Finitely many closed types lead to finitely many types** where the generic types pass the check of
nesting. -/
theorem exists_encloses {A : Set Ty} (hA : A.Finite) (hclosed : ∀ t ∈ A, t.Closed (T.vocabulary strict)) :
    ∃ G : Set Ty, G.Finite ∧ A ⊆ G ∧ T.Encloses G := by
  have hdemands (t : Ty) (ht : t ∈ T.roots) : {d | Demands T t d}.Finite :=
    h.finite_demands (closed_of_roots ht)
  let B := A ∪ ⋃ t ∈ T.roots, {d | Demands T t d}
  have hB : ∀ t ∈ B, t.Closed (T.vocabulary strict) := by
    rintro t (ht | ht)
    · exact hclosed t ht
    · obtain ⟨r, hr, hd⟩ := Set.mem_iUnion₂.1 ht
      exact h.closed_of_demands (closed_of_roots hr) hd
  choose! S hfinite hmem hS using fun t ht => h.exists_confines hspans (hB t ht)
  have hsub {t : Ty} (ht : t ∈ B) : t ∈ ⋃ b ∈ B, S b := Set.mem_biUnion ht (hmem t ht)
  refine ⟨⋃ b ∈ B, S b, (hA.union (T.finite_roots.biUnion hdemands)).biUnion hfinite,
    fun t ht => hsub (.inl ht), fun t ht d hd => ?_⟩
  by_cases hroot : t ∈ T.roots
  · exact hsub (.inr (Set.mem_biUnion hroot hd))
  · exact Confines.biUnion hS t ht hroot d hd

end WellFormed

end Table

end FeatherGo
