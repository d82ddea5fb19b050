import FeatherGo.Proofs.Declarations.Acyclic
import FeatherGo.Proofs.Declarations.Founded
import FeatherGo.Proofs.Methods.Limit
import FeatherGo.Proofs.Settling
import FeatherGo.Proofs.Typing.Uniform

/-!
# Gathering methods comes to an end

Gathering the methods of a type goes from a type parameter to its bound, from an interface to those it
embeds, and, on a declared struct, through the bounds of receivers to the arguments of the type. The
last is what makes the recursion delicate: arguments may be anything. It ends if bounds are interfaces
that can be gathered without looking at arguments, that is, if no bound and no embedded name is one of
a struct (`Table.Founded`). Embedding lowers the rank of acyclic declarations, and where arguments are
looked at they are parts of the type at hand.
-/

namespace FeatherGo

open Answer (Settles)
open Answer.Trait (settling)

namespace Table

variable {T : Table}

/-- What the definition chain of a name ends in: a struct, or an interface whose embedded names are no
structs and rank lower. -/
theorem Founded.resolves (hT : T.Founded) {rank : String → Nat} (hr : T.Ranking rank) {c : String}
    {args : List Ty} {v : Ty} (h : T.Resolves (.named c args) v) :
    (T.NamesStruct c ∧ ∃ fs, v = .struct fs)
      ∨ ∃ ms, v = .interface ms ∧ T.EmbedsNoStruct ms
        ∧ ∀ c' args', .embed c' args' ∈ ms → (T.type? c').isSome → rank c' < rank c := by
  rcases hT.sources.struct_or_interface h with hstruct | ⟨ms, rfl⟩
  · exact .inl hstruct
  · obtain ⟨ms', η, hlists, rfl⟩ := hT.sources.lists_of_resolves h
    obtain ⟨d, td, htd, hs⟩ := hlists.exists_source
    refine .inr ⟨_, rfl, (hT.embeds td (mem_of_type? htd).1 ms' hs).subst η, fun c' args' hm hsome => ?_⟩
    obtain ⟨as, hm', -⟩ := exists_of_embed_mem_map hm
    exact hlists.rank_lt hr hm' hsome

variable {Δ : Bounds}

theorem settles_methods_of_gather {t : Ty} (h : Settles fun n => T.gather Δ (T.methods Δ n) t) :
    Settles fun n => T.methods Δ n t :=
  .succ (by simpa only [methods_succ] using h)

theorem settles_methods_of_resolve_error {c : String} {args : List Ty}
    (h : ∀ v, T.resolve (.named c args) ≠ .ok v) : Settles fun n => T.methods Δ n (.named c args) := by
  refine settles_methods_of_gather ?_
  simp only [gather]
  cases hv : T.resolve (.named c args) with
  | error e => exact .error e
  | ok v => exact absurd hv (h v)

/-- The methods of an interface are gathered if those of what it embeds are. -/
theorem settles_methods_interface {ms : List Member}
    (h : ∀ c args, .embed c args ∈ ms → Settles fun n => T.methods Δ n (.named c args)) :
    Settles fun n => T.methods Δ n (.interface ms) :=
  settles_methods_of_gather (settling.memberMethods (F := T.methods Δ) [] h)

/-- The methods of a name that names no struct are gathered without looking at arguments or at the
context: what an interface embeds ranks lower. -/
theorem Founded.settles_abstract (hT : T.Founded) {rank : String → Nat} (hr : T.Ranking rank)
    {c : String} (hc : ¬T.NamesStruct c) (args : List Ty) :
    Settles fun n => T.methods Δ n (.named c args) := by
  induction hk : rank c using Nat.strongRecOn generalizing c args with
  | ind k ih =>
    by_cases hv : ∃ v, T.resolve (.named c args) = .ok v
    · obtain ⟨v, hv⟩ := hv
      rcases hT.resolves hr (resolves_of_resolve hv) with ⟨hstruct, -⟩ | ⟨ms, rfl, hembeds, hrank⟩
      · exact absurd hstruct hc
      · refine settles_methods_of_gather ?_
        simp only [gather, hv]
        refine settles_methods_interface fun c' args' hm => ?_
        by_cases hsome : (T.type? c').isSome
        · exact ih _ (hk ▸ hrank c' args' hm hsome) (hembeds c' args' hm) args' rfl
        · refine settles_methods_of_resolve_error fun v hv => ?_
          cases resolves_of_resolve hv with
          | stop unnamed => exact unnamed.elim
          | step head _ =>
            obtain ⟨td, htd, -⟩ := underlying_eq_ok.1 head
            exact hsome (by rw [htd]; rfl)
    · exact settles_methods_of_resolve_error fun v h => hv ⟨v, h⟩

/-- The methods of what may bound are gathered under every context. -/
theorem Founded.settles_bound (hT : T.Founded) {rank : String → Nat} (hr : T.Ranking rank) {t : Ty}
    (ht : T.MayBound t) : Settles fun n => T.methods Δ n t := by
  cases t with
  | prim p => exact settles_methods_of_gather (.ok _)
  | named c args => exact hT.settles_abstract hr ht args
  | interface ms =>
    exact settles_methods_interface fun c args hm => hT.settles_abstract hr (ht c args hm) args
  | _ => exact ht.elim

/-- **Gathering methods ends** for every type, in acyclic declarations and under bounds that may
bound. -/
theorem Founded.settles_methods (hT : T.Founded) {rank : String → Nat} (hr : T.Ranking rank)
    (hΔ : Δ.All T.MayBound) (t : Ty) : Settles fun n => T.methods Δ n t := by
  -- A declared type asks for its arguments and for bounds of receivers.
  have hnamed (c : String) {args : List Ty} (ih : ∀ a ∈ args, Settles fun n => T.methods Δ n a) :
      Settles fun n => T.methods Δ n (.named c args) := by
    by_cases hv : ∃ v, T.resolve (.named c args) = .ok v
    · obtain ⟨v, hv⟩ := hv
      refine settles_methods_of_gather ?_
      simp only [gather, hv]
      rcases hT.resolves hr (resolves_of_resolve hv) with ⟨-, fs, rfl⟩ | ⟨ms, rfl, hembeds, -⟩
      · refine settling.declaredMethods (T := fun _ => T) (F := T.methods Δ) [] fun md hmd => ?_
        refine settling.receiverBy (fun _ => .refl T) ih fun f hf => ?_
        exact hT.settles_bound hr (((hT.methods md (List.mem_of_mem_filter hmd)).recvFormals f hf).1.subst _)
      · exact hT.settles_bound hr hembeds
    · exact settles_methods_of_resolve_error fun v h => hv ⟨v, h⟩
  induction t using Ty.induction_parts with
  | step t ih =>
    cases t with
    | named c args => exact hnamed c ih
    | interface ms =>
      refine settles_methods_interface fun c args hm => hnamed c fun a ha => ih a ?_
      exact List.mem_flatMap.2 ⟨_, hm, ha⟩
    | param p =>
      refine settles_methods_of_gather ?_
      simp only [gather]
      cases hb : Δ.boundOf p with
      | error e => exact .error e
      | ok b => exact hT.settles_bound hr (hΔ _ (Env.mem_of_find? (boundOf_eq_ok.1 hb)))
    | _ => exact settles_methods_of_gather (.ok _)

end Table

end FeatherGo
