import FeatherGo.Proofs.Methods.Total
import FeatherGo.Proofs.Typing.Founded

/-!
# What interfaces offer

The names of the methods that an interface offers are settled by its declaration: neither the arguments
nor the bounding context play a role (`Table.Offers`). The check of an interface refuses a name that two
of its members bring (`Table.Apart`), and arguments cannot bring one back. So what an interface embeds
is not hidden by another member, and is offered with the signature that it has
(`Table.Shaped.embedded_of_methods`).
-/

namespace FeatherGo

namespace MethodSet

theorem mem_names {S : MethodSet} {x : String} : x ∈ S.names ↔ (S.find? x).isSome := by
  simp [names, find?, List.find?_isSome]

theorem mem_names_add {s : Signature} {S : MethodSet} (h : S.Sorted) {x : String} :
    x ∈ (S.add s).names ↔ x ∈ S.names ∨ s.name = x := by
  rw [mem_names, mem_names, find?_add h, Option.isSome_or]
  by_cases hx : s.name = x <;> simp [hx]

theorem mem_names_union {S E : MethodSet} (h : S.Sorted) {x : String} :
    x ∈ (S.union E).names ↔ x ∈ S.names ∨ x ∈ E.names := by
  rw [mem_names, mem_names, mem_names, find?_union h, Option.isSome_or, Bool.or_eq_true]

end MethodSet

namespace Table

variable {T : Table}

/-! ## Names of methods -/

/-- The interface of a declared name offers a method of some name: it lists it, or embeds an interface
that offers it. -/
inductive Offers (T : Table) : String → String → Prop
  | listed {c : String} {ms : List Member} {s : Signature} (lists : T.Lists c ms)
      (member : .method s ∈ ms) : Offers T c s.name
  | embedded {c d x : String} {ms : List Member} {args : List Ty} (lists : T.Lists c ms)
      (member : .embed d args ∈ ms) (next : Offers T d x) : Offers T c x

/-- A member brings a method of some name to the interface that has it. -/
def Brings (T : Table) (x : String) : Member → Prop
  | .method s => s.name = x
  | .embed c _ => T.Offers c x

/-- An interface type offers a method of some name. -/
def OffersAt (T : Table) (x : String) : Ty → Prop
  | .named c _ => T.Offers c x
  | .interface ms => ∃ m ∈ ms, T.Brings x m
  | _ => False

/-- No two members bring methods of one name. -/
def Apart (T : Table) (ms : List Member) : Prop :=
  ms.Pairwise fun m m' => ∀ x, T.Brings x m → ¬T.Brings x m'

theorem Lists.offers_iff {c : String} {ms : List Member} (h : T.Lists c ms) {x : String} :
    T.Offers c x ↔ ∃ m ∈ ms, T.Brings x m := by
  constructor
  · intro hx
    cases hx with
    | listed lists member =>
      obtain rfl := h.unique lists
      exact ⟨_, member, rfl⟩
    | embedded lists member next =>
      obtain rfl := h.unique lists
      exact ⟨_, member, next⟩
  · rintro ⟨m, hm, hx⟩
    cases m with
    | method s => exact hx ▸ .listed h hm
    | embed d args => exact .embedded h hm hx

@[simp] theorem brings_subst {x : String} {m : Member} {η : Env Ty} :
    T.Brings x (m.subst η) ↔ T.Brings x m := by
  cases m with
  | method s => simp [Brings]
  | embed c args => simp [Brings]

theorem Apart.subst {ms : List Member} (h : T.Apart ms) (η : Env Ty) :
    T.Apart (ms.map (Member.subst η)) :=
  List.pairwise_map.2 (h.imp fun hne x hx hx' => hne x (brings_subst.1 hx) (brings_subst.1 hx'))

/-- What members offer has the names that they bring, beyond those gathered before. -/
theorem mem_names_memberMethods {f : Finder} {ms : List Member} {acc S : MethodSet}
    (h : memberMethods f ms acc = .ok S) (ha : acc.Sorted)
    (hf : ∀ c args, .embed c args ∈ ms → ∀ E, f (.named c args) = .ok E →
      ∀ x, x ∈ E.names ↔ T.Offers c x) (x : String) :
    x ∈ S.names ↔ x ∈ acc.names ∨ ∃ m ∈ ms, T.Brings x m := by
  induction ms generalizing acc with
  | nil => simp [← Answer.ok.inj h]
  | cons m ms ih =>
    have hrest : ∀ c args, .embed c args ∈ ms → ∀ E, f (.named c args) = .ok E →
        ∀ x, x ∈ E.names ↔ T.Offers c x := fun c args hm => hf c args (List.mem_cons_of_mem _ hm)
    rw [List.exists_mem_cons_iff, ← or_assoc]
    cases m with
    | method s =>
      rw [ih h (MethodSet.sorted_add ha) hrest, MethodSet.mem_names_add ha, Brings]
    | embed c args =>
      obtain ⟨E, hE, hS⟩ := Answer.bind_eq_ok.1 h
      rw [ih hS (MethodSet.sorted_union ha) hrest, MethodSet.mem_names_union ha,
        hf c args List.mem_cons_self E hE, Brings]

/-- What has been gathered stays. -/
theorem find?_memberMethods {f : Finder} {ms : List Member} {acc S : MethodSet}
    (h : memberMethods f ms acc = .ok S) (ha : acc.Sorted) {x : String} {s : Signature}
    (hs : acc.find? x = some s) : S.find? x = some s := by
  induction ms generalizing acc with
  | nil => exact Answer.ok.inj h ▸ hs
  | cons m ms ih =>
    cases m with
    | method s' =>
      refine ih h (MethodSet.sorted_add ha) ?_
      rw [MethodSet.find?_add ha, hs, Option.some_or]
    | embed c args =>
      obtain ⟨E, -, hS⟩ := Answer.bind_eq_ok.1 h
      refine ih hS (MethodSet.sorted_union ha) ?_
      rw [MethodSet.find?_union ha, hs, Option.some_or]

/-- What is embedded is gathered with the signatures that it has, unless their names are taken. -/
theorem find?_memberMethods_of_embed {f : Finder} {ms : List Member} {acc S : MethodSet}
    (h : memberMethods f ms acc = .ok S) (ha : acc.Sorted) (hapart : T.Apart ms)
    (hf : ∀ c args, .embed c args ∈ ms → ∀ E, f (.named c args) = .ok E →
      ∀ x, x ∈ E.names ↔ T.Offers c x)
    {c : String} {args : List Ty} (hm : .embed c args ∈ ms) {E : MethodSet}
    (hE : f (.named c args) = .ok E) {x : String} {s : Signature} (hs : E.find? x = some s)
    (hnew : x ∉ acc.names) : S.find? x = some s := by
  have hx : T.Offers c x := (hf c args hm E hE x).1 (MethodSet.mem_names.2 (by simp [hs]))
  induction ms generalizing acc with
  | nil => cases hm
  | cons m ms ih =>
    obtain ⟨hhead, htail⟩ := List.pairwise_cons.1 hapart
    have hrest : ∀ c args, .embed c args ∈ ms → ∀ E, f (.named c args) = .ok E →
        ∀ x, x ∈ E.names ↔ T.Offers c x := fun c args hm => hf c args (List.mem_cons_of_mem _ hm)
    rcases List.mem_cons.1 hm with rfl | hlater
    · obtain ⟨E', hE', hS⟩ := Answer.bind_eq_ok.1 h
      obtain rfl := Answer.ok.inj (hE.symm.trans hE')
      refine find?_memberMethods hS (MethodSet.sorted_union ha) ?_
      rw [MethodSet.mem_names, Option.not_isSome_iff_eq_none] at hnew
      rw [MethodSet.find?_union ha, hnew, Option.none_or, hs]
    · -- The head brings other names than what is embedded behind it.
      have hother : ¬T.Brings x m := fun hx' => hhead _ hlater x hx' hx
      cases m with
      | method s' =>
        refine ih h (MethodSet.sorted_add ha) htail hrest hlater ?_
        rw [MethodSet.mem_names_add ha]
        exact not_or.2 ⟨hnew, hother⟩
      | embed c' args' =>
        obtain ⟨E', hE', hS⟩ := Answer.bind_eq_ok.1 h
        refine ih hS (MethodSet.sorted_union ha) htail hrest hlater ?_
        rw [MethodSet.mem_names_union ha, hf c' args' List.mem_cons_self E' hE']
        exact not_or.2 ⟨hnew, hother⟩

namespace Shaped

variable {rank : String → Nat} (h : T.Shaped rank) {Δ : Bounds}
include h

/-- **What an interface offers has the names that its declaration settles.** -/
theorem mem_names_methods {n : Nat} {t : Ty} (ht : T.Headed t) (hi : T.InterfaceType t)
    {S : MethodSet} (hS : T.methods Δ n t = .ok S) (x : String) :
    x ∈ S.names ↔ T.OffersAt x t := by
  induction n generalizing t S x with
  | zero => cases hS
  | succ n ih =>
    rw [methods_succ] at hS
    cases t with
    | interface ms =>
      rw [mem_names_memberMethods hS .nil fun c args hm E hE x =>
        ih (ht.embedded hm).2 (ht.embedded hm).1 hE x]
      simp [MethodSet.names, OffersAt]
    | named c args =>
      obtain ⟨v, hv, hS⟩ := Answer.bind_eq_ok.1 hS
      rw [Answer.liftExcept_eq, Answer.ofExcept_eq_ok] at hv
      have hres := resolves_of_resolve hv
      obtain ⟨ms, rfl⟩ := (h.sources.resolves_interface_iff hres).2 hi
      obtain ⟨ms', η, hlists, rfl⟩ := h.sources.lists_of_resolves hres
      rw [ih (h.headed_of_resolves ht hres) trivial hS, OffersAt, OffersAt, hlists.offers_iff]
      simp only [List.mem_map, exists_exists_and_eq_and, brings_subst]
    | _ => exact hi.elim

/-- **What an interface embeds is offered with the signatures that it has**, if no two members bring
methods of one name. -/
theorem embedded_of_methods {ms : List Member} (ht : T.Headed (.interface ms)) (hapart : T.Apart ms)
    {c : String} {args : List Ty} (hm : .embed c args ∈ ms) {S E : MethodSet}
    (hS : T.allMethods Δ (.interface ms) = .ok S) (hE : T.allMethods Δ (.named c args) = .ok E)
    {x : String} {s : Signature} (hs : E.find? x = some s) : S.find? x = some s := by
  rw [allMethods_interface] at hS
  refine find?_memberMethods_of_embed hS .nil hapart (fun d ds hd D hD x => ?_) hm hE hs
    List.not_mem_nil
  obtain ⟨n, hn⟩ := (T.growing_methods Δ (.named d ds)).exists_eq_limit
  exact h.mem_names_methods (ht.embedded hd).2 (ht.embedded hd).1 (hn.trans hD) x

end Shaped

/-! ## What checks establish -/

variable {n : Nat} {Δ : Bounds}

/-- A type that passes its check unfolds. -/
theorem headed_of_okType (hs : T.HasSources) {t : Ty} (h : T.okType n Δ t = .ok ()) :
    T.Headed t := by
  cases t with
  | named c args =>
    obtain ⟨td, htd, -⟩ := Answer.bind_eq_ok.1 h
    exact ⟨td, applied_eq_ok.1 (Answer.ofExcept_eq_ok.1 htd)⟩
  | interface ms =>
    intro c args hm
    obtain ⟨⟨td, htd, -⟩, -, hi⟩ := of_okMembers h _ hm
    exact ⟨(hs.namesInterface_iff hi).1 rfl, td, applied_eq_ok.1 htd⟩
  | _ => trivial

/-- Names that are added were not there. -/
theorem of_newMembers {whole : Ty} {names seen seen' : List String}
    (h : newMembers whole names seen = .ok seen') :
    (∀ x ∈ names, x ∉ seen) ∧ ∀ x, x ∈ seen' ↔ x ∈ names ∨ x ∈ seen := by
  induction names generalizing seen with
  | nil =>
    obtain rfl := Except.ok.inj h
    simp
  | cons m names ih =>
    rw [newMembers] at h
    split at h
    · cases h
    · rename_i hm
      obtain ⟨hnew, hmem⟩ := ih h
      refine ⟨List.forall_mem_cons.2 ⟨hm, fun x hx hs => hnew x hx (List.mem_cons_of_mem _ hs)⟩,
        fun x => ?_⟩
      rw [hmem, List.mem_cons, List.mem_cons]
      tauto

/-- The check of members refuses a name that two of them bring. -/
theorem Shaped.apart_of_okMembers {rank : String → Nat} (h : T.Shaped rank) {whole : Ty}
    {seen : List String} {ms : List Member} (hok : T.okMembers n Δ whole seen ms = .ok ()) :
    T.Apart ms ∧ ∀ m ∈ ms, ∀ x, T.Brings x m → x ∉ seen := by
  induction ms generalizing seen with
  | nil => exact ⟨.nil, nofun⟩
  | cons m ms ih =>
    -- A step adds the names that the head brings to those seen before.
    suffices hstep : ∃ seen', (∀ x, T.Brings x m → x ∉ seen)
        ∧ (∀ x, T.Brings x m ∨ x ∈ seen → x ∈ seen') ∧ T.okMembers n Δ whole seen' ms = .ok () by
      obtain ⟨seen', hnew, hmem, hok⟩ := hstep
      obtain ⟨hapart, hrest⟩ := ih hok
      refine ⟨List.pairwise_cons.2 ⟨fun m' hm' x hx hx' => ?_, hapart⟩,
        List.forall_mem_cons.2 ⟨hnew, fun m' hm' x hx hs => ?_⟩⟩
      · exact hrest m' hm' x hx' (hmem x (.inl hx))
      · exact hrest m' hm' x hx (hmem x (.inr hs))
    cases m with
    | method s =>
      obtain ⟨⟨⟩, -, hok⟩ := Answer.bind_eq_ok.1 hok
      obtain ⟨seen', hseen, hok⟩ := Answer.bind_eq_ok.1 hok
      rw [Answer.liftExcept_eq, Answer.ofExcept_eq_ok] at hseen
      obtain ⟨hnew, hmem⟩ := of_newMembers hseen
      refine ⟨seen', fun x hx => hx ▸ hnew s.name (List.mem_singleton_self _), fun x hx => ?_, hok⟩
      exact (hmem x).2 (hx.imp_left fun hx => List.mem_singleton.2 hx.symm)
    | embed c args =>
      obtain ⟨td, htd, hok⟩ := Answer.bind_eq_ok.1 hok
      obtain ⟨⟨⟩, -, hok⟩ := Answer.bind_eq_ok.1 hok
      obtain ⟨⟨⟩, -, hok⟩ := Answer.bind_eq_ok.1 hok
      obtain ⟨b, hb, hok⟩ := Answer.bind_eq_ok.1 hok
      rw [Answer.liftExcept_eq, Answer.ofExcept_eq_ok] at htd hb
      cases b with
      | false => cases hok
      | true =>
        obtain ⟨offered, hoffered, hok⟩ := Answer.bind_eq_ok.1 hok
        obtain ⟨seen', hseen, hok⟩ := Answer.bind_eq_ok.1 hok
        rw [Answer.liftExcept_eq, Answer.ofExcept_eq_ok] at hseen
        obtain ⟨hnew, hmem⟩ := of_newMembers hseen
        have hheaded : T.Headed (.named c args) := ⟨td, applied_eq_ok.1 htd⟩
        have hnames : ∀ x, x ∈ offered.names ↔ T.Offers c x :=
          h.mem_names_methods hheaded ((h.sources.namesInterface_iff hb).1 rfl) hoffered
        refine ⟨seen', fun x hx => hnew x ((hnames x).2 hx), fun x hx => ?_, hok⟩
        exact (hmem x).2 (hx.imp_left (hnames x).2)

/-- The members that a declared interface lists are apart where sources are well formed. -/
theorem Shaped.apart_of_lists {rank : String → Nat} (h : T.Shaped rank)
    (hsources : ∀ c td, T.type? c = some td → T.okType n (Bounds.extend [] td.formals) td.source = .ok ()) :
    ∀ c ms, T.Lists c ms → T.Apart ms := by
  intro c ms hlists
  obtain ⟨d, td, htd, hsource⟩ := hlists.exists_source
  have hok := hsources d td htd
  rw [hsource] at hok
  exact (h.apart_of_okMembers hok).1

end Table

namespace Checker

variable {C : Checker} {decls decls' : List Decl}

/-- **Declarations that pass their checks unfold**, and the members of their interfaces bring different
names. -/
theorem shaped_of_checkDecls (hT : Table.ofDecls decls = .ok C.table)
    (h : C.checkDecls decls = .ok decls') :
    ∃ rank, C.table.Shaped rank ∧ ∀ c ms, C.table.Lists c ms → C.table.Apart ms := by
  obtain ⟨hacyclic, -⟩ := of_checkDecls h
  obtain ⟨rank, hrank⟩ := Table.exists_ranking hacyclic
  have htypes {c : String} {td : TypeDecl} (htd : C.table.type? c = some td) :=
    Table.of_checkTypeDecl ((checked_of_checkDecls hT h).1 c td htd).2
  have hsources : C.table.HasSources := fun c td htd => (htypes htd).1
  have hshaped : C.table.Shaped rank :=
    ⟨hrank, hsources, fun c td htd => Table.headed_of_okType hsources (htypes htd).2.2⟩
  exact ⟨rank, hshaped, hshaped.apart_of_lists fun c td htd => (htypes htd).2.2⟩

end Checker

end FeatherGo
