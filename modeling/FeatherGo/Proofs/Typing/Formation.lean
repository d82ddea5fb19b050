import FeatherGo.Proofs.Methods.Interfaces
import FeatherGo.Proofs.Methods.Substituted
import FeatherGo.Proofs.Typing.Check

/-!
# Well-formed types without formals of their own

A type in which no signature binds formals is checked under one context throughout. So it is well formed
if each type in it is at its head (`Table.Formed`), and this is what the check finds
(`Table.formed_of_okType`, `Table.okType_of_formed`).
-/

namespace FeatherGo

/-- What holds of each member of a list from some number on holds of all of them from some number on. -/
theorem exists_forall_ge {α : Type} {P : Nat → α → Prop} {l : List α}
    (h : ∀ x ∈ l, ∃ N, ∀ m ≥ N, P m x) : ∃ N, ∀ m ≥ N, ∀ x ∈ l, P m x := by
  induction l with
  | nil => exact ⟨0, fun _ _ => List.forall_mem_nil _⟩
  | cons x l ih =>
    rw [List.forall_mem_cons] at h
    obtain ⟨N, hN⟩ := h.1
    obtain ⟨M, hM⟩ := ih h.2
    exact ⟨max N M, fun m hm => List.forall_mem_cons.2
      ⟨hN m (le_of_max_le_left hm), hM m (le_of_max_le_right hm)⟩⟩

theorem Bounds.extend_nil (Δ : Bounds) : Δ.extend [] = Δ := List.append_nil Δ

theorem MethodSet.nodup_names {S : MethodSet} (h : S.Sorted) : S.names.Nodup := by
  rw [names, List.Nodup, List.pairwise_map]
  exact h.imp fun {a b} hlt (he : a.name = b.name) => String.lt_irrefl b.name (he ▸ hlt)

namespace Table

variable {T : Table} {strict : Bool} {rank : String → Nat} {n : Nat} {Δ : Bounds}

/-! ## Types that are formed -/

/-- A declared name may be applied to types under a context. -/
def Applies (T : Table) (Δ : Bounds) (c : String) (args : List Ty) : Prop :=
  ∃ td, T.type? c = some td ∧ T.Within Δ td.formals args

/-- At its head an interface member is well formed and binds no formals. -/
def FormedMember (T : Table) (Δ : Bounds) : Member → Prop
  | .method s => s.formals = [] ∧ (s.params.map (·.name)).Nodup
  | .embed c args => T.NamesInterface c ∧ T.Applies Δ c args

/-- At its head a type is well formed and binds no formals. -/
def FormedHead (T : Table) (Δ : Bounds) : Ty → Prop
  | .param a => a ∈ Δ.names
  | .named c args => T.Applies Δ c args
  | .prim _ | .var _ => True
  | .struct fs => (fs.map (·.name)).Nodup
  | .interface ms => T.Apart ms ∧ ∀ m ∈ ms, T.FormedMember Δ m

/-- A type is well formed and binds no formals. -/
def Formed (T : Table) (Δ : Bounds) (t : Ty) : Prop := t.Everywhere (T.FormedHead Δ)

namespace Formed

variable {t : Ty}

theorem of_parts (hhead : T.FormedHead Δ t) (hparts : ∀ u ∈ t.parts, T.Formed Δ u) : T.Formed Δ t :=
  Ty.Everywhere.iff_parts.2 ⟨hhead, hparts⟩

theorem part (h : T.Formed Δ t) {u : Ty} (hu : u ∈ t.parts) : T.Formed Δ u := h.of_mem_parts hu

theorem args {c : String} {args : List Ty} (h : T.Formed Δ (.named c args)) :
    ∀ a ∈ args, T.Formed Δ a := fun _ ha => h.part ha

/-- What a formed interface embeds is formed. -/
theorem embedded {ms : List Member} (h : T.Formed Δ (.interface ms)) {c : String} {args : List Ty}
    (hm : .embed c args ∈ ms) : T.NamesInterface c ∧ T.Formed Δ (.named c args) := by
  obtain ⟨hi, happlies⟩ := h.self.2 _ hm
  exact ⟨hi, .of_parts happlies fun a ha => h.part (Ty.mem_parts_of_embed hm ha)⟩

/-- Formed types bind no formals. -/
theorem bound_eq_nil (h : T.FormedHead Δ t) : t.bound = [] := by
  cases t with
  | interface ms =>
    refine List.flatMap_eq_nil_iff.2 fun m hm => ?_
    cases m with
    | method s =>
      obtain ⟨hf, -⟩ := h.2 _ hm
      rw [Member.formalNames, Signature.formalNames, hf, List.map_nil]
    | embed c args => rfl
  | _ => rfl

theorem binders_eq_nil (h : T.Formed Δ t) : t.binders = [] :=
  List.flatMap_eq_nil_iff.2 fun u hu => bound_eq_nil (h u hu)

end Formed

/-- Formed types are scoped. -/
theorem Formed.scoped {t : Ty} (h : T.Formed Δ t) :
    t.Scoped (T.vocabulary strict) false Δ.names [] := by
  have happlies {c : String} {args : List Ty} (h : T.Applies Δ c args) :
      (T.vocabulary strict).heads c args.length := by
    obtain ⟨td, htd, hwithin⟩ := h
    exact ⟨td, htd, hwithin.length⟩
  induction t using Ty.induction with
  | param a => exact .param h.self
  | named c args ih => exact .named (happlies h.self) fun a ha => ih a ha (h.args a ha)
  | prim p => exact .prim p
  | struct fs ih => exact .struct fun f hf => ih f hf (h.part (List.mem_map_of_mem hf))
  | interface ms ih =>
    have hnames {m : Member} (hm : m ∈ ms) : m.formalNames = [] :=
      List.flatMap_eq_nil_iff.1 (Formed.bound_eq_nil h.self) m hm
    refine .interface (fun m hm => ?_) fun m hm u hu => ?_
    · cases m with
      | method s =>
        have hformals : s.formalNames = [] := hnames hm
        exact ⟨by simp [hformals], by simp [hformals]⟩
      | embed c args =>
        obtain ⟨hi, hc⟩ := h.self.2 _ hm
        exact ⟨hi, happlies hc⟩
    · rw [hnames hm]
      exact ih m hm u hu (h.part (List.mem_flatMap.2 ⟨m, hm, hu⟩))
  | var v => exact .var v

theorem Formed.clear {t : Ty} (h : T.Formed Δ t) (names : List String) :
    t.Clear (T.vocabulary strict) names Δ.names := by
  refine .of_scoped h.scoped fun f hf => ?_
  rw [h.binders_eq_nil] at hf
  cases hf

/-! ## What the check finds -/

theorem okTypes_eq_ok {ts : List Ty} (h : ∀ t ∈ ts, T.okType n Δ t = .ok ()) :
    T.okTypes n Δ ts = .ok () := by
  induction ts with
  | nil => rfl
  | cons t ts ih =>
    obtain ⟨ht, hts⟩ := List.forall_mem_cons.1 h
    exact Answer.bind_eq_ok.2 ⟨(), ht, ih hts⟩

/-- Slots with distinct names beyond those seen, one by one. -/
theorem distinct_cons {Q : Slot → Prop} {f : Slot} {fs : List Slot} {seen : List String} :
    (((f :: fs).map (·.name)).Nodup ∧ ∀ g ∈ f :: fs, g.name ∉ seen ∧ Q g)
      ↔ f.name ∉ seen ∧ Q f ∧ (fs.map (·.name)).Nodup ∧ ∀ g ∈ fs, g.name ∉ f.name :: seen ∧ Q g := by
  rw [List.map_cons, List.nodup_cons, List.forall_mem_cons]
  simp only [List.mem_map, List.mem_cons, not_or]
  constructor
  · rintro ⟨⟨hf, hn⟩, ⟨hseen, hQ⟩, h⟩
    exact ⟨hseen, hQ, hn, fun g hg => ⟨⟨fun he => hf ⟨g, hg, he⟩, (h g hg).1⟩, (h g hg).2⟩⟩
  · rintro ⟨hseen, hQ, hn, h⟩
    refine ⟨⟨?_, hn⟩, ⟨hseen, hQ⟩, fun g hg => ⟨(h g hg).1.2, (h g hg).2⟩⟩
    rintro ⟨g, hg, he⟩
    exact (h g hg).1.1 he

theorem okFields_iff {whole : Ty} {seen : List String} {fs : List Slot} :
    T.okFields n Δ whole seen fs = .ok () ↔ (fs.map (·.name)).Nodup
      ∧ ∀ f ∈ fs, f.name ∉ seen ∧ T.okType n Δ f.ty = .ok () := by
  induction fs generalizing seen with
  | nil => simp [okFields]
  | cons f fs ih =>
    obtain ⟨x, t⟩ := f
    rw [distinct_cons, ← ih, okFields]
    by_cases hx : x ∈ seen
    · simp [hx]
    · rw [if_neg hx, Answer.bind_eq_ok]
      exact ⟨fun ⟨_, h⟩ => ⟨hx, h⟩, fun h => ⟨(), h.2⟩⟩

theorem okParams_iff {meth : String} {seen : List String} {ps : List Slot} :
    T.okParams n Δ meth seen ps = .ok () ↔ (ps.map (·.name)).Nodup
      ∧ ∀ p ∈ ps, p.name ∉ seen ∧ T.okType n Δ p.ty = .ok () := by
  induction ps generalizing seen with
  | nil => simp [okParams]
  | cons p ps ih =>
    obtain ⟨x, t⟩ := p
    rw [distinct_cons, ← ih, okParams]
    by_cases hx : x ∈ seen
    · simp [hx]
    · rw [if_neg hx, Answer.bind_eq_ok]
      exact ⟨fun ⟨_, h⟩ => ⟨hx, h⟩, fun h => ⟨(), h.2⟩⟩

/-- The check of a signature without formals. -/
theorem okSignature_iff {s : Signature} (hs : s.formals = []) :
    T.okSignature n Δ s = .ok () ↔ (s.params.map (·.name)).Nodup
      ∧ ∀ u ∈ s.types, T.okType n Δ u = .ok () := by
  obtain ⟨m, fs, ps, r⟩ := s
  obtain rfl : fs = [] := hs
  rw [Signature.forall_types, okSignature, clashingFormal?, Bounds.extend_nil]
  dsimp only
  rw [okBounds, Answer.ok_bind, Answer.bind_eq_ok]
  constructor
  · rintro ⟨⟨⟩, hps, hr⟩
    obtain ⟨hn, hps⟩ := okParams_iff.1 hps
    exact ⟨hn, List.forall_mem_nil _, fun p hp => (hps p hp).2, hr⟩
  · rintro ⟨hn, -, hps, hr⟩
    exact ⟨(), okParams_iff.2 ⟨hn, fun p hp => ⟨List.not_mem_nil, hps p hp⟩⟩, hr⟩

theorem newMembers_eq_ok (whole : Ty) {names seen : List String} (hn : names.Nodup)
    (hseen : ∀ x ∈ names, x ∉ seen) : ∃ seen', newMembers whole names seen = .ok seen' := by
  induction names generalizing seen with
  | nil => exact ⟨seen, rfl⟩
  | cons x names ih =>
    obtain ⟨hx, hn⟩ := List.nodup_cons.1 hn
    rw [List.forall_mem_cons] at hseen
    rw [newMembers, if_neg hseen.1]
    refine ih hn fun y hy hm => ?_
    rcases List.mem_cons.1 hm with rfl | hm
    · exact hx hy
    · exact hseen.2 y hy hm

/-- Members that pass their checks one by one and bring different names pass the check together. What
they embed has a method set at the fuel of the check. -/
theorem Shaped.okMembers_eq_ok (h : T.Shaped rank) {whole : Ty} {seen : List String} {ms : List Member}
    (hapart : T.Apart ms) (hseen : ∀ m ∈ ms, ∀ x, T.Brings x m → x ∉ seen)
    (hok : ∀ m ∈ ms, T.OkMember n Δ m)
    (hmethods : ∀ c args, .embed c args ∈ ms → ∃ E, T.methods Δ n (.named c args) = .ok E) :
    T.okMembers n Δ whole seen ms = .ok () := by
  induction ms generalizing seen with
  | nil => rfl
  | cons m ms ih =>
    obtain ⟨hhead, hapart⟩ := List.pairwise_cons.1 hapart
    rw [List.forall_mem_cons] at hseen hok
    have hrest {seen' : List String} (hseen' : ∀ x ∈ seen', T.Brings x m ∨ x ∈ seen) :
        T.okMembers n Δ whole seen' ms = .ok () := by
      refine ih hapart (fun m' hm' x hx hmem => ?_) hok.2 fun c args hm =>
        hmethods c args (List.mem_cons_of_mem _ hm)
      rcases hseen' x hmem with hx' | hx'
      · exact hhead m' hm' x hx' hx
      · exact hseen.2 m' hm' x hx hx'
    cases m with
    | method s =>
      obtain ⟨seen', hseen'⟩ := newMembers_eq_ok whole (List.nodup_singleton s.name)
        fun x hx => hseen.1 x (List.mem_singleton.1 hx).symm
      obtain ⟨-, hmem⟩ := of_newMembers hseen'
      rw [okMembers, hok.1, Answer.ok_bind, hseen']
      refine hrest fun x hx => ((hmem x).1 hx).imp_left fun hx => (List.mem_singleton.1 hx).symm
    | embed c args =>
      obtain ⟨⟨td, htd, hwithin⟩, hargs, hi⟩ := hok.1
      obtain ⟨E, hE⟩ := hmethods c args List.mem_cons_self
      have hheaded : T.Headed (.named c args) := ⟨td, applied_eq_ok.1 htd⟩
      have hnames := h.mem_names_methods hheaded ((h.sources.namesInterface_iff hi).1 rfl) hE
      obtain ⟨seen', hseen'⟩ := newMembers_eq_ok whole
        (MethodSet.nodup_names (sorted_methods hE)) fun x hx => hseen.1 x ((hnames x).1 hx)
      obtain ⟨-, hmem⟩ := of_newMembers hseen'
      refine Answer.bind_eq_ok.2 ⟨td, Answer.ofExcept_eq_ok.2 htd, Answer.bind_eq_ok.2 ⟨(), hargs, ?_⟩⟩
      refine Answer.bind_eq_ok.2 ⟨(), hwithin, Answer.bind_eq_ok.2 ⟨true, Answer.ofExcept_eq_ok.2 hi, ?_⟩⟩
      refine Answer.bind_eq_ok.2 ⟨E, hE, Answer.bind_eq_ok.2 ⟨seen', Answer.ofExcept_eq_ok.2 hseen', ?_⟩⟩
      exact hrest fun x hx => ((hmem x).1 hx).imp_left (hnames x).1

/-- **A well-formed type that binds no formals is formed.** -/
theorem Shaped.formed_of_okType (h : T.Shaped rank) {t : Ty} (hbinders : t.binders = [])
    (hok : T.okType n Δ t = .ok ()) : T.Formed Δ t := by
  have hpart {t u : Ty} (hbinders : t.binders = []) (hu : u ∈ t.parts) : u.binders = [] :=
    List.eq_nil_iff_forall_not_mem.2 fun a ha =>
      List.eq_nil_iff_forall_not_mem.1 hbinders a (Ty.binders_subset_of_mem_parts hu ha)
  have happlies {c : String} {args : List Ty} {td : TypeDecl} {place : Place}
      (htd : T.applied c args = .ok td)
      (hwithin : T.argumentsWithin n Δ place (instantiation td.formals args) td.formals args = .ok ()) :
      T.Applies Δ c args := by
    obtain ⟨htd, hl⟩ := applied_eq_ok.1 htd
    exact ⟨td, htd, within_of_implements hl (implements_of_argumentsWithin hwithin)⟩
  induction t using Ty.induction with
  | param a =>
    obtain ⟨b, hb, -⟩ := Answer.bind_eq_ok.1 hok
    rw [Answer.liftExcept_eq, Answer.ofExcept_eq_ok, boundOf_eq_ok] at hb
    exact .of_parts (Env.find?_isSome.1 (hb ▸ rfl)) (List.forall_mem_nil _)
  | named c args ih =>
    obtain ⟨td, htd, hok⟩ := Answer.bind_eq_ok.1 hok
    obtain ⟨⟨⟩, hargs, hwithin⟩ := Answer.bind_eq_ok.1 hok
    rw [Answer.liftExcept_eq, Answer.ofExcept_eq_ok] at htd
    exact .of_parts (happlies htd hwithin) fun a ha =>
      ih a ha (hpart hbinders ha) (of_okTypes hargs a ha)
  | prim p => exact .of_parts trivial (List.forall_mem_nil _)
  | struct fs ih =>
    obtain ⟨hn, hfs⟩ := okFields_iff.1 hok
    refine .of_parts hn (List.forall_mem_map.2 fun f hf => ?_)
    exact ih f hf (hpart hbinders (List.mem_map_of_mem hf)) (hfs f hf).2
  | interface ms ih =>
    have hmembers := of_okMembers hok
    have hbound : ∀ m ∈ ms, m.formalNames = [] := by
      rw [Ty.binders, List.flatMap_eq_nil_iff] at hbinders
      exact List.flatMap_eq_nil_iff.1 (hbinders _ (Ty.mem_preorder_self _))
    have hmember : ∀ m ∈ ms, T.FormedMember Δ m ∧ ∀ u ∈ m.types, T.okType n Δ u = .ok () := by
      intro m hm
      have hm' := hmembers m hm
      cases m with
      | method s =>
        have hs : s.formals = [] := List.map_eq_nil_iff.1 (hbound _ hm)
        obtain ⟨hn, htypes⟩ := (okSignature_iff hs).1 hm'
        exact ⟨⟨hs, hn⟩, htypes⟩
      | embed c args =>
        obtain ⟨⟨td, htd, hwithin⟩, hargs, hi⟩ := hm'
        exact ⟨⟨(h.sources.namesInterface_iff hi).1 rfl, happlies htd hwithin⟩, of_okTypes hargs⟩
    refine .of_parts ⟨(h.apart_of_okMembers hok).1, fun m hm => (hmember m hm).1⟩ ?_
    refine List.forall_mem_flatMap.2 fun m hm u hu => ?_
    exact ih m hm u hu (hpart hbinders (List.mem_flatMap.2 ⟨m, hm, hu⟩)) ((hmember m hm).2 u hu)
  | var v => exact .of_parts trivial (List.forall_mem_nil _)

/-- **A formed type is well formed**, from some fuel on. -/
theorem Shaped.okType_of_formed (h : T.Shaped rank) {t : Ty} (ht : T.Formed Δ t) :
    ∃ N, ∀ m ≥ N, T.okType m Δ t = .ok () := by
  have happlies {c : String} {args : List Ty} (hc : T.Applies Δ c args) :
      ∃ td, T.applied c args = .ok td ∧ ∀ place, ∃ N, ∀ m ≥ N,
        T.argumentsWithin m Δ place (instantiation td.formals args) td.formals args = .ok () := by
    obtain ⟨td, htd, hwithin⟩ := hc
    refine ⟨td, applied_eq_ok.2 ⟨htd, hwithin.length⟩, fun place => ?_⟩
    obtain ⟨N, hN⟩ := exists_forall_ge fun p hp =>
      (T.finitary_implementsBy _ _).eventually (hwithin.bounds p hp)
    exact ⟨N, fun m hm => argumentsWithin_eq_ok (hN m hm)⟩
  induction t using Ty.induction_parts with
  | step t ih =>
    obtain ⟨N, hN⟩ := exists_forall_ge fun u hu => ih u hu (ht.part hu)
    cases t with
    | param a =>
      obtain ⟨b, hb⟩ := Option.isSome_iff_exists.1 (Env.find?_isSome.2 ht.self)
      refine ⟨0, fun m _ => Answer.bind_eq_ok.2 ⟨b, ?_, rfl⟩⟩
      exact Answer.ofExcept_eq_ok.2 (boundOf_eq_ok.2 hb)
    | named c args =>
      obtain ⟨td, htd, hwithin⟩ := happlies ht.self
      obtain ⟨M, hM⟩ := hwithin (.type (.named c args))
      refine ⟨max N M, fun m hm => Answer.bind_eq_ok.2 ⟨td, Answer.ofExcept_eq_ok.2 htd, ?_⟩⟩
      exact Answer.bind_eq_ok.2
        ⟨(), okTypes_eq_ok (hN m (le_of_max_le_left hm)), hM m (le_of_max_le_right hm)⟩
    | prim p => exact ⟨0, fun _ _ => rfl⟩
    | struct fs =>
      refine ⟨N, fun m hm => okFields_iff.2 ⟨ht.self, fun f hf => ⟨List.not_mem_nil, ?_⟩⟩⟩
      exact hN m hm f.ty (List.mem_map_of_mem hf)
    | interface ms =>
      obtain ⟨hapart, hmembers⟩ := ht.self
      have hok : ∀ m ∈ ms, ∃ M, ∀ k ≥ M, T.OkMember k Δ m
          ∧ ∀ c args, m = .embed c args → ∃ E, T.methods Δ k (.named c args) = .ok E := by
        intro m hm
        have hpart {u : Ty} (hu : u ∈ m.types) : u ∈ (Ty.interface ms).parts :=
          List.mem_flatMap.2 ⟨m, hm, hu⟩
        cases m with
        | method s =>
          obtain ⟨hs, hn⟩ := hmembers _ hm
          refine ⟨N, fun k hk => ⟨(okSignature_iff hs).2 ⟨hn, fun u hu => ?_⟩, nofun⟩⟩
          exact hN k hk u (hpart hu)
        | embed c args =>
          obtain ⟨hi, hc⟩ := hmembers _ hm
          obtain ⟨td, htd, hwithin⟩ := happlies hc
          obtain ⟨M, hM⟩ := hwithin (.type (.named c args))
          have hheaded : T.Headed (.named c args) := ⟨td, applied_eq_ok.1 htd⟩
          obtain ⟨E, hE⟩ := h.interfaceMethods_total hheaded hi Δ
          obtain ⟨K, hK⟩ := (Finitary.find (.named c args)).eventually hE
          refine ⟨max (max N M) K, fun k hk => ⟨⟨⟨td, htd, hM k (by omega)⟩, ?_, ?_⟩, ?_⟩⟩
          · exact okTypes_eq_ok fun u hu => hN k (by omega) u (hpart hu)
          · exact h.isInterface_eq_true hheaded hi
          · rintro _ _ ⟨⟩
            exact ⟨E, hK k (by omega)⟩
      obtain ⟨M, hM⟩ := exists_forall_ge hok
      refine ⟨M, fun k hk => h.okMembers_eq_ok hapart (fun _ _ _ _ => List.not_mem_nil)
        (fun m hm => (hM k hk m hm).1) fun c args hm => (hM k hk _ hm).2 c args rfl⟩
    | var v => exact ⟨0, fun _ _ => rfl⟩

end Table

end FeatherGo
