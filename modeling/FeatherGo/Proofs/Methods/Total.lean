import FeatherGo.Proofs.Declarations.Resolve
import FeatherGo.Proofs.Methods.Limit
import FeatherGo.Proofs.Methods.Sets

/-!
# Which types have method sets

Unfolding and embedding lower the rank of names, so interfaces have method sets
(`Table.Shaped.interfaceMethods_total`). In lawful declarations a scoped type has one if the type
parameters in scope have (`Table.Lawful.methods_of_params`), for the bounds of receivers look at the
arguments of a type only. Sealed types therefore always have one
(`Table.Lawful.methods_total`), whether one implements another always has an answer, and
`Table.Implements` says when it is yes.
-/

namespace FeatherGo.Table

variable {T : Table} {strict : Bool} {rank : String → Nat}

namespace Shaped

/-- Whether a type is an interface always has an answer. -/
theorem isInterface_total (h : T.Shaped rank) {t : Ty} (ht : T.Headed t) :
    ∃ b, T.isInterface t = .ok b ∧ (b = true ↔ T.InterfaceType t) := by
  cases t with
  | named c args =>
    obtain ⟨v, hv⟩ := h.resolve_total ht
    have hiff := h.sources.resolves_interface_iff (resolves_of_resolve hv)
    rw [InterfaceType, ← hiff]
    cases v with
    | interface ms => exact ⟨true, by rw [isInterface, hv]; rfl, by simp⟩
    | _ => exact ⟨false, by rw [isInterface, hv]; rfl, by simp⟩
  | interface ms => exact ⟨true, rfl, by simp [InterfaceType]⟩
  | _ => exact ⟨false, rfl, by simp [InterfaceType]⟩

theorem isInterface_eq_true (h : T.Shaped rank) {t : Ty} (ht : T.Headed t) (hi : T.InterfaceType t) :
    T.isInterface t = .ok true := by
  obtain ⟨b, hb, hiff⟩ := h.isInterface_total ht
  rw [hb, hiff.2 hi]

theorem isInterface_eq_false (h : T.Shaped rank) {t : Ty} (ht : T.Headed t)
    (hi : ¬T.InterfaceType t) : T.isInterface t = .ok false := by
  obtain ⟨b, hb, hiff⟩ := h.isInterface_total ht
  cases b with
  | true => exact absurd (hiff.1 rfl) hi
  | false => exact hb

end Shaped

namespace Lawful

theorem isInterface_eq_true (h : T.Lawful strict rank) {t : Ty} {scope : List String}
    (ht : t.Scoped (T.vocabulary strict) false scope []) (hi : T.InterfaceType t) :
    T.isInterface t = .ok true :=
  h.shaped.isInterface_eq_true (headed_of_scoped ht) hi

theorem isInterface_eq_false (h : T.Lawful strict rank) {t : Ty} {scope : List String}
    (ht : t.Scoped (T.vocabulary strict) false scope []) (hi : ¬T.InterfaceType t) :
    T.isInterface t = .ok false :=
  h.shaped.isInterface_eq_false (headed_of_scoped ht) hi

end Lawful

/-! ## The rounds of gathering -/

/-- An interface offers what its members list and embed. -/
theorem allMethods_interface (Δ : Bounds) (ms : List Member) :
    T.allMethods Δ (.interface ms) = memberMethods (T.allMethods Δ) ms [] :=
  T.allMethods_eq Δ _

/-- A type that is declared as an interface offers what that interface does. -/
theorem allMethods_of_resolve_interface {Δ : Bounds} {c : String} {args : List Ty}
    {ms : List Member} (hv : T.resolve (.named c args) = .ok (.interface ms)) :
    T.allMethods Δ (.named c args) = T.allMethods Δ (.interface ms) := by
  rw [allMethods_eq, gather, hv]
  rfl

/-- A declared type that is no interface offers what is declared on it. -/
theorem allMethods_of_resolve {Δ : Bounds} {c : String} {args : List Ty} {v : Ty}
    (hv : T.resolve (.named c args) = .ok v) (hn : ∀ ms, v ≠ .interface ms) :
    T.allMethods Δ (.named c args)
      = T.declaredMethods (T.allMethods Δ) args (T.methodsOn c) [] := by
  rw [allMethods_eq, gather, hv]
  cases v with
  | interface ms => exact absurd rfl (hn ms)
  | _ => rfl

theorem sorted_memberMethods {f : Finder} {ms : List Member} {acc S : MethodSet}
    (h : memberMethods f ms acc = .ok S) (ha : acc.Sorted) : S.Sorted := by
  induction ms generalizing acc with
  | nil => exact Answer.ok.inj h ▸ ha
  | cons m ms ih =>
    cases m with
    | method s => exact ih h (MethodSet.sorted_add ha)
    | embed c args =>
      obtain ⟨E, -, hS⟩ := Answer.bind_eq_ok.1 h
      exact ih hS (MethodSet.sorted_union ha)

theorem sorted_declaredMethods {f : Finder} {args : List Ty} {mds : List MethodDecl}
    {acc S : MethodSet} (h : T.declaredMethods f args mds acc = .ok S) (ha : acc.Sorted) :
    S.Sorted := by
  induction mds generalizing acc with
  | nil => exact Answer.ok.inj h ▸ ha
  | cons md mds ih =>
    obtain ⟨r, -, hS⟩ := Answer.bind_eq_ok.1 h
    cases r with
    | none => exact ih hS ha
    | some η => exact ih hS (MethodSet.sorted_add ha)

/-- Method sets are sorted. -/
theorem sorted_methods {n : Nat} {Δ : Bounds} {t : Ty} {S : MethodSet}
    (h : T.methods Δ n t = .ok S) : S.Sorted := by
  induction n generalizing t with
  | zero => cases h
  | succ n ih =>
    rw [methods_succ] at h
    cases t with
    | interface ms => exact sorted_memberMethods h .nil
    | named c args =>
      obtain ⟨v, -, hv⟩ := Answer.bind_eq_ok.1 h
      cases v with
      | interface ms => exact ih hv
      | _ => exact sorted_declaredMethods hv .nil
    | param p =>
      obtain ⟨b, -, hb⟩ := Answer.bind_eq_ok.1 h
      exact ih hb
    | _ => exact Answer.ok.inj h ▸ .nil

theorem sorted_allMethods {Δ : Bounds} {t : Ty} {S : MethodSet} (h : T.allMethods Δ t = .ok S) :
    S.Sorted := by
  obtain ⟨n, hn⟩ := (T.growing_methods Δ t).exists_eq_limit
  exact sorted_methods (hn.trans h)

/-! ## Whether one type implements another -/

/-- The comparison with an interface. -/
theorem implementsBy_eq {f : Finder} {sub sup : Ty} (hsub : ∀ n, sub ≠ .var n)
    (hi : T.isInterface sup = .ok true) :
    T.implementsBy f sub sup = (do
      let wanted ← f sup
      if wanted.isEmpty then
        return true
      let offered ← f sub
      return wanted.all fun s => (offered.find? s.name).any fun o => o.alphaEq s) := by
  have hgeneral : T.implementsBy f sub sup = (do
      if ← T.isInterface sup then
        let wanted ← f sup
        if wanted.isEmpty then
          return true
        let offered ← f sub
        return wanted.all fun s => (offered.find? s.name).any fun o => o.alphaEq s
      else
        return decide (sub = sup) : Answer TypeError Bool) := by
    cases sup with
    | param p => simp [isInterface] at hi
    | prim p => simp [isInterface] at hi
    | var n => simp [isInterface] at hi
    | _ =>
      cases sub with
      | var n => exact absurd rfl (hsub n)
      | _ => rfl
  rw [hgeneral, hi]
  rfl

/-- An interface is implemented by what covers its methods. -/
theorem implementsBy_interface {f : Finder} {sub sup : Ty} {W S : MethodSet}
    (hsub : ∀ n, sub ≠ .var n) (hi : T.isInterface sup = .ok true) (hW : f sup = .ok W)
    (hS : f sub = .ok S) :
    T.implementsBy f sub sup
      = .ok (W.all fun s => (S.find? s.name).any fun o => o.alphaEq s) := by
  rw [implementsBy_eq hsub hi, hW, hS]
  cases W <;> rfl

/-- What implements an interface covers its methods, or it has none. -/
theorem of_implementsBy_interface {f : Finder} {sub sup : Ty} (hsub : ∀ n, sub ≠ .var n)
    (hi : T.isInterface sup = .ok true) (h : T.implementsBy f sub sup = .ok true) :
    ∃ W, f sup = .ok W ∧ (W = [] ∨ ∃ S, f sub = .ok S ∧ S.Covers W) := by
  rw [implementsBy_eq hsub hi, Answer.bind_eq_ok] at h
  obtain ⟨W, hW, h⟩ := h
  refine ⟨W, hW, ?_⟩
  cases W with
  | nil => exact .inl rfl
  | cons s W =>
    obtain ⟨S, hS, h⟩ := Answer.bind_eq_ok.1 h
    exact .inr ⟨S, hS, MethodSet.covers_iff.1 (Answer.ok.inj h)⟩

/-- What covers the methods of an interface implements it; nothing is to cover if it has none. -/
theorem implementsBy_of_covers {f : Finder} {sub sup : Ty} (hsub : ∀ n, sub ≠ .var n)
    (hi : T.isInterface sup = .ok true) {W : MethodSet} (hW : f sup = .ok W)
    (hor : W = [] ∨ ∃ S, f sub = .ok S ∧ S.Covers W) : T.implementsBy f sub sup = .ok true := by
  rcases hor with rfl | ⟨S, hS, hcovers⟩
  · rw [implementsBy_eq hsub hi, hW]
    rfl
  · rw [implementsBy_interface hsub hi hW hS, MethodSet.covers_iff.2 hcovers]

/-- What is no interface is implemented by itself alone. -/
theorem implementsBy_concrete {f : Finder} {sub sup : Ty} (hsup : ∀ p, sup ≠ .param p)
    (hi : T.isInterface sup = .ok false) :
    T.implementsBy f sub sup = .ok (decide (sub = sup)) := by
  cases sup with
  | param p => exact absurd rfl (hsup p)
  | prim p => cases sub <;> rfl
  | var n => cases sub <;> rfl
  | _ =>
    cases sub with
    | var n => rfl
    | _ =>
      rw [implementsBy, hi]
      · rfl
      all_goals simp

/-- An inference variable implements itself alone. -/
theorem implementsBy_var {f : Finder} {n : Nat} {sup : Ty} (hsup : ∀ p, sup ≠ .param p) :
    T.implementsBy f (.var n) sup = .ok (decide (Ty.var n = sup)) := by
  cases sup with
  | param p => exact absurd rfl (hsup p)
  | _ => rfl

/-- What implements another type is that type, or the other type is an interface. -/
theorem eq_or_isInterface {f : Finder} {sub sup : Ty} (h : T.implementsBy f sub sup = .ok true) :
    sub = sup ∨ T.isInterface sup = .ok true ∧ ∀ v, sub ≠ .var v := by
  by_cases hp : ∃ p, sup = .param p
  · obtain ⟨p, rfl⟩ := hp
    cases sub with
    | param a => exact .inl (by simpa [implementsBy] using h)
    | _ => cases h
  have hp : ∀ p, sup ≠ .param p := fun p he => hp ⟨p, he⟩
  by_cases hv : ∃ v, sub = .var v
  · obtain ⟨v, rfl⟩ := hv
    rw [implementsBy_var hp] at h
    exact .inl (by simpa using h)
  have hv : ∀ v, sub ≠ .var v := fun v he => hv ⟨v, he⟩
  cases hi : T.isInterface sup with
  | ok b =>
    cases b with
    | true => exact .inr ⟨rfl, hv⟩
    | false =>
      rw [implementsBy_concrete hp hi] at h
      exact .inl (by simpa using h)
  | error e =>
    cases sup with
    | param p => exact absurd rfl (hp p)
    | prim p => cases hi
    | var v => cases hi
    | _ =>
      cases sub with
      | var v => exact absurd rfl (hv v)
      | _ =>
        rw [implementsBy, hi] at h
        · cases h
        all_goals simp

theorem interfaceType_of_isInterface (h : T.HasSources) {t : Ty} (hi : T.isInterface t = .ok true) :
    T.InterfaceType t := by
  cases t with
  | named c args => exact (h.namesInterface_iff hi).1 rfl
  | interface ms => trivial
  | _ => cases hi

/-- **Implementing is transitive**, whatever the declarations and the method sets. -/
theorem implementsBy_trans {f : Finder} {a b c : Ty} (hab : T.implementsBy f a b = .ok true)
    (hbc : T.implementsBy f b c = .ok true) : T.implementsBy f a c = .ok true := by
  rcases eq_or_isInterface hab with rfl | ⟨hb, ha⟩
  · exact hbc
  rcases eq_or_isInterface hbc with rfl | ⟨hc, hbv⟩
  · exact hab
  obtain ⟨B, hB, hora⟩ := of_implementsBy_interface ha hb hab
  obtain ⟨W, hW, horb⟩ := of_implementsBy_interface hbv hc hbc
  refine implementsBy_of_covers ha hc hW ?_
  rcases horb with hempty | ⟨B', hB', hBW⟩
  · exact .inl hempty
  obtain rfl := Answer.ok.inj (hB.symm.trans hB')
  rcases hora with rfl | ⟨S, hS, hSB⟩
  · -- An interface without methods covers none.
    refine .inl (List.eq_nil_iff_forall_not_mem.2 fun s hs => ?_)
    obtain ⟨o, ho, -⟩ := hBW s hs
    cases ho
  · exact .inr ⟨S, hS, hSB.trans hBW⟩

/-! ## Scoped types have method sets -/

/-- Members have a method set if what they embed has. -/
theorem memberMethods_total {f : Finder} {ms : List Member} (acc : MethodSet)
    (h : ∀ c args, Member.embed c args ∈ ms → ∃ E, f (.named c args) = .ok E) :
    ∃ S, memberMethods f ms acc = .ok S := by
  induction ms generalizing acc with
  | nil => exact ⟨acc, rfl⟩
  | cons m ms ih =>
    have hrest : ∀ c args, Member.embed c args ∈ ms → ∃ E, f (.named c args) = .ok E :=
      fun c args hm => h c args (List.mem_cons_of_mem _ hm)
    cases m with
    | method s => exact ih _ hrest
    | embed c args =>
      obtain ⟨E, hE⟩ := h c args List.mem_cons_self
      obtain ⟨S, hS⟩ := ih (acc.union E) hrest
      exact ⟨S, Answer.bind_eq_ok.2 ⟨E, hE, hS⟩⟩

/-- Declared methods form a method set if it is known which receivers apply. -/
theorem declaredMethods_total {f : Finder} {args : List Ty} {mds : List MethodDecl}
    (acc : MethodSet) (h : ∀ md ∈ mds, ∃ r, T.receiverBy f md.recvFormals args = .ok r) :
    ∃ S, T.declaredMethods f args mds acc = .ok S := by
  induction mds generalizing acc with
  | nil => exact ⟨acc, rfl⟩
  | cons md mds ih =>
    obtain ⟨hmd, hrest⟩ := List.forall_mem_cons.1 h
    obtain ⟨r, hr⟩ := hmd
    cases r with
    | none =>
      obtain ⟨S, hS⟩ := ih acc hrest
      exact ⟨S, Answer.bind_eq_ok.2 ⟨_, hr, hS⟩⟩
    | some η =>
      obtain ⟨S, hS⟩ := ih (acc.add (md.sig.subst η)) hrest
      exact ⟨S, Answer.bind_eq_ok.2 ⟨_, hr, hS⟩⟩

/-- Interfaces have method sets, by rank. -/
theorem Shaped.interfaceMethods_total (h : T.Shaped rank) {t : Ty} (ht : T.Headed t)
    (hi : T.InterfaceType t) (Δ : Bounds) : ∃ S, T.allMethods Δ t = .ok S := by
  have hmembers : ∀ n, ∀ ms, T.Headed (.interface ms) →
      (∀ c args, Member.embed c args ∈ ms → rank c < n) →
      ∃ S, T.allMethods Δ (.interface ms) = .ok S := by
    intro n
    induction n with
    | zero =>
      intro ms _ hlt
      rw [allMethods_interface]
      exact memberMethods_total _ fun c args hm => absurd (hlt c args hm) (Nat.not_lt_zero _)
    | succ n ih =>
      intro ms hms hlt
      rw [allMethods_interface]
      refine memberMethods_total _ fun c args hm => ?_
      obtain ⟨hn, hc⟩ := hms.embedded hm
      obtain ⟨v, hv⟩ := h.resolve_total hc
      have hres := resolves_of_resolve hv
      obtain ⟨ms', rfl⟩ := (h.sources.resolves_interface_iff hres).2 hn
      have hheaded := h.headed_of_resolves hc hres
      rw [allMethods_of_resolve_interface hv]
      refine ih ms' hheaded fun d ds hd => ?_
      obtain ⟨ms₀, η, hlists, rfl⟩ := h.sources.lists_of_resolves hres
      obtain ⟨-, td, htd, -⟩ := hheaded d ds hd
      obtain ⟨as, hd', -⟩ := exists_of_embed_mem_map hd
      have := hlists.rank_lt h.ranking hd' (by simp [htd])
      have := hlt c args hm
      omega
  have hall (ms : List Member) (hms : T.Headed (.interface ms)) :
      ∃ S, T.allMethods Δ (.interface ms) = .ok S :=
    hmembers (T.typeDecls.length + 1) ms hms fun c _ _ => Nat.lt_succ_of_le (h.ranking.le c)
  cases t with
  | named c args =>
    obtain ⟨v, hv⟩ := h.resolve_total ht
    have hres := resolves_of_resolve hv
    obtain ⟨ms, rfl⟩ := (h.sources.resolves_interface_iff hres).2 hi
    rw [allMethods_of_resolve_interface hv]
    exact hall ms (h.headed_of_resolves ht hres)
  | interface ms => exact hall ms ht
  | _ => exact hi.elim

/-- A type whose head unfolds implements itself. -/
theorem Shaped.implementsBy_refl (h : T.Shaped rank) {t : Ty} (ht : T.Headed t) (Δ : Bounds) :
    T.implementsBy (T.allMethods Δ) t t = .ok true := by
  by_cases hi : T.InterfaceType t
  · obtain ⟨S, hS⟩ := h.interfaceMethods_total ht hi Δ
    exact implementsBy_of_covers (fun v he => by subst he; exact hi) (h.isInterface_eq_true ht hi) hS
      (.inr ⟨S, hS, MethodSet.covers_refl (sorted_allMethods hS)⟩)
  · cases t with
    | param p => simp [implementsBy]
    | _ => rw [implementsBy_concrete (by simp) (h.isInterface_eq_false ht hi), decide_eq_true rfl]

/-- What a closed interface embeds is a closed interface. -/
theorem closed_of_embed {ms : List Member}
    (h : (Ty.interface ms).Closed (T.vocabulary strict)) {c : String} {args : List Ty}
    (hm : Member.embed c args ∈ ms) :
    (Ty.named c args).Closed (T.vocabulary strict) ∧ T.NamesInterface c := by
  obtain ⟨hfit, htext⟩ := h
  cases hfit with
  | interface proper fit =>
    obtain ⟨he, hh, hflat⟩ := proper _ hm
    refine ⟨⟨.named hh hflat (fit _ hm), ?_⟩, he⟩
    rw [Ty.Text, Ty.close_named, Ty.named.injEq]
    exact ⟨rfl, map_eq_self_iff.2 (htext.embed hm)⟩

/-- What may bound a formal is no type parameter, whatever is substituted in it. -/
theorem BoundType.subst_ne_param {t : Ty} (h : T.BoundType t) (η : Env Ty) (p : String) :
    t.subst η ≠ .param p := by
  cases t with
  | param q => exact h.elim
  | var n => exact h.elim
  | _ => simp

theorem mem_methodsOn {c : String} {md : MethodDecl} :
    md ∈ T.methodsOn c ↔ md ∈ T.methodDecls ∧ md.recvType = c := by
  simp [methodsOn]

namespace Lawful

theorem interfaceMethods_total (h : T.Lawful strict rank) {t : Ty} {scope : List String}
    (ht : t.Scoped (T.vocabulary strict) false scope []) (hi : T.InterfaceType t) (Δ : Bounds) :
    ∃ S, T.allMethods Δ t = .ok S :=
  h.shaped.interfaceMethods_total (headed_of_scoped ht) hi Δ

/-- Whether a type implements another, which is no type parameter, has an answer if the one has a method
set. -/
theorem implementsBy_total (h : T.Lawful strict rank) {sub sup : Ty} {scope : List String}
    (hsup : sup.Scoped (T.vocabulary strict) false scope []) (hp : ∀ p, sup ≠ .param p) {Δ : Bounds}
    (hS : ∃ S, T.allMethods Δ sub = .ok S) :
    ∃ b, T.implementsBy (T.allMethods Δ) sub sup = .ok b := by
  obtain ⟨S, hS⟩ := hS
  by_cases hsub : ∃ n, sub = .var n
  · obtain ⟨n, rfl⟩ := hsub
    exact ⟨_, implementsBy_var hp⟩
  · have hsub : ∀ n, sub ≠ .var n := fun n he => hsub ⟨n, he⟩
    by_cases hi : T.InterfaceType sup
    · obtain ⟨W, hW⟩ := h.interfaceMethods_total hsup hi Δ
      exact ⟨_, implementsBy_interface hsub (h.isInterface_eq_true hsup hi) hW hS⟩
    · exact ⟨_, implementsBy_concrete hp (h.isInterface_eq_false hsup hi)⟩

/-- Which receivers apply has an answer if the arguments have method sets. -/
theorem receiverBy_total (h : T.Lawful strict rank) {md : MethodDecl}
    (hmd : md.Lawful T (T.vocabulary strict)) {args : List Ty} {scope : List String}
    (hargs : ∀ a ∈ args, a.Scoped (T.vocabulary strict) false scope []) {Δ : Bounds}
    (hS : ∀ a ∈ args, ∃ S, T.allMethods Δ a = .ok S) :
    ∃ r, T.receiverBy (T.allMethods Δ) md.recvFormals args = .ok r := by
  by_cases hl : md.recvFormals.length = args.length
  · have hwithin : ∀ (fs : List Slot) (ts : List Ty), (∀ f ∈ fs, f ∈ md.recvFormals) →
        (∀ t ∈ ts, t ∈ args) →
        ∃ b, T.withinBounds (T.allMethods Δ) (instantiation md.recvFormals args) fs ts = .ok b := by
      intro fs
      induction fs with
      | nil => exact fun ts _ _ => ⟨true, rfl⟩
      | cons f fs ih =>
        intro ts hfs hts
        cases ts with
        | nil => exact ⟨true, rfl⟩
        | cons t ts =>
          obtain ⟨hf, hfs⟩ := List.forall_mem_cons.1 hfs
          obtain ⟨ht, hts⟩ := List.forall_mem_cons.1 hts
          have hbound := hmd.boundTypes f (List.mem_append_left _ hf)
          obtain ⟨b, hb⟩ := h.implementsBy_total ((hmd.bounds f hf).scoped_subst hl hargs)
            (hbound.subst_ne_param _) (hS t ht)
          rw [withinBounds, hb]
          cases b with
          | false => exact ⟨false, rfl⟩
          | true => exact ih ts hfs hts
    obtain ⟨b, hb⟩ := hwithin md.recvFormals args (fun f hf => hf) (fun t ht => ht)
    rw [receiverBy, if_pos hl]
    dsimp only
    rw [hb]
    cases b <;> exact ⟨_, rfl⟩
  · rw [receiverBy, if_neg hl]
    exact ⟨none, rfl⟩

/-- A scoped type has a method set if the type parameters in scope have one. -/
theorem methods_of_params (h : T.Lawful strict rank) {t : Ty} {scope : List String}
    (ht : t.Scoped (T.vocabulary strict) false scope []) {Δ : Bounds}
    (hscope : ∀ a ∈ scope, ∃ S, T.allMethods Δ (.param a) = .ok S) :
    ∃ S, T.allMethods Δ t = .ok S := by
  induction t using Ty.induction with
  | param a =>
    cases ht with
    | param mem => exact hscope a mem
  | named c args ih =>
    by_cases hi : T.NamesInterface c
    · exact h.interfaceMethods_total ht hi Δ
    · obtain ⟨v, hv⟩ := h.resolve_total ht
      have hn : ∀ ms, v ≠ .interface ms := fun ms he =>
        hi ((h.resolves_interface_iff (resolves_of_resolve hv)).1 ⟨ms, he⟩)
      rw [allMethods_of_resolve hv hn]
      cases ht with
      | named _ inner =>
        refine declaredMethods_total _ fun md hmd => ?_
        have hmd := h.methods md (mem_methodsOn.1 hmd).1
        exact h.receiverBy_total hmd inner fun a ha => ih a ha (inner a ha)
  | interface ms => exact h.interfaceMethods_total ht trivial Δ
  | prim p => exact ⟨[], by rw [allMethods_eq]; rfl⟩
  | struct fs => exact ⟨[], by rw [allMethods_eq]; rfl⟩
  | var n => exact ⟨[], by rw [allMethods_eq]; rfl⟩

/-- Every sealed type has a method set. -/
theorem methods_total (h : T.Lawful strict rank) {t : Ty}
    (ht : t.Sealed (T.vocabulary strict)) (Δ : Bounds) : ∃ S, T.allMethods Δ t = .ok S :=
  h.methods_of_params ht.inner fun _ ha => absurd ha List.not_mem_nil

end Lawful

end FeatherGo.Table
