import FeatherGo.Proofs.Answer
import FeatherGo.Instance.Closure

/-!
# Visits that end

A visit that ends goes from one frontier to another. `Track.Ends` says so, with one lemma for each
way in which visits are put together, and `Instances.Le` orders what is found: instances are added at
the end and never taken away. For each visit a lemma says what it has found when it ends.
-/

namespace FeatherGo

namespace Track

variable {σ ε α β : Type} {s s' s'' : σ} {a : α} {b : β}

/-- A computation ends with a value, and takes one state to another. -/
def Ends (x : Track σ ε α) (s : σ) (a : α) (s' : σ) : Prop := x s = (.ok a, s')

theorem ends_bind {x : Track σ ε α} {f : α → Track σ ε β} :
    (x >>= f).Ends s b s'' ↔ ∃ a s', x.Ends s a s' ∧ (f a).Ends s' b s'' := by
  change (x.bind f) s = (.ok b, s'') ↔ _
  rw [Track.bind]
  constructor
  · intro h
    cases hx : x s with
    | mk r s' =>
      rw [hx] at h
      cases r with
      | ok a => exact ⟨a, s', hx, h⟩
      | error e => cases h
      | unfinished => cases h
  · rintro ⟨a, s', hx, hf⟩
    rw [Ends] at hx
    rw [hx]
    exact hf

theorem of_ends_pure {a' : α} (h : (pure a : Track σ ε α).Ends s a' s') : a = a' ∧ s = s' :=
  ⟨Answer.ok.inj (Prod.mk.inj h).1, (Prod.mk.inj h).2⟩

theorem of_ends_lift {x : Answer ε α} (h : (monadLift x : Track σ ε α).Ends s a s') :
    x = .ok a ∧ s = s' :=
  Prod.mk.inj h

theorem of_ends_state {s₁ : σ} (h : (Track.state : Track σ ε σ).Ends s s₁ s') : s = s₁ ∧ s = s' :=
  ⟨Answer.ok.inj (Prod.mk.inj h).1, (Prod.mk.inj h).2⟩

theorem of_ends_update {f : σ → σ} {u : Unit} (h : (Track.update f : Track σ ε Unit).Ends s u s') :
    s' = f s :=
  (Prod.mk.inj h).2.symm

end Track

/-! ## Growing sets -/

namespace Instances

/-- The second set has the instances of the first in front. -/
structure Le (F F' : Instances) : Prop where
  types : F.types <+: F'.types
  meths : F.meths <+: F'.meths

variable {F F' F'' : Instances}

theorem Le.refl (F : Instances) : Le F F := ⟨List.prefix_rfl, List.prefix_rfl⟩

theorem Le.trans (h : Le F F') (h' : Le F' F'') : Le F F'' :=
  ⟨h.types.trans h'.types, h.meths.trans h'.meths⟩

theorem Le.mem_types (h : Le F F') {t : Ty} (ht : t ∈ F.types) : t ∈ F'.types := h.types.mem ht

theorem Le.mem_meths (h : Le F F') {m : MethodInstance} (hm : m ∈ F.meths) : m ∈ F'.meths :=
  h.meths.mem hm

/-- A set that has grown to the same size has not grown. -/
theorem Le.eq_of_size (h : Le F F') (hs : F'.size = F.size) : F' = F := by
  have ht := h.types.length_le
  have hm := h.meths.length_le
  rw [size, size] at hs
  have htypes := h.types.eq_of_length (by omega)
  have hmeths := h.meths.eq_of_length (by omega)
  obtain ⟨types, meths⟩ := F
  obtain ⟨types', meths'⟩ := F'
  simp only at htypes hmeths
  rw [htypes, hmeths]

end Instances

theorem prefix_insertNew {α : Type} [DecidableEq α] (a : α) (set : List α) :
    set <+: insertNew a set := by
  unfold insertNew
  split
  · exact List.prefix_rfl
  · exact List.prefix_append set [a]

namespace Closure

variable {K : Closure} {s s' : Frontier}

/-- A visit that adds instances and counts no body as visited. -/
structure Extends (s s' : Frontier) : Prop where
  found : s.found.Le s'.found
  visited : s'.visited = s.visited

namespace Extends

theorem refl (s : Frontier) : Extends s s := ⟨.refl _, rfl⟩

theorem trans {s s' s'' : Frontier} (h : Extends s s') (h' : Extends s' s'') : Extends s s'' :=
  ⟨h.found.trans h'.found, h'.visited.trans h.visited⟩

end Extends

/-! ## Adding instances -/

theorem of_typing {α : Type} {x : Answer TypeError α} {a : α} (h : (typing x).Ends s a s') :
    x = .ok a ∧ s = s' := by
  obtain ⟨hx, rfl⟩ := Track.of_ends_lift h
  exact ⟨Answer.mapError_eq_ok.1 hx, rfl⟩

theorem of_permit {ts : List Ty} (h : (K.permit ts).Ends s () s') :
    s = s' ∧ ∀ t ∈ ts, K.refusal? t = none := by
  rw [permit] at h
  split at h
  · cases h
  · rename_i hnone
    exact ⟨(Track.of_ends_pure h).2, List.findSome?_eq_none_iff.1 hnone⟩

theorem of_addType {t : Ty} {b : Bool} (h : (K.addType t).Ends s b s') :
    Extends s s' ∧ t ∈ s'.found.types := by
  obtain ⟨⟨⟩, s₁, h₁, h⟩ := Track.ends_bind.1 h
  obtain ⟨rfl, -⟩ := of_permit h₁
  obtain ⟨s₂, s₃, h₂, h⟩ := Track.ends_bind.1 h
  obtain ⟨rfl, rfl⟩ := Track.of_ends_state h₂
  obtain ⟨⟨⟩, s₄, h₃, h⟩ := Track.ends_bind.1 h
  obtain rfl := Track.of_ends_update h₃
  obtain ⟨-, rfl⟩ := Track.of_ends_pure h
  exact ⟨⟨⟨prefix_insertNew _ _, List.prefix_rfl⟩, rfl⟩, by simp⟩

theorem of_addMethod {m : MethodInstance} {b : Bool} (h : (K.addMethod m).Ends s b s') :
    Extends s s' ∧ m ∈ s'.found.meths := by
  obtain ⟨⟨⟩, s₁, h₁, h⟩ := Track.ends_bind.1 h
  obtain ⟨rfl, -⟩ := of_permit h₁
  obtain ⟨s₂, s₃, h₂, h⟩ := Track.ends_bind.1 h
  obtain ⟨rfl, rfl⟩ := Track.of_ends_state h₂
  obtain ⟨⟨⟩, s₄, h₃, h⟩ := Track.ends_bind.1 h
  obtain rfl := Track.of_ends_update h₃
  obtain ⟨-, rfl⟩ := Track.of_ends_pure h
  exact ⟨⟨⟨List.prefix_rfl, prefix_insertNew _ _⟩, rfl⟩, by simp⟩

theorem of_addTypes {ts : List Ty} (h : (K.addTypes ts).Ends s () s') :
    Extends s s' ∧ ∀ t ∈ ts, t ∈ s'.found.types := by
  induction ts generalizing s with
  | nil =>
    obtain ⟨-, rfl⟩ := Track.of_ends_pure h
    exact ⟨.refl _, by simp⟩
  | cons t ts ih =>
    obtain ⟨b, s₁, h₁, h⟩ := Track.ends_bind.1 h
    obtain ⟨hext, ht⟩ := of_addType h₁
    obtain ⟨hext', hts⟩ := ih h
    exact ⟨hext.trans hext', List.forall_mem_cons.2 ⟨hext'.found.mem_types ht, hts⟩⟩

theorem of_addMethods {ms : List MethodInstance} (h : (K.addMethods ms).Ends s () s') :
    Extends s s' ∧ ∀ m ∈ ms, m ∈ s'.found.meths := by
  induction ms generalizing s with
  | nil =>
    obtain ⟨-, rfl⟩ := Track.of_ends_pure h
    exact ⟨.refl _, by simp⟩
  | cons m ms ih =>
    obtain ⟨b, s₁, h₁, h⟩ := Track.ends_bind.1 h
    obtain ⟨hext, hm⟩ := of_addMethod h₁
    obtain ⟨hext', hms⟩ := ih h
    exact ⟨hext.trans hext', List.forall_mem_cons.2 ⟨hext'.found.mem_meths hm, hms⟩⟩

/-- The instances in an expression are among those of a set. -/
def Holds (K : Closure) (Γ : Scope) (e : Expr) (F : Instances) : Prop :=
  ∃ found, K.checker.collect K.bounds Γ e .empty = (.ok (), found)
    ∧ (∀ t ∈ found.types, t ∈ F.types) ∧ ∀ m ∈ found.meths, m ∈ F.meths

theorem Holds.mono {Γ : Scope} {e : Expr} {F F' : Instances} (h : K.Holds Γ e F) (hF : F.Le F') :
    K.Holds Γ e F' := by
  obtain ⟨found, hfound, ht, hm⟩ := h
  exact ⟨found, hfound, fun t h => hF.mem_types (ht t h), fun m h => hF.mem_meths (hm m h)⟩

theorem of_addFrom {Γ : Scope} {e : Expr} (h : (K.addFrom Γ e).Ends s () s') :
    Extends s s' ∧ K.Holds Γ e s'.found := by
  rw [addFrom] at h
  cases hc : K.checker.collect K.bounds Γ e Instances.empty with
  | mk outcome found =>
    rw [hc] at h
    obtain ⟨⟨⟩, s₁, h₁, h⟩ := Track.ends_bind.1 h
    obtain ⟨rfl, rfl⟩ := of_typing h₁
    obtain ⟨⟨⟩, s₂, h₂, h⟩ := Track.ends_bind.1 h
    obtain ⟨hext, ht⟩ := of_addTypes h₂
    obtain ⟨hext', hm⟩ := of_addMethods h
    exact ⟨hext.trans hext', found, hc, fun t h => hext'.found.mem_types (ht t h), hm⟩

/-! ## What instances demand -/

/-- What a type demands is among the types of a set. -/
def TypeDone (K : Closure) (t : Ty) (F : Instances) : Prop :=
  ∃ ds, demanded K.table t = .ok ds ∧ ∀ d ∈ ds, d ∈ F.types

theorem of_growTypes {ts : List Ty} (h : (K.growTypes ts).Ends s () s') :
    Extends s s' ∧ ∀ t ∈ ts, K.TypeDone t s'.found := by
  induction ts generalizing s with
  | nil =>
    obtain ⟨-, rfl⟩ := Track.of_ends_pure h
    exact ⟨.refl _, by simp⟩
  | cons t ts ih =>
    obtain ⟨ds, s₁, h₁, h⟩ := Track.ends_bind.1 h
    obtain ⟨hds, rfl⟩ := of_typing h₁
    rw [Answer.ofExcept_eq_ok] at hds
    obtain ⟨⟨⟩, s₂, h₂, h⟩ := Track.ends_bind.1 h
    obtain ⟨hext, hmem⟩ := of_addTypes h₂
    obtain ⟨hext', hts⟩ := ih h
    exact ⟨hext.trans hext',
      List.forall_mem_cons.2 ⟨⟨ds, hds, fun d hd => hext'.found.mem_types (hmem d hd)⟩, hts⟩⟩

/-- A call on an interface is among the calls of a set on a type that implements it. -/
def ImplementerDone (K : Closure) (m : MethodInstance) (t : Ty) (F : Instances) : Prop :=
  t.isNamed = true → t ≠ m.recv →
    ∃ b, K.table.implements K.fuel K.bounds t m.recv = .ok b
      ∧ (b = true → ⟨t, m.meth, m.targs⟩ ∈ F.meths)

theorem of_implementers {m : MethodInstance} {ts : List Ty}
    (h : (K.implementers m ts).Ends s () s') :
    Extends s s' ∧ ∀ t ∈ ts, K.ImplementerDone m t s'.found := by
  induction ts generalizing s with
  | nil =>
    obtain ⟨-, rfl⟩ := Track.of_ends_pure h
    exact ⟨.refl _, by simp⟩
  | cons t ts ih =>
    rw [implementers] at h
    dsimp only at h
    by_cases hc : (t.isNamed && decide (t ≠ m.recv)) = true
    · rw [if_pos hc] at h
      obtain ⟨b, s₁, h₁, h⟩ := Track.ends_bind.1 h
      obtain ⟨hb, rfl⟩ := of_typing h₁
      cases b with
      | true =>
        obtain ⟨new, s₂, h₂, h⟩ := Track.ends_bind.1 h
        obtain ⟨hext, hm⟩ := of_addMethod h₂
        obtain ⟨hext', hts⟩ := ih h
        exact ⟨hext.trans hext', List.forall_mem_cons.2
          ⟨fun _ _ => ⟨true, hb, fun _ => hext'.found.mem_meths hm⟩, hts⟩⟩
      | false =>
        obtain ⟨hext, hts⟩ := ih h
        exact ⟨hext, List.forall_mem_cons.2 ⟨fun _ _ => ⟨false, hb, fun h => by cases h⟩, hts⟩⟩
    · rw [if_neg hc] at h
      obtain ⟨hext, hts⟩ := ih h
      refine ⟨hext, List.forall_mem_cons.2 ⟨fun hn hne => absurd ?_ hc, hts⟩⟩
      simp [hn, hne]

/-- A call on an interface is among the calls of a set on an embedded interface that has the
method. -/
def EmbeddingDone (K : Closure) (m : MethodInstance) (t : Ty) (F : Instances) : Prop :=
  ∃ S, K.table.methods K.bounds K.fuel t = .ok S
    ∧ ((S.find? m.meth).isSome = true → ⟨t, m.meth, m.targs⟩ ∈ F.meths)

theorem of_embeddings {m : MethodInstance} {ts : List Ty} (h : (K.embeddings m ts).Ends s () s') :
    Extends s s' ∧ ∀ t ∈ ts, K.EmbeddingDone m t s'.found := by
  induction ts generalizing s with
  | nil =>
    obtain ⟨-, rfl⟩ := Track.of_ends_pure h
    exact ⟨.refl _, by simp⟩
  | cons t ts ih =>
    obtain ⟨S, s₁, h₁, h⟩ := Track.ends_bind.1 h
    obtain ⟨hS, rfl⟩ := of_typing h₁
    dsimp only at h
    by_cases hc : (S.find? m.meth).isSome = true
    · rw [if_pos hc] at h
      obtain ⟨new, s₂, h₂, h⟩ := Track.ends_bind.1 h
      obtain ⟨hext, hm⟩ := of_addMethod h₂
      obtain ⟨hext', hts⟩ := ih h
      exact ⟨hext.trans hext',
        List.forall_mem_cons.2 ⟨⟨S, hS, fun _ => hext'.found.mem_meths hm⟩, hts⟩⟩
    · rw [if_neg hc] at h
      obtain ⟨hext, hts⟩ := ih h
      exact ⟨hext, List.forall_mem_cons.2 ⟨⟨S, hS, fun hs => absurd hs hc⟩, hts⟩⟩

/-- The types of a call's parameters and of its result are among the types of a set. -/
def SignatureDone (K : Closure) (m : MethodInstance) (F : Instances) : Prop :=
  ∃ S, K.table.methods K.bounds K.fuel m.recv = .ok S
    ∧ ∀ sig, S.find? m.meth = some sig → sig.formals.length = m.targs.length →
      (∀ p ∈ sig.params, p.ty.subst (instantiation sig.formals m.targs) ∈ F.types)
        ∧ sig.result.subst (instantiation sig.formals m.targs) ∈ F.types

theorem of_signatureTypes {m : MethodInstance} (h : (K.signatureTypes m).Ends s () s') :
    Extends s s' ∧ K.SignatureDone m s'.found := by
  obtain ⟨S, s₁, h₁, h⟩ := Track.ends_bind.1 h
  obtain ⟨hS, rfl⟩ := of_typing h₁
  split at h
  · rename_i hnone
    obtain ⟨-, rfl⟩ := Track.of_ends_pure h
    exact ⟨.refl _, S, hS, fun sig hsig => by rw [hnone] at hsig; cases hsig⟩
  · rename_i sig hsig
    by_cases hl : sig.formals.length = m.targs.length
    · rw [if_pos hl] at h
      obtain ⟨hext, hts⟩ := of_addTypes h
      refine ⟨hext, S, hS, fun sig' hsig' _ => ?_⟩
      obtain rfl := Option.some.inj (hsig.symm.trans hsig')
      exact ⟨fun p hp => hts _ (List.mem_append_left _ (List.mem_map_of_mem hp)),
        hts _ (List.mem_append_right _ List.mem_cons_self)⟩
    · rw [if_neg hl] at h
      obtain ⟨-, rfl⟩ := Track.of_ends_pure h
      refine ⟨.refl _, S, hS, fun sig' hsig' hl' => ?_⟩
      obtain rfl := Option.some.inj (hsig.symm.trans hsig')
      exact absurd hl' hl

/-! ## Bodies -/

/-- The value context in which a body is visited. -/
def bodyScope (m : MethodInstance) (args : List Ty) (md : MethodDecl) : Scope :=
  (md.recv, m.recv) :: md.sig.params.map fun p =>
    (p.name, p.ty.subst (instantiation md.recvFormals args ++ instantiation md.sig.formals m.targs))

/-- What the body of a call holds is in a set. -/
def BodyDone (K : Closure) (m : MethodInstance) (F : Instances) : Prop :=
  ∀ c args md, m.recv = .named c args → K.table.method? c m.meth = some md →
    md.recvFormals.length = args.length → md.sig.formals.length = m.targs.length →
    K.Holds (bodyScope m args md) (md.body.substTypes
      (instantiation md.recvFormals args ++ instantiation md.sig.formals m.targs)) F

theorem BodyDone.mono {m : MethodInstance} {F F' : Instances} (h : K.BodyDone m F) (hF : F.Le F') :
    K.BodyDone m F' :=
  fun c args md hr hmd hl hl' => (h c args md hr hmd hl hl').mono hF

/-- The bodies that count as visited have been. -/
def Sound (K : Closure) (s : Frontier) : Prop := ∀ m ∈ s.visited, K.BodyDone m s.found

theorem Extends.sound (h : Extends s s') (hs : K.Sound s) : K.Sound s' :=
  fun m hm => (hs m (h.visited ▸ hm)).mono h.found

theorem of_body {m : MethodInstance} {args : List Ty} {md : MethodDecl}
    (h : (K.body m args md).Ends s () s') : Extends s s'
      ∧ (md.recvFormals.length = args.length → md.sig.formals.length = m.targs.length →
        K.Holds (bodyScope m args md) (md.body.substTypes
          (instantiation md.recvFormals args ++ instantiation md.sig.formals m.targs)) s'.found) := by
  rw [body] at h
  split at h
  · obtain ⟨hext, hholds⟩ := of_addFrom h
    exact ⟨hext, fun _ _ => hholds⟩
  · rename_i hl
    obtain ⟨-, rfl⟩ := Track.of_ends_pure h
    exact ⟨.refl _, fun h1 h2 => absurd ⟨h1, h2⟩ hl⟩

theorem of_visit (hK : K.admission = .ground) {c : String} {m : MethodInstance} {b : Bool}
    (h : (K.visit c m).Ends s b s') :
    s' = { s with visited := insertNew m s.visited } ∧ (b = true ↔ m ∈ s.visited) := by
  obtain ⟨s₁, s₂, h₁, h⟩ := Track.ends_bind.1 h
  obtain ⟨rfl, rfl⟩ := Track.of_ends_state h₁
  rw [hK] at h
  obtain ⟨⟨⟩, s₃, h₂, h⟩ := Track.ends_bind.1 h
  obtain rfl := Track.of_ends_update h₂
  obtain ⟨rfl, rfl⟩ := Track.of_ends_pure h
  exact ⟨rfl, by simp⟩

/-- Visiting the body of a call on a type that is no interface and is there. -/
theorem of_bodies (hK : K.admission = .ground) {m : MethodInstance}
    (h : (K.bodies m).Ends s () s') (hs : K.Sound s) :
    s.found.Le s'.found ∧ K.Sound s'
      ∧ (K.table.isInterface m.recv = .ok false → m.recv ∈ s.found.types →
        K.BodyDone m s'.found) := by
  have hnone (hn : ∀ c args, m.recv = .named c args → K.table.method? c m.meth = none) :
      K.BodyDone m s'.found := fun c args md hr hmd => by
    rw [hn c args hr] at hmd
    cases hmd
  rw [bodies] at h
  split at h
  · rename_i c args hr
    obtain ⟨b, s₁, h₁, h⟩ := Track.ends_bind.1 h
    obtain ⟨hb, rfl⟩ := of_typing h₁
    rw [Answer.ofExcept_eq_ok, hr] at hb
    cases b with
    | true =>
      obtain ⟨-, rfl⟩ := Track.of_ends_pure h
      exact ⟨.refl _, hs, fun hf => by rw [hr, hb] at hf; cases hf⟩
    | false =>
      obtain ⟨s₂, s₃, h₂, h⟩ := Track.ends_bind.1 h
      obtain ⟨rfl, rfl⟩ := Track.of_ends_state h₂
      split at h
      · rename_i md hmd
        by_cases hmem : m.recv ∈ s.found.types
        · rw [if_pos (hr ▸ hmem)] at h
          obtain ⟨seen, s₄, h₄, h⟩ := Track.ends_bind.1 h
          obtain ⟨rfl, hseen⟩ := of_visit hK h₄
          have hfound : s.found.Le s'.found ∧ s'.visited = insertNew m s.visited
              ∧ K.BodyDone m s'.found := by
            cases seen with
            | true =>
              obtain ⟨-, rfl⟩ := Track.of_ends_pure h
              exact ⟨.refl _, rfl, hs m (hseen.1 rfl)⟩
            | false =>
              obtain ⟨hext, hholds⟩ := of_body h
              refine ⟨hext.found, hext.visited, fun c' args' md' hr' hmd' hl hl' => ?_⟩
              obtain ⟨rfl, rfl⟩ := Ty.named.inj (hr.symm.trans hr')
              obtain rfl := Option.some.inj (hmd.symm.trans hmd')
              exact hholds hl hl'
          obtain ⟨hle, hvisited, hdone⟩ := hfound
          refine ⟨hle, fun m' hm' => ?_, fun _ _ => hdone⟩
          rw [hvisited, mem_insertNew] at hm'
          rcases hm' with hm' | rfl
          · exact (hs m' hm').mono hle
          · exact hdone
        · rw [if_neg (hr ▸ hmem)] at h
          obtain ⟨-, rfl⟩ := Track.of_ends_pure h
          exact ⟨.refl _, hs, fun _ hm => absurd hm hmem⟩
      · rename_i hmd
        obtain ⟨-, rfl⟩ := Track.of_ends_pure h
        refine ⟨.refl _, hs, fun _ _ => hnone fun c' args' hr' => ?_⟩
        obtain ⟨rfl, -⟩ := Ty.named.inj (hr.symm.trans hr')
        exact hmd
  · rename_i hn
    obtain ⟨-, rfl⟩ := Track.of_ends_pure h
    exact ⟨.refl _, hs, fun _ _ => hnone fun c args hr => absurd hr (hn c args)⟩

end Closure

end FeatherGo
