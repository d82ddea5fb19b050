import FeatherGo.Instance.Nesting
import FeatherGo.Proofs.Discovery.Kept
import FeatherGo.Proofs.Typing.Settling

/-!
# Visits that settle

Visits of open instances settle, since typing does: with enough fuel they end with an error, or with a
frontier that has grown (`Frontier.Since`).

A pass applies the rules to the instances that were there when it began. What the rules demand is told
in advance: it lies in every set that absorbs the instances (`Table.Absorbs`). What the body of a method
holds is not, but a body is visited once only, and it counts as visited then. So a pass stays in a set
that absorbs what was there, or it visits a new body (`Closure.settles_pass`).
-/

namespace FeatherGo

open Answer (Settles Reaches)
open Answer.Trait (settling)

namespace Track.Settles

variable {σ ε α : Type} {E : ε → Prop} {s : σ} {Q : α → σ → Prop}

/-- The end is one that the computations come to. -/
theorem ends {x : Nat → Track σ ε α} (h : Settles E x s Q) :
    Settles E x s fun a s' => Q a s' ∧ ∃ n, ∀ m ≥ n, (x m).Ends s a s' := by
  obtain ⟨r, s', hx, hr⟩ := h
  refine ⟨r, s', hx, ?_⟩
  cases r with
  | ok a => exact ⟨hr, hx⟩
  | error e => exact hr
  | unfinished => exact hr

end Track.Settles

/-! ## Collecting settles -/

namespace Checker

variable {C : Nat → Checker} {P : Ty → Prop} {T : Table} {Δ : Bounds}

theorem settles_collectAll {Γ : Scope} {es : List Expr}
    (h : ∀ e ∈ es, ∀ F, Track.Settles (fun _ => True) (fun n => (C n).collect Δ Γ e) F fun _ _ => True)
    (F : Instances) :
    Track.Settles (fun _ => True) (fun n => (C n).collectAll Δ Γ es) F fun _ _ => True := by
  induction es generalizing F with
  | nil => exact .pure trivial
  | cons e es ih =>
    rw [List.forall_mem_cons] at h
    exact (h.1 F).bind fun _ F _ => ih h.2 F

/-- Collecting the instances in an expression settles where typing does. -/
theorem settles_collect (hC : Uniform settling P T C) (hΔ : Δ.All P) (Γ : Scope) {e : Expr}
    (he : e.Guarded P) (F : Instances) :
    Track.Settles (fun _ => True) (fun n => (C n).collect Δ Γ e) F fun _ _ => True := by
  induction e using Expr.induction generalizing F with
  | var x => exact .pure trivial
  | structLit c ts es ih =>
    obtain ⟨-, hes⟩ := he.structLit
    exact (settles_collectAll (fun e hm => ih e hm (hes e hm)) F).bind fun _ _ _ => .update trivial
  | select e f ih => exact ih he.select F
  | call recv m ts es ih ihs =>
    obtain ⟨hrecv, -, hes⟩ := he.call
    refine (ih hrecv F).bind fun _ F _ => ?_
    refine (settles_collectAll (fun e hm => ihs e hm (hes e hm)) F).bind fun _ F _ => ?_
    have htype : Settles fun n => (C n).typeOf Δ Γ recv :=
      settling.bind (hC.check hΔ Γ hrecv) fun _ => settling.ok _
    have hlift {α : Type} {x : Nat → Answer TypeError α} (hx : Settles x) (F : Instances) :
        Track.Settles (fun _ => True) (fun n => (monadLift (x n) : Track Instances TypeError α)) F
          fun _ _ => True := .lift hx (fun _ _ => trivial) fun _ _ => trivial
    refine (hlift htype F).bind fun t F _ => ?_
    refine (hlift (settling.ofExcept (Checker.assertedOn Δ t)) F).bind fun _ F _ => ?_
    exact (Track.Settles.update (Q := fun _ _ => True) trivial).bind fun _ _ _ => .update trivial
  | assert e t ih => exact (ih he.assert.1 F).bind fun _ _ _ => .update trivial
  | sprintf s es ih => exact settles_collectAll (fun e hm => ih e hm (he.sprintf e hm)) F
  | lit l => exact .pure trivial
  | binary op l r ihl ihr =>
    obtain ⟨hl, hr⟩ := he.binary
    exact (ihl hl F).bind fun _ F _ => ihr hr F
  | convert k e ih => exact ih he.convert F

end Checker

/-! ## Frontiers of a search -/

/-- How a search of open instances fails: on a type that is nested too deeply, or in typing. -/
inductive MonoError.EndsSearch (bound : Nat) : MonoError → Prop
  | tooDeep {t : Ty} (deep : bound < t.depth) : EndsSearch bound (.notMonomorphisable (.tooDeep t bound))
  | type (e : TypeError) : EndsSearch bound (.type e)

namespace Table

variable {T : Table} {Δ : Bounds}

/-- The instances that a search may let in: over guarded types that are not nested too deeply. -/
def openSets (T : Table) : InstanceSets :=
  setsOver (fun t => t.Guarded T.MayBound ∧ t.depth ≤ T.depthBound) fun _ => True

/-- The methods that are declared. -/
def methodKeys (T : Table) : List (String × String) :=
  T.methodDecls.map fun md => (md.recvType, md.sig.name)

/-- A set holds what the rules demand of its members, but for bodies and for what is nested too
deeply. -/
structure Absorbs (T : Table) (Δ : Bounds) (S : InstanceSets) : Prop where
  le : S ≤ T.openSets
  demands : ∀ {t d}, t ∈ S.1 → Closure.Demands T t d → d.depth ≤ T.depthBound → d ∈ S.1
  implementers : ∀ {m t}, m ∈ S.2 → t ∈ S.1 → ⟨t, m.meth, m.targs⟩ ∈ S.2
  embeddings : ∀ {m ms d as}, m ∈ S.2 → T.resolve m.recv = .ok (.interface ms) → .embed d as ∈ ms →
    (Ty.named d as).depth ≤ T.depthBound → ⟨.named d as, m.meth, m.targs⟩ ∈ S.2
  signature : ∀ {m n E sig t}, m ∈ S.2 → T.methods Δ n m.recv = .ok E → E.find? m.meth = some sig →
    sig.formals.length = m.targs.length → t ∈ sig.types →
    (t.subst (instantiation sig.formals m.targs)).depth ≤ T.depthBound →
    t.subst (instantiation sig.formals m.targs) ∈ S.1

end Table

/-- Under some bounds typing settles and keeps types guarded. -/
structure Table.Searchable (T : Table) (Δ : Bounds) : Prop where
  typing : Uniform settling T.MayBound T fun n => ⟨T, true, n⟩
  bounds : Δ.All T.MayBound
  keeps : T.KeepsInstances Δ (Ty.Guarded T.MayBound) fun _ => True

namespace Frontier

/-- A frontier of a search: each instance is there once, and so is each body. -/
structure Sane (T : Table) (s : Frontier) : Prop where
  le : s.found.sets ≤ T.openSets
  typesNodup : s.found.types.Nodup
  methsNodup : s.found.meths.Nodup
  visitedNodup : s.visitedDecls.Nodup
  visited : ∀ k ∈ s.visitedDecls, k ∈ T.methodKeys

/-- A frontier has grown from another one within a set, or by the body of a method. -/
structure Since (T : Table) (b : Frontier) (S : InstanceSets) (s : Frontier) : Prop
    extends s.Sane T where
  found : b.found.Le s.found
  grown : b.visitedDecls <+: s.visitedDecls
  within : s.visitedDecls = b.visitedDecls → s.found.sets ≤ S

variable {T : Table} {S : InstanceSets} {b s s' : Frontier}

theorem Sane.empty (T : Table) : Frontier.empty.Sane T :=
  ⟨⟨fun _ ht => absurd ht List.not_mem_nil, fun _ hm => absurd hm List.not_mem_nil⟩, .nil, .nil, .nil,
    fun _ hk => absurd hk List.not_mem_nil⟩

theorem Sane.since (hs : s.Sane T) (hS : s.found.sets ≤ S) : Since T s S s :=
  ⟨hs, .refl _, List.prefix_rfl, fun _ => hS⟩

/-- Not more bodies are visited than are declared. -/
theorem Sane.length_visitedDecls (hs : s.Sane T) : s.visitedDecls.length ≤ T.methodKeys.length :=
  (hs.visitedNodup.subperm hs.visited).length_le

/-- After a new body what was to be found is not told in advance. -/
theorem Since.trans (h : Since T b S s) (h' : Since T s T.openSets s')
    (hne : s.visitedDecls ≠ b.visitedDecls) : Since T b S s' := by
  refine ⟨h'.toSane, h.found.trans h'.found, h.grown.trans h'.grown, fun he => absurd ?_ hne⟩
  have hle := h'.grown.length_le
  rw [he] at hle
  exact (h.grown.eq_of_length_le hle).symm

/-- The body of a declared method counts as visited. -/
theorem Since.markVisited (h : Since T b S s) {k : String × String} (hk : k ∈ T.methodKeys) :
    Since T b S { s with visitedDecls := insertNew k s.visitedDecls } := by
  have hprefix := prefix_insertNew k s.visitedDecls
  refine ⟨⟨h.le, h.typesNodup, h.methsNodup, nodup_insertNew h.visitedNodup, fun a ha => ?_⟩, h.found,
    h.grown.trans hprefix, fun he => h.within ?_⟩
  · exact (mem_insertNew.1 ha).elim (h.visited a) fun ha => ha ▸ hk
  · have hle : s.visitedDecls.length ≤ b.visitedDecls.length := he ▸ hprefix.length_le
    exact (h.grown.eq_of_length_le hle).symm

theorem Since.insertType (h : Since T b S s) (hS : S ≤ T.openSets) {t : Ty} (ht : t ∈ S.1) :
    Since T b S { s with found := { s.found with types := insertNew t s.found.types } } := by
  have hmem {A : Set Ty} (hA : ∀ u ∈ s.found.types, u ∈ A) (hle : t ∈ A) :
      ∀ u ∈ insertNew t s.found.types, u ∈ A := fun u hu =>
    (mem_insertNew.1 hu).elim (hA u) fun hu => hu ▸ hle
  exact ⟨⟨⟨hmem h.le.1 (hS.1 ht), h.le.2⟩, nodup_insertNew h.typesNodup, h.methsNodup, h.visitedNodup,
    h.visited⟩, ⟨h.found.types.trans (prefix_insertNew _ _), h.found.meths⟩, h.grown,
    fun he => ⟨hmem (h.within he).1 ht, (h.within he).2⟩⟩

theorem Since.insertMethod (h : Since T b S s) (hS : S ≤ T.openSets) {m : MethodInstance}
    (hm : m ∈ S.2) :
    Since T b S { s with found := { s.found with meths := insertNew m s.found.meths } } := by
  have hmem {A : Set MethodInstance} (hA : ∀ u ∈ s.found.meths, u ∈ A) (hle : m ∈ A) :
      ∀ u ∈ insertNew m s.found.meths, u ∈ A := fun u hu =>
    (mem_insertNew.1 hu).elim (hA u) fun hu => hu ▸ hle
  exact ⟨⟨⟨h.le.1, hmem h.le.2 (hS.2 hm)⟩, h.typesNodup, nodup_insertNew h.methsNodup, h.visitedNodup,
    h.visited⟩, ⟨h.found.types, h.found.meths.trans (prefix_insertNew _ _)⟩, h.grown,
    fun he => ⟨(h.within he).1, hmem (h.within he).2 hm⟩⟩

end Frontier

/-! ## Visits settle -/

namespace Closure

variable {T : Table} {Δ : Bounds} {S : InstanceSets} {b s : Frontier}

/-- Visits of open instances settle from a frontier, and it grows. -/
abbrev Grows (T : Table) (b : Frontier) (S : InstanceSets) {α : Type} (x : Nat → Visit α)
    (s : Frontier) : Prop :=
  Track.Settles (MonoError.EndsSearch T.depthBound) x s fun _ => Frontier.Since T b S

theorem settles_typing {α : Type} {x : Nat → Answer TypeError α} (hx : Settles x) (s : Frontier) :
    Track.Settles (MonoError.EndsSearch T.depthBound) (fun n => typing (x n)) s
      fun a s' => s' = s ∧ Reaches x (.ok a) := by
  refine .lift (hx.mapError MonoError.type) (fun e ⟨n, hn⟩ => ?_) fun a ⟨n, hn⟩ => ⟨rfl, n, ?_⟩
  · have hn : (x n).mapError MonoError.type = .error e := hn n (Nat.le_refl n)
    cases hxn : x n with
    | error e' =>
      rw [hxn] at hn
      exact Answer.error.inj hn ▸ .type e'
    | _ =>
      rw [hxn] at hn
      cases hn
  · exact fun m hm => Answer.mapError_eq_ok.1 (hn m hm)

/-- Typing without fuel. -/
theorem settles_typing_except {α : Type} (x : Except TypeError α) (s : Frontier) :
    Track.Settles (MonoError.EndsSearch T.depthBound) (fun _ => typing (.ofExcept x)) s
      fun a s' => s' = s ∧ x = .ok a :=
  (settles_typing (settling.ofExcept x) s).mono fun _ _ ⟨hs, hx⟩ =>
    ⟨hs, Answer.ofExcept_eq_ok.1 hx.eq_of_const⟩

theorem settles_permit (ts : List Ty) (s : Frontier) :
    Track.Settles (MonoError.EndsSearch T.depthBound) (fun n => (T.openClosure n Δ).permit ts) s
      fun _ s' => s' = s ∧ ∀ t ∈ ts, t.depth ≤ T.depthBound := by
  -- What is refused does not depend on fuel.
  let K := T.openClosure 0 Δ
  change Track.Settles _ (fun _ => K.permit ts) s _
  have hrefusal (t : Ty) : K.refusal? t
      = if T.depthBound < t.depth then some (.notMonomorphisable (.tooDeep t T.depthBound)) else none :=
    rfl
  rw [permit]
  cases h : ts.findSome? K.refusal? with
  | some e =>
    obtain ⟨t, -, ht⟩ := List.exists_of_findSome?_eq_some h
    rw [hrefusal] at ht
    split at ht
    · rename_i hdeep
      exact .fail (Option.some.inj ht ▸ .tooDeep hdeep)
    · cases ht
  | none =>
    refine .pure ⟨rfl, fun t ht => ?_⟩
    have ht := List.findSome?_eq_none_iff.1 h t ht
    rw [hrefusal] at ht
    split at ht
    · cases ht
    · omega

section

variable (hS : S ≤ T.openSets)

include hS

theorem settles_addType (hs : Frontier.Since T b S s) {t : Ty}
    (ht : t.depth ≤ T.depthBound → t ∈ S.1) :
    Grows T b S (fun n => (T.openClosure n Δ).addType t) s := by
  refine (settles_permit [t] s).bind fun _ s' ⟨he, hdepth⟩ => ?_
  subst he
  refine (Track.Settles.state (Q := fun _ => Frontier.Since T b S) hs).bind fun _ s hs => ?_
  refine (Track.Settles.update (Q := fun _ => Frontier.Since T b S) ?_).bind fun _ _ hs => .pure hs
  exact hs.insertType hS (ht (hdepth t List.mem_cons_self))

theorem settles_addMethod (hs : Frontier.Since T b S s) {m : MethodInstance}
    (hm : (∀ t ∈ m.recv :: m.targs, t.depth ≤ T.depthBound) → m ∈ S.2) :
    Grows T b S (fun n => (T.openClosure n Δ).addMethod m) s := by
  refine (settles_permit (m.recv :: m.targs) s).bind fun _ s' ⟨he, hdepth⟩ => ?_
  subst he
  refine (Track.Settles.state (Q := fun _ => Frontier.Since T b S) hs).bind fun _ s hs => ?_
  refine (Track.Settles.update (Q := fun _ => Frontier.Since T b S) ?_).bind fun _ _ hs => .pure hs
  exact hs.insertMethod hS (hm hdepth)

theorem settles_addTypes (hs : Frontier.Since T b S s) {ts : List Ty}
    (hts : ∀ t ∈ ts, t.depth ≤ T.depthBound → t ∈ S.1) :
    Grows T b S (fun n => (T.openClosure n Δ).addTypes ts) s := by
  induction ts generalizing s with
  | nil => exact .pure hs
  | cons t ts ih =>
    rw [List.forall_mem_cons] at hts
    exact (settles_addType hS hs hts.1).bind fun _ _ hs => ih hs hts.2

theorem settles_addMethods (hs : Frontier.Since T b S s) {ms : List MethodInstance}
    (hms : ∀ m ∈ ms, (∀ t ∈ m.recv :: m.targs, t.depth ≤ T.depthBound) → m ∈ S.2) :
    Grows T b S (fun n => (T.openClosure n Δ).addMethods ms) s := by
  induction ms generalizing s with
  | nil => exact .pure hs
  | cons m ms ih =>
    rw [List.forall_mem_cons] at hms
    exact (settles_addMethod hS hs hms.1).bind fun _ _ hs => ih hs hms.2

end

/-! ## What instances demand -/

section Rules

variable (hT : T.Searchable Δ) (hS : T.Absorbs Δ S)

include hS in
theorem settles_growTypes (hs : Frontier.Since T b S s) {ts : List Ty} (hts : ∀ t ∈ ts, t ∈ S.1) :
    Grows T b S (fun n => (T.openClosure n Δ).growTypes ts) s := by
  induction ts generalizing s with
  | nil => exact .pure hs
  | cons t ts ih =>
    rw [List.forall_mem_cons] at hts
    refine (settles_typing_except (demanded T t) s).bind fun ds s' ⟨he, hds⟩ => ?_
    subst he
    refine (settles_addTypes hS.le hs fun d hd => ?_).bind fun _ _ hs => ih hs hts.2
    exact hS.demands hts.1 ((mem_demanded hds).1 hd)

include hT in
/-- What an expression over guarded types holds is let in or too deep. -/
theorem settles_addFrom (hs : Frontier.Since T b T.openSets s) {Γ : Scope}
    (hΓ : ∀ x t, Γ.find? x = some t → t.Guarded T.MayBound) {e : Expr} (he : e.Guarded T.MayBound) :
    Grows T b T.openSets (fun n => (T.openClosure n Δ).addFrom Γ e) s := by
  obtain ⟨r, F, ⟨n, hn⟩, hr⟩ := Checker.settles_collect hT.typing hT.bounds Γ he .empty
  have hadd : Grows T b T.openSets (fun m => do
      typing r
      (T.openClosure m Δ).addTypes F.types
      (T.openClosure m Δ).addMethods F.meths) s := by
    cases r with
    | ok a =>
      have hF := Checker.over_of_collect hT.keeps.toKeeps rfl hΓ he (hn n (Nat.le_refl n)) (.empty _ _)
      refine (settles_typing (.ok ()) s).bind fun _ s' ⟨hs', _⟩ => ?_
      subst hs'
      refine (settles_addTypes le_rfl hs fun t ht hd => ⟨hF.types t ht, hd⟩).bind fun _ _ hs => ?_
      refine settles_addMethods le_rfl hs fun m hm hd => ?_
      rw [List.forall_mem_cons] at hd
      exact ⟨⟨(hF.meths m hm).recv, hd.1⟩, fun t ht => ⟨⟨((hF.meths m hm).targs t ht).1, hd.2 t ht⟩, trivial⟩⟩
    | error e => exact (settles_typing (.error e) s).bind fun _ _ ⟨_, h⟩ => nomatch h.eq_of_const
    | unfinished => exact hr.elim
  obtain ⟨r', s', ⟨k, hk⟩, hr'⟩ := hadd
  refine ⟨r', s', ⟨n + k, fun m hm => ?_⟩, hr'⟩
  have hcollect : (T.openClosure m Δ).checker.collect (T.openClosure m Δ).bounds Γ e .empty = (r, F) :=
    hn m (by omega)
  change (T.openClosure m Δ).addFrom Γ e s = _
  rw [addFrom, hcollect]
  exact hk m (by omega)

variable {m : MethodInstance}

section

variable (hm : m ∈ S.2)

include hT hS hm

theorem settles_implementers (hs : Frontier.Since T b S s) {ts : List Ty} (hts : ∀ t ∈ ts, t ∈ S.1) :
    Grows T b S (fun n => (T.openClosure n Δ).implementers m ts) s := by
  induction ts generalizing s with
  | nil => exact .pure hs
  | cons t ts ih =>
    rw [List.forall_mem_cons] at hts
    simp only [implementers]
    refine .ite (fun hc => ?_) fun hc => ih hs hts.2
    refine (settles_typing (hT.typing.implements hT.bounds t m.recv) s).bind fun _ s' hsame => ?_
    obtain ⟨rfl, -⟩ := hsame
    refine .ite (fun _ => ?_) fun _ => ih hs hts.2
    refine (settles_addMethod hS.le hs fun _ => ?_).bind fun _ _ hs => ih hs hts.2
    exact hS.implementers hm hts.1

theorem settles_embeddings (hs : Frontier.Since T b S s) {ts : List Ty}
    (hts : ∀ t ∈ ts, ∃ ms d as, T.resolve m.recv = .ok (.interface ms) ∧ .embed d as ∈ ms
      ∧ t = .named d as) : Grows T b S (fun n => (T.openClosure n Δ).embeddings m ts) s := by
  induction ts generalizing s with
  | nil => exact .pure hs
  | cons t ts ih =>
    rw [List.forall_mem_cons] at hts
    obtain ⟨⟨ms, d, as, hms, hd, rfl⟩, hts⟩ := hts
    refine (settles_typing (hT.typing.methods hT.bounds (.named d as)) s).bind fun E s' ⟨he, _⟩ => ?_
    subst he
    refine .ite (fun _ => ?_) fun _ => ih hs hts
    refine (settles_addMethod hS.le hs fun hdepth => ?_).bind fun _ _ hs => ih hs hts
    exact hS.embeddings hm hms hd (hdepth _ List.mem_cons_self)

theorem settles_signatureTypes (hs : Frontier.Since T b S s) :
    Grows T b S (fun n => (T.openClosure n Δ).signatureTypes m) s := by
  refine (settles_typing (hT.typing.methods hT.bounds m.recv) s).bind fun E s' ⟨he, hE⟩ => ?_
  subst he
  obtain ⟨n, hE⟩ := hE
  have hE := hE n (Nat.le_refl n)
  split
  · exact .pure hs
  · rename_i sig hsig
    refine .ite (fun hl => ?_) fun _ => .pure hs
    refine settles_addTypes hS.le hs fun t ht => ?_
    have htypes : ∃ u ∈ sig.types, u.subst (instantiation sig.formals m.targs) = t := by
      rcases List.mem_append.1 ht with ht | ht
      · obtain ⟨p, hp, rfl⟩ := List.mem_map.1 ht
        exact ⟨_, Signature.mem_types_param hp, rfl⟩
      · exact ⟨_, sig.mem_types_result, (List.mem_singleton.1 ht).symm⟩
    obtain ⟨u, hu, rfl⟩ := htypes
    exact hS.signature hm hE hsig hl hu

end

omit hT hS in
/-- A body that had not been visited counts as visited. -/
theorem settles_visit {c : String} (hk : (c, m.meth) ∈ T.methodKeys) (hs : Frontier.Since T b S s) :
    Track.Settles (MonoError.EndsSearch T.depthBound) (fun n => (T.openClosure n Δ).visit c m) s
      fun seen s' => Frontier.Since T b S s' ∧ (seen = false → s'.visitedDecls ≠ b.visitedDecls) := by
  let marked := { s with visitedDecls := insertNew (c, m.meth) s.visitedDecls }
  have hmarked : Frontier.Since T b S marked := hs.markVisited hk
  refine (Track.Settles.state (Q := fun a s' => s = a ∧ s = s') ⟨rfl, rfl⟩).bind ?_
  rintro _ _ ⟨rfl, rfl⟩
  refine (Track.Settles.update (Q := fun _ s' => s' = marked) rfl).bind ?_
  rintro _ _ rfl
  refine .pure ⟨hmarked, fun hnew he => ?_⟩
  have hnew : (c, m.meth) ∉ s.visitedDecls := of_decide_eq_false hnew
  have hle := hs.grown.length_le
  have hvisited : (insertNew (c, m.meth) s.visitedDecls).length = b.visitedDecls.length :=
    congrArg List.length he
  rw [insertNew, if_neg hnew, List.length_append, List.length_singleton] at hvisited
  omega

include hT in
/-- The body of a call is visited once, and then it counts as visited. -/
theorem settles_bodies (hm : m ∈ T.openSets.2) (hs : Frontier.Since T b S s) :
    Grows T b S (fun n => (T.openClosure n Δ).bodies m) s := by
  obtain ⟨recv, meth, targs⟩ := m
  cases recv with
  | named c args =>
    refine (settles_typing_except (T.isInterface (.named c args)) s).bind fun _ s' ⟨he, _⟩ => ?_
    subst he
    refine .ite (fun _ => .pure hs) fun _ => ?_
    refine (Track.Settles.state (Q := fun _ => Frontier.Since T b S) hs).bind fun _ s hs => ?_
    have hmethod (n : Nat) : (T.openClosure n Δ).table.method? c meth = T.method? c meth := rfl
    simp only [hmethod]
    cases hmd : T.method? c meth with
    | none => exact .pure hs
    | some md =>
      obtain ⟨hdecl, rfl, rfl⟩ := Table.of_method? hmd
      refine .ite (fun _ => ?_) fun _ => .pure hs
      refine (settles_visit (List.mem_map_of_mem hdecl) hs).bind fun seen s hs => ?_
      obtain ⟨hs, hnew⟩ := hs
      refine .ite (fun hseen => ?_) fun _ => .pure hs
      refine .ite (fun ⟨hl, hl'⟩ => ?_) fun _ => .pure hs
      obtain ⟨hbody, hscope⟩ := hT.keeps.bodies md hdecl args targs hm.recv.1 hl
        (fun t ht => ⟨(hm.targs t ht).1.1, trivial⟩) hl'
      have hnew := hnew (by simpa using hseen)
      exact (settles_addFrom hT (hs.toSane.since hs.le) hscope hbody).mono fun _ _ h => hs.trans h hnew
  | _ => exact .pure hs

variable {types : List Ty} (htypes : ∀ t ∈ types, t ∈ S.1)

include hT hS htypes

theorem settles_growMethod (hm : m ∈ S.2) (hs : Frontier.Since T b S s) :
    Grows T b S (fun n => (T.openClosure n Δ).growMethod types m) s := by
  have hrest {s : Frontier} (hs : Frontier.Since T b S s) : Grows T b S (fun n => do
      (T.openClosure n Δ).signatureTypes m
      (T.openClosure n Δ).bodies m) s :=
    (settles_signatureTypes hT hS hm hs).bind fun _ _ hs => settles_bodies hT (hS.le.2 hm) hs
  refine (settles_typing_except (T.isInterface m.recv) s).bind fun _ s' ⟨he, _⟩ => ?_
  subst he
  refine .ite (fun _ => ?_) fun _ => hrest hs
  refine (settles_implementers hT hS hm hs htypes).bind fun _ s hs => ?_
  refine (settles_typing_except (embeddedIn T m.recv) s).bind fun us s' ⟨he, hus⟩ => ?_
  subst he
  exact (settles_embeddings hT hS hm hs fun t ht => (mem_embeddedIn hus).1 ht).bind
    fun _ _ hs => hrest hs

theorem settles_growMethods {ms : List MethodInstance} (hms : ∀ m ∈ ms, m ∈ S.2)
    (hs : Frontier.Since T b S s) :
    Grows T b S (fun n => (T.openClosure n Δ).growMethods types ms) s := by
  induction ms generalizing s with
  | nil => exact .pure hs
  | cons m ms ih =>
    rw [List.forall_mem_cons] at hms
    exact (settles_growMethod hT hS htypes hms.1 hs).bind fun _ _ hs => ih hms.2 hs

omit htypes in
/-- **A pass settles.** It stays in a set that absorbs what was there, or visits a new body. -/
theorem settles_pass (hs : s.Sane T) (hle : s.found.sets ≤ S) :
    Grows T s S (fun n => (T.openClosure n Δ).pass) s := by
  refine (Track.Settles.state (Q := fun a s' => s = a ∧ s = s') ⟨rfl, rfl⟩).bind ?_
  rintro _ _ ⟨rfl, rfl⟩
  refine (settles_growTypes hS (hs.since hle) hle.1).bind fun _ _ hs => ?_
  exact settles_growMethods hT hS hle.1 hle.2 hs

end Rules

end Closure

end FeatherGo
