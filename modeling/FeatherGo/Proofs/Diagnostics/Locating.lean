import FeatherGo.Proofs.Diagnostics.Texts
import FeatherGo.Proofs.Faults
import FeatherGo.Proofs.Typing.Written

/-!
# Errors that name what a program writes

A check names in its errors what it looks at. That is within the text of the program (`Program.Locates`)
except for what the check has made itself: expressions with conversions put in, applications at type
arguments that stood for formals, and receiver types, which a method writes with bounds
(`Program.Reworks`).

The types that a check comes across apply declared names as the program writes them or as they are
declared (`Ty.Known`), which declarations keep. So what unfolding, gathering methods and comparing types
find wrong is located (`Program.Source.methods`, `Program.Source.implements`), and so is what is
wrong with a type that the program writes (`Program.Source.okType`).
-/

namespace FeatherGo

open Text (Within)

namespace Program

/-- The errors whose term the check has made: an expression with conversions put in, an application with
type arguments put in for formals, and a receiver type with formals, which is written with their bounds.
The program has no expression and no type of that text. -/
inductive Reworks (p : Program) : TypeError → Prop
  | elaborated {C : Checker} {Δ : Bounds} {Γ : Scope} {e term : Expr} {t found expected : Ty}
      {dest : Destination} (table : Table.ofDecls p.decls = .ok C.table) (part : p.Part e)
      (check : C.check Δ Γ e = .ok (t, term)) (unwritten : ¬ p.Spells term.render) :
    Reworks p (.notAssignable found expected dest term)
  | instantiated {c : String} {us args : List Ty} {expected found : Nat}
      (written : p.Writes (.named c us)) (length : us.length = args.length)
      (unwritten : ¬ p.Spells (Ty.named c args).render) :
    Reworks p (.typeArity (.named c args) expected found)
  | receiver {md : MethodDecl} {arg bound : Ty} (declared : .method md ∈ p.decls)
      (formals : md.recvFormals ≠ []) (unwritten : ¬ p.Spells md.selfType.render) :
    Reworks p (.boundViolation arg bound (.type md.selfType))

/-- These are errors of three codes: types that do not fit, arity and bounds. -/
theorem Reworks.code_mem {p : Program} {e : TypeError} (h : p.Reworks e) :
    e.code ∈ ["E0012", "E0006", "E0007"] := by
  cases h <;> simp [TypeError.code]

/-- The term of an error, if it has one, is within the text of the program, or the check has made it. -/
def Locates (p : Program) (e : TypeError) : Prop :=
  (∀ s, e.term = some s → Within s p.render) ∨ p.Reworks e

variable {p : Program}

theorem locates_of_none {e : TypeError} (h : e.term = none) : p.Locates e :=
  .inl fun s hs => by
    rw [h] at hs
    cases hs

theorem locates_of_within {e : TypeError} {s : String} (h : e.term = some s) (hs : Within s p.render) :
    p.Locates e :=
  .inl fun s' hs' => by
    rw [h] at hs'
    exact Option.some.inj hs' ▸ hs

/-- Where the program does not have the text of a term, the check has made the term. -/
theorem locates_of_unwritten {e : TypeError} {s : String} (h : e.term = some s)
    (hmade : ¬p.Spells s → p.Reworks e) : p.Locates e := by
  by_cases hs : p.Spells s
  · exact locates_of_within h hs.within
  · exact .inr (hmade hs)

/-- A declared name is applied to as many arguments as it takes, or as the program gives it somewhere. -/
def Applies (p : Program) (T : Table) (c : String) (n : Nat) : Prop :=
  (∃ td, T.type? c = some td ∧ td.formals.length = n) ∨ ∃ us, us.length = n ∧ p.Writes (.named c us)

end Program

/-- The declared names at the head of a type are applied as they take it or as the program does it. -/
def Ty.Applied (p : Program) (T : Table) : Ty → Prop
  | .named c args => p.Applies T c args.length
  | .interface ms => ∀ c args, .embed c args ∈ ms → p.Applies T c args.length
  | _ => True

/-- So are the names in the types nested in a type. -/
abbrev Ty.Known (p : Program) (T : Table) : Ty → Prop := Ty.Everywhere (Ty.Applied p T)

namespace Ty

variable {p : Program} {T : Table}

theorem Applied.subst {t : Ty} (h : t.Applied p T) (ht : ∀ a, t ≠ .param a) (η : Env Ty) :
    (t.subst η).Applied p T := by
  cases t with
  | param a => exact absurd rfl (ht a)
  | named c args =>
    rw [subst_named, Applied, List.length_map]
    exact h
  | interface ms =>
    rw [subst_interface]
    intro c args hm
    obtain ⟨as, hm', rfl⟩ := Table.exists_of_embed_mem_map hm
    rw [List.length_map]
    exact h c as hm'
  | _ => simp [Applied]

theorem known_of_parts_nil {t : Ty} (h : t.Applied p T) (hparts : t.parts = []) : t.Known p T :=
  Everywhere.iff_parts.2 ⟨h, by simp [hparts]⟩

theorem known_param (a : String) : (Ty.param a).Known p T := known_of_parts_nil trivial rfl

theorem known_prim (q : Prim) : (Ty.prim q).Known p T := known_of_parts_nil trivial rfl

/-- **To be known is hereditary.** -/
theorem hereditary_known (p : Program) (T : Table) : Ty.Hereditary (Ty.Known p T) where
  prim := known_prim
  part ht ha := ht.of_mem_parts ha
  embed ht hm := Everywhere.iff_parts.2 ⟨ht.self _ _ hm, fun _ ha =>
    ht.of_mem_parts (mem_parts_of_embed hm ha)⟩
  method ht hs := by
    refine Everywhere.iff_parts.2 ⟨fun c args hm => ?_, fun u hu => ?_⟩
    · cases List.mem_singleton.1 hm
    · exact ht.of_mem_parts (mem_parts_of_method hs (by simpa [Signature.alone, Member.types] using hu))
  subst ht hη := ht.subst_of (fun _ => trivial) (fun _ η hp h => h.subst hp η) hη

/-- What a program writes is known. -/
theorem known_of_writes {t : Ty} (h : p.Writes t) : t.Known p T := by
  intro u hu
  have hwrites := h.preorder hu
  cases u with
  | named c args => exact .inr ⟨args, rfl, hwrites⟩
  | interface ms => exact fun c args hm => .inr ⟨args, rfl, hwrites.embed hm⟩
  | _ => trivial

end Ty

namespace Program

/-- A table has the declarations of a program. -/
structure Source (p : Program) (T : Table) : Prop where
  table : Table.ofDecls p.decls = .ok T

namespace Source

variable {p : Program} {T : Table}

section

variable (h : p.Source T)

include h

theorem method {md : MethodDecl} (hmd : md ∈ T.methodDecls) : .method md ∈ p.decls :=
  Table.mem_decls_of_method h.table hmd

/-- **The declarations of a program write known types.** -/
theorem writes : T.Writes (Ty.Known p T) where
  sources _ _ htd := Ty.known_of_writes (.source (Table.mem_decls_of_type? h.table htd))
  signatures md hmd := by
    refine Ty.Everywhere.iff_parts.2 ⟨fun c args hm => ?_, fun u hu => Ty.known_of_writes ?_⟩
    · cases List.mem_singleton.1 hm
    · exact .signature (h.method hmd) (by simpa [Signature.alone, Member.types] using hu)
  bodies _ hmd _ ht := Ty.known_of_writes ((Part.body (h.method hmd)).writes ht)

/-- A known name is within the text of the program. -/
theorem within {c : String} {n : Nat} (hc : p.Applies T c n) : Within c p.render := by
  rcases hc with ⟨td, htd, -⟩ | ⟨us, -, hus⟩
  · obtain rfl := (Table.mem_of_type? htd).2
    exact td.within_name.trans (within_type (Table.mem_decls_of_type? h.table htd))
  · exact (Ty.within_name c us).trans hus.within

/-! ## Unfolding -/

omit h in
theorem typeDecl {c : String} (hc : Within c p.render) :
    (Answer.ofExcept (T.typeDecl c)).OnError p.Locates := by
  rw [Table.typeDecl]
  split
  · exact .ok _
  · exact .error (locates_of_within rfl hc)

theorem applied {c : String} {args : List Ty} (hc : p.Applies T c args.length) :
    (Answer.ofExcept (T.applied c args)).OnError p.Locates := by
  rw [Table.applied]
  refine .ofExcept_bind (typeDecl (h.within hc)) fun td htd => ?_
  split
  · exact .ok _
  · rename_i hlength
    refine .error ?_
    rcases hc with ⟨td', htd', hlength'⟩ | ⟨us, hus, hwritten⟩
    · rw [Table.typeDecl_eq_ok.1 htd] at htd'
      exact absurd (Option.some.inj htd' ▸ hlength') hlength
    · exact locates_of_unwritten rfl (.instantiated hwritten hus)

theorem underlying {t : Ty} (ht : t.Known p T) :
    (Answer.ofExcept (T.underlying t)).OnError p.Locates := by
  cases t with
  | named c args =>
    rw [Table.underlying]
    exact .ofExcept_bind (h.applied ht.self) fun td _ => .ok _
  | _ => exact .ok _

theorem stable {Δ : Bounds} (hΔ : Δ.All (Ty.Known p T)) : T.Stable Δ (Ty.Known p T) :=
  (Ty.hereditary_known p T).stable h.writes hΔ

theorem resolveIn {n : Nat} {t : Ty} (ht : t.Known p T) :
    (Answer.ofExcept (T.resolveIn n t)).OnError p.Locates := by
  induction n generalizing t with
  | zero =>
    cases t with
    | named c args => exact .error (locates_of_within rfl (h.within ht.self))
    | _ => exact .ok _
  | succ n ih =>
    cases t with
    | named c args =>
      rw [Table.resolveIn]
      refine .ofExcept_bind (h.underlying ht) fun u hu => ih ?_
      exact (h.stable Bounds.all_nil).of_underlying ht hu
    | _ => exact .ok _

theorem resolve {t : Ty} (ht : t.Known p T) : (Answer.ofExcept (T.resolve t)).OnError p.Locates :=
  h.resolveIn ht

theorem isInterface {t : Ty} (ht : t.Known p T) :
    (Answer.ofExcept (T.isInterface t)).OnError p.Locates := by
  cases t with
  | named c args =>
    rw [Table.isInterface]
    refine .ofExcept_bind (h.resolve ht) fun v _ => ?_
    split <;> exact .ok _
  | _ => exact .ok _

theorem isBound {t : Ty} (ht : t.Known p T) : (Answer.ofExcept (T.isBound t)).OnError p.Locates := by
  cases t with
  | named c args => exact h.isInterface ht
  | _ => exact .ok _

theorem structFields {t : Ty} (ht : t.Known p T) :
    (Answer.ofExcept (T.structFields t)).OnError p.Locates := by
  cases t with
  | named c args =>
    rw [Table.structFields]
    refine .ofExcept_bind (h.resolve ht) fun v _ => ?_
    split <;> exact .ok _
  | _ => exact .ok _

omit h in
theorem boundOf (Δ : Bounds) (a : String) :
    (Answer.ofExcept (Δ.boundOf a)).OnError p.Locates := by
  rw [Bounds.boundOf]
  split
  · exact .ok _
  · exact .error (locates_of_none rfl)

/-! ## Method sets -/

section Finders

variable {F : Finder} (hF : ∀ {t}, t.Known p T → (F t).OnError p.Locates)

include hF

theorem implementsBy {sub sup : Ty} (hsub : sub.Known p T) (hsup : sup.Known p T) :
    (T.implementsBy F sub sup).OnError p.Locates := by
  unfold Table.implementsBy
  split
  · exact .ok _
  · exact .error (locates_of_none rfl)
  · exact .ok _
  · exact .ok _
  · exact .ok _
  · refine .bind (h.isInterface hsup) fun _ _ => .ite (fun _ => ?_) fun _ => .ok _
    refine .bind (hF hsup) fun wanted _ => .ite (fun _ => .ok _) fun _ => ?_
    exact .bind (hF hsub) fun offered _ => .ok _

theorem withinBounds {η : Env Ty} {fs : List Slot} {ts : List Ty}
    (hfs : ∀ f ∈ fs, (f.ty.subst η).Known p T) (hts : ∀ t ∈ ts, t.Known p T) :
    (T.withinBounds F η fs ts).OnError p.Locates := by
  induction fs generalizing ts with
  | nil => exact .ok _
  | cons f fs ih =>
    cases ts with
    | nil => exact .ok _
    | cons t ts =>
      rw [List.forall_mem_cons] at hfs hts
      refine .bind (h.implementsBy hF hts.1 hfs.1) fun _ _ => ?_
      exact .ite (fun _ => ih hfs.2 hts.2) fun _ => .ok _

theorem receiverBy {md : MethodDecl} (hmd : .method md ∈ p.decls) {args : List Ty}
    (hargs : ∀ t ∈ args, t.Known p T) : (T.receiverBy F md.recvFormals args).OnError p.Locates := by
  refine .ite (fun _ => .bind (h.withinBounds hF (fun f hf => ?_) hargs) fun _ _ => ?_) fun _ => .ok _
  · exact (Ty.hereditary_known p T).instantiate (Ty.known_of_writes (.receiver hmd hf)) hargs
  · exact .ite (fun _ => .ok _) fun _ => .ok _

theorem declaredMethods {args : List Ty} (hargs : ∀ t ∈ args, t.Known p T) {mds : List MethodDecl}
    (hmds : ∀ md ∈ mds, .method md ∈ p.decls) (acc : MethodSet) :
    (T.declaredMethods F args mds acc).OnError p.Locates := by
  induction mds generalizing acc with
  | nil => exact .ok _
  | cons md mds ih =>
    rw [List.forall_mem_cons] at hmds
    refine .bind (h.receiverBy hF hmds.1 hargs) fun r _ => ?_
    cases r with
    | some η => exact ih hmds.2 _
    | none => exact ih hmds.2 _

omit h in
theorem memberMethods {ms : List Member}
    (hms : ∀ c args, .embed c args ∈ ms → (Ty.named c args).Known p T) (acc : MethodSet) :
    (Table.memberMethods F ms acc).OnError p.Locates := by
  induction ms generalizing acc with
  | nil => exact .ok _
  | cons m ms ih =>
    have ih (acc) := ih (fun c args hm => hms c args (List.mem_cons_of_mem _ hm)) acc
    cases m with
    | method s => exact ih _
    | embed c args => exact .bind (hF (hms c args List.mem_cons_self)) fun E _ => ih _

theorem gather {Δ : Bounds} (hΔ : Δ.All (Ty.Known p T)) {t : Ty} (ht : t.Known p T) :
    (T.gather Δ F t).OnError p.Locates := by
  have hstable := h.stable hΔ
  cases t with
  | interface ms => exact memberMethods hF (fun c args hm => hstable.embed ht hm) []
  | named c args =>
    refine .bind (h.resolve ht) fun v hv => ?_
    have hv := hstable.of_resolves ht (Table.resolves_of_resolve (Answer.ofExcept_eq_ok.1 hv))
    split
    · exact hF hv
    · refine h.declaredMethods hF (fun a ha => ht.of_mem_parts ha) (fun md hmd => ?_) []
      exact h.method (List.mem_of_mem_filter hmd)
  | param a =>
    refine .bind (boundOf Δ a) fun b hb => hF ?_
    exact hstable.bound (Table.boundOf_eq_ok.1 (Answer.ofExcept_eq_ok.1 hb))
  | _ => exact .ok _

end Finders

variable {Δ : Bounds} (hΔ : Δ.All (Ty.Known p T))

include hΔ

/-- **Errors in gathering methods are located.** -/
theorem methods (n : Nat) {t : Ty} (ht : t.Known p T) : (T.methods Δ n t).OnError p.Locates := by
  induction n generalizing t with
  | zero => exact .unfinished
  | succ n ih =>
    rw [Table.methods_succ]
    exact h.gather ih hΔ ht

theorem implements (n : Nat) {sub sup : Ty} (hsub : sub.Known p T) (hsup : sup.Known p T) :
    (T.implements n Δ sub sup).OnError p.Locates :=
  h.implementsBy (h.methods hΔ n) hsub hsup

/-- Arguments that are not within bounds are an error of the place where they stand. -/
theorem argumentsWithin (n : Nat) {place : Place}
    (hplace : ∀ arg bound, p.Locates (.boundViolation arg bound place)) {η : Env Ty} {fs : List Slot}
    {ts : List Ty} (hfs : ∀ f ∈ fs, (f.ty.subst η).Known p T) (hts : ∀ t ∈ ts, t.Known p T) :
    (T.argumentsWithin n Δ place η fs ts).OnError p.Locates := by
  induction fs generalizing ts with
  | nil => exact .ok _
  | cons f fs ih =>
    cases ts with
    | nil => exact .ok _
    | cons t ts =>
      rw [List.forall_mem_cons] at hfs hts
      refine .bind (h.implements hΔ n hts.1 hfs.1) fun _ _ => ?_
      exact .ite (fun _ => ih hfs.2 hts.2) fun _ => .error (hplace _ _)

omit hΔ

/-! ## Well-formed types -/

/-- An application has its arguments within the bounds of what is declared. -/
theorem argumentsWithin_named (hΔ : Δ.All (Ty.Known p T)) (n : Nat) {place : Place}
    (hplace : ∀ arg bound, p.Locates (.boundViolation arg bound place)) {c : String} {args : List Ty}
    (hargs : ∀ t ∈ args, t.Known p T) {td : TypeDecl} (htd : T.applied c args = .ok td) :
    (T.argumentsWithin n Δ place (instantiation td.formals args) td.formals args).OnError
      p.Locates := by
  refine h.argumentsWithin hΔ n hplace (fun f hf => ?_) hargs
  have hdecl := Table.mem_decls_of_type? h.table (Table.applied_eq_ok.1 htd).1
  exact (Ty.hereditary_known p T).instantiate (Ty.known_of_writes (.formal hdecl hf)) hargs

end

theorem locates_boundViolation {t : Ty} (ht : p.Writes t) (arg bound : Ty) :
    p.Locates (.boundViolation arg bound (.type t)) :=
  locates_of_within rfl ht.within

theorem newMembers (whole : Ty) (names seen : List String) :
    (Answer.ofExcept (Table.newMembers whole names seen)).OnError p.Locates := by
  induction names generalizing seen with
  | nil => exact .ok _
  | cons m names ih =>
    rw [Table.newMembers]
    split
    · exact .error (locates_of_none rfl)
    · exact ih _

mutual

/-- **Errors in checking a type that the program writes are located.** -/
theorem okType (h : p.Source T) {Δ : Bounds} (hΔ : Δ.All (Ty.Known p T)) (n : Nat) :
    ∀ t : Ty, p.Writes t → (T.okType n Δ t).OnError p.Locates
  | .param a, _ => .bind (boundOf Δ a) fun _ _ => .ok _
  | .prim _, _ | .var _, _ => .ok _
  | .named _ args, ht =>
    .bind (h.applied (.inr ⟨args, rfl, ht⟩)) fun _ htd =>
      .bind (okTypes h hΔ n args fun _ ha => ht.part ha) fun _ _ =>
        h.argumentsWithin_named hΔ n (locates_boundViolation ht)
          (fun _ ha => Ty.known_of_writes (ht.part ha)) (Answer.ofExcept_eq_ok.1 htd)
  | .struct fs, ht =>
    okFields h hΔ n _ _ fs fun _ hf => ht.part (List.mem_map_of_mem hf)
  | .interface ms, ht =>
    okMembers h hΔ n _ _ ms (fun _ hm _ hu => ht.part (List.mem_flatMap.2 ⟨_, hm, hu⟩))
      fun _ _ hm => ht.embed hm

theorem okTypes (h : p.Source T) {Δ : Bounds} (hΔ : Δ.All (Ty.Known p T)) (n : Nat) :
    ∀ ts : List Ty, (∀ t ∈ ts, p.Writes t) → (T.okTypes n Δ ts).OnError p.Locates
  | [], _ => .ok _
  | t :: ts, hts =>
    .bind (okType h hΔ n t (hts t List.mem_cons_self)) fun _ _ =>
      okTypes h hΔ n ts fun u hu => hts u (List.mem_cons_of_mem _ hu)

theorem okFields (h : p.Source T) {Δ : Bounds} (hΔ : Δ.All (Ty.Known p T)) (n : Nat) (whole : Ty)
    (seen : List String) :
    ∀ fs : List Slot, (∀ f ∈ fs, p.Writes f.ty) →
      (T.okFields n Δ whole seen fs).OnError p.Locates
  | [], _ => .ok _
  | ⟨_, t⟩ :: fs, hfs =>
    .ite (fun _ => .error (locates_of_none rfl)) fun _ =>
      .bind (okType h hΔ n t (hfs _ List.mem_cons_self)) fun _ _ =>
        okFields h hΔ n whole _ fs fun f hf => hfs f (List.mem_cons_of_mem _ hf)

theorem okMembers (h : p.Source T) {Δ : Bounds} (hΔ : Δ.All (Ty.Known p T)) (n : Nat) (whole : Ty)
    (seen : List String) :
    ∀ ms : List Member, (∀ m ∈ ms, ∀ t ∈ m.types, p.Writes t) →
      (∀ c args, .embed c args ∈ ms → p.Writes (.named c args)) →
      (T.okMembers n Δ whole seen ms).OnError p.Locates
  | [], _, _ => .ok _
  | .method s :: ms, hms, hembeds =>
    .bind (okSignature h hΔ n s (hms _ List.mem_cons_self)) fun _ _ =>
      .bind (newMembers _ _ _) fun _ _ =>
        okMembers h hΔ n whole _ ms (fun m hm => hms m (List.mem_cons_of_mem _ hm))
          fun c args hm => hembeds c args (List.mem_cons_of_mem _ hm)
  | .embed c args :: ms, hms, hembeds => by
    have ht := hembeds c args List.mem_cons_self
    have hargs := hms _ List.mem_cons_self
    refine .bind (h.applied (.inr ⟨args, rfl, ht⟩)) fun td htd => ?_
    refine .bind (okTypes h hΔ n args hargs) fun _ _ => ?_
    refine .bind (h.argumentsWithin_named hΔ n (locates_boundViolation ht)
      (fun t ha => Ty.known_of_writes (hargs t ha)) (Answer.ofExcept_eq_ok.1 htd)) fun _ _ => ?_
    refine .bind (h.isInterface (Ty.known_of_writes ht)) fun _ _ => ?_
    refine .ite (fun _ => ?_) fun _ => .error (locates_of_none rfl)
    refine .bind (h.methods hΔ n (Ty.known_of_writes ht)) fun _ _ => ?_
    refine .bind (newMembers _ _ _) fun _ _ => ?_
    exact okMembers h hΔ n whole _ ms (fun m hm => hms m (List.mem_cons_of_mem _ hm))
      fun c args hm => hembeds c args (List.mem_cons_of_mem _ hm)

theorem okSignature (h : p.Source T) {Δ : Bounds} (hΔ : Δ.All (Ty.Known p T)) (n : Nat) :
    ∀ s : Signature, (∀ t ∈ s.types, p.Writes t) → (T.okSignature n Δ s).OnError p.Locates
  | ⟨name, fs, ps, r⟩, hs => by
    obtain ⟨hfs, hps, hr⟩ := Signature.forall_types.1 hs
    have hΔ' := hΔ.extend fun f hf => Ty.known_of_writes (hfs f hf)
    simp only [Table.okSignature]
    split
    · exact .error (locates_of_none rfl)
    · refine .bind (okBounds h hΔ' n fs hfs) fun _ _ => ?_
      exact .bind (okParams h hΔ' n name [] ps hps) fun _ _ => okType h hΔ' n r hr

theorem okBounds (h : p.Source T) {Δ : Bounds} (hΔ : Δ.All (Ty.Known p T)) (n : Nat) :
    ∀ fs : List Slot, (∀ f ∈ fs, p.Writes f.ty) → (T.okBounds n Δ fs).OnError p.Locates
  | [], _ => .ok _
  | ⟨_, t⟩ :: fs, hfs =>
    .bind (okType h hΔ n t (hfs _ List.mem_cons_self)) fun _ _ =>
      .bind (h.isBound (Ty.known_of_writes (hfs _ List.mem_cons_self))) fun _ _ =>
        .ite (fun _ => okBounds h hΔ n fs fun f hf => hfs f (List.mem_cons_of_mem _ hf)) fun _ =>
          .error (locates_of_none rfl)

theorem okParams (h : p.Source T) {Δ : Bounds} (hΔ : Δ.All (Ty.Known p T)) (n : Nat) (meth : String)
    (seen : List String) :
    ∀ ps : List Slot, (∀ f ∈ ps, p.Writes f.ty) →
      (T.okParams n Δ meth seen ps).OnError p.Locates
  | [], _ => .ok _
  | ⟨_, t⟩ :: ps, hps =>
    .ite (fun _ => .error (locates_of_none rfl)) fun _ =>
      .bind (okType h hΔ n t (hps _ List.mem_cons_self)) fun _ _ =>
        okParams h hΔ n meth _ ps fun f hf => hps f (List.mem_cons_of_mem _ hf)

end

theorem okFormals (h : p.Source T) {Δ : Bounds} (hΔ : Δ.All (Ty.Known p T)) (n : Nat) (decl : String)
    {fs : List Slot} (hfs : ∀ f ∈ fs, p.Writes f.ty) : (T.okFormals n Δ decl fs).OnError p.Locates := by
  unfold Table.okFormals
  split
  · exact .error (locates_of_none rfl)
  · have hΔ' := hΔ.extend fun f hf => Ty.known_of_writes (hfs f hf)
    exact .bind (h.okBounds hΔ' n fs hfs) fun _ _ => .ok _

end Source

end Program

end FeatherGo
