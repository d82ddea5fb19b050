import FeatherGo.Proofs.Discovery.Termination
import FeatherGo.Proofs.Discovery.Universe
import FeatherGo.Proofs.Typing.Founded

/-!
# The check of nesting ends

The check of nesting answers for every checked program (`settles_checkNesting`). The passes of a search
stay in a finite set until one of them visits a new body, and there are finitely many bodies
(`Closure.runSettles`). So each search ends: with a pass that adds nothing, with a type that is nested
too deeply, or with an error of typing. That last end is real: a body is typed at the instance that its
call is found with, and an assertion that makes sense on a type parameter may be impossible on an
interface (`Asserting.searchFails`).
-/

namespace FeatherGo

open Answer (Settles Reaches)
open Answer.Trait (settling)

namespace Closure

variable {T : Table} {Δ : Bounds} {S : InstanceSets} {s : Frontier}

/-- A pass has come to a frontier without adding an instance. -/
def Quiet (T : Table) (Δ : Bounds) (s : Frontier) : Prop :=
  ∃ before, (∃ n, ∀ m ≥ n, (T.openClosure m Δ).pass.Ends before () s) ∧ s.found = before.found

/-- With enough fuel the passes from a frontier come to an end: to one that adds nothing, or to an
error. -/
def RunSettles (T : Table) (Δ : Bounds) (s : Frontier) : Prop :=
  ∀ k passes, Track.Settles (MonoError.EndsSearch T.depthBound)
    (fun n => (T.openClosure (n + k) Δ).runFrom none n passes) s fun _ => Quiet T Δ

/-- A run settles if runs settle from where a pass that adds an instance leads. -/
theorem runSettles_of_pass (hT : T.Searchable Δ) (hS : T.Absorbs Δ S) (hs : s.Sane T)
    (hle : s.found.sets ≤ S)
    (hnext : ∀ s', Frontier.Since T s S s' → s.found.size < s'.found.size → RunSettles T Δ s') :
    RunSettles T Δ s := by
  intro k passes
  refine .succ ?_
  have hpass := ((settles_pass hT hS hs hle).ends.shift k).shift 1
  refine (Track.Settles.state (Q := fun a s' => s = a ∧ s = s') ⟨rfl, rfl⟩).bind ?_
  rintro _ _ ⟨rfl, rfl⟩
  refine hpass.bind fun _ s₁ ⟨hs₁, hends⟩ => ?_
  refine (Track.Settles.state (Q := fun a s' => s₁ = a ∧ s₁ = s') ⟨rfl, rfl⟩).bind ?_
  rintro _ _ ⟨rfl, rfl⟩
  refine .ite (fun hsize => .pure ⟨s, hends, hs₁.found.eq_of_size hsize⟩) fun hsize => ?_
  refine .ite (fun hlimit => absurd hlimit (by simp)) fun _ => ?_
  have hle : s.found.size ≤ s₁.found.size :=
    Nat.add_le_add hs₁.found.types.length_le hs₁.found.meths.length_le
  have hrun := hnext s₁ hs₁ (by omega) (1 + k) (passes + 1)
  simpa only [Nat.add_assoc] using hrun

/-- **Passes come to an end** from every frontier of a search: while no new body is visited they stay
in a finite set, and there are finitely many bodies. -/
theorem runSettles (hT : T.Searchable Δ) (hG : T.Stable Δ (Ty.Guarded T.MayBound)) (hs : s.Sane T) :
    RunSettles T Δ s := by
  induction hv : T.methodKeys.length - s.visitedDecls.length using Nat.strongRecOn generalizing s with
  | ind v ihv =>
    obtain ⟨S, hS, hfinite, hfinite', hle⟩ := Table.exists_absorbs hG hs.le
    induction hc : S.1.ncard + S.2.ncard - s.found.size using Nat.strongRecOn generalizing s with
    | ind c ihc =>
      refine runSettles_of_pass hT hS hs hle fun s' hs' hsize => ?_
      by_cases he : s'.visitedDecls = s.visitedDecls
      · have hle' := hs'.within he
        have hbound := s'.found.size_le_ncard hle' hs'.typesNodup hs'.methsNodup hfinite hfinite'
        exact ihc _ (by omega) hs'.toSane (he ▸ hv) hle' rfl
      · have hlength : s.visitedDecls.length < s'.visitedDecls.length := by
          by_contra hlt
          exact he (hs'.grown.eq_of_length_le (by omega)).symm
        have hkeys := hs'.length_visitedDecls
        exact ihv _ (by omega) hs'.toSane rfl

/-- **A run without a limit settles.** -/
theorem settles_run (hT : T.Searchable Δ) (hG : T.Stable Δ (Ty.Guarded T.MayBound)) (hs : s.Sane T) :
    Track.Settles (MonoError.EndsSearch T.depthBound) (fun n => (T.openClosure n Δ).run none) s
      fun _ => Quiet T Δ := by
  obtain ⟨r, s', ⟨n, hn⟩, hr⟩ := runSettles hT hG hs 0 0
  refine ⟨r, s', ⟨n + 1, fun m hm => ?_⟩, hr⟩
  change (T.openClosure m Δ).runFrom none (max 1 m) 0 s = _
  rw [Nat.max_eq_right (by omega)]
  exact hn m (by omega)

end Closure

/-! ## Searches -/

namespace Table

variable {T : Table}

/-- The search that shows whether a generic type contains itself at larger arguments. -/
def typeSearch (T : Table) (fuel : Nat) (td : TypeDecl) : Closure.Visit Unit := do
  let K := T.openClosure fuel (Bounds.extend [] td.formals)
  let _ ← K.addType td.selfType
  let _ ← K.run none

/-- The search that shows whether a method calls itself at larger arguments. -/
def methodSearch (T : Table) (fuel : Nat) (md : MethodDecl) : Closure.Visit Unit := do
  let K := T.openClosure fuel md.bounds
  let _ ← K.addType md.selfType
  let _ ← K.addMethod ⟨md.selfType, md.sig.name, formalArguments md.sig.formals⟩
  Closure.markVisited md.recvType md.sig.name
  K.addFrom md.scope md.body
  let _ ← K.run none

theorem checkTypeNesting_eq (T : Table) (fuel : Nat) (td : TypeDecl) :
    T.checkTypeNesting fuel td = (do
      (T.typeSearch fuel td .empty).1
      match (T.typeSearch fuel td .empty).2.found.types.find? fun t =>
        t.head? = some td.name ∧ nests t.arguments td.formals with
      | some t => throw (.notMonomorphisable (.contains td.selfType t))
      | none => return ()) := rfl

theorem checkMethodNesting_eq (T : Table) (fuel : Nat) (md : MethodDecl) :
    T.checkMethodNesting fuel md = (do
      (T.methodSearch fuel md .empty).1
      match (T.methodSearch fuel md .empty).2.found.meths.find? fun m =>
        m.meth = md.sig.name ∧ m.recvDecl? = some md.recvType
          ∧ (nests m.recv.arguments md.recvFormals ∨ nests m.targs md.sig.formals) with
      | some m => throw (.notMonomorphisable (.reaches
          ⟨md.selfType, md.sig.name, formalArguments md.sig.formals⟩ m))
      | none => return ()) := rfl

/-- A search with enough fuel comes to an end: to a pass that adds nothing, to a type that is nested too
deeply, or to an error of typing. -/
def SearchEnds (T : Table) (Δ : Bounds) (search : Nat → Closure.Visit Unit) : Prop :=
  Track.Settles (MonoError.EndsSearch T.depthBound) search .empty fun _ => Closure.Quiet T Δ

namespace Founded

variable {rank : String → Nat} {Δ : Bounds} (hT : T.Founded) (hr : T.Ranking rank)

include hT

theorem guarded_typeBounds {td : TypeDecl} (htd : td ∈ T.typeDecls) :
    (Bounds.extend [] td.formals).All T.MayBound
      ∧ (Bounds.extend [] td.formals).All (Ty.Guarded T.MayBound) :=
  ⟨Bounds.all_nil.extend fun f hf => ((hT.types td htd).formals f hf).1,
    Bounds.all_nil.extend fun f hf => ((hT.types td htd).formals f hf).2⟩

include hr

theorem searchable (hΔ : Δ.All T.MayBound ∧ Δ.All (Ty.Guarded T.MayBound)) : T.Searchable Δ :=
  ⟨hT.uniform hr true, hΔ.1, hT.writes.keepsInstances T.hereditary_guarded hΔ.2⟩

/-- A run ends a search. -/
theorem settles_run (hΔ : Δ.All T.MayBound ∧ Δ.All (Ty.Guarded T.MayBound)) {s : Frontier}
    (hs : s.Sane T) :
    Track.Settles (MonoError.EndsSearch T.depthBound) (fun n => do
      let _ ← (T.openClosure n Δ).run none) s fun _ => Closure.Quiet T Δ :=
  (Closure.settles_run (hT.searchable hr hΔ) (T.hereditary_guarded.stable hT.writes hΔ.2) hs).bind
    fun _ _ hs => .pure hs

theorem searchEnds_type {td : TypeDecl} (htd : td ∈ T.typeDecls) :
    T.SearchEnds (Bounds.extend [] td.formals) fun n => T.typeSearch n td := by
  have hempty := (Frontier.Sane.empty T).since (Frontier.Sane.empty T).le
  have hself : td.selfType.Guarded T.MayBound := Ty.guarded_self _ _ _
  exact (Closure.settles_addType le_rfl hempty fun hd => ⟨hself, hd⟩).bind fun _ _ hs =>
    hT.settles_run hr (hT.guarded_typeBounds htd) hs.toSane

theorem searchEnds_method {md : MethodDecl} (hmd : md ∈ T.methodDecls) :
    T.SearchEnds md.bounds fun n => T.methodSearch n md := by
  have hΔ := (hT.methods md hmd).all_bounds
  have hempty := (Frontier.Sane.empty T).since (Frontier.Sane.empty T).le
  have hself : md.selfType.Guarded T.MayBound := Ty.guarded_self _ _ _
  refine (Closure.settles_addType le_rfl hempty fun hd => ⟨hself, hd⟩).bind fun _ s hs => ?_
  refine (Closure.settles_addMethod le_rfl hs fun hd => ?_).bind fun _ s hs => ?_
  · rw [List.forall_mem_cons] at hd
    refine ⟨⟨hself, hd.1⟩, fun t ht => ⟨⟨?_, hd.2 t ht⟩, trivial⟩⟩
    obtain ⟨f, -, rfl⟩ := List.mem_map.1 ht
    exact Ty.Guarded.param _ _
  have hmarked := hs.markVisited (List.mem_map_of_mem hmd)
  refine (Track.Settles.update (Q := fun _ => Frontier.Since T _ _) hmarked).bind fun _ s hs => ?_
  refine (Closure.settles_addFrom (hT.searchable hr hΔ) hs (fun x t => (hT.methods md hmd).of_scope)
    (hT.methods md hmd).body).bind fun _ s hs => ?_
  exact hT.settles_run hr hΔ hs.toSane

/-! ## The check -/

theorem settles_checkTypeNesting {td : TypeDecl} (htd : td ∈ T.typeDecls) :
    Settles fun n => T.checkTypeNesting n td := by
  obtain ⟨r, s, hr, n, hn⟩ := Track.Settles.exists_end (hT.searchEnds_type hr htd)
  refine ⟨_, ?_, n, fun m hm => by dsimp only; rw [checkTypeNesting_eq, hn m hm]⟩
  exact hr.bind fun _ => by split <;> trivial

theorem settles_checkMethodNesting {md : MethodDecl} (hmd : md ∈ T.methodDecls) :
    Settles fun n => T.checkMethodNesting n md := by
  obtain ⟨r, s, hr, n, hn⟩ := Track.Settles.exists_end (hT.searchEnds_method hr hmd)
  refine ⟨_, ?_, n, fun m hm => by dsimp only; rw [checkMethodNesting_eq, hn m hm]⟩
  exact hr.bind fun _ => by split <;> trivial

theorem settles_checkTypesNesting {tds : List TypeDecl} (h : ∀ td ∈ tds, td ∈ T.typeDecls) :
    Settles fun n => T.checkTypesNesting n tds := by
  induction tds with
  | nil => exact settling.ok _
  | cons td tds ih =>
    rw [List.forall_mem_cons] at h
    have hrest := ih h.2
    simp only [checkTypesNesting]
    refine settling.ite (settling.bind (hT.settles_checkTypeNesting hr h.1) fun _ => hrest) hrest

theorem settles_checkMethodsNesting {mds : List MethodDecl} (h : ∀ md ∈ mds, md ∈ T.methodDecls) :
    Settles fun n => T.checkMethodsNesting n mds := by
  induction mds with
  | nil => exact settling.ok _
  | cons md mds ih =>
    rw [List.forall_mem_cons] at h
    exact settling.bind (hT.settles_checkMethodNesting hr h.1) fun _ => ih h.2

end Founded

end Table

/-- **The check of nesting answers** for every checked program: with enough fuel it always comes to the
same value or error. The search from each declaration ends with a pass that adds nothing, with a type
that is nested too deeply, or with an error of typing. -/
theorem settles_checkNesting {fuel : Nat} {p q : Program} {t : Ty} {T : Table}
    (h : checkProgram fuel false p = .ok (t, q)) (hT : Table.ofDecls q.decls = .ok T) :
    (Settles fun n => T.checkNesting n)
      ∧ (∀ td ∈ T.typeDecls, T.SearchEnds (Bounds.extend [] td.formals) fun n => T.typeSearch n td)
      ∧ ∀ md ∈ T.methodDecls, T.SearchEnds md.bounds fun n => T.methodSearch n md := by
  obtain ⟨T₀, T', hcheck⟩ := exists_programCheck h
  obtain rfl := Except.ok.inj (hT.symm.trans hcheck.checked)
  have hfounded := hcheck.founded
  obtain ⟨rank, hr⟩ := hcheck.exists_ranking
  refine ⟨?_, fun td htd => hfounded.searchEnds_type hr htd, fun md hmd =>
    hfounded.searchEnds_method hr hmd⟩
  exact settling.bind (hfounded.settles_checkTypesNesting hr fun _ h => h) fun _ =>
    hfounded.settles_checkMethodsNesting hr fun _ h => h

/-- The program `dispatchingProgram` calls a method of a generic interface on a generic struct. -/
theorem dispatchingProgram_settles : ∃ t q T, checkProgram 9 false dispatchingProgram = .ok (t, q)
    ∧ Table.ofDecls q.decls = .ok T ∧ (Settles fun n => T.checkNesting n)
    ∧ (∀ td ∈ T.typeDecls, T.SearchEnds (Bounds.extend [] td.formals) fun n => T.typeSearch n td)
    ∧ ∀ md ∈ T.methodDecls, T.SearchEnds md.bounds fun n => T.methodSearch n md := by
  have hok : (checkProgram 9 false dispatchingProgram).any (fun r =>
      (Answer.ofExcept (Table.ofDecls r.2.decls)).any fun _ => true) = true := by decide +kernel
  obtain ⟨⟨t, q⟩, hq, hok⟩ := Answer.any_eq_true.1 hok
  obtain ⟨T, hT, -⟩ := Answer.any_eq_true.1 hok
  have hT := Answer.ofExcept_eq_ok.1 hT
  exact ⟨t, q, T, hq, hT, settles_checkNesting hq hT⟩

/-! ## A search that ends with an error of typing -/

namespace Asserting

/-- `type Any interface {}`, `type J interface { j() Any }`, `type A struct {}` and
`type S struct {}`. -/
def typeDecls : List TypeDecl :=
  [⟨"Any", [], .anything⟩, ⟨"J", [], .interface [.method ⟨"j", [], [], .named "Any" []⟩]⟩,
    ⟨"A", [], .struct []⟩, ⟨"S", [], .struct []⟩]

/-- `x.(A)` -/
def assertion : Expr := .assert (.var "x") (.named "A" [])

/-- `func (x A) foo() A { return x }` -/
def foo : MethodDecl := ⟨"x", "A", [], ⟨"foo", [], [], .named "A" []⟩, .var "x"⟩

/-- `func (s S) cast(b Any)(x b) A { return x.(A).foo() }` -/
def cast : MethodDecl :=
  ⟨"s", "S", [], ⟨"cast", [⟨"b", .named "Any" []⟩], [⟨"x", .param "b"⟩], .named "A" []⟩,
    .call assertion "foo" [] []⟩

/-- `func (s S) go(y J) A { return s.cast(J)(y) }` -/
def go : MethodDecl :=
  ⟨"s", "S", [], ⟨"go", [], [⟨"y", .named "J" []⟩], .named "A" []⟩,
    .call (.var "s") "cast" [.named "J" []] [.var "y"]⟩

/-- A program that asserts on a type parameter and puts an interface for it. -/
def program : Program where
  decls := typeDecls.map .type ++ [foo, cast, go].map .method
  main := .structLit "S" [] []
  printf := false

/-- The table of the program. -/
def table : Table := ⟨typeDecls, [foo, cast, go]⟩

/-- The program is accepted. The search from `go` visits the body of `cast` at `J`, where the assertion
is on a value of `J`, which `A` does not implement: it ends with an error of typing, and so does the
check. -/
theorem searchFails :
    checkProgram 9 false program = .ok (.named "S" [], program)
      ∧ Table.ofDecls program.decls = .ok table ∧ go ∈ table.methodDecls ∧ ∀ fuel ≥ 9,
        (table.methodSearch fuel go .empty).1
            = .error (.type (.impossibleAssertion (.named "J" []) (.named "A" []) assertion))
          ∧ table.checkNesting fuel
            = .error (.type (.impossibleAssertion (.named "J" []) (.named "A" []) assertion)) := by
  refine ⟨rfl, rfl, by simp [table], fun fuel hfuel => ?_⟩
  obtain ⟨k, rfl⟩ := Nat.exists_eq_add_of_le' hfuel
  exact ⟨rfl, rfl⟩

end Asserting

end FeatherGo
