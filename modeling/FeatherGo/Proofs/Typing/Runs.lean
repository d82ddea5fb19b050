import FeatherGo.Proofs.Typing.Founded
import FeatherGo.Proofs.Typing.Retyping
import FeatherGo.Proofs.Typing.Settling

/-!
# Runs that type every expression again

A run may watch that types are preserved. For a checked plain program it then ends as it does without
watching, unless on the way it comes to an expression that typing refuses, or to which typing gives the type
of an untyped constant in place of another primitive type (`runProgram_watched`). That it comes to an end
at all is part of this: what a run reaches is guarded by bounds that may bound, so typing it settles. The
other way round nothing is asked of the program: a watched run that ends well is the run that does not
watch (`runProgram_of_watched`).
-/

namespace FeatherGo

open Answer (Settles)
open Answer.Trait (settling)

variable {T : Table} {strict : Bool} {P : Ty → Prop} {Γ : Scope}

/-! ## What a run reaches is guarded -/

/-- The usage that lets an expression name the types of a property. -/
def Usage.naming (T : Table) (P : Ty → Prop) : Usage := ⟨P, fun t u _ _ => T.Sub t u, True⟩

theorem Typed.naming {e : Expr} {t : Ty} (ht : Typed T strict .written Γ e t)
    (he : ∀ u ∈ e.namedTypes, P u) : Typed T strict (.naming T P) Γ e t := by
  refine ht.change ?_ (fun u hu _ => he u hu) fun _ _ => trivial
  rintro t u m ts rfl
  exact .refl t

/-- Bodies that write types of a hereditary property keep to it where they run. -/
theorem supported_naming (hP : Ty.Hereditary P) (hflat : ∀ t, t.flat strict = true → P t)
    (hT : T.BodiesTyped strict) (hw : T.Writes P) : Supported T strict (.naming T P) where
  downward _ _ _ _ _ hs hc := hs.trans hc
  related _ _ _ _ hc := hc
  bodies md args targs _ hmd ha _ _ := by
    obtain ⟨t, ht, hs⟩ := hT md hmd args targs ha
    refine ⟨t, ht.naming fun u hu => ?_, hs⟩
    rw [Expr.namedTypes_substTypes] at hu
    obtain ⟨v, hv, rfl⟩ := List.mem_map.1 hu
    exact hP.subst (hw.bodies md hmd v (Expr.mem_types.2 (.inl hv))) fun a x hx =>
      hflat x (Table.closed_of_find?_instantiation ha.toFits hx).2

/-- What a typed expression writes it may name, or it is a flat argument of a call. -/
theorem Typed.forall_types (hflat : ∀ t, t.flat strict = true → P t) {e : Expr} {t : Ty}
    (ht : Typed T strict (.naming T P) Γ e t) : ∀ u ∈ e.types, P u := by
  have hall {es : List Expr} {ts : List Ty} (hl : es.length = ts.length)
      (ih : ∀ p ∈ es.zip ts, ∀ u ∈ p.1.types, P u) : ∀ u ∈ Expr.typesAll es, P u := by
    intro u hu
    obtain ⟨e, he, hue⟩ := Expr.mem_typesAll.1 hu
    obtain ⟨t, ht⟩ := exists_mem_zip hl he
    exact ih _ ht u hue
  induction ht with
  | var => simp [Expr.types]
  | structLit _ used _ length _ _ _ ih =>
    exact List.forall_mem_cons.2 ⟨used, hall length ih⟩
  | select _ _ _ ih => exact ih
  | call _ _ _ _ _ _ given _ length _ _ _ ih ihs =>
    simp only [Expr.types, List.forall_mem_append]
    exact ⟨⟨ih, fun u hu => hflat u (given u hu).2⟩, hall length ihs⟩
  | assert _ _ used ih => exact List.forall_mem_append.2 ⟨ih, List.forall_mem_singleton.2 used⟩
  | sprintf _ length _ ih => exact hall length ih
  | lit => simp [Expr.types]
  | binary _ _ _ ihl ihr => exact List.forall_mem_append.2 ⟨ihl, ihr⟩
  | convert _ ih => exact ih

/-! ## Typing what a run reaches -/

/-- Why the check of preservation fails at an expression: typing refuses it, or gives it the type of an
untyped constant where the main expression has another primitive type. -/
inductive Table.Refuses (T : Table) (t : Ty) (e : Expr) : EvalError → Prop
  | type {err : TypeError}
      (typeOf : Answer.Reaches (fun n => (Checker.mk T true n).typeOf [] [] e) (.error err)) :
      Refuses T t e (.type err)
  | constant {k : Kind} {p : Prim} (main : t = .prim p) (other : .constant k ≠ p)
      (typeOf : Answer.Reaches (fun n => (Checker.mk T true n).typeOf [] [] e) (.ok (.prim (.constant k)))) :
      Refuses T t e (.preservation t (.prim (.constant k)) e)

/-- The check of preservation comes to an end at an expression: it passes, or fails for one of these
reasons. -/
def Table.Rechecks (T : Table) (t : Ty) (e : Expr) : Prop :=
  ∃ r, (r = .ok () ∨ ∃ fault, T.Refuses t e fault ∧ r = .error fault)
    ∧ Answer.Reaches (fun n => (Machine.mk T n).checkPreserved t e) r

/-- The check of preservation comes to an end at what a checked program reaches. -/
theorem Typed.rechecks {rank : String → Nat} (h : T.WellFormed strict rank) (hT : T.Founded)
    {t u : Ty} {e : Expr} (he : Typed T strict (.naming T (Ty.Guarded T.MayBound)) [] e u)
    (hs : T.Sub u t) (ht : t.Closed (T.vocabulary strict)) : T.Rechecks t e := by
  have hguarded : e.Guarded T.MayBound :=
    ⟨he.forall_types fun _ hf => Ty.Guarded.of_flat hf, fun _ _ => trivial⟩
  have hsettles : Settles fun n => (Checker.mk T true n).typeOf [] [] e :=
    settling.bind ((hT.uniform h.ranking true).check Bounds.all_nil [] hguarded) fun _ => settling.ok _
  obtain ⟨r, hr, htype⟩ := hsettles
  cases r with
  | unfinished => exact hr.elim
  | error err => exact ⟨_, .inr ⟨_, .type htype, rfl⟩, (htype.mapError EvalError.type).bind_error⟩
  | ok v =>
    obtain ⟨k, hk⟩ := htype
    obtain ⟨⟨v', e'⟩, hcheck, hv⟩ := Answer.bind_eq_ok.1 (hk k (Nat.le_refl k))
    obtain rfl := Answer.ok.inj hv
    rcases he.implements_of_check h (fun _ _ _ _ hc => hc) hs ht rfl hcheck with
      himplements | ⟨hne, j, p, rfl, rfl⟩
    · exact ⟨_, .inl rfl, Machine.exists_checkPreserved (hk k (Nat.le_refl k)) himplements⟩
    · have hother : Prim.constant j ≠ p := fun hp => hne (congrArg Ty.prim hp)
      refine ⟨_, .inr ⟨_, .constant rfl hother ⟨k, hk⟩, rfl⟩, ?_⟩
      have hfalse (n : Nat) : T.implements n [] (.prim (.constant j)) (.prim p) = .ok false :=
        congrArg Answer.ok (decide_eq_false hne)
      refine Answer.Reaches.bind (Answer.Reaches.mapError _ ⟨k, hk⟩) ⟨0, fun n _ => ?_⟩
      simp [hne, hfalse]

/-! ## Runs -/

/-- What a run that types every expression again makes of the answer of the run that does not: the answer
itself, or the failure of a check on the way. -/
def Table.Watched (T : Table) (start : Expr) (t : Ty) (r r' : Answer EvalError Run) : Prop :=
  r' = r ∨ ∃ n e fault, T.Reaches start n e ∧ T.Refuses t e fault ∧ r' = .error fault

namespace Machine

variable {limit : Option Nat} {trace : Bool} {t : Ty} {steps : Nat} {tr : List (Rule × Expr)} {e : Expr}
variable {M M' : Machine} {watch watch' : Bool}

/-- A run stops at a value and where its limit is reached, watched or not. -/
theorem runFrom_eq_of_stops (hstops : e.isValue = true ∨ limit.any (fun n => n ≤ steps) = true)
    (i j : Nat) : M.runFrom ⟨limit, trace, watch⟩ t i steps tr e
      = M'.runFrom ⟨limit, trace, watch'⟩ t j steps tr e := by
  rw [runFrom.eq_def, runFrom.eq_def]
  by_cases hv : e.isValue = true
  · exact (if_pos hv).trans (if_pos hv).symm
  · have hl := hstops.resolve_left hv
    exact ((if_neg hv).trans (if_pos hl)).trans ((if_neg hv).trans (if_pos hl)).symm

section Going

variable (hgoes : ¬(e.isValue = true ∨ limit.any (fun n => n ≤ steps) = true))

include hgoes

theorem runFrom_zero : M.runFrom ⟨limit, trace, watch⟩ t 0 steps tr e = .unfinished := by
  obtain ⟨hv, hl⟩ := not_or.1 hgoes
  rw [runFrom.eq_def]
  exact (if_neg hv).trans (if_neg hl)

theorem runFrom_unfinished (hs : M.step e = .unfinished) (j : Nat) :
    M.runFrom ⟨limit, trace, watch⟩ t (j + 1) steps tr e = .unfinished := by
  obtain ⟨hv, hl⟩ := not_or.1 hgoes
  rw [runFrom.eq_def]
  refine (if_neg hv).trans ((if_neg hl).trans ?_)
  rw [hs]

/-- A run ends where a step fails, watched or not. -/
theorem runFrom_eq_of_fails {fault : EvalError} (hs : M.step e = .error fault)
    (hs' : M'.step e = .error fault) (i j : Nat) :
    M.runFrom ⟨limit, trace, watch⟩ t (i + 1) steps tr e
      = M'.runFrom ⟨limit, trace, watch'⟩ t (j + 1) steps tr e := by
  obtain ⟨hv, hl⟩ := not_or.1 hgoes
  rw [runFrom.eq_def, runFrom.eq_def]
  refine ((if_neg hv).trans (if_neg hl)).trans (Eq.trans ?_ ((if_neg hv).trans (if_neg hl)).symm)
  rw [hs, hs']
  cases fault <;> rfl

/-- A run goes on where a step leads, once the check passed if it is watched. -/
theorem runFrom_succ {e' : Expr} {rule : Rule} (hs : M.step e = .ok (e', rule)) (j : Nat) :
    M.runFrom ⟨limit, trace, watch⟩ t (j + 1) steps tr e
      = (if watch then M.checkPreserved t e' else .ok ()) >>= fun _ =>
        M.runFrom ⟨limit, trace, watch⟩ t j (steps + 1) (if trace then (rule, e') :: tr else tr) e' := by
  obtain ⟨hv, hl⟩ := not_or.1 hgoes
  rw [runFrom.eq_def]
  refine (if_neg hv).trans ((if_neg hl).trans ?_)
  rw [hs]
  cases watch <;> rfl

end Going

/-- A finished run from an expression, watched with enough fuel and for at least as many steps. -/
theorem watched_runFrom {start : Expr}
    (hcheck : ∀ n e, T.Reaches start n e → T.Rechecks t e)
    {n j k : Nat} (hreached : T.Reaches start k e)
    (hfinished : ((Machine.mk T n).runFrom ⟨limit, trace, false⟩ t j steps tr e).Finished) :
    ∃ r, T.Watched start t ((Machine.mk T n).runFrom ⟨limit, trace, false⟩ t j steps tr e) r
      ∧ ∃ N, ∀ m ≥ N, ∀ i ≥ j,
        (Machine.mk T m).runFrom ⟨limit, trace, true⟩ t i steps tr e = r := by
  induction j generalizing steps k tr e with
  | zero =>
    by_cases hgoes : e.isValue = true ∨ limit.any (fun n => n ≤ steps) = true
    · exact ⟨_, .inl rfl, 0, fun m _ i _ => runFrom_eq_of_stops hgoes i 0⟩
    · rw [runFrom_zero hgoes] at hfinished
      exact hfinished.elim
  | succ j ih =>
    by_cases hgoes : e.isValue = true ∨ limit.any (fun n => n ≤ steps) = true
    · exact ⟨_, .inl rfl, 0, fun m _ i _ => runFrom_eq_of_stops hgoes i _⟩
    have hv : e.isValue = false := by simpa using fun hv => hgoes (.inl hv)
    have hstep {r : Answer EvalError (Expr × Rule)} (hr : (Machine.mk T n).step e = r)
        (hne : r ≠ .unfinished) {m : Nat} (hm : m ≥ n) : (Machine.mk T m).step e = r :=
      ((step_below hm hv).resolve_left (hr ▸ hne)).symm.trans hr
    cases hs : (Machine.mk T n).step e with
    | unfinished =>
      rw [runFrom_unfinished hgoes hs] at hfinished
      exact hfinished.elim
    | error fault =>
      refine ⟨_, .inl rfl, n, fun m hm i hi => ?_⟩
      obtain ⟨i, rfl⟩ := Nat.exists_eq_add_of_le' (Nat.le_trans (Nat.succ_pos j) hi)
      exact runFrom_eq_of_fails hgoes (hstep hs (by simp) hm) hs i j
    | ok next =>
      obtain ⟨e', rule⟩ := next
      have hreached' : T.Reaches start (k + 1) e' := .step hreached hs
      rw [runFrom_succ hgoes hs] at hfinished ⊢
      obtain ⟨c, hc, N, hN⟩ := hcheck _ _ hreached'
      have hwatched {m i : Nat} (hm : n ≤ m) (hm' : N ≤ m) :
          (Machine.mk T m).runFrom ⟨limit, trace, true⟩ t (i + 1) steps tr e = c >>= fun _ =>
            (Machine.mk T m).runFrom ⟨limit, trace, true⟩ t i (steps + 1)
              (if trace then (rule, e') :: tr else tr) e' := by
        rw [runFrom_succ hgoes (hstep hs (by simp) hm)]
        exact congrArg (· >>= _) (hN m hm')
      rcases hc with rfl | ⟨fault, hfault, rfl⟩
      · obtain ⟨r, hr, N', hN'⟩ := ih hreached' hfinished
        refine ⟨r, hr, max n (max N N'), fun m hm i hi => ?_⟩
        obtain ⟨i, rfl⟩ := Nat.exists_eq_add_of_le' (Nat.le_trans (Nat.succ_pos j) hi)
        exact (hwatched (by omega) (by omega)).trans (hN' m (by omega) i (by omega))
      · refine ⟨_, .inr ⟨_, _, fault, hreached', hfault, rfl⟩, max n N, fun m hm i hi => ?_⟩
        obtain ⟨i, rfl⟩ := Nat.exists_eq_add_of_le' (Nat.le_trans (Nat.succ_pos j) hi)
        exact hwatched (by omega) (by omega)

/-- A watched run that ends well ends as it does when it is not watched. -/
theorem runFrom_of_watched {j : Nat} {run : Run}
    (h : M.runFrom ⟨limit, trace, true⟩ t j steps tr e = .ok run) :
    M.runFrom ⟨limit, trace, false⟩ t j steps tr e = .ok run := by
  induction j generalizing steps tr e with
  | zero =>
    by_cases hgoes : e.isValue = true ∨ limit.any (fun n => n ≤ steps) = true
    · exact (runFrom_eq_of_stops hgoes 0 0).trans h
    · rw [runFrom_zero hgoes] at h
      cases h
  | succ j ih =>
    by_cases hgoes : e.isValue = true ∨ limit.any (fun n => n ≤ steps) = true
    · exact (runFrom_eq_of_stops hgoes _ _).trans h
    cases hs : M.step e with
    | unfinished =>
      rw [runFrom_unfinished hgoes hs] at h
      cases h
    | error fault => exact (runFrom_eq_of_fails hgoes hs hs j j).trans h
    | ok next =>
      rw [runFrom_succ hgoes hs] at h ⊢
      obtain ⟨-, -, h⟩ := Answer.bind_eq_ok.1 h
      exact ih h

end Machine

/-- The check of preservation comes to an end along the run of a checked program. -/
theorem ProgramCheck.rechecks {C : Checker} {p q : Program} {t : Ty} (h : ProgramCheck C p t q T)
    (hplain : p.Plain false) {n : Nat} {e : Expr} (hr : T.Reaches q.main n e) : T.Rechecks t e := by
  obtain ⟨rank, -, hwf⟩ := h.exists_wellFormed hplain
  obtain ⟨-, -, hclosed⟩ := h.closed_main hplain
  have hflat : ∀ t : Ty, t.flat false = true → t.Guarded T.MayBound := fun _ hf => .of_flat hf
  have hU := supported_naming T.hereditary_guarded hflat (h.bodiesTyped hplain) h.founded.writes
  have hmain := (h.typed_main hplain).naming fun u hu =>
    h.guarded_main.types u (Expr.mem_types.2 (.inl hu))
  obtain ⟨u, hu, hs⟩ := hmain.reaches hwf hU hr
  exact hu.rechecks hwf h.founded hs hclosed

/-- The run of a program is the run of the checked one from its main expression. -/
theorem runProgram_eq {fuel : Nat} {config : RunConfig} {p q : Program} {t : Ty}
    (h : checkProgram fuel false p = .ok (t, q)) (hT : Table.ofDecls q.decls = .ok T) :
    runProgram fuel config p
      = (Machine.mk T fuel).runFrom config t (config.maxSteps.getD fuel) 0 [] q.main := by
  simp only [runProgram, h, hT, Answer.mapError_ok, Answer.ok_bind, Answer.ofExcept_ok]

/-- **A run that types every expression again ends as the run that does not**, unless the check of
preservation fails on the way at an expression that typing refuses, or whose type is that of an untyped
constant in place of another primitive type. -/
theorem runProgram_watched {fuel : Nat} {p q : Program} {t : Ty} (hplain : p.Plain false)
    (h : checkProgram fuel false p = .ok (t, q)) :
    ∃ T, Table.ofDecls q.decls = .ok T ∧ ∀ limit trace n,
      (runProgram n ⟨limit, trace, false⟩ p).Finished →
      ∃ r, T.Watched q.main t (runProgram n ⟨limit, trace, false⟩ p) r
        ∧ Answer.Reaches (fun m => runProgram m ⟨limit, trace, true⟩ p) r := by
  obtain ⟨T₀, T, hprogram⟩ := exists_programCheck h
  refine ⟨T, hprogram.checked, fun limit trace n hfinished => ?_⟩
  have hchecked : checkProgram n false p = .ok (t, q) := by
    rcases Nat.le_total fuel n with hle | hle
    · exact (checkProgram_below hle false p).ok h
    · refine ((checkProgram_below hle false p).resolve_left fun hu => ?_).trans h
      rw [runProgram, hu] at hfinished
      exact hfinished
  rw [runProgram_eq hchecked hprogram.checked] at hfinished ⊢
  obtain ⟨r, hr, N, hN⟩ :=
    Machine.watched_runFrom (fun _ _ hr => hprogram.rechecks hplain hr) .start hfinished
  refine ⟨r, hr, max n N, fun m hm => ?_⟩
  have hm' : n ≤ m ∧ N ≤ m := by omega
  -- A limit bounds the steps by itself; without one there are as many as there is fuel.
  have hsteps : limit.getD m ≥ limit.getD n := by
    cases limit with
    | none => exact hm'.1
    | some l => exact Nat.le_refl l
  have hchecked' := (checkProgram_below hm'.1 false p).ok hchecked
  exact (runProgram_eq hchecked' hprogram.checked).trans (hN m hm'.2 _ hsteps)

/-- **A run that types every expression again and ends well is the run that does not**, whatever the
program. -/
theorem runProgram_of_watched {fuel : Nat} {limit : Option Nat} {trace : Bool} {p : Program} {run : Run}
    (h : runProgram fuel ⟨limit, trace, true⟩ p = .ok run) :
    runProgram fuel ⟨limit, trace, false⟩ p = .ok run := by
  obtain ⟨⟨t, q⟩, hq, h⟩ := Answer.bind_eq_ok.1 h
  obtain ⟨T, hT, h⟩ := Answer.bind_eq_ok.1 h
  exact Answer.bind_eq_ok.2 ⟨_, hq, Answer.bind_eq_ok.2 ⟨T, hT, Machine.runFrom_of_watched h⟩⟩

end FeatherGo
