import FeatherGo.Proofs.Typing.Typed
import FeatherGo.Proofs.Expressions.Redex

/-!
# Evaluation keeps types

A typed expression that is no value steps to one of a subtype, or fails in a way that is expected of
checked programs (`Typed.step`). The rules for values use that a value has exactly the type it was
built at; the rule for calls needs the bodies of methods typed wherever they may run
(`Supported.bodies`).
-/

namespace FeatherGo

/-! ## Typed lists -/

namespace TypedAll

variable {T : Table} {strict : Bool} {U : Usage} {Γ : Scope}

/-- Expressions change together, each to one of a subtype. -/
theorem map_of {U' : Usage} {Γ' : Scope} {f : Expr → Expr} {es : List Expr} {ts targets : List Ty}
    (hl : es.length = ts.length)
    (h : ∀ p ∈ es.zip ts, ∃ t, Typed T strict U' Γ' (f p.1) t ∧ T.Sub t p.2)
    (hl' : ts.length = targets.length) (hs : ∀ p ∈ ts.zip targets, T.Sub p.1 p.2) :
    TypedAll T strict U' Γ' (es.map f) targets := by
  induction es generalizing ts targets with
  | nil =>
    obtain rfl := List.length_eq_zero_iff.1 hl.symm
    obtain rfl := List.length_eq_zero_iff.1 hl'.symm
    exact .nil
  | cons e es ih =>
    cases ts with
    | nil => simp at hl
    | cons t ts =>
      cases targets with
      | nil => simp at hl'
      | cons target targets =>
        rw [List.zip_cons_cons, List.forall_mem_cons] at h hs
        obtain ⟨t', ht', hsub⟩ := h.1
        exact cons_iff.2 ⟨⟨t', ht', hsub.trans hs.1⟩,
          ih (by simpa using hl) h.2 (by simpa using hl') hs.2⟩

/-- An expression in the middle may change to one of a subtype. -/
theorem middle {pre post : List Expr} {e : Expr} {targets : List Ty}
    (h : TypedAll T strict U Γ (pre ++ e :: post) targets) :
    ∃ t, Typed T strict U Γ e t ∧ ∀ e' t', Typed T strict U Γ e' t' → T.Sub t' t →
      TypedAll T strict U Γ (pre ++ e' :: post) targets := by
  induction pre generalizing targets with
  | nil =>
    cases targets with
    | nil => simpa using h.length_eq
    | cons target targets =>
      obtain ⟨⟨t, ht, hs⟩, hrest⟩ := cons_iff.1 h
      exact ⟨t, ht, fun e' t' ht' hs' => cons_iff.2 ⟨⟨t', ht', hs'.trans hs⟩, hrest⟩⟩
  | cons a pre ih =>
    cases targets with
    | nil => simpa using h.length_eq
    | cons target targets =>
      obtain ⟨ha, hrest⟩ := cons_iff.1 h
      obtain ⟨t, ht, hmid⟩ := ih hrest
      exact ⟨t, ht, fun e' t' ht' hs' => cons_iff.2 ⟨ha, hmid e' t' ht' hs'⟩⟩

/-- The expression at a position. -/
theorem getElem? {es : List Expr} {targets : List Ty} (h : TypedAll T strict U Γ es targets)
    {i : Nat} {target : Ty} (hi : targets[i]? = some target) :
    ∃ e t, es[i]? = some e ∧ Typed T strict U Γ e t ∧ T.Sub t target := by
  induction es generalizing targets i with
  | nil =>
    obtain rfl := List.length_eq_zero_iff.1 h.length_eq.symm
    simp at hi
  | cons e es ih =>
    cases targets with
    | nil => simp at hi
    | cons t targets =>
      obtain ⟨⟨t', ht', hs⟩, hrest⟩ := cons_iff.1 h
      cases i with
      | zero =>
        obtain rfl : t = target := by simpa using hi
        exact ⟨e, t', rfl, ht', hs⟩
      | succ i => exact ih hrest (by simpa using hi)

/-- The value of a name among positions, beside its type. -/
theorem find?_zip {es : List Expr} {targets : List Ty} (h : TypedAll T strict U Γ es targets)
    {names : List String} (hn : names.length = es.length) {x : String} {t : Ty}
    (hx : Env.find? (names.zip targets) x = some t) :
    ∃ e t', Env.find? (names.zip es) x = some e ∧ Typed T strict U Γ e t' ∧ T.Sub t' t := by
  induction names generalizing es targets with
  | nil => simp at hx
  | cons n names ih =>
    cases es with
    | nil => simp at hn
    | cons e es =>
      cases targets with
      | nil => simpa using h.length_eq
      | cons target targets =>
        obtain ⟨⟨te, hte, hs⟩, hrest⟩ := cons_iff.1 h
        have hn' : names.length = es.length := by simpa using hn
        rw [List.zip_cons_cons, Env.find?] at hx ⊢
        cases hlater : Env.find? (names.zip targets) x with
        | some t' =>
          rw [hlater, Option.some_or, Option.some.injEq] at hx
          obtain ⟨e', te', he', hte', hs'⟩ := ih hrest hn' (hx ▸ hlater)
          rw [he', Option.some_or]
          exact ⟨e', te', rfl, hte', hs'⟩
        | none =>
          have hlater' : Env.find? (names.zip es) x = none := by
            rw [Env.find?_eq_none] at hlater ⊢
            rw [Env.names, List.map_fst_zip (Nat.le_of_eq hn')]
            rw [Env.names, List.map_fst_zip (Nat.le_of_eq (hn'.trans hrest.length_eq))] at hlater
            exact hlater
          rw [hlater, Option.none_or] at hx
          rw [hlater', Option.none_or]
          by_cases hnx : n = x
          · rw [if_pos hnx, Option.some.injEq] at hx
            rw [if_pos hnx]
            exact ⟨e, te, rfl, hte, hx ▸ hs⟩
          · simp [hnx] at hx

end TypedAll

/-- Calls may come to stand on receivers of subtypes. -/
def Usage.Downward (T : Table) (U : Usage) : Prop :=
  ∀ t t' u m ts, T.Sub t' t → U.calls t u m ts → U.calls t' u m ts

theorem Usage.downward_of (T : Table) (types : Ty → Prop) (meths : MethodInstance → Prop) :
    (Usage.of T types meths).Downward T :=
  fun _ _ _ _ _ hs hc => ⟨hs.trans hc.1, hc.2⟩

namespace Typed

variable {T : Table} {strict : Bool} {rank : String → Nat} {U : Usage} {Γ : Scope}

/-- Putting values of subtypes in for variables gives an expression of a subtype. -/
theorem substVars (h : T.WellFormed strict rank) (hU : U.Downward T) {e : Expr} {t : Ty}
    (ht : Typed T strict U Γ e t) {env : Env Expr}
    (henv : ∀ x t, Γ.find? x = some t →
      ∃ v t', env.find? x = some v ∧ Typed T strict U [] v t' ∧ T.Sub t' t) :
    ∃ t', Typed T strict U [] (e.substVars env) t' ∧ T.Sub t' t := by
  induction ht with
  | var found =>
    obtain ⟨v, t', hv, ht', hs⟩ := henv _ _ found
    rw [Expr.substVars, hv]
    exact ⟨t', ht', hs⟩
  | structLit closed used resolves length _ length' sub ih =>
    rw [Expr.substVars, Expr.substVarsAll_eq]
    obtain ⟨ts, hl, hts, hl', hsub⟩ := TypedAll.map_of length ih length' sub
    exact ⟨_, .structLit closed used resolves hl hts hl' hsub, .refl _⟩
  | select _ resolves found ih =>
    obtain ⟨t', ht', hs⟩ := ih
    obtain rfl := hs.eq_of_struct h resolves
    exact ⟨_, .select ht' resolves found, .refl _⟩
  | call _ used closed methods found arity given within length _ length' sub ih ihs =>
    obtain ⟨t', ht', hs⟩ := ih
    rw [Expr.substVars, Expr.substVarsAll_eq]
    obtain ⟨ts, hl, hts, hl', hsub⟩ := TypedAll.map_of length ihs length' sub
    exact ⟨_, .call ht' (hU _ _ _ _ _ hs used) closed methods found arity given within hl hts hl'
      hsub, .refl _⟩
  | assert _ closed used ih =>
    obtain ⟨t', ht', -⟩ := ih
    exact ⟨_, .assert ht' closed used, .refl _⟩
  | @sprintf format args ts used length _ ih =>
    rw [Expr.substVars, Expr.substVarsAll_eq]
    obtain ⟨ts', hl, hts, -, -⟩ :=
      TypedAll.map_of length ih rfl fun p hp => Table.Sub.of_mem_zip_self hp
    exact ⟨_, .sprintf used hl hts, .refl _⟩
  | lit l => exact ⟨_, .lit l, .refl _⟩
  | binary _ _ agree ihl ihr =>
    obtain ⟨tl, htl, hsl⟩ := ihl
    obtain ⟨tr, htr, hsr⟩ := ihr
    obtain ⟨p, rfl⟩ := hsl.eq_prim
    obtain ⟨q, rfl⟩ := hsr.eq_prim
    exact ⟨_, .binary htl htr (hsl.agree hsr agree), (hsl.commonPrim hsr agree).resultPrim _⟩
  | convert _ ih =>
    obtain ⟨t', ht', hs⟩ := ih
    obtain ⟨p, rfl⟩ := hs.eq_prim
    exact ⟨_, .convert ht', .refl _⟩

/-- A value is a literal of its type or a struct literal of the type it names. -/
theorem of_value {e : Expr} {t : Ty} (ht : Typed T strict U Γ e t) (hv : e.isValue = true) :
    (∃ l, e = .lit l ∧ t = .prim l.prim)
      ∨ ∃ c targs es, e = .structLit c targs es ∧ t = .named c targs := by
  cases ht with
  | structLit => exact .inr ⟨_, _, _, rfl, rfl⟩
  | lit l => exact .inl ⟨l, rfl, rfl⟩
  | _ => simp [Expr.isValue] at hv

/-- A value may stand where its run-time type is. -/
theorem sub_runtimeType {e : Expr} {t : Ty} (ht : Typed T strict U Γ e t) (hv : e.isValue = true) :
    T.Sub t e.runtimeType := by
  rcases ht.of_value hv with ⟨l, rfl, rfl⟩ | ⟨c, targs, es, rfl, rfl⟩
  · rw [Expr.runtimeType, Table.Sub.prim_iff]
    cases hu : l.prim.untyped with
    | true => exact .inr rfl
    | false => exact .inl (by rw [Prim.settled, Prim.typed, ← hu])
  · exact .refl _

/-- The run-time type of a value is closed. -/
theorem closed_runtimeType {e : Expr} {t : Ty} (ht : Typed T strict U Γ e t) (hv : e.isValue = true) :
    e.runtimeType.Closed (T.vocabulary strict) := by
  cases ht with
  | structLit closed => exact closed
  | lit l => exact ⟨.prim _, rfl⟩
  | _ => simp [Expr.isValue] at hv

end Typed

/-! ## Steps -/

/-- The failures that a checked program may come to: being stuck, and operands or conversions that
their kinds do not allow. -/
def EvalError.Expected : EvalError → Prop
  | .stuck _ | .divisorLost => True
  | .type (.invalidOperand ..) | .type (.invalidConversion ..) => True
  | _ => False

/-- The value context in which a method's body runs. -/
def MethodDecl.scopeAt (md : MethodDecl) (args targs : List Ty) : Scope :=
  (md.recv, .named md.recvType args)
    :: md.sig.params.map fun p => (p.name, p.ty.subst (md.instantiation args targs))

/-- Where the formals of a method can be put in: its receiver and its type arguments are closed and
as many as it takes. -/
structure MethodDecl.Fits (md : MethodDecl) (T : Table) (strict : Bool)
    (args targs : List Ty) : Prop where
  recv : (Ty.named md.recvType args).Closed (T.vocabulary strict)
  recvLength : md.recvFormals.length = args.length
  given : T.Given strict targs
  length : md.sig.formals.length = targs.length

/-- Where a method may run: its receiver and its type arguments are within their bounds. -/
structure MethodDecl.Applies (md : MethodDecl) (T : Table) (strict : Bool)
    (args targs : List Ty) : Prop extends md.Fits T strict args targs where
  recvWithin : ∀ p ∈ md.recvFormals.zip args,
    T.Implements p.2 (p.1.ty.subst (FeatherGo.instantiation md.recvFormals args))
  within : ∀ p ∈ md.sig.formals.zip targs,
    T.Implements p.2 (p.1.ty.subst (md.instantiation args targs))

/-- A usage under which expressions may run: calls stay in use on subtypes, and the body of every
method is typed wherever a call in use may run it. -/
structure Supported (T : Table) (strict : Bool) (U : Usage) : Prop where
  downward : U.Downward T
  related : ∀ t u m ts, U.calls t u m ts → T.Sub t u
  bodies : ∀ (md : MethodDecl) (args targs : List Ty) (u : Ty), md ∈ T.methodDecls →
    md.Applies T strict args targs → U.types (.named md.recvType args) →
    U.calls (.named md.recvType args) u md.sig.name targs →
    ∃ t, Typed T strict U (md.scopeAt args targs)
        (md.body.substTypes (md.instantiation args targs)) t
      ∧ T.Sub t (md.sig.result.subst (md.instantiation args targs))

/-- Fields of a type, by its definition chain. -/
theorem Table.WellFormed.structFields_eq {T : Table} {strict : Bool} {rank : String → Nat}
    (h : T.WellFormed strict rank) {t : Ty} {scope : List String}
    (ht : t.Fit (T.vocabulary strict) scope []) {fields : List Slot}
    (hf : T.Resolves t (.struct fields)) : T.structFields t = .ok (some fields) := by
  cases t with
  | named c args =>
    rw [Table.structFields, (h.lawful.resolve_iff ht.scoped.loose).2 hf]
    rfl
  | struct fs =>
    cases hf
    rfl
  | _ => cases hf

/-- The position of an element that is found first. -/
theorem findIdx?_of_find? {α : Type} {p : α → Bool} {l : List α} {a : α} (h : l.find? p = some a) :
    ∃ i, l.findIdx? p = some i ∧ l[i]? = some a := by
  induction l with
  | nil => simp at h
  | cons x xs ih =>
    rw [List.find?_cons] at h
    by_cases hx : p x = true
    · rw [hx] at h
      exact ⟨0, by simp [List.findIdx?_cons, hx], by simpa using h⟩
    · rw [Bool.not_eq_true] at hx
      rw [hx] at h
      obtain ⟨i, hi, ha⟩ := ih h
      exact ⟨i + 1, by simp [List.findIdx?_cons, hx, hi], by simpa using ha⟩

/-- A left operand decides alone only of operations whose result is a boolean. -/
theorem Machine.resultPrim_of_decided? {op : Operator} {l : Expr} {b : Bool}
    (h : Machine.decided? op l = some b) (p : Prim) : op.resultPrim p = .typed .bool := by
  unfold Machine.decided? at h
  split at h
  · rfl
  · rfl
  · cases h

/-- Selecting a field of a struct literal gives the element at the place of the field. -/
theorem Machine.project_eq_ok {M : Machine} {field c : String} {targs : List Ty}
    {elems : List Expr} {whole v : Expr} :
    M.project field whole (.structLit c targs elems) = .ok v
      ↔ ∃ fields i, M.table.structFields (.named c targs) = .ok (some fields)
        ∧ fields.findIdx? (fun f => f.name = field) = some i ∧ elems[i]? = some v := by
  rw [Machine.project, except_bind_eq_ok]
  constructor
  · rintro ⟨r, hr, h⟩
    cases r with
    | none => cases h
    | some fields =>
      dsimp only at h
      split at h
      · rename_i e he
        obtain rfl := Except.ok.inj h
        obtain ⟨i, hi, hei⟩ := Option.bind_eq_some_iff.1 he
        exact ⟨fields, i, hr, hi, hei⟩
      · cases h
  · rintro ⟨fields, i, hr, hi, hv⟩
    refine ⟨some fields, hr, ?_⟩
    dsimp only
    rw [hi, Option.bind_some, hv]
    rfl

/-- A step lands well: it failed as expected, or led to a typed expression of a subtype. -/
def Lands (T : Table) (strict : Bool) (U : Usage) (t : Ty) :
    Answer EvalError (Expr × Rule) → Prop
  | .ok (e, _) => ∃ t', Typed T strict U [] e t' ∧ T.Sub t' t
  | .error e => e.Expected
  | .unfinished => True

/-- A step goes well: it lands well whatever the fuel, and with fuel enough it has an end. -/
structure StepsWell (T : Table) (strict : Bool) (U : Usage) (t : Ty)
    (x : Nat → Answer EvalError (Expr × Rule)) : Prop where
  lands : ∀ n, Lands T strict U t (x n)
  ends : ∃ n, ∀ m ≥ n, x m ≠ .unfinished

namespace StepsWell

variable {T : Table} {strict : Bool} {U : Usage} {t u : Ty}

/-- A step that looks at no fuel. -/
theorem of_answer {x : Answer EvalError (Expr × Rule)} (h : Lands T strict U t x)
    (hx : x ≠ .unfinished) : StepsWell T strict U t fun _ => x :=
  ⟨fun _ => h, 0, fun _ _ => hx⟩

/-- A step of a part is a step of the whole. -/
theorem lift {x : Nat → Answer EvalError (Expr × Rule)} (h : StepsWell T strict U t x)
    {f : Expr → Expr}
    (hf : ∀ e' t', Typed T strict U [] e' t' → T.Sub t' t →
      ∃ u', Typed T strict U [] (f e') u' ∧ T.Sub u' u) :
    StepsWell T strict U u fun n => do
      let (e', rule) ← x n
      return (f e', rule) where
  lands n := by
    have hn := h.lands n
    cases hx : x n with
    | ok r =>
      rw [hx] at hn
      obtain ⟨t', ht', hs⟩ := hn
      exact hf r.1 t' ht' hs
    | error e =>
      rw [hx] at hn
      exact hn
    | unfinished => trivial
  ends := by
    obtain ⟨n, hn⟩ := h.ends
    refine ⟨n, fun m hm => ?_⟩
    have hne := hn m hm
    cases hx : x m with
    | unfinished => exact absurd hx hne
    | _ => simp

end StepsWell

namespace Typed

variable {T : Table} {strict : Bool} {rank : String → Nat} {U : Usage}

/-- Selecting a field of a struct value gives the element at the place of the field. -/
theorem project (h : T.WellFormed strict rank) (M : Machine) (hM : M.table = T) {e : Expr} {t : Ty}
    {field : String} {fields : List Slot} {f : Slot} {whole : Expr} (ht : Typed T strict U [] e t)
    (hv : e.isValue = true) (hf : T.Resolves t (.struct fields))
    (hfound : fields.find? (fun f => f.name = field) = some f) :
    ∃ v t', M.project field whole e = .ok v ∧ Typed T strict U [] v t' ∧ T.Sub t' f.ty := by
  cases ht with
  | @structLit c targs elems ts fields' closed used resolves length typed length' sub =>
    obtain rfl := Ty.struct.inj (resolves.unique hf)
    obtain ⟨i, hi, hfi⟩ := findIdx?_of_find? hfound
    have hall : TypedAll T strict U [] elems (fields'.map (·.ty)) :=
      ⟨ts, length, typed, length', sub⟩
    have hti : (fields'.map (·.ty))[i]? = some f.ty := by
      rw [List.getElem?_map, hfi]
      rfl
    obtain ⟨v, t', hvi, ht', hs⟩ := hall.getElem? hti
    exact ⟨v, t', Machine.project_eq_ok.2
      ⟨fields', i, hM ▸ h.structFields_eq closed.fit resolves, hi, hvi⟩, ht', hs⟩
  | lit => cases hf
  | _ => simp [Expr.isValue] at hv

/-- A call on a value finds a declared method of the value's type, which applies there and whose
parameters and result are those that the call was typed with. -/
theorem method_of_call (h : T.WellFormed strict rank) (hU : Supported T strict U) {recv : Expr}
    {meth : String} {targs : List Ty} {args : List Expr} {t : Ty}
    (ht : Typed T strict U [] (.call recv meth targs args) t) (hv : recv.isValue = true) :
    ∃ c cargs es u md, recv = .structLit c cargs es ∧ T.method? c meth = some md
      ∧ Typed T strict U [] recv (.named c cargs) ∧ U.types (.named c cargs)
      ∧ U.calls (.named c cargs) u meth targs ∧ md.Applies T strict cargs targs
      ∧ TypedAll T strict U [] args
          (md.sig.params.map fun p => p.ty.subst (md.instantiation cargs targs))
      ∧ t = md.sig.result.subst (md.instantiation cargs targs) := by
  cases ht with
  | @call _ _ _ _ t u S sig ts typedRecv used closed methods found arity given within length typed
      length' sub =>
    obtain ⟨S', o, hS', ho, heq⟩ := (hU.related _ _ _ _ used).find?_methods methods found
    rcases typedRecv.of_value hv with ⟨l, rfl, rfl⟩ | ⟨c, cargs, es, rfl, rfl⟩
    · rw [Table.Sub.allMethods_prim] at hS'
      obtain rfl := Answer.ok.inj hS'
      cases ho
    · cases typedRecv with
      | @structLit _ _ _ ts' fields cclosed cused resolves clength ctyped clength' csub =>
        have hres := (h.lawful.resolve_iff cclosed.sealed.inner).2 resolves
        have hnot : ∀ ms, Ty.struct fields ≠ .interface ms := by simp
        have hS'd := hS'
        rw [Table.allMethods_of_resolve hres hnot] at hS'd
        obtain ⟨md, η, hmd, hr, rfl⟩ := (h.lawful.methodsUnique.find?_declaredMethods hS'd).1 ho
        obtain ⟨hrl, rfl, hrw⟩ := Table.receiverBy_eq_some.1 hr
        obtain ⟨hdecl, hrecvType, hname⟩ := Table.of_method? hmd
        have hproper := h.methods md hdecl
        have hoclosed := h.closed_of_allMethods cclosed hS' _ (MethodSet.mem_of_find? ho).1
        have hsigclosed := h.closed_of_allMethods closed methods _ (MethodSet.mem_of_find? found).1
        obtain ⟨-, hfl, hpl, -⟩ := Signature.alphaEq_iff.1 heq
        have holen : (md.sig.subst (FeatherGo.instantiation md.recvFormals cargs)).formals.length
            = md.sig.formals.length := by
          rw [hproper.sig.subst_eq_close cclosed.args]
          simp [Signature.close]
        have hoplen : (md.sig.subst (FeatherGo.instantiation md.recvFormals cargs)).params.length
            = md.sig.params.length := by
          rw [hproper.sig.subst_eq_close cclosed.args]
          simp [Signature.close]
        have hmlen : md.sig.formals.length = targs.length := holen.symm.trans (hfl.trans arity)
        have htypes := (hoclosed.at_eq hsigclosed heq arity given).symm.trans
          (hproper.types_at hrl cclosed.args hmlen given)
        obtain ⟨hformals, hparams, hresult⟩ :=
          Signature.parts_eq (hfl.symm.trans holen) (hpl.symm.trans hoplen) htypes
        refine ⟨c, cargs, es, u, md, rfl, hmd,
          .structLit cclosed cused resolves clength ctyped clength' csub, cused, used, ?_, ?_,
          hresult⟩
        · refine ⟨⟨hrecvType ▸ cclosed, hrl, given, hmlen⟩, hrw, ?_⟩
          have hall : ∀ p ∈ (sig.formals.map fun x =>
              x.ty.subst (FeatherGo.instantiation sig.formals targs)).zip targs,
              T.Implements p.2 p.1 := by
            rw [List.zip_map_left, List.forall_mem_map]
            exact within
          rw [hformals, List.zip_map_left, List.forall_mem_map] at hall
          exact hall
        · rw [← hparams]
          exact ⟨ts, length, typed, length', sub⟩

/-- A call on a struct value runs the body of the method that its type declares. -/
theorem invoke (h : T.WellFormed strict rank) (hU : Supported T strict U) (M : Machine)
    (hM : M.table = T) {recv : Expr} {meth : String} {targs : List Ty} {args : List Expr} {t : Ty}
    (ht : Typed T strict U [] (.call recv meth targs args) t) (hv : recv.isValue = true) :
    ∃ e t', M.invoke recv meth targs args = .ok e ∧ Typed T strict U [] e t' ∧ T.Sub t' t := by
  obtain ⟨c, cargs, es, u, md, rfl, hmd, hrecv, hused, hcall, happlies, hargs, rfl⟩ :=
    ht.method_of_call h hU hv
  obtain ⟨hdecl, rfl, rfl⟩ := Table.of_method? hmd
  obtain ⟨tb, hbody, hsub⟩ := hU.bodies md cargs targs u hdecl happlies hused hcall
  have hplen : md.sig.params.length = args.length := by simpa using hargs.length_eq.symm
  have hall : TypedAll T strict U [] (.structLit md.recvType cargs es :: args)
      (.named md.recvType cargs
        :: md.sig.params.map fun p => p.ty.subst (md.instantiation cargs targs)) :=
    TypedAll.cons_iff.2 ⟨⟨_, hrecv, .refl _⟩, hargs⟩
  have henv : ∀ x t, (md.scopeAt cargs targs).find? x = some t →
      ∃ v t', Env.find? ((md.recv, Expr.structLit md.recvType cargs es)
          :: (md.sig.params.map (·.name)).zip args) x = some v
        ∧ Typed T strict U [] v t' ∧ T.Sub t' t := by
    intro x t hx
    have hlen : (md.recv :: md.sig.params.map (·.name)).length
        = (Expr.structLit md.recvType cargs es :: args).length := by simpa using hplen
    refine hall.find?_zip hlen ?_
    rw [List.zip_cons_cons, List.zip_map']
    exact hx
  obtain ⟨t', ht', hsub'⟩ := hbody.substVars h hU.downward henv
  refine ⟨_, t', ?_, ht', hsub'.trans hsub⟩
  rw [Machine.invoke, hM, hmd]
  exact if_pos hplen

/-- A list of typed expressions that are not all values steps well, if its parts do. -/
theorem stepFirst (whole : Expr) {es : List Expr} {targets : List Ty} {u : Ty}
    {f : List Expr → Expr}
    (ih : ∀ e ∈ es, ∀ t, Typed T strict U [] e t → e.isValue = false →
      StepsWell T strict U t fun n => (Machine.mk T n).step e)
    (hall : TypedAll T strict U [] es targets) (hes : Expr.areValues es = false)
    (hf : ∀ es', TypedAll T strict U [] es' targets →
      ∃ u', Typed T strict U [] (f es') u' ∧ T.Sub u' u) :
    StepsWell T strict U u fun n => do
      let (es', rule) ← (Machine.mk T n).stepFirst whole es
      return (f es', rule) := by
  obtain ⟨pre, e, post, rfl, hpre, he⟩ := Expr.exists_first hes
  obtain ⟨t, ht, hmid⟩ := hall.middle
  have hwell := ih e (by simp) t ht he
  have hbind : ∀ n, (do
      let (es', rule) ← (Machine.mk T n).stepFirst whole (pre ++ e :: post)
      return (f es', rule)) = (do
      let (e', rule) ← (Machine.mk T n).step e
      return (f (pre ++ e' :: post), rule) : Answer EvalError (Expr × Rule)) := by
    intro n
    rw [Machine.stepFirst_append hpre he]
    cases (Machine.mk T n).step e <;> rfl
  simp only [hbind]
  exact hwell.lift fun e' t' ht' hs => hf _ (hmid e' t' ht' hs)

/-- An assertion on a value lets it through or is stuck. -/
theorem assertValue (h : T.WellFormed strict rank) {e : Expr} {t target : Ty}
    (ht : Typed T strict U [] e t) (hv : e.isValue = true)
    (htarget : target.Closed (T.vocabulary strict)) :
    StepsWell T strict U target fun n => do
      return (← (Machine.mk T n).assertValue e target, .assert) := by
  have hclosed := ht.closed_runtimeType hv
  obtain ⟨b, hb, hbelow, k, hk⟩ := h.lawful.implements_decided hclosed.sealed htarget.sealed
  refine ⟨fun n => ?_, k, fun n hn => ?_⟩
  · rw [Machine.assertValue]
    rcases hbelow n with hn | hn
    · rw [hn]
      trivial
    · rw [hn]
      cases b with
      | true => exact ⟨_, ht, (ht.sub_runtimeType hv).trans (.of_implements h hclosed htarget (hb.1 rfl))⟩
      | false => trivial
  · rw [Machine.assertValue, hk n hn]
    cases b <;> simp

/-- Operators on literals give a literal or fail as expected. -/
theorem operate {op : Operator} {l r whole : Expr} {p q : Prim} (hl : Typed T strict U [] l (.prim p))
    (hr : Typed T strict U [] r (.prim q)) (hlv : l.isValue = true) (hrv : r.isValue = true) :
    StepsWell T strict U (.prim (op.resultPrim (Operator.commonPrim p q))) fun _ => do
      return (← Machine.operate op l r whole, .binary) := by
  rcases hl.of_value hlv with ⟨l, rfl, hp⟩ | ⟨c, targs, es, rfl, ht⟩
  · rcases hr.of_value hrv with ⟨r, rfl, hq⟩ | ⟨c, targs, es, rfl, ht⟩
    · obtain rfl := Ty.prim.inj hp
      obtain rfl := Ty.prim.inj hq
      rw [Machine.operate]
      cases hv : op.apply l r with
      | ok v =>
        rw [← Operator.prim_of_apply hv]
        exact .of_answer ⟨_, .lit v, .refl _⟩ (by simp)
      | error fault => cases fault <;> exact .of_answer trivial (by simp)
    · cases ht
  · cases ht

/-- Conversions of literals give a literal or fail as expected. -/
theorem convertValue {k : Kind} {e whole : Expr} {p : Prim} (ht : Typed T strict U [] e (.prim p))
    (hv : e.isValue = true) :
    StepsWell T strict U (.ofKind k) fun _ => do
      return (← Machine.convertValue k e whole, .convert) := by
  rcases ht.of_value hv with ⟨l, rfl, -⟩ | ⟨c, targs, es, rfl, ht⟩
  · rw [Machine.convertValue]
    cases hl : l.convert k with
    | some v =>
      rw [Ty.ofKind, ← Literal.prim_of_convert hl]
      exact .of_answer ⟨_, .lit v, .refl _⟩ (by simp)
    | none => exact .of_answer trivial (by simp)
  · cases ht

/-- **A typed expression that is no value steps well.** -/
theorem step (h : T.WellFormed strict rank) (hU : Supported T strict U) {e : Expr} {t : Ty}
    (ht : Typed T strict U [] e t) (hv : e.isValue = false) :
    StepsWell T strict U t fun n => (Machine.mk T n).step e := by
  induction e using Expr.induction generalizing t with
  | var x =>
    cases ht with
    | var found => cases found
  | structLit c targs es ih =>
    cases ht with
    | @structLit _ _ _ ts fields closed used resolves length typed length' sub =>
      simp only [Machine.step]
      refine stepFirst _ (fun e he t => ih e he) ⟨ts, length, typed, length', sub⟩
        (by simpa [Expr.isValue] using hv) ?_
      rintro es' ⟨ts', hl, hts, hl', hsub⟩
      exact ⟨_, .structLit closed used resolves hl hts hl' hsub, .refl _⟩
  | select e field ih =>
    cases ht with
    | select typed resolves found =>
      simp only [Machine.step]
      by_cases hev : e.isValue = true
      · simp only [if_pos hev]
        refine ⟨fun n => ?_, 0, fun n _ => ?_⟩
        all_goals
          obtain ⟨v, t', hproj, ht', hs⟩ := typed.project h ⟨T, n⟩ rfl hev resolves found
          rw [hproj]
        · exact ⟨t', ht', hs⟩
        · simp
      · simp only [if_neg hev]
        refine (ih typed (by simpa using hev)).lift (f := (Expr.select · field)) fun e' t' ht' hs => ?_
        obtain rfl := hs.eq_of_struct h resolves
        exact ⟨_, .select ht' resolves found, .refl _⟩
  | call recv m targs args ih ihs =>
    simp only [Machine.step]
    by_cases hrv : recv.isValue = true
    · simp only [hrv, Bool.not_true, Bool.false_eq_true, if_false]
      by_cases hargs : Expr.areValues args = true
      · simp only [if_neg (show ¬((!Expr.areValues args) = true) by simp [hargs])]
        refine ⟨fun n => ?_, 0, fun n _ => ?_⟩
        all_goals
          obtain ⟨e, t', hinv, ht', hs⟩ := ht.invoke h hU ⟨T, n⟩ rfl hrv
          rw [hinv]
        · exact ⟨t', ht', hs⟩
        · simp
      · simp only [hargs, Bool.not_false, if_true]
        cases ht with
        | @call _ _ _ _ t u S sig ts typedRecv used closed methods found arity given within length
            typed length' sub =>
          refine stepFirst _ (fun e he t => ihs e he) ⟨ts, length, typed, length', sub⟩
            (by simpa using hargs) ?_
          rintro es' ⟨ts', hl, hts, hl', hsub⟩
          exact ⟨_, .call typedRecv used closed methods found arity given within hl hts hl' hsub,
            .refl _⟩
    · simp only [hrv, Bool.not_false, if_true]
      cases ht with
      | call typedRecv used closed methods found arity given within length typed length' sub =>
        refine (ih typedRecv (by simpa using hrv)).lift (f := (Expr.call · m targs args))
          fun e' t' ht' hs => ?_
        exact ⟨_, .call ht' (hU.downward _ _ _ _ _ hs used) closed methods found arity given within
          length typed length' sub, .refl _⟩
  | assert e target ih =>
    cases ht with
    | assert typed closed used =>
      simp only [Machine.step]
      by_cases hev : e.isValue = true
      · simp only [if_pos hev]
        exact typed.assertValue h hev closed
      · simp only [if_neg hev]
        exact (ih typed (by simpa using hev)).lift fun e' t' ht' _ =>
          ⟨_, .assert ht' closed used, .refl _⟩
  | sprintf format es ih =>
    cases ht with
    | @sprintf _ _ ts used length typed =>
      simp only [Machine.step]
      by_cases hes : Expr.areValues es = true
      · simp only [if_pos hes]
        exact .of_answer ⟨_, .lit _, .refl _⟩ (by simp)
      · simp only [if_neg hes]
        have hall : TypedAll T strict U [] es ts :=
          ⟨ts, length, typed, rfl, fun p hp => Table.Sub.of_mem_zip_self hp⟩
        refine stepFirst _ (fun e he t => ih e he) hall (by simpa using hes) ?_
        rintro es' ⟨ts', hl, hts, -, -⟩
        exact ⟨_, .sprintf used hl hts, .refl _⟩
  | lit l => simp [Expr.isValue] at hv
  | binary op l r ihl ihr =>
    cases ht with
    | @binary _ _ _ p q lhs rhs agree =>
      simp only [Machine.step]
      by_cases hlv : l.isValue = true
      · simp only [hlv, Bool.not_true, Bool.false_eq_true, if_false]
        cases hdecided : Machine.decided? op l with
        | some b =>
          rw [Machine.resultPrim_of_decided? hdecided]
          exact .of_answer ⟨_, .lit _, .refl _⟩ (by simp)
        | none =>
          dsimp only
          by_cases hrv : r.isValue = true
          · simp only [hrv, Bool.not_true, Bool.false_eq_true, if_false]
            exact lhs.operate rhs hlv hrv
          · simp only [hrv, Bool.not_false, if_true]
            refine (ihr rhs (by simpa using hrv)).lift fun e' t' ht' hs => ?_
            obtain ⟨q', rfl⟩ := hs.eq_prim
            exact ⟨_, .binary lhs ht' ((Table.Sub.refl _).agree hs agree),
              ((Table.Sub.refl _).commonPrim hs agree).resultPrim op⟩
      · simp only [hlv, Bool.not_false, if_true]
        refine (ihl lhs (by simpa using hlv)).lift (f := (Expr.binary op · r)) fun e' t' ht' hs => ?_
        obtain ⟨p', rfl⟩ := hs.eq_prim
        exact ⟨_, .binary ht' rhs (hs.agree (.refl _) agree),
          (hs.commonPrim (.refl _) agree).resultPrim op⟩
  | convert k e ih =>
    cases ht with
    | convert typed =>
      simp only [Machine.step]
      by_cases hev : e.isValue = true
      · simp only [if_pos hev]
        exact typed.convertValue hev
      · simp only [if_neg hev]
        refine (ih typed (by simpa using hev)).lift fun e' t' ht' hs => ?_
        obtain ⟨p, rfl⟩ := hs.eq_prim
        exact ⟨_, .convert ht', .refl _⟩

end Typed

end FeatherGo
