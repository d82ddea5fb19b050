import FeatherGo.Proofs.Declarations.Tables
import FeatherGo.Proofs.Typing.Typed
import FeatherGo.Typing.Declaration

/-!
# Tables of the same headers

Checking a program changes the bodies of its methods alone. Two tables whose declarations agree but
for those have the same types, chains and method sets, so what is typed over the one is typed over
the other (`Table.SameHeaders.typed`), and both give every check the same answer
(`Table.SameHeaders.check_eq`, `Table.SameHeaders.checkDecls_eq`).
-/

namespace FeatherGo

namespace Table.SameHeaders

variable {T T' : Table}

/-! ## Chains -/

theorem underlying_eq (h : SameHeaders T T') (t : Ty) : T.underlying t = T'.underlying t := by
  cases t with
  | named c args => simp only [underlying, applied, typeDecl, h.type?_eq]
  | _ => rfl

theorem resolve_eq (h : SameHeaders T T') (t : Ty) : T.resolve t = T'.resolve t := by
  have hin : ∀ n t, T.resolveIn n t = T'.resolveIn n t := by
    intro n
    induction n with
    | zero => intro t; cases t <;> rfl
    | succ n ih =>
      intro t
      cases t with
      | named c args => simp only [resolveIn, h.underlying_eq, ih]
      | _ => rfl
  rw [resolve, resolve, h.types, hin]

theorem isInterface_eq (h : SameHeaders T T') (t : Ty) : T.isInterface t = T'.isInterface t := by
  cases t with
  | named c args => simp only [isInterface, h.resolve_eq]
  | _ => rfl

/-! ## Method sets -/

theorem implementsBy_eq (h : SameHeaders T T') (f : Finder) (sub sup : Ty) :
    T.implementsBy f sub sup = T'.implementsBy f sub sup := by
  unfold implementsBy
  simp only [h.isInterface_eq]

theorem receiverBy_eq (h : SameHeaders T T') (f : Finder) (formals : List Slot) (args : List Ty) :
    T.receiverBy f formals args = T'.receiverBy f formals args := by
  have hwithin : ∀ (η : Env Ty) (fs : List Slot) (ts : List Ty),
      T.withinBounds f η fs ts = T'.withinBounds f η fs ts := by
    intro η fs
    induction fs with
    | nil => intro ts; rfl
    | cons g fs ih =>
      intro ts
      cases ts with
      | nil => rfl
      | cons t ts => simp only [withinBounds, h.implementsBy_eq, ih]
  simp only [receiverBy, hwithin]

theorem methodsOn_header (h : SameHeaders T T') (c : String) :
    (T.methodsOn c).map MethodDecl.header = (T'.methodsOn c).map MethodDecl.header := by
  have hfilter : ∀ mds : List MethodDecl,
      (mds.filter fun md => md.recvType = c).map MethodDecl.header
        = (mds.map MethodDecl.header).filter fun hd => hd.2.1 = c := by
    intro mds
    rw [List.filter_map]
    rfl
  rw [methodsOn, methodsOn, hfilter, hfilter, h.methods]

theorem declaredMethods_eq (h : SameHeaders T T') (f : Finder) (args : List Ty)
    {mds mds' : List MethodDecl} (hmds : mds.map MethodDecl.header = mds'.map MethodDecl.header)
    (acc : MethodSet) : T.declaredMethods f args mds acc = T'.declaredMethods f args mds' acc := by
  induction mds generalizing mds' acc with
  | nil =>
    obtain rfl := List.map_eq_nil_iff.1 hmds.symm
    rfl
  | cons md mds ih =>
    cases mds' with
    | nil => simp at hmds
    | cons md' mds' =>
      rw [List.map_cons, List.map_cons, List.cons.injEq] at hmds
      obtain ⟨hhead, htail⟩ := hmds
      simp only [MethodDecl.header, Prod.mk.injEq] at hhead
      simp only [declaredMethods, h.receiverBy_eq, hhead.2.2.1, hhead.2.2.2, ih htail]

theorem methods_eq (h : SameHeaders T T') (Δ : Bounds) (n : Nat) :
    T.methods Δ n = T'.methods Δ n := by
  induction n with
  | zero => rfl
  | succ n ih =>
    funext t
    cases t with
    | named c args =>
      simp only [Table.methods, h.resolve_eq, ih, h.declaredMethods_eq _ _ (h.methodsOn_header c)]
    | _ => simp only [Table.methods, ih]

theorem allMethods_eq (h : SameHeaders T T') (Δ : Bounds) : T.allMethods Δ = T'.allMethods Δ := by
  unfold allMethods
  rw [funext fun n => h.methods_eq Δ n]

theorem implements_eq (h : SameHeaders T T') (n : Nat) (Δ : Bounds) (sub sup : Ty) :
    T.implements n Δ sub sup = T'.implements n Δ sub sup := by
  rw [implements, implements, h.methods_eq, h.implementsBy_eq]

/-! ## Judgments -/

theorem resolves (h : SameHeaders T T') {t v : Ty} (hv : T.Resolves t v) : T'.Resolves t v := by
  induction hv with
  | stop unnamed => exact .stop unnamed
  | step head _ ih => exact .step ((h.underlying_eq _).symm.trans head) ih

theorem namesInterface (h : SameHeaders T T') {c : String} (hc : T.NamesInterface c) :
    T'.NamesInterface c := by
  induction hc with
  | literal declared source => exact .literal ((h.type?_eq _).symm.trans declared) source
  | chain declared source _ ih => exact .chain ((h.type?_eq _).symm.trans declared) source ih

theorem namesInterface_eq (h : SameHeaders T T') : T.NamesInterface = T'.NamesInterface :=
  funext fun _ => propext ⟨h.namesInterface, h.symm.namesInterface⟩

theorem interfaceType_eq (h : SameHeaders T T') (t : Ty) : T.InterfaceType t = T'.InterfaceType t := by
  cases t with
  | named c args => simp only [InterfaceType, h.namesInterface_eq]
  | _ => rfl

theorem boundType_eq (h : SameHeaders T T') (t : Ty) : T.BoundType t = T'.BoundType t := by
  cases t with
  | prim p => rfl
  | _ => simp only [BoundType, h.interfaceType_eq]

theorem vocabulary_eq (h : SameHeaders T T') (strict : Bool) :
    T.vocabulary strict = T'.vocabulary strict := by
  simp only [vocabulary, h.type?_eq, h.namesInterface_eq]

theorem implements_iff (h : SameHeaders T T') {sub sup : Ty} :
    T.Implements sub sup ↔ T'.Implements sub sup := by
  rw [Implements, Implements, h.allMethods_eq, h.implementsBy_eq]

theorem sub (h : SameHeaders T T') {t u : Ty} (hs : T.Sub t u) : T'.Sub t u := by
  cases hs with
  | refl => exact .refl _
  | untyped j k => exact .untyped j k
  | interface hi hne hc =>
    refine .interface (h.interfaceType_eq u ▸ hi) hne ?_
    obtain ⟨S, W, hS, hW, hcov⟩ := hc
    rw [h.allMethods_eq] at hS hW
    exact ⟨S, W, hS, hW, hcov⟩

/-- What is typed over one table is typed over the other. -/
theorem typed (h : SameHeaders T T') {strict : Bool} {U : Usage} {Γ : Scope} {e : Expr} {t : Ty}
    (ht : Typed T strict U Γ e t) : Typed T' strict U Γ e t := by
  induction ht with
  | var found => exact .var found
  | structLit closed used resolves length _ length' sub ih =>
    exact .structLit (h.vocabulary_eq strict ▸ closed) used (h.resolves resolves) length ih length'
      fun p hp => h.sub (sub p hp)
  | select _ resolves found ih => exact .select ih (h.resolves resolves) found
  | call _ used closed methods found arity given within length _ length' sub ih ihs =>
    refine .call ih used (h.vocabulary_eq strict ▸ closed) (h.allMethods_eq [] ▸ methods) found
      arity ?_ (fun p hp => h.implements_iff.1 (within p hp)) length ihs length'
      fun p hp => h.sub (sub p hp)
    exact fun t ht => h.vocabulary_eq strict ▸ given t ht
  | assert _ closed used ih => exact .assert ih (h.vocabulary_eq strict ▸ closed) used
  | sprintf used length _ ih => exact .sprintf used length ih
  | lit l => exact .lit l
  | binary _ _ agree ihl ihr => exact .binary ihl ihr agree
  | convert _ ih => exact .convert ih

/-! ## Well-formed types -/

theorem typeDecl_eq (h : SameHeaders T T') (c : String) : T.typeDecl c = T'.typeDecl c := by
  rw [typeDecl, typeDecl, h.type?_eq]

theorem applied_eq (h : SameHeaders T T') (c : String) (args : List Ty) :
    T.applied c args = T'.applied c args := by
  simp only [applied, h.typeDecl_eq]

theorem structFields_eq (h : SameHeaders T T') (t : Ty) : T.structFields t = T'.structFields t := by
  cases t with
  | named c args => simp only [structFields, h.resolve_eq]
  | _ => rfl

theorem isBound_eq (h : SameHeaders T T') (t : Ty) : T.isBound t = T'.isBound t := by
  cases t with
  | named c args => simp only [isBound, h.isInterface_eq]
  | _ => rfl

theorem argumentsWithin_eq (h : SameHeaders T T') (n : Nat) (Δ : Bounds) (place : Place)
    (η : Env Ty) (fs : List Slot) (ts : List Ty) :
    T.argumentsWithin n Δ place η fs ts = T'.argumentsWithin n Δ place η fs ts := by
  induction fs generalizing ts with
  | nil => rfl
  | cons f fs ih =>
    cases ts with
    | nil => rfl
    | cons t ts => simp only [argumentsWithin, h.implements_eq, ih]

mutual

theorem okType_eq (h : SameHeaders T T') (n : Nat) (Δ : Bounds) :
    ∀ t, T.okType n Δ t = T'.okType n Δ t
  | .param _ | .prim _ | .var _ => rfl
  | .named c args => by
    simp only [okType, h.applied_eq, okTypes_eq h n Δ args, h.argumentsWithin_eq]
  | .struct fs => okFields_eq h n Δ _ _ fs
  | .interface ms => okMembers_eq h n Δ _ _ ms

theorem okTypes_eq (h : SameHeaders T T') (n : Nat) (Δ : Bounds) :
    ∀ ts, T.okTypes n Δ ts = T'.okTypes n Δ ts
  | [] => rfl
  | t :: ts => by simp only [okTypes, okType_eq h n Δ t, okTypes_eq h n Δ ts]

theorem okFields_eq (h : SameHeaders T T') (n : Nat) (Δ : Bounds) (whole : Ty)
    (seen : List String) : ∀ fs, T.okFields n Δ whole seen fs = T'.okFields n Δ whole seen fs
  | [] => rfl
  | ⟨_, t⟩ :: fs => by
    simp only [okFields, okType_eq h n Δ t, okFields_eq h n Δ whole _ fs]

theorem okMembers_eq (h : SameHeaders T T') (n : Nat) (Δ : Bounds) (whole : Ty)
    (seen : List String) : ∀ ms, T.okMembers n Δ whole seen ms = T'.okMembers n Δ whole seen ms
  | [] => rfl
  | .method s :: ms => by
    simp only [okMembers, okSignature_eq h n Δ s, okMembers_eq h n Δ whole _ ms]
  | .embed c args :: ms => by
    simp only [okMembers, h.applied_eq, okTypes_eq h n Δ args, h.argumentsWithin_eq,
      h.isInterface_eq, h.methods_eq, okMembers_eq h n Δ whole _ ms]

theorem okSignature_eq (h : SameHeaders T T') (n : Nat) (Δ : Bounds) :
    ∀ s, T.okSignature n Δ s = T'.okSignature n Δ s
  | ⟨m, fs, ps, r⟩ => by
    simp only [okSignature, okBounds_eq h n (Δ.extend fs) fs,
      okParams_eq h n (Δ.extend fs) m [] ps, okType_eq h n (Δ.extend fs) r]

theorem okBounds_eq (h : SameHeaders T T') (n : Nat) (Δ : Bounds) :
    ∀ fs, T.okBounds n Δ fs = T'.okBounds n Δ fs
  | [] => rfl
  | ⟨_, t⟩ :: fs => by
    simp only [okBounds, okType_eq h n Δ t, h.isBound_eq, okBounds_eq h n Δ fs]

theorem okParams_eq (h : SameHeaders T T') (n : Nat) (Δ : Bounds) (meth : String)
    (seen : List String) : ∀ ps, T.okParams n Δ meth seen ps = T'.okParams n Δ meth seen ps
  | [] => rfl
  | ⟨_, t⟩ :: ps => by
    simp only [okParams, okType_eq h n Δ t, okParams_eq h n Δ meth _ ps]

end

/-! ## Expressions -/

variable {lenient : Bool} {n : Nat}

theorem coerce_eq (h : SameHeaders T T') (Δ : Bounds) (t : Ty) (e : Expr) (target : Ty)
    (dest : Destination) : Checker.coerce ⟨T, lenient, n⟩ Δ t e target dest
      = Checker.coerce ⟨T', lenient, n⟩ Δ t e target dest := by
  simp only [Checker.coerce, h.implements_eq]

theorem assertable_eq (h : SameHeaders T T') (Δ : Bounds) (t target : Ty) (whole : Expr) :
    Checker.assertable ⟨T, lenient, n⟩ Δ t target whole
      = Checker.assertable ⟨T', lenient, n⟩ Δ t target whole := by
  simp only [Checker.assertable, h.isInterface_eq, h.implements_eq]

mutual

/-- The check of an expression reads the headers of a table alone. -/
theorem check_eq (h : SameHeaders T T') (Δ : Bounds) (Γ : Scope) :
    ∀ e, Checker.check ⟨T, lenient, n⟩ Δ Γ e = Checker.check ⟨T', lenient, n⟩ Δ Γ e
  | .var x => rfl
  | .structLit c ts es => by
    simp only [Checker.check, h.okType_eq, h.structFields_eq, checkAll_eq h Δ Γ _ es]
  | .select e f => by
    simp only [Checker.check, check_eq h Δ Γ e, h.structFields_eq]
  | .call e m ts es => by
    simp only [Checker.check, check_eq h Δ Γ e, h.methods_eq, h.okTypes_eq, h.argumentsWithin_eq,
      checkAll_eq h Δ Γ _ es]
  | .assert e t => by
    simp only [Checker.check, h.okType_eq, check_eq h Δ Γ e, h.assertable_eq]
  | .sprintf s es => by
    simp only [Checker.check, checkAll_eq h Δ Γ _ es]
  | .lit l => rfl
  | .binary op l r => by
    simp only [Checker.check, check_eq h Δ Γ l, check_eq h Δ Γ r, Checker.binary, h.coerce_eq]
  | .convert k e => by
    simp only [Checker.check, check_eq h Δ Γ e]

theorem checkAll_eq (h : SameHeaders T T') (Δ : Bounds) (Γ : Scope) :
    ∀ targets es, Checker.checkAll ⟨T, lenient, n⟩ Δ Γ targets es
      = Checker.checkAll ⟨T', lenient, n⟩ Δ Γ targets es
  | [], [] => rfl
  | [], _ :: _ => rfl
  | _ :: _, [] => rfl
  | _ :: targets, e :: es => by
    simp only [Checker.checkAll, check_eq h Δ Γ e, h.coerce_eq, checkAll_eq h Δ Γ targets es]

end

/-! ## Declarations -/

theorem okFormals_eq (h : SameHeaders T T') (Δ : Bounds) (decl : String) (fs : List Slot) :
    T.okFormals n Δ decl fs = T'.okFormals n Δ decl fs := by
  simp only [okFormals, h.okBounds_eq]

/-- The check of a declaration reads the headers of a table alone. -/
theorem checkDecl_eq (h : SameHeaders T T') (d : Decl) :
    Checker.checkDecl ⟨T, lenient, n⟩ d = Checker.checkDecl ⟨T', lenient, n⟩ d := by
  cases d with
  | type td =>
    simp only [Checker.checkDecl, checkTypeDecl, h.okFormals_eq, h.okType_eq]
  | method md =>
    simp only [Checker.checkDecl, Checker.checkMethodDecl, checkReceiver, checkHeader,
      h.typeDecl_eq, h.isInterface_eq, h.okFormals_eq, h.okType_eq, h.structFields_eq,
      h.okSignature_eq, h.check_eq, h.coerce_eq]

theorem checkAcyclic_eq (h : SameHeaders T T') : T.checkAcyclic = T'.checkAcyclic := by
  have hfrom : ∀ n, T.unfoldFrom n = T'.unfoldFrom n := by
    intro n
    induction n with
    | zero => rfl
    | succ n ih =>
      funext path done name
      simp only [unfoldFrom, h.type?_eq, ih]
  simp only [checkAcyclic, h.types, hfrom]

theorem checkDecls_eq (h : SameHeaders T T') (decls : List Decl) :
    Checker.checkDecls ⟨T, lenient, n⟩ decls = Checker.checkDecls ⟨T', lenient, n⟩ decls := by
  have hdecl : Checker.checkDecl ⟨T, lenient, n⟩ = Checker.checkDecl ⟨T', lenient, n⟩ :=
    funext h.checkDecl_eq
  rw [Checker.checkDecls, Checker.checkDecls, hdecl, h.checkAcyclic_eq]

end Table.SameHeaders

end FeatherGo
