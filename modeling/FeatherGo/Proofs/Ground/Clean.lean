import FeatherGo.Proofs.Discovery.Proper
import FeatherGo.Proofs.Ground.Exact

/-!
# Programs with clean names

Where declared names hold no mark and type arguments have no anonymous parts, ground names can be read
back, so they tell instances apart: the instances of such a program are regular
(`Ground.regular_of_clean`).
-/

namespace FeatherGo

/-! ## Declared names -/

/-- The names of the methods that an interface lists. -/
def Ty.listed : Ty → List String
  | .interface ms => ms.filterMap fun
    | .method s => some s.name
    | .embed _ _ => none
  | _ => []

theorem Ty.mem_listed {ms : List Member} {s : Signature} (hs : Member.method s ∈ ms) :
    s.name ∈ (Ty.interface ms).listed :=
  List.mem_filterMap.2 ⟨_, hs, rfl⟩

/-- The names of the methods that a declaration introduces: a method, or what an interface lists. -/
def Decl.methodNames : Decl → List String
  | .type td => td.source.listed
  | .method md => [md.sig.name]

/-- The names of the types that a program declares. -/
def Program.typeNames (p : Program) : List String := (p.decls.filterMap Decl.typeDecl?).map (·.name)

/-- The names of the methods that a program declares, on types and in interfaces. -/
def Program.methodNames (p : Program) : List String := p.decls.flatMap Decl.methodNames

namespace Table

/-- A method of the name is declared: on a type, or in the source of one. -/
def DeclaresMethod (T : Table) (a : String) : Prop :=
  (∃ md ∈ T.methodDecls, md.sig.name = a) ∨ ∃ c td, T.type? c = some td ∧ a ∈ td.source.listed

variable {T : Table}

/-- What a declared type lists is listed where it is declared. -/
theorem HasSources.declaresMethod_of_resolves (h : T.HasSources) {t v : Ty} (hv : T.Resolves t v)
    (ht : t.isNamed = true) {a : String} (ha : a ∈ v.listed) : T.DeclaresMethod a := by
  induction hv with
  | stop unnamed =>
    cases ‹Ty› with
    | named => exact unnamed.elim
    | _ => cases ht
  | @step c args u v head rest ih =>
    obtain ⟨td, htd, -, rfl⟩ := underlying_eq_ok.1 head
    have hsource := h c td htd
    cases hs : td.source with
    | named d ds =>
      rw [hs] at ih
      exact ih (by rw [Ty.subst_named]; rfl) ha
    | struct fs =>
      rw [hs, Ty.subst_struct] at rest
      cases rest
      cases ha
    | interface ms =>
      rw [hs, Ty.subst_interface] at rest
      cases rest
      obtain ⟨m, hm, hname⟩ := List.mem_filterMap.1 ha
      obtain ⟨m', hm', rfl⟩ := List.mem_map.1 hm
      refine .inr ⟨c, td, htd, ?_⟩
      rw [hs]
      cases m' with
      | method s =>
        obtain rfl := Option.some.inj hname
        rw [Signature.name_substWith]
        exact Ty.mem_listed hm'
      | embed => cases hname
    | _ =>
      rw [hs] at hsource
      cases hsource

/-- What a declared type offers is declared. -/
theorem HasSources.declaresMethod_of_methods (h : T.HasSources) {n : Nat} {t : Ty} {S : MethodSet}
    (ht : ∀ a ∈ t.listed, T.DeclaresMethod a) (hS : T.methods [] n t = .ok S) :
    ∀ s ∈ S, T.DeclaresMethod s.name := by
  induction n generalizing t S with
  | zero => cases hS
  | succ n ih =>
    rw [methods_succ] at hS
    cases t with
    | interface ms =>
      exact forall_of_memberMethods hS (fun s hs => absurd hs List.not_mem_nil)
        (fun s hs => ht _ (Ty.mem_listed hs))
        fun c args _ E hE => ih (fun a ha => absurd ha List.not_mem_nil) hE
    | named c args =>
      obtain ⟨v, hv, hS⟩ := Answer.bind_eq_ok.1 hS
      have hv := resolves_of_resolve (Answer.ofExcept_eq_ok.1 hv)
      split at hS
      · exact ih (fun a ha => h.declaresMethod_of_resolves hv rfl ha) hS
      · intro s hs
        rcases of_mem_declaredMethods hS hs with hs | ⟨md, hmd, η, -, rfl⟩
        · cases hs
        · rw [Signature.name_subst]
          exact .inl ⟨md, (mem_methodsOn.1 hmd).1, rfl⟩
    | param p =>
      obtain ⟨b, hb, -⟩ := Answer.bind_eq_ok.1 hS
      cases hb
    | prim p =>
      obtain rfl := Answer.ok.inj hS
      exact fun s hs => absurd hs List.not_mem_nil
    | struct fs =>
      obtain rfl := Answer.ok.inj hS
      exact fun s hs => absurd hs List.not_mem_nil
    | var v =>
      obtain rfl := Answer.ok.inj hS
      exact fun s hs => absurd hs List.not_mem_nil

end Table

namespace ProgramCheck

variable {C : Checker} {p q : Program} {t : Ty} {T : Table}

/-- The declared types of a checked program are those of the source. -/
theorem mem_typeNames (h : ProgramCheck C p t q T) {c : String} {td : TypeDecl}
    (htd : T.type? c = some td) : c ∈ p.typeNames := by
  rw [← h.same.type?_eq] at htd
  exact List.mem_map.2 ⟨td, List.mem_filterMap.2 ⟨_, Table.mem_decls_of_type? h.source htd, rfl⟩,
    (Table.mem_of_type? htd).2⟩

/-- The declared methods of a checked program are those of the source. -/
theorem mem_methodNames (h : ProgramCheck C p t q T) {a : String} (ha : T.DeclaresMethod a) :
    a ∈ p.methodNames := by
  rcases ha with ⟨md', hmd', rfl⟩ | ⟨c, td, htd, ha⟩
  · obtain ⟨md, hdecl, -, hcheck⟩ := h.methods md' hmd'
    obtain ⟨-, -, _, _, _, -, -, rfl⟩ := Checker.of_checkMethodDecl hcheck
    exact List.mem_flatMap.2 ⟨_, hdecl, List.mem_cons_self⟩
  · rw [← h.same.type?_eq] at htd
    exact List.mem_flatMap.2 ⟨_, Table.mem_decls_of_type? h.source htd, ha⟩

end ProgramCheck

namespace Ground

/-! ## Readable instances -/

/-- Closed flat types can be read back from their texts, where declared types have clean names that
are not those of primitive types. -/
theorem nameable_of_closed {T : Table} {t : Ty} (ht : t.Closed (T.vocabulary true))
    (hflat : t.flat true = true)
    (hT : ∀ c td, T.type? c = some td → Clean c ∧ ∀ k : Kind, c ≠ k.name) : Nameable t := by
  induction t using Ty.induction with
  | param a => exact absurd rfl (ht.ne_param a)
  | named c args ih =>
    obtain ⟨hc, hother⟩ : Clean c ∧ ∀ k : Kind, c ≠ k.name := by
      cases ht.fit with
      | named head =>
        obtain ⟨td, htd, -⟩ := head
        exact hT c td htd
    exact .named hc hother fun a ha => ih a ha (ht.args a ha).1 (ht.args a ha).2
  | prim p => exact .prim (by simpa [Ty.flat] using hflat)
  | _ => cases hflat

theorem Clean.unmarked {s : String} (h : Clean s) : Unmarked s :=
  fun hmem => h _ hmem (by decide)

theorem Nameable.unmarked_render {t : Ty} (ht : Nameable t) : Unmarked t.render := by
  induction ht with
  | named clean _ _ ih =>
    refine clean.unmarked.append (unmarked_parenthesised fun s hs => ?_)
    obtain ⟨t, hmem, rfl⟩ := Ty.mem_renderAll.1 hs
    exact ih t hmem
  | prim => exact unmarked_prim _

/-- Canonical names are not those of type parameters. -/
def ordinary : Lexicon where
  name _ := True
  param a := ∀ i, a ≠ Signature.canonicalName i

/-- **The instances of a program with clean names are regular.** -/
theorem regular_of_clean {C : Checker} {p q : Program} {t : Ty} {T : Table}
    (h : ProgramCheck C p t q T) (hplain : p.Plain true)
    (htypes : ∀ a ∈ p.typeNames, Clean a ∧ ∀ k : Kind, a ≠ k.name)
    (hmeths : ∀ a ∈ p.methodNames, Clean a) {fuel : Nat} {limit : Option Nat} {F : Instances}
    (hF : discover fuel T q.main limit = .ok F) :
    Grounding.Regular ⟨T, F, fuel, topFor T⟩ Clean := by
  obtain ⟨rank, -, hwf⟩ := h.exists_wellFormed hplain
  have hproper := Closure.proper_of_discover hwf (fun md hmd => (h.written_body hplain hmd).2)
    (h.closed_main hplain).2.1 hF
  have hnameable {u : Ty} (hu : u.Closed (T.vocabulary true)) (hflat : u.flat true = true) :
      Nameable u :=
    nameable_of_closed hu hflat fun c td htd => htypes c (h.mem_typeNames htd)
  have hnamed {c : String} {args : List Ty} (hmem : .named c args ∈ F.types) :
      Nameable (.named c args) := by
    have hclosed := hproper.closed.types _ hmem
    exact hnameable hclosed (Ty.flat_named.2 fun a ha => (hclosed.args a ha).2)
  have htargs : ∀ m ∈ F.meths, ∀ u ∈ m.targs, Nameable u := fun m hm u hu =>
    hnameable ((hproper.closed.meths m hm).targs u hu).1 ((hproper.closed.meths m hm).targs u hu).2
  have hover : p.Over ordinary :=
    ⟨fun _ _ => trivial, fun a ha => (hplain.formals a ha).2⟩
  have hdeclared : ∀ {a}, T.DeclaresMethod a → Clean a := fun ha => hmeths _ (h.mem_methodNames ha)
  refine regular_of_over h hover (fun a _ => canonicalName_ne_prime a) (fun _ ha => ha) hF
    (fun _ ha => ha.unmarked) (fun md hmd => hdeclared (.inl ⟨md, hmd, rfl⟩))
    (fun u hu hn n S hS s hs => ?_) (fun m hm u hu => (htargs m hm u hu).unmarked_render)
    (fun c args c' args' hmem hmem' he => (hnamed hmem).typeName_inj (hnamed hmem') he)
    fun m hm m' hm' hc hc' hrecv he => ?_
  · refine hdeclared (hwf.lawful.hasSources.declaresMethod_of_methods (fun a ha => ?_) hS s hs)
    cases u with
    | named => cases ha
    | _ => cases hn
  · rw [methodName_eq, methodName_eq] at he
    obtain ⟨hmeth, hts⟩ := typeName_inj hc hc' (htargs m hm) (htargs m' hm') he
    cases m
    cases m'
    cases hrecv
    cases hmeth
    cases hts
    rfl

end Ground

end FeatherGo
