import FeatherGo.Proofs.Answer
import FeatherGo.Proofs.Declarations.Tables
import FeatherGo.Proofs.Declarations.WellFormed

/-!
# Definition chains

In acyclic declarations whose sources unfold (`Table.Shaped`) every definition chain ends, within the
number of steps that `Table.resolve` takes. What it ends in is an interface if the name at the start
names one, then with the members that this name lists (`Table.Lists`). Lawful declarations are such;
there the end of a chain is open where the start is, and commutes with closing. Where no declaration has
formals, that number of steps is enough for every chain that ends (`Table.resolve_eq_ok_iff`).
-/

namespace FeatherGo

/-- Whether a type is anonymous at its head, where definition chains end. -/
def Ty.Unnamed : Ty → Prop
  | .named .. => False
  | _ => True

namespace Table

variable {T : Table}

/-- The definition chain of a type ends in another one. -/
inductive Resolves (T : Table) : Ty → Ty → Prop
  | stop {t : Ty} (unnamed : t.Unnamed) : Resolves T t t
  | step {c : String} {args : List Ty} {u v : Ty} (head : T.underlying (.named c args) = .ok u)
      (rest : Resolves T u v) : Resolves T (.named c args) v

theorem resolves_of_resolveIn {n : Nat} {t v : Ty} (h : T.resolveIn n t = .ok v) :
    T.Resolves t v := by
  induction n generalizing t with
  | zero =>
    cases t with
    | named c args => simp [resolveIn] at h
    | _ =>
      obtain rfl := Except.ok.inj h
      exact .stop trivial
  | succ n ih =>
    cases t with
    | named c args =>
      obtain ⟨u, hu, hv⟩ := except_bind_eq_ok.1 h
      exact .step hu (ih hv)
    | _ =>
      obtain rfl := Except.ok.inj h
      exact .stop trivial

theorem resolves_of_resolve {t v : Ty} (h : T.resolve t = .ok v) : T.Resolves t v :=
  resolves_of_resolveIn h

namespace Resolves

theorem unnamed {t v : Ty} (h : T.Resolves t v) : v.Unnamed := by
  induction h with
  | stop unnamed => exact unnamed
  | step _ _ ih => exact ih

theorem unique {t v w : Ty} (h : T.Resolves t v) (h' : T.Resolves t w) : v = w := by
  induction h with
  | stop unnamed =>
    cases h' with
    | stop => rfl
    | step => exact unnamed.elim
  | step head _ ih =>
    cases h' with
    | stop unnamed => exact unnamed.elim
    | step head' rest' =>
      obtain rfl := Except.ok.inj (head.symm.trans head')
      exact ih rest'

end Resolves

/-- The declaration of a type. -/
theorem typeDecl_eq_ok {c : String} {td : TypeDecl} :
    T.typeDecl c = .ok td ↔ T.type? c = some td := by
  rw [typeDecl]
  cases T.type? c <;> simp

/-- A name applied to as many arguments as it takes. -/
theorem applied_eq_ok {c : String} {args : List Ty} {td : TypeDecl} :
    T.applied c args = .ok td ↔ T.type? c = some td ∧ td.formals.length = args.length := by
  rw [applied, except_bind_eq_ok]
  constructor
  · rintro ⟨td', htd, happ⟩
    by_cases hl : td'.formals.length = args.length
    · rw [if_pos hl] at happ
      obtain rfl := Except.ok.inj happ
      exact ⟨typeDecl_eq_ok.1 htd, hl⟩
    · rw [if_neg hl] at happ
      cases happ
  · rintro ⟨htd, hl⟩
    exact ⟨td, typeDecl_eq_ok.2 htd, if_pos hl⟩

/-- What unfolding one level needs and gives. -/
theorem underlying_eq_ok {c : String} {args : List Ty} {u : Ty} :
    T.underlying (.named c args) = .ok u
      ↔ ∃ td, T.type? c = some td ∧ td.formals.length = args.length
        ∧ u = td.source.subst (instantiation td.formals args) := by
  rw [underlying, except_bind_eq_ok]
  constructor
  · rintro ⟨td, happ, hu⟩
    obtain ⟨htd, hl⟩ := applied_eq_ok.1 happ
    exact ⟨td, htd, hl, (Except.ok.inj hu).symm⟩
  · rintro ⟨td, htd, hl, rfl⟩
    exact ⟨td, applied_eq_ok.2 ⟨htd, hl⟩, rfl⟩

/-- The bound of a type parameter is its entry. -/
theorem boundOf_eq_ok {Δ : Bounds} {a : String} {b : Ty} :
    Δ.boundOf a = .ok b ↔ Δ.find? a = some b := by
  rw [Bounds.boundOf]
  cases Δ.find? a <;> simp

/-! ## Declarations without formals -/

/-- The names that a definition chain passes, in order. -/
inductive Passes (T : Table) : Ty → List String → Prop
  | stop {t : Ty} (unnamed : t.Unnamed) : Passes T t []
  | step {c : String} {args : List Ty} {u : Ty} {names : List String}
      (head : T.underlying (.named c args) = .ok u) (rest : Passes T u names) :
      Passes T (.named c args) (c :: names)

theorem Resolves.exists_passes {t v : Ty} (h : T.Resolves t v) : ∃ names, T.Passes t names := by
  induction h with
  | stop unnamed => exact ⟨[], .stop unnamed⟩
  | step head _ ih =>
    obtain ⟨names, hnames⟩ := ih
    exact ⟨_, .step head hnames⟩

namespace Passes

theorem unique {t : Ty} {names names' : List String} (h : T.Passes t names)
    (h' : T.Passes t names') : names = names' := by
  induction h generalizing names' with
  | stop unnamed =>
    cases h' with
    | stop => rfl
    | step => exact unnamed.elim
  | step head _ ih =>
    cases h' with
    | stop unnamed => exact unnamed.elim
    | step head' rest' =>
      obtain rfl := Except.ok.inj (head.symm.trans head')
      rw [ih rest']

/-- As many steps as a chain passes names are enough to unfold it. -/
theorem resolveIn {t : Ty} {names : List String} (h : T.Passes t names) {n : Nat}
    (hn : names.length ≤ n) : ∃ v, T.resolveIn n t = .ok v := by
  induction h generalizing n with
  | @stop t unnamed =>
    refine ⟨t, ?_⟩
    cases t with
    | named c args => exact unnamed.elim
    | _ => cases n <;> rfl
  | @step c args u names head _ ih =>
    rw [List.length_cons] at hn
    obtain ⟨m, rfl⟩ : ∃ m, n = m + 1 := ⟨n - 1, by omega⟩
    obtain ⟨v, hv⟩ := ih (n := m) (by omega)
    exact ⟨v, except_bind_eq_ok.2 ⟨u, head, hv⟩⟩

/-- The names on a chain are declared. -/
theorem declared {t : Ty} {names : List String} (h : T.Passes t names) :
    ∀ c ∈ names, c ∈ T.typeDecls.map (·.name) := by
  induction h with
  | stop => simp
  | step head _ ih =>
    rw [List.forall_mem_cons]
    obtain ⟨td, htd, -⟩ := underlying_eq_ok.1 head
    obtain ⟨hmem, rfl⟩ := mem_of_type? htd
    exact ⟨List.mem_map_of_mem hmem, ih⟩

/-- From a name on a chain on, the chain is no longer than it was. -/
theorem suffix (hT : ∀ c td, T.type? c = some td → td.formals = []) {t : Ty} {names : List String}
    (h : T.Passes t names) {c : String} (hc : c ∈ names) :
    ∃ names', T.Passes (.named c []) names' ∧ names'.length ≤ names.length := by
  induction h with
  | stop => cases hc
  | @step d args u names head rest ih =>
    rcases List.mem_cons.1 hc with rfl | hc
    · obtain ⟨td, htd, hl, -⟩ := underlying_eq_ok.1 head
      obtain rfl : args = [] := List.length_eq_zero_iff.1 (by rw [← hl, hT c td htd]; rfl)
      exact ⟨_, .step head rest, Nat.le_refl _⟩
    · obtain ⟨names', hnames', hle⟩ := ih hc
      exact ⟨names', hnames', by rw [List.length_cons]; omega⟩

/-- Where nothing takes arguments, a chain that ends passes no name twice. -/
theorem nodup (hT : ∀ c td, T.type? c = some td → td.formals = []) {t : Ty} {names : List String}
    (h : T.Passes t names) : names.Nodup := by
  induction h with
  | stop => exact .nil
  | @step c args u names head rest ih =>
    refine List.nodup_cons.2 ⟨fun hc => ?_, ih⟩
    obtain ⟨td, htd, hl, -⟩ := underlying_eq_ok.1 head
    obtain rfl : args = [] := List.length_eq_zero_iff.1 (by rw [← hl, hT c td htd]; rfl)
    obtain ⟨names', hnames', hle⟩ := rest.suffix hT hc
    -- The chain from `c` would be as long as the rest of itself.
    rw [hnames'.unique (.step head rest), List.length_cons] at hle
    omega

end Passes

/-- **Where nothing takes arguments, every definition chain that ends is unfolded to its end.** -/
theorem resolve_eq_ok_iff (hT : ∀ c td, T.type? c = some td → td.formals = []) {t v : Ty} :
    T.resolve t = .ok v ↔ T.Resolves t v := by
  refine ⟨resolves_of_resolve, fun h => ?_⟩
  obtain ⟨names, hnames⟩ := h.exists_passes
  have hle : names.length ≤ T.typeDecls.length := by
    simpa using ((hnames.nodup hT).subperm hnames.declared).length_le
  obtain ⟨w, hw⟩ := hnames.resolveIn (n := T.typeDecls.length + 1) (by omega)
  rw [Table.resolve, hw, h.unique (resolves_of_resolveIn hw)]

namespace NamesInterface

/-- A name whose source is a struct names no interface. -/
theorem not_of_struct {c : String} {td : TypeDecl} {fs : List Slot} (hd : T.type? c = some td)
    (hs : td.source = .struct fs) : ¬T.NamesInterface c := by
  intro h
  cases h with
  | literal hd' hs' =>
    obtain rfl := Option.some.inj (hd.symm.trans hd')
    rw [hs] at hs'
    cases hs'
  | chain hd' hs' =>
    obtain rfl := Option.some.inj (hd.symm.trans hd')
    rw [hs] at hs'
    cases hs'

/-- A name whose source is another name names what that one does. -/
theorem iff_of_named {c d : String} {td : TypeDecl} {args : List Ty} (hd : T.type? c = some td)
    (hs : td.source = .named d args) : T.NamesInterface c ↔ T.NamesInterface d := by
  refine ⟨fun h => ?_, fun h => .chain hd hs h⟩
  cases h with
  | literal hd' hs' =>
    obtain rfl := Option.some.inj (hd.symm.trans hd')
    rw [hs] at hs'
    cases hs'
  | chain hd' hs' next =>
    obtain rfl := Option.some.inj (hd.symm.trans hd')
    rw [hs] at hs'
    cases hs'
    exact next

end NamesInterface

/-- Every declared source has the form of one. -/
def HasSources (T : Table) : Prop := ∀ c td, T.type? c = some td → td.source.isSource = true

/-- A chain ends in an interface if its name says so. -/
theorem HasSources.resolves_interface_iff (h : T.HasSources) {c : String} {args : List Ty} {v : Ty}
    (hv : T.Resolves (.named c args) v) : (∃ ms, v = .interface ms) ↔ T.NamesInterface c := by
  generalize ht : Ty.named c args = t at hv
  induction hv generalizing c args with
  | stop unnamed => exact (ht ▸ unnamed : Ty.Unnamed (.named c args)).elim
  | step head rest ih =>
    obtain ⟨rfl, rfl⟩ := Ty.named.inj ht
    obtain ⟨td, htd, -, rfl⟩ := underlying_eq_ok.1 head
    have hform := h _ td htd
    cases hs : td.source with
    | named d ds =>
      rw [NamesInterface.iff_of_named htd hs]
      exact ih (by rw [hs, Ty.subst_named])
    | struct fs =>
      rw [hs, Ty.subst_struct] at rest
      cases rest
      simp [NamesInterface.not_of_struct htd hs]
    | interface ms =>
      rw [hs, Ty.subst_interface] at rest
      cases rest
      exact iff_of_true ⟨_, rfl⟩ (.literal htd hs)
    | _ => simp [hs, Ty.isSource] at hform

/-- A type that is found to be an interface names one. -/
theorem HasSources.namesInterface_iff (h : T.HasSources) {c : String} {args : List Ty} {b : Bool}
    (hb : T.isInterface (.named c args) = .ok b) : b = true ↔ T.NamesInterface c := by
  rw [isInterface, except_bind_eq_ok] at hb
  obtain ⟨v, hv, hb⟩ := hb
  rw [← h.resolves_interface_iff (resolves_of_resolve hv)]
  cases v with
  | interface ms => simpa using (Except.ok.inj hb).symm
  | _ => simpa using (Except.ok.inj hb).symm

/-! ## The literals that chains end in -/

/-- The members that the interface of a declared name lists, as they are written at the end of its
definition chain. -/
inductive Lists (T : Table) : String → List Member → Prop
  | literal {c : String} {td : TypeDecl} {ms : List Member} (declared : T.type? c = some td)
      (source : td.source = .interface ms) : Lists T c ms
  | chain {c d : String} {td : TypeDecl} {args : List Ty} {ms : List Member}
      (declared : T.type? c = some td) (source : td.source = .named d args) (next : Lists T d ms) :
      Lists T c ms

namespace Lists

variable {c d : String} {ms : List Member}

theorem declared (h : T.Lists c ms) : (T.type? c).isSome := by
  cases h with
  | literal declared _ => simp [declared]
  | chain declared _ _ => simp [declared]

/-- The members are those of a declared source. -/
theorem exists_source (h : T.Lists c ms) :
    ∃ d td, T.type? d = some td ∧ td.source = .interface ms := by
  induction h with
  | literal declared source => exact ⟨_, _, declared, source⟩
  | chain _ _ _ ih => exact ih

theorem unique {ms' : List Member} (h : T.Lists c ms) (h' : T.Lists c ms') : ms = ms' := by
  induction h with
  | literal declared source =>
    cases h' with
    | literal declared' source' =>
      obtain rfl := Option.some.inj (declared.symm.trans declared')
      exact Ty.interface.inj (source.symm.trans source')
    | chain declared' source' =>
      obtain rfl := Option.some.inj (declared.symm.trans declared')
      cases source.symm.trans source'
  | chain declared source _ ih =>
    cases h' with
    | literal declared' source' =>
      obtain rfl := Option.some.inj (declared.symm.trans declared')
      cases source.symm.trans source'
    | chain declared' source' next =>
      obtain rfl := Option.some.inj (declared.symm.trans declared')
      obtain ⟨rfl, -⟩ := Ty.named.inj (source.symm.trans source')
      exact ih next

/-- What an interface embeds ranks lower than its name. -/
theorem rank_lt {rank : String → Nat} (hr : T.Ranking rank) (h : T.Lists c ms) {ds : List Ty}
    (hm : .embed d ds ∈ ms) (hd : (T.type? d).isSome) : rank d < rank c := by
  induction h with
  | literal declared source =>
    refine hr.lt _ _ d declared ?_ hd
    rw [source]
    exact List.mem_filterMap.2 ⟨_, hm, rfl⟩
  | chain declared source next ih =>
    have hlt := hr.lt _ _ _ declared (by rw [source]; exact List.mem_singleton_self _) next.declared
    exact Nat.lt_trans (ih hm) hlt

end Lists

/-- An interface at the end of a chain is the one that its name lists, at some arguments. -/
theorem HasSources.lists_of_resolves (h : T.HasSources) {c : String} {args : List Ty}
    {ms : List Member} (hv : T.Resolves (.named c args) (.interface ms)) :
    ∃ ms' η, T.Lists c ms' ∧ ms = ms'.map (Member.subst η) := by
  generalize ht : Ty.named c args = t at hv
  generalize hu : Ty.interface ms = v at hv
  induction hv generalizing c args with
  | stop unnamed => exact (ht ▸ unnamed : Ty.Unnamed (.named c args)).elim
  | step head rest ih =>
    obtain ⟨rfl, rfl⟩ := Ty.named.inj ht
    obtain ⟨td, htd, -, rfl⟩ := underlying_eq_ok.1 head
    have hform := h _ td htd
    subst hu
    cases hs : td.source with
    | named d ds =>
      obtain ⟨ms', η, hlists, he⟩ := ih (by rw [hs, Ty.subst_named]) rfl
      exact ⟨ms', η, .chain htd hs hlists, he⟩
    | struct fs =>
      rw [hs, Ty.subst_struct] at rest
      cases rest
    | interface ms' =>
      rw [hs, Ty.subst_interface] at rest
      cases rest
      exact ⟨ms', _, .literal htd hs, rfl⟩
    | _ => simp [hs, Ty.isSource] at hform

theorem exists_of_embed_mem_map {ms : List Member} {η : Env Ty} {c : String} {args : List Ty}
    (h : .embed c args ∈ ms.map (Member.subst η)) :
    ∃ as, .embed c as ∈ ms ∧ args = as.map (Ty.subst η) := by
  obtain ⟨m, hm, he⟩ := List.mem_map.1 h
  cases m with
  | method s => cases he
  | embed d as =>
    obtain ⟨rfl, rfl⟩ := Member.embed.inj he
    exact ⟨as, hm, rfl⟩

/-! ## Types that unfold -/

/-- The head of a type unfolds: a name is declared and given as many arguments as it takes, and so is
every name that an interface embeds, which is the name of an interface again. -/
def Headed (T : Table) : Ty → Prop
  | .named c args => ∃ td, T.type? c = some td ∧ td.formals.length = args.length
  | .interface ms => ∀ c args, .embed c args ∈ ms →
      T.NamesInterface c ∧ ∃ td, T.type? c = some td ∧ td.formals.length = args.length
  | _ => True

/-- Declarations without cycles whose sources unfold, whatever their formals are called. -/
structure Shaped (T : Table) (rank : String → Nat) : Prop where
  ranking : T.Ranking rank
  sources : T.HasSources
  headed : ∀ c td, T.type? c = some td → T.Headed td.source

theorem Headed.embedded {ms : List Member} (h : T.Headed (.interface ms)) {c : String}
    {args : List Ty} (hm : .embed c args ∈ ms) : T.NamesInterface c ∧ T.Headed (.named c args) :=
  h c args hm

/-- Substitution keeps the head of a source. -/
theorem Headed.subst {t : Ty} (h : T.Headed t) (hs : t.isSource = true) (η : Env Ty) :
    T.Headed (t.subst η) := by
  cases t with
  | named c args =>
    rw [Ty.subst_named]
    simpa [Headed] using h
  | struct fs =>
    rw [Ty.subst_struct]
    trivial
  | interface ms =>
    rw [Ty.subst_interface]
    intro c args hm
    obtain ⟨as, hm', rfl⟩ := exists_of_embed_mem_map hm
    simpa using h c as hm'
  | _ => cases hs

theorem headed_of_scoped {strict apart : Bool} {scope stems : List String} {t : Ty}
    (ht : t.Scoped (T.vocabulary strict) apart scope stems) : T.Headed t := by
  cases ht with
  | named head _ => exact head
  | interface sound _ => exact fun c args hm => sound _ hm
  | _ => trivial

namespace Shaped

variable {rank : String → Nat}

theorem headed_of_resolves (h : T.Shaped rank) {t v : Ty} (ht : T.Headed t) (hv : T.Resolves t v) :
    T.Headed v := by
  induction hv with
  | stop => exact ht
  | step head _ ih =>
    obtain ⟨td, htd, -, rfl⟩ := underlying_eq_ok.1 head
    exact ih ((h.headed _ td htd).subst (h.sources _ td htd) _)

/-- The definition chain of a name that takes its arguments ends. -/
theorem resolveIn_total (h : T.Shaped rank) {n : Nat} {t : Ty} (ht : T.Headed t)
    (hn : ∀ c args, t = .named c args → rank c < n) : ∃ v, T.resolveIn n t = .ok v := by
  induction n generalizing t with
  | zero =>
    cases t with
    | named c args => exact absurd (hn c args rfl) (Nat.not_lt_zero _)
    | _ => exact ⟨_, rfl⟩
  | succ n ih =>
    cases t with
    | named c args =>
      obtain ⟨td, htd, hl⟩ := ht
      have hform := h.sources c td htd
      have hheaded := h.headed c td htd
      obtain ⟨v, hv⟩ := ih (hheaded.subst hform (instantiation td.formals args))
        fun c' args' he => by
          cases hs : td.source with
          | named d ds =>
            rw [hs, Ty.subst_named] at he
            obtain ⟨rfl, -⟩ := Ty.named.inj he
            rw [hs] at hheaded
            obtain ⟨td', htd', -⟩ := hheaded
            have hlt := h.ranking.lt c td d htd (by simp [hs, Ty.unfoldsTo]) (by simp [htd'])
            have := hn c args rfl
            omega
          | struct fs => simp [hs] at he
          | interface ms => simp [hs] at he
          | _ => simp [hs, Ty.isSource] at hform
      exact ⟨v, except_bind_eq_ok.2 ⟨_, underlying_eq_ok.2 ⟨td, htd, hl, rfl⟩, hv⟩⟩
    | _ => exact ⟨_, rfl⟩

theorem resolve_total (h : T.Shaped rank) {t : Ty} (ht : T.Headed t) : ∃ v, T.resolve t = .ok v :=
  h.resolveIn_total ht fun c _ _ => Nat.lt_succ_of_le (h.ranking.le c)

end Shaped

namespace Lawful

variable {strict : Bool} {rank : String → Nat}

theorem hasSources (h : T.Lawful strict rank) : T.HasSources :=
  fun c td htd => (h.types c td htd).isSource

theorem shaped (h : T.Lawful strict rank) : T.Shaped rank where
  ranking := h.ranking
  sources := h.hasSources
  headed c td htd := headed_of_scoped (h.types c td htd).source.inner

/-- A chain ends in an interface if its name says so. -/
theorem resolves_interface_iff (h : T.Lawful strict rank) {c : String} {args : List Ty} {v : Ty}
    (hv : T.Resolves (.named c args) v) : (∃ ms, v = .interface ms) ↔ T.NamesInterface c :=
  h.hasSources.resolves_interface_iff hv

theorem resolve_total (h : T.Lawful strict rank) {t : Ty} {scope : List String}
    (ht : t.Scoped (T.vocabulary strict) false scope []) : ∃ v, T.resolve t = .ok v :=
  h.shaped.resolve_total (headed_of_scoped ht)

theorem resolve_iff (h : T.Lawful strict rank) {t v : Ty} {scope : List String}
    (ht : t.Scoped (T.vocabulary strict) false scope []) : T.resolve t = .ok v ↔ T.Resolves t v := by
  refine ⟨resolves_of_resolve, fun hv => ?_⟩
  obtain ⟨w, hw⟩ := h.resolve_total ht
  rw [hw, hv.unique (resolves_of_resolve hw)]

/-- What an open chain ends in is open. -/
theorem open_of_resolves (h : T.Lawful strict rank) {t v : Ty} {scope : List String}
    {ρ : String → Ty} (hρ : Sealing (T.vocabulary strict) scope ρ)
    (ht : t.Open (T.vocabulary strict) ρ scope) (hv : T.Resolves t v) :
    v.Open (T.vocabulary strict) ρ scope := by
  induction hv with
  | stop => exact ht
  | step head _ ih =>
    obtain ⟨td, htd, hl, rfl⟩ := underlying_eq_ok.1 head
    have hlawful := h.types _ td htd
    exact ih (hlawful.source.open_subst hlawful.formals hl hρ ht.args)

/-- Definition chains commute with closing, past type parameters. -/
theorem resolves_close (h : T.Lawful strict rank) {t v : Ty} {scope : List String}
    {ρ : String → Ty} (hρ : Sealing (T.vocabulary strict) scope ρ)
    (ht : t.Scoped (T.vocabulary strict) false scope []) (hv : T.Resolves t v)
    (hn : t.isNamed = true) : T.Resolves (t.close ρ) (v.close ρ) := by
  induction hv with
  | stop unnamed =>
    cases ht with
    | named => exact unnamed.elim
    | _ => simp [Ty.isNamed, Ty.head?] at hn
  | @step c args u v head rest ih =>
    obtain ⟨td, htd, hl, rfl⟩ := underlying_eq_ok.1 head
    cases ht with
    | named _ inner =>
      have hlawful := h.types _ td htd
      have hclose := hlawful.source.close_subst hlawful.formals hl hρ inner
      rw [Ty.close_named]
      refine .step (underlying_eq_ok.2 ⟨td, htd, by simpa using hl, rfl⟩) ?_
      rw [← hclose]
      have hform := hlawful.isSource
      cases hs : td.source with
      | named d ds =>
        exact hs ▸ ih (hlawful.source.scoped_subst hl inner) (by simp [hs, Ty.isNamed, Ty.head?])
      | struct fs =>
        rw [hs, Ty.subst_struct] at rest
        cases rest
        rw [Ty.subst_struct, Ty.close_struct]
        exact .stop trivial
      | interface ms =>
        rw [hs, Ty.subst_interface] at rest
        cases rest
        rw [Ty.subst_interface, Ty.close_interface]
        exact .stop trivial
      | _ => simp [hs, Ty.isSource] at hform

end Lawful

namespace WellFormed

variable {strict : Bool} {rank : String → Nat}

/-- What a chain ends in fits where its start fits. -/
theorem fit_of_resolves (h : T.WellFormed strict rank) {t v : Ty} {scope : List String}
    (ht : t.Fit (T.vocabulary strict) scope []) (hv : T.Resolves t v) :
    v.Fit (T.vocabulary strict) scope [] := by
  induction hv with
  | stop => exact ht
  | step head _ ih =>
    obtain ⟨td, htd, hl, rfl⟩ := underlying_eq_ok.1 head
    cases ht with
    | named _ flat fit => exact ih ((h.types _ td htd).source.fit_subst hl flat fit)

/-- What a closed chain ends in is closed. -/
theorem closed_of_resolves (h : T.WellFormed strict rank) {t v : Ty}
    (ht : t.Closed (T.vocabulary strict)) (hv : T.Resolves t v) :
    v.Closed (T.vocabulary strict) := by
  induction hv with
  | stop => exact ht
  | step head _ ih =>
    obtain ⟨td, htd, hl, rfl⟩ := underlying_eq_ok.1 head
    exact ih ((h.types _ td htd).source.closed_subst hl ht.args)

end WellFormed

end Table

end FeatherGo
