import FeatherGo.Command.Digest
import FeatherGo.Proofs.Discovery.Coverage
import FeatherGo.Proofs.Discovery.Names
import FeatherGo.Proofs.Ground.Sets
import FeatherGo.Proofs.Ground.Texts

/-!
# The implements relation between ground types

A ground interface asks for one placeholder for each method and for the images of the calls that were
discovered. The placeholders keep out what the interface kept out; the images are there because a call
on an interface was discovered on all that implements it. So one instance implements another just if
its ground form does (`implements_groundProgram`).
-/

namespace FeatherGo.Ground

/-! ## Signatures -/

/-- Signatures without formals agree where names and types do. -/
theorem alphaEq_of_types {x y : Signature} (hx : x.formals = []) (hy : y.formals = [])
    (hname : x.name = y.name) (hparams : x.params.map (·.ty) = y.params.map (·.ty))
    (hresult : x.result = y.result) : x.alphaEq y = true := by
  have htypes : x.types = y.types := by
    rw [Signature.types, Signature.types, hx, hy, hparams, hresult]
  refine Signature.alphaEq_iff.2 ⟨hname, by rw [hx, hy],
    by simpa using congrArg List.length hparams, ?_⟩
  rw [Signature.types_canonical, Signature.types_canonical, htypes, Signature.formalNames,
    Signature.formalNames, hx, hy]

theorem of_imageSignature [Digest] {top name : String} {params : List Slot} {result : Ty} {x : Signature}
    (h : imageSignature top name params result = .ok x) : x.name = name ∧ x.formals = []
      ∧ imageSlots top params = .ok x.params ∧ imageTy top result = .ok x.result := by
  obtain ⟨params', hparams, h⟩ := except_bind_eq_ok.1 h
  obtain ⟨result', hresult, h⟩ := except_bind_eq_ok.1 h
  obtain rfl := Except.ok.inj h
  exact ⟨rfl, rfl, hparams, hresult⟩

/-! ## What names tell -/

/-- The name of the ground form of an instance of a declared type. -/
def groundName? : Ty → Option String
  | .named c args => some (typeName c args)
  | _ => none

/-- Ground names tell instances apart: those of declared types, and those of methods on one type. -/
structure NamedApart (F : Instances) : Prop where
  types : ∀ t ∈ F.types, ∀ u ∈ F.types, t.isNamed = true → groundName? t = groundName? u → t = u
  meths : ∀ m ∈ F.meths, ∀ m' ∈ F.meths, m.recv = m'.recv →
    methodName m.meth m.targs = methodName m'.meth m'.targs → m = m'

instance (F : Instances) : Decidable (NamedApart F) :=
  decidable_of_iff (_ ∧ _) ⟨fun h => ⟨h.1, h.2⟩, fun h => ⟨h.types, h.meths⟩⟩

section

variable [Digest]

/-- Placeholders tell apart what some types offer, unless it agrees. -/
def PlaceholdersApart (T : Table) (ts : List Ty) : Prop :=
  ∀ t ∈ ts, ∀ u ∈ ts, ∀ n S W, T.methods [] n t = .ok S → T.methods [] n u = .ok W →
    ∀ o ∈ S, ∀ s ∈ W, placeholderName o = placeholderName s → o.alphaEq s = true

theorem PlaceholdersApart.alphaEq {T : Table} {ts : List Ty} (h : PlaceholdersApart T ts) {t u : Ty}
    (ht : t ∈ ts) (hu : u ∈ ts) {S W : MethodSet} (hS : T.allMethods [] t = .ok S)
    (hW : T.allMethods [] u = .ok W) {o s : Signature} (ho : o ∈ S) (hs : s ∈ W)
    (he : placeholderName o = placeholderName s) : o.alphaEq s = true := by
  obtain ⟨n, hn⟩ := (Finitary.find t).eventually hS
  obtain ⟨k, hk⟩ := (Finitary.find u).eventually hW
  exact h t ht u hu (max n k) S W (hn _ (Nat.le_max_left ..)) (hk _ (Nat.le_max_right ..)) o ho s hs
    he

/-- Whether placeholders tell apart what some types offer, where an amount of fuel is enough to find
what they offer. -/
def placeholdersTell (T : Table) (n : Nat) (ts : List Ty) : Bool :=
  ts.all fun t => ts.all fun u =>
    match T.methods [] n t, T.methods [] n u with
    | .ok S, .ok W =>
      S.all fun o => W.all fun s => placeholderName o != placeholderName s || o.alphaEq s
    | _, _ => false

theorem placeholdersApart_of_tell {T : Table} {n : Nat} {ts : List Ty}
    (h : placeholdersTell T n ts = true) : PlaceholdersApart T ts := by
  intro t ht u hu k S W hS hW o ho s hs he
  have h := List.all_eq_true.1 (List.all_eq_true.1 h t ht) u hu
  split at h
  · rename_i S' W' hS' hW'
    -- Another amount of fuel at which the method sets are found finds the same.
    have hsame {t : Ty} {S S' : MethodSet} (hS : T.methods [] k t = .ok S)
        (hS' : T.methods [] n t = .ok S') : S = S' :=
      Answer.ok.inj ((Table.allMethods_of_methods hS).symm.trans (Table.allMethods_of_methods hS'))
    rw [← hsame hS hS', ← hsame hW hW'] at h
    have h := List.all_eq_true.1 (List.all_eq_true.1 h o ho) s hs
    simpa [he] using h
  · cases h

end

namespace Grounding

variable [Digest] {G : Grounding} {T' : Table} {N : String → Prop}

/-- The images of signatures that agree, at the same type arguments, agree. -/
theorem IsImage.alphaEq {t u : Ty} {o s x y : Signature} {m m' : MethodInstance}
    (hx : G.IsImage t o m x) (hy : G.IsImage u s m' y) (htargs : m.targs = m'.targs)
    (hground : ∀ t ∈ m'.targs, t.isGround = true) (ho : o.Uncanonical) (hs : s.Uncanonical)
    (h : o.alphaEq s = true) : x.alphaEq y = true := by
  obtain ⟨hname, hformals, hparams, -⟩ := Signature.alphaEq_iff.1 h
  have hl : s.formals.length = m'.targs.length := (mem_instancesOf.1 hy.mem).2.2.2.symm
  obtain ⟨-, htypes, hresult⟩ :=
    Signature.parts_eq hformals hparams (Signature.at_eq_of_alphaEq ho hs h hl hground)
  have hximage := hx.image
  rw [htargs] at hximage
  obtain ⟨hxname, hxformals, hxparams, hxresult⟩ := of_imageSignature hximage
  obtain ⟨hyname, hyformals, hyparams, hyresult⟩ := of_imageSignature hy.image
  refine alphaEq_of_types hxformals hyformals (by rw [hxname, hyname, hname])
    (imageSlots_types hxparams hyparams ?_) ?_
  · simpa [Slot.map, Function.comp_def] using htypes
  · rw [hresult] at hxresult
    exact Except.ok.inj (hxresult.symm.trans hyresult)

/-! ## Exactness -/

/-- What exactness rests on: names of instances are apart, the instances are ground and hold what
they demand, and what they offer has names of the kind and mentions no canonical names. -/
structure Regular (G : Grounding) (N : String → Prop) : Prop where
  apart : G.Apart N
  unique : G.table.MethodsUnique
  saturated : G.table.Saturated G.instances.sets
  types : ∀ t ∈ G.instances.types, t.isGround = true
  meths : ∀ m ∈ G.instances.meths, ∀ t ∈ m.targs, t.isGround = true
  offered : ∀ t ∈ G.instances.types, t.isNamed = true → ∀ S, G.table.allMethods [] t = .ok S →
    ∀ s ∈ S, N s.name ∧ s.Uncanonical

theorem Regular.exists_sets (hG : G.Regular N) (hT : G.Declared T') {c : String} {args : List Ty}
    (h : .named c args ∈ G.instances.types) : ∃ S S', G.Sets T' c args S S' := by
  refine hT.exists_sets hG.apart hG.saturated hG.unique hG.meths (fun t ht => ?_) h
    fun S hS s hs => (hG.offered _ h rfl S hS s hs).1
  exact Ty.isGround_named.1 (hG.types _ h) t ht

section Covers

variable {c d : String} {args ds : List Ty} {S S' W W' : MethodSet}
  (hG : G.Regular N) (hu : .named c args ∈ G.instances.types)
  (hv : .named d ds ∈ G.instances.types) (hS : G.Sets T' c args S S') (hW : G.Sets T' d ds W W')

include hG hu hv hS hW

/-- What implements an interface has a ground form that implements its ground form: calls on the
interface were discovered on it. -/
theorem Sets.covers (hi : G.table.isInterface (.named d ds) = .ok true) (h : S.Covers W) :
    S'.Covers W' := by
  have hsorted := Table.sorted_allMethods hS.ground
  have himplements : G.table.implementsBy (G.table.allMethods []) (.named c args) (.named d ds)
      = .ok true := by
    rw [Table.implementsBy_interface (by simp) hi hW.generic hS.generic,
      MethodSet.covers_iff.2 h]
  obtain ⟨n, hn⟩ := (Table.finitary_implementsBy _ _ _).eventually himplements
  intro y hy
  cases (hW.mem y).1 hy with
  | @placeholder s hs =>
    obtain ⟨o, ho, heq⟩ := h s hs
    have hmem := (hS.mem _).2 (.placeholder (MethodSet.mem_of_find? ho).1)
    have hsame : placeholder G.top o = placeholder G.top s := by
      rw [placeholder, placeholder, placeholderName_eq_of_alphaEq heq]
    rw [hsame] at hmem
    exact ⟨_, MethodSet.find?_of_mem hsorted hmem, Signature.alphaEq_refl _⟩
  | @image s m y hs hi' =>
    obtain ⟨o, ho, heq⟩ := h s hs
    obtain ⟨ho, hname⟩ := MethodSet.mem_of_find? ho
    obtain ⟨hm, hrecv, hmeth, hl⟩ := mem_instancesOf.1 hi'.mem
    have hcall : (⟨.named c args, m.meth, m.targs⟩ : MethodInstance) ∈ G.instances.meths :=
      hG.saturated.implementers m _ n hm (hrecv ▸ hi) hu rfl (hrecv ▸ hn n le_rfl)
    obtain ⟨-, hformals, -⟩ := Signature.alphaEq_iff.1 heq
    obtain ⟨x, hx⟩ := hS.images o ho _
      (mem_instancesOf.2 ⟨hcall, rfl, hmeth.trans hname.symm, hl.trans hformals.symm⟩)
    have hxy := hx.alphaEq hi' rfl (hG.meths m hm) (hG.offered _ hu rfl S hS.generic o ho).2
      (hG.offered _ hv rfl W hW.generic s hs).2 heq
    refine ⟨x, ?_, hxy⟩
    rw [← (Signature.alphaEq_iff.1 hxy).1]
    exact MethodSet.find?_of_mem hsorted ((hS.mem x).2 (.image ho hx))

/-- What has a ground form that implements the ground form of an interface implements the interface:
it has the placeholders. -/
theorem Sets.covers_of_ground (hP : PlaceholdersApart G.table G.instances.types)
    (h : S'.Covers W') : S.Covers W := by
  intro s hs
  obtain ⟨x, hx, heq⟩ := h _ ((hW.mem _).2 (.placeholder hs))
  obtain ⟨hx, hname⟩ := MethodSet.mem_of_find? hx
  cases (hS.mem x).1 hx with
  | @placeholder o ho =>
    have hos := hP.alphaEq hu hv hS.generic hW.generic ho hs hname
    refine ⟨o, ?_, hos⟩
    rw [← (Signature.alphaEq_iff.1 hos).1]
    exact MethodSet.find?_of_mem (Table.sorted_allMethods hS.generic) ho
  | @image o m x ho hi =>
    exact absurd hname (hi.name_ne hG.apart (hG.offered _ hu rfl S hS.generic o ho).1 s)

end Covers

/-- **One instance implements another just if its ground form does.** -/
theorem Regular.implements (hG : G.Regular N) (hT : G.Declared T')
    (hP : PlaceholdersApart G.table G.instances.types) {c d : String} {args ds : List Ty}
    (hu : .named c args ∈ G.instances.types)
    (hv : .named d ds ∈ G.instances.types) :
    ∃ b, G.table.implementsBy (G.table.allMethods []) (.named c args) (.named d ds) = .ok b
      ∧ T'.implementsBy (T'.allMethods []) (.named (typeName c args) []) (.named (typeName d ds) [])
        = .ok b := by
  obtain ⟨b, hi, hi'⟩ := hT.isInterface hG.saturated hv
  cases b with
  | true =>
    obtain ⟨S, S', hS⟩ := hG.exists_sets hT hu
    obtain ⟨W, W', hW⟩ := hG.exists_sets hT hv
    refine ⟨_, Table.implementsBy_interface (by simp) hi hW.generic hS.generic, ?_⟩
    rw [Table.implementsBy_interface (by simp) hi' hW.ground hS.ground]
    refine congrArg _ (Bool.eq_iff_iff.2 ?_)
    rw [MethodSet.covers_iff, MethodSet.covers_iff]
    exact ⟨Sets.covers_of_ground hG hu hv hS hW hP, Sets.covers hG hu hv hS hW hi⟩
  | false =>
    refine ⟨_, Table.implementsBy_concrete (by simp) hi, ?_⟩
    rw [Table.implementsBy_concrete (by simp) hi']
    refine congrArg _ (decide_eq_decide.2 ⟨fun he => ?_, fun he => ?_⟩)
    · exact hG.apart.types _ _ _ _ hu hv (Ty.named.inj he).1
    · obtain ⟨rfl, rfl⟩ := Ty.named.inj he
      rfl

end Grounding

/-! ## Ground programs -/

/-- Names without the mark of placeholders; type parameters besides are no canonical names. -/
def unmarked : Lexicon where
  name := Unmarked
  param a := Unmarked a ∧ ∀ i, a ≠ Signature.canonicalName i

theorem canonicalName_ne_prime (a : String) (i : Nat) : a ++ "'" ≠ Signature.canonicalName i := by
  intro he
  have hmem : '\'' ∈ (Signature.canonicalName i).toList := by
    rw [← he]
    simp
  rw [Signature.toList_canonicalName, List.mem_cons] at hmem
  rcases hmem with h | h
  · exact absurd h (by decide)
  · exact absurd (Nat.isDigit_of_mem_toDigits (by decide) (by decide) h) (by decide)

theorem primes_unmarked : unmarked.Primes :=
  fun a ha => ⟨ha.1.append (by decide), canonicalName_ne_prime a⟩

/-- The instances of a checked program are regular where none of its type parameters has a canonical
name and ground names tell the instances apart. -/
theorem regular_of_over {C : Checker} {p q : Program} {t : Ty} {T : Table} {L : Lexicon}
    (h : ProgramCheck C p t q T) (hp : p.Over L) (hL : L.Primes)
    (hparam : ∀ a, L.param a → ∀ i, a ≠ Signature.canonicalName i) {fuel : Nat} {limit : Option Nat}
    {F : Instances} (hF : discover fuel T q.main limit = .ok F) {N : String → Prop}
    (hN : ∀ a, N a → Unmarked a) (hmethods : ∀ md ∈ T.methodDecls, N md.sig.name)
    (hoffered : ∀ t ∈ F.types, t.isNamed = true → ∀ n S, T.methods [] n t = .ok S →
      ∀ s ∈ S, N s.name)
    (htargs : ∀ m ∈ F.meths, ∀ t ∈ m.targs, Unmarked t.render)
    (htypes : ∀ c args c' args', .named c args ∈ F.types → .named c' args' ∈ F.types →
      typeName c args = typeName c' args' → Ty.named c args = .named c' args')
    (hmeths : ∀ m ∈ F.meths, ∀ m' ∈ F.meths, N m.meth → N m'.meth → m.recv = m'.recv →
      methodName m.meth m.targs = methodName m'.meth m'.targs → m = m') :
    Grounding.Regular ⟨T, F, fuel, topFor T⟩ N := by
  obtain ⟨hover, hwithin⟩ := h.over_of_discover hp hL hF
  refine ⟨⟨htypes, hmeths, hmethods, hN, htargs, Table.namesNodup_of_ofDecls h.checked,
    hwithin.typesNodup, hwithin.methsNodup, rfl⟩, (Table.ofDecls_eq_ok h.checked).2.2,
    (Closure.of_discover hF).2.saturated, hwithin.typesGround,
    fun m hm t ht => hwithin.methsGround m hm t (List.mem_cons_of_mem _ ht),
    fun t ht hnamed S hS s hs => ?_⟩
  obtain ⟨n, hn⟩ := (Finitary.find t).eventually hS
  have hS := hn n (Nat.le_refl n)
  exact ⟨hoffered t ht hnamed n S hS s hs,
    ((h.over_table hp).of_methods hL (hover.types t ht) hS s hs).uncanonical hparam⟩

/-- The instances of a checked program over unmarked names are regular. -/
theorem regular_of_discover {C : Checker} {p q : Program} {t : Ty} {T : Table}
    (h : ProgramCheck C p t q T) (hp : p.Over unmarked) {fuel : Nat} {limit : Option Nat}
    {F : Instances} (hF : discover fuel T q.main limit = .ok F) (hapart : NamedApart F) :
    Grounding.Regular ⟨T, F, fuel, topFor T⟩ Unmarked := by
  obtain ⟨hover, -⟩ := h.over_of_discover hp primes_unmarked hF
  have hT := h.over_table hp
  refine regular_of_over h hp primes_unmarked (fun _ ha => ha.2) hF (fun _ ha => ha)
    (fun md hmd => (hT.signatures md hmd).labels _ List.mem_cons_self)
    (fun t ht _ n S hS s hs => ?_) (fun m hm t ht => ?_)
    (fun c args c' args' hmem hmem' he => hapart.types _ hmem _ hmem' rfl (congrArg some he))
    fun m hm m' hm' _ _ => hapart.meths m hm m' hm'
  · exact (hT.of_methods primes_unmarked (hover.types t ht) hS s hs).labels _ List.mem_cons_self
  · exact unmarked_render (L := unmarked) (fun _ ha => ha) (fun _ ha => ha.1)
      ((hover.meths m hm).targs t ht).1

/-- What a ground program is made from. -/
theorem of_groundProgram [Digest] {fuel : Nat} {config : Config} {p q checked : Program} {t : Ty} {T : Table}
    {F : Instances} (hcheck : checkProgram fuel false p = .ok (t, checked))
    (hT : Table.ofDecls checked.decls = .ok T)
    (hF : discover fuel T checked.main config.maxPasses = .ok F)
    (hq : groundProgram fuel config p = .ok q) :
    Grounding.program ⟨T, F, fuel, topFor T⟩ checked.main checked.printf = .ok q := by
  rw [groundProgram, hcheck] at hq
  simp only [Answer.mapError_ok, Answer.ok_bind, hT, Answer.ofExcept_ok, hF] at hq
  split at hq
  · obtain ⟨-, -, hq⟩ := Answer.bind_eq_ok.1 hq
    exact hq
  · exact hq

/-- **Placeholders make ground subtyping exact.** Let `F` be the instances of an accepted program `p`
whose names hold no mark of placeholders, and let ground names tell them apart, and placeholders the
signatures that they offer. Then the declarations of the ground program make a table, and of two
declared types among the instances one implements the other just if its ground form implements that of
the other. -/
theorem implements_groundProgram [Digest] {fuel : Nat} {config : Config} {p q checked : Program} {t : Ty}
    {T : Table} {F : Instances} (hnames : ∀ a ∈ p.typeFormals, OrdinaryName a)
    (hmarks : ∀ a ∈ p.typeFormals ++ p.labels, Unmarked a)
    (hcheck : checkProgram fuel false p = .ok (t, checked))
    (hT : Table.ofDecls checked.decls = .ok T)
    (hF : discover fuel T checked.main config.maxPasses = .ok F)
    (hq : groundProgram fuel config p = .ok q) (hapart : NamedApart F)
    (hplaceholders : PlaceholdersApart T F.types) :
    ∃ T', Table.ofDecls q.decls = .ok T' ∧ ∀ u ∈ F.types, ∀ v ∈ F.types, u.isNamed = true →
      v.isNamed = true → ∃ u' v', imageTy (topFor T) u = .ok u' ∧ imageTy (topFor T) v = .ok v'
        ∧ ∃ b n, ∀ m ≥ n, T.implements m [] u v = .ok b ∧ T'.implements m [] u' v' = .ok b := by
  obtain ⟨T₀, T₁, hp⟩ := exists_programCheck hcheck
  obtain rfl := Except.ok.inj (hp.checked.symm.trans hT)
  have hover : p.Over unmarked :=
    ⟨fun a ha => hmarks a (List.mem_append_right _ ha),
      fun a ha => ⟨hmarks a (List.mem_append_left _ ha), (hnames a ha).2⟩⟩
  have hG := regular_of_discover hp hover hF hapart
  obtain ⟨T', hT', hdeclared, -⟩ := Grounding.declared_of_program hG.apart (of_groundProgram hcheck hT hF hq)
  refine ⟨T', hT', fun u hu v hv hun hvn => ?_⟩
  cases u with
  | named c args =>
    cases v with
    | named d ds =>
      obtain ⟨b, hb, hb'⟩ := hG.implements hdeclared hplaceholders hu hv
      obtain ⟨n, hn⟩ := (Table.finitary_implementsBy _ _ _).eventually hb
      obtain ⟨k, hk⟩ := (Table.finitary_implementsBy _ _ _).eventually hb'
      refine ⟨_, _, by rw [imageTy, if_pos (hG.types _ hu)], by rw [imageTy, if_pos (hG.types _ hv)],
        b, max n k, fun m hm => ⟨hn m ?_, hk m ?_⟩⟩
      · exact (Nat.le_max_left ..).trans hm
      · exact (Nat.le_max_right ..).trans hm
    | _ => cases hvn
  | _ => cases hun

/-- A program that discovery and translation get through, with names that stay apart. -/
theorem dispatchingProgram_grounds : ∃ t checked T F q,
    checkProgram 9 false dispatchingProgram = .ok (t, checked)
      ∧ Table.ofDecls checked.decls = .ok T ∧ discover 9 T checked.main none = .ok F
      ∧ groundProgram 9 .standard dispatchingProgram = .ok q ∧ NamedApart F
      ∧ PlaceholdersApart T F.types := by
  have hok : (checkProgram 9 false dispatchingProgram).any (fun r =>
      (Answer.ofExcept (Table.ofDecls r.2.decls)).any fun T =>
        (discover 9 T r.2.main none).any fun F =>
          decide (NamedApart F) && placeholdersTell T 9 F.types) = true := by decide +kernel
  have hground : (groundProgram 9 .standard dispatchingProgram).any (fun _ => true) = true := by
    decide +kernel
  obtain ⟨⟨t, checked⟩, hcheck, hok⟩ := Answer.any_eq_true.1 hok
  obtain ⟨T, hT, hok⟩ := Answer.any_eq_true.1 hok
  obtain ⟨F, hF, hok⟩ := Answer.any_eq_true.1 hok
  obtain ⟨hapart, htell⟩ := Bool.and_eq_true_iff.1 hok
  obtain ⟨q, hq, -⟩ := Answer.any_eq_true.1 hground
  exact ⟨t, checked, T, F, q, hcheck, Answer.ofExcept_eq_ok.1 hT, hF, hq, of_decide_eq_true hapart,
    placeholdersApart_of_tell htell⟩

theorem dispatchingProgram_implements :
    (∀ a ∈ dispatchingProgram.typeFormals, OrdinaryName a)
      ∧ (∀ a ∈ dispatchingProgram.typeFormals ++ dispatchingProgram.labels, Unmarked a)
      ∧ ∃ t checked T F q, checkProgram 9 false dispatchingProgram = .ok (t, checked)
        ∧ Table.ofDecls checked.decls = .ok T ∧ discover 9 T checked.main none = .ok F
        ∧ groundProgram 9 .standard dispatchingProgram = .ok q ∧ NamedApart F
        ∧ PlaceholdersApart T F.types ∧ ∃ T', Table.ofDecls q.decls = .ok T'
          ∧ ∀ u ∈ F.types, ∀ v ∈ F.types, u.isNamed = true → v.isNamed = true →
            ∃ u' v', imageTy (topFor T) u = .ok u' ∧ imageTy (topFor T) v = .ok v'
              ∧ ∃ b n, ∀ m ≥ n, T.implements m [] u v = .ok b ∧ T'.implements m [] u' v' = .ok b := by
  have hmarks : ∀ a ∈ dispatchingProgram.typeFormals ++ dispatchingProgram.labels, Unmarked a := by
    decide +kernel
  have hnames := dispatchingProgram_plain.formals
  obtain ⟨t, checked, T, F, q, hcheck, hT, hF, hq, hapart, htell⟩ := dispatchingProgram_grounds
  exact ⟨hnames, hmarks, t, checked, T, F, q, hcheck, hT, hF, hq, hapart, htell,
    implements_groundProgram hnames hmarks hcheck hT hF hq hapart htell⟩

end FeatherGo.Ground
