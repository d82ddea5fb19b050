import FeatherGo.Ground.Program
import FeatherGo.Proofs.Declarations.Tables
import FeatherGo.Proofs.Ground.Images
import FeatherGo.Proofs.Methods.Instances

/-!
# What a ground program declares

Every instance of a declared type has a declaration, and every method that applies to an instance
which is no interface has a placeholder there and a method for each of its instances
(`Grounding.Declares`). Where the names of instances are apart (`Grounding.Apart`), no two of these
share their names, so the declarations make a table (`Grounding.declared_of_program`).
-/

namespace FeatherGo.Ground

namespace Grounding

variable [Digest] {G : Grounding}

/-! ## Methods of instances -/

/-- A declared method applies to receiver arguments. -/
def AppliesAt (G : Grounding) (args : List Ty) (md : MethodDecl) : Prop :=
  G.table.receiver G.fuel [] md.recvFormals args = .ok (some (instantiation md.recvFormals args))

/-- A ground method is that of a method at an instance. -/
structure IsInstance (G : Grounding) (c : String) (args : List Ty) (md : MethodDecl)
    (m : MethodInstance) (g : MethodDecl) : Prop where
  applies : G.AppliesAt args md
  mem : m ∈ G.instancesOf (.named c args) md.sig.name md.sig.formals
  recv : g.recv = md.recv
  recvType : g.recvType = typeName c args
  recvFormals : g.recvFormals = []
  sig : imageSignature G.top (methodName md.sig.name m.targs)
    (md.sig.params.map (Slot.map (Ty.subst (md.instantiation args m.targs))))
    (md.sig.result.subst (md.instantiation args m.targs)) = .ok g.sig
  body : imageExpr G.top (md.body.substTypes (md.instantiation args m.targs)) = .ok g.body

/-- The placeholder of a method at receiver arguments. -/
def placeholderAt (G : Grounding) (c : String) (args : List Ty) (md : MethodDecl) : MethodDecl :=
  G.placeholderDecl (typeName c args) (instantiation md.recvFormals args) md

/-- A ground method comes from a method on an instance of a declared type. -/
def Makes (G : Grounding) (c : String) (args : List Ty) (md g : MethodDecl) : Prop :=
  (G.AppliesAt args md ∧ g = G.placeholderAt c args md) ∨ ∃ m, G.IsInstance c args md m g

/-- Ground methods are those that the methods on some instances give, each under names of its
own. -/
structure Declares (G : Grounding) (P : String → List Ty → MethodDecl → Prop)
    (gs : List MethodDecl) : Prop where
  made : ∀ g ∈ gs, ∃ c args md, P c args md ∧ G.Makes c args md g
  placeholder : ∀ c args md, P c args md → G.AppliesAt args md → G.placeholderAt c args md ∈ gs
  instances : ∀ c args md m, P c args md → G.AppliesAt args md →
    m ∈ G.instancesOf (.named c args) md.sig.name md.sig.formals →
    ∃ g ∈ gs, G.IsInstance c args md m g
  keys : (gs.map MethodDecl.key).Nodup

/-- The names of instances are apart: those of types, and those of the methods on one type, where the
methods have names of some kind, as all declared methods have. None holds the mark of
placeholders. -/
structure Apart (G : Grounding) (N : String → Prop) : Prop where
  types : ∀ c args c' args', .named c args ∈ G.instances.types → .named c' args' ∈ G.instances.types →
    typeName c args = typeName c' args' → Ty.named c args = .named c' args'
  meths : ∀ m ∈ G.instances.meths, ∀ m' ∈ G.instances.meths, N m.meth → N m'.meth →
    m.recv = m'.recv → methodName m.meth m.targs = methodName m'.meth m'.targs → m = m'
  methods : ∀ md ∈ G.table.methodDecls, N md.sig.name
  unmarked : ∀ a, N a → Unmarked a
  targs : ∀ m ∈ G.instances.meths, ∀ t ∈ m.targs, Unmarked t.render
  names : G.table.NamesNodup
  typesNodup : G.instances.types.Nodup
  methsNodup : G.instances.meths.Nodup
  top : G.top = topFor G.table

omit [Digest] in
theorem mem_instancesOf {recv : Ty} {meth : String} {formals : List Slot} {m : MethodInstance} :
    m ∈ G.instancesOf recv meth formals ↔ m ∈ G.instances.meths ∧ m.recv = recv ∧ m.meth = meth
      ∧ m.targs.length = formals.length := by
  simp [instancesOf]

theorem name_imageSignature {top name : String} {params : List Slot} {result : Ty} {s : Signature}
    (h : imageSignature top name params result = .ok s) : s.name = name := by
  obtain ⟨params', -, h⟩ := except_bind_eq_ok.1 h
  obtain ⟨result', -, h⟩ := except_bind_eq_ok.1 h
  rw [← Except.ok.inj h]

theorem recvType_of_makes {c : String} {args : List Ty} {md g : MethodDecl}
    (h : G.Makes c args md g) : g.recvType = typeName c args := by
  rcases h with ⟨-, rfl⟩ | ⟨m, h⟩
  · rfl
  · exact h.recvType

theorem recvFormals_of_makes {c : String} {args : List Ty} {md g : MethodDecl}
    (h : G.Makes c args md g) : g.recvFormals = [] := by
  rcases h with ⟨-, rfl⟩ | ⟨m, h⟩
  · rfl
  · exact h.recvFormals

theorem IsInstance.name_eq {c : String} {args : List Ty} {md g : MethodDecl} {m : MethodInstance}
    (h : G.IsInstance c args md m g) : g.sig.name = methodName md.sig.name m.targs :=
  name_imageSignature h.sig

/-- The declarations of some instances of a method. -/
theorem instanceDecls_eq_ok {c : String} {args : List Ty} {md : MethodDecl}
    {ms : List MethodInstance} {ds : List Decl} (ha : G.AppliesAt args md)
    (hms : ∀ m ∈ ms, m ∈ G.instancesOf (.named c args) md.sig.name md.sig.formals)
    (h : G.instanceDecls (typeName c args) (instantiation md.recvFormals args) md ms = .ok ds) :
    ∃ gs, ds = gs.map .method ∧ List.Forall₂ (fun m g => G.IsInstance c args md m g) ms gs := by
  induction ms generalizing ds with
  | nil =>
    obtain rfl := Except.ok.inj h
    exact ⟨[], rfl, .nil⟩
  | cons m ms ih =>
    rw [List.forall_mem_cons] at hms
    obtain ⟨sig, hsig, h⟩ := except_bind_eq_ok.1 h
    obtain ⟨body, hbody, h⟩ := except_bind_eq_ok.1 h
    obtain ⟨rest, hrest, h⟩ := except_bind_eq_ok.1 h
    obtain rfl := Except.ok.inj h
    obtain ⟨gs, rfl, hgs⟩ := ih hms.2 hrest
    exact ⟨_ :: gs, rfl, .cons ⟨ha, hms.1, rfl, rfl, rfl, hsig, hbody⟩ hgs⟩

/-- Instances of one method are named apart. -/
theorem keys_of_instances {N : String → Prop} {c : String} {args : List Ty} {md : MethodDecl}
    (hG : G.Apart N) (hmd : md ∈ G.table.methodDecls) {ms : List MethodInstance}
    {gs : List MethodDecl} (hn : ms.Nodup)
    (h : List.Forall₂ (fun m g => G.IsInstance c args md m g) ms gs) :
    (gs.map MethodDecl.key).Nodup := by
  induction h with
  | nil => exact .nil
  | @cons m g ms gs hm hms ih =>
    obtain ⟨hnew, hn⟩ := List.nodup_cons.1 hn
    rw [List.map_cons, List.nodup_cons]
    refine ⟨fun hk => ?_, ih hn⟩
    obtain ⟨g', hg', hkey⟩ := List.mem_map.1 hk
    obtain ⟨m', hm', hi⟩ := exists_of_mem_forall₂ hms.flip hg'
    have hname : methodName md.sig.name m'.targs = methodName md.sig.name m.targs := by
      rw [← hi.name_eq, ← hm.name_eq]
      exact (Prod.mk.inj hkey).2
    obtain ⟨hmem, hrecv, hmeth, -⟩ := mem_instancesOf.1 hm.mem
    obtain ⟨hmem', hrecv', hmeth', -⟩ := mem_instancesOf.1 hi.mem
    have hN := hG.methods md hmd
    have he : m' = m := by
      refine hG.meths m' hmem' m hmem (hmeth'.symm ▸ hN) (hmeth.symm ▸ hN) (hrecv'.trans hrecv.symm) ?_
      rw [hmeth, hmeth', hname]
    exact hnew (he ▸ hm')

/-- The names of ground methods that come from methods of different names on one type. -/
theorem name_ne_of_makes {N : String → Prop} (hG : G.Apart N) {c : String} {args : List Ty}
    {md md' g g' : MethodDecl} (hmd : md ∈ G.table.methodDecls) (hmd' : md' ∈ G.table.methodDecls)
    (hne : md.sig.name ≠ md'.sig.name) (h : G.Makes c args md g) (h' : G.Makes c args md' g') :
    g.sig.name ≠ g'.sig.name := by
  have hN := hG.methods md hmd
  have hN' := hG.methods md' hmd'
  have hplaceholder {md : MethodDecl} (hmd : md ∈ G.table.methodDecls) :
      Unmarked (md.sig.subst (instantiation md.recvFormals args)).name := by
    rw [Signature.name_subst]
    exact hG.unmarked _ (hG.methods md hmd)
  have hinstance {md g : MethodDecl} {m : MethodInstance} (hi : G.IsInstance c args md m g)
      (hN : N md.sig.name) (s : Signature) : g.sig.name ≠ placeholderName s := by
    rw [hi.name_eq]
    exact methodName_ne_placeholderName (hG.unmarked _ hN)
      (hG.targs m (mem_instancesOf.1 hi.mem).1) s
  rcases h with ⟨-, rfl⟩ | ⟨m, h⟩
  · rcases h' with ⟨-, rfl⟩ | ⟨m', h'⟩
    · intro he
      have hnames := name_eq_of_placeholderName (hplaceholder hmd) (hplaceholder hmd') he
      rw [Signature.name_subst, Signature.name_subst] at hnames
      exact hne hnames
    · exact (hinstance h' hN' _).symm
  · rcases h' with ⟨-, rfl⟩ | ⟨m', h'⟩
    · exact hinstance h hN _
    · rw [h.name_eq, h'.name_eq]
      intro he
      obtain ⟨hmem, hrecv, hmeth, -⟩ := mem_instancesOf.1 h.mem
      obtain ⟨hmem', hrecv', hmeth', -⟩ := mem_instancesOf.1 h'.mem
      have hm : m = m' := by
        refine hG.meths m hmem m' hmem' (hmeth.symm ▸ hN) (hmeth'.symm ▸ hN')
          (hrecv.trans hrecv'.symm) ?_
        rw [hmeth, hmeth', he]
      rw [← hmeth, ← hmeth', hm] at hne
      exact hne rfl

namespace Declares

variable {P Q : String → List Ty → MethodDecl → Prop} {gs hs : List MethodDecl}

theorem nil : G.Declares (fun _ _ _ => False) [] :=
  ⟨fun _ hg => absurd hg List.not_mem_nil, fun _ _ _ hp => hp.elim, fun _ _ _ _ hp => hp.elim,
    .nil⟩

/-- Methods that do not apply give nothing. -/
theorem of_applies (h : G.Declares P gs) (hQ : ∀ c args md, P c args md → Q c args md)
    (ha : ∀ c args md, Q c args md → G.AppliesAt args md → P c args md) : G.Declares Q gs where
  made g hg := by
    obtain ⟨c, args, md, hp, hm⟩ := h.made g hg
    exact ⟨c, args, md, hQ c args md hp, hm⟩
  placeholder c args md hq happ := h.placeholder c args md (ha c args md hq happ) happ
  instances c args md m hq happ hm := h.instances c args md m (ha c args md hq happ) happ hm
  keys := h.keys

/-- Two lists of ground methods that come from methods of different names, or of different types. -/
theorem append (h : G.Declares P gs) (h' : G.Declares Q hs)
    (hapart : ∀ c args md g c' args' md' g', P c args md → G.Makes c args md g →
      Q c' args' md' → G.Makes c' args' md' g' → g.key ≠ g'.key) :
    G.Declares (fun c args md => P c args md ∨ Q c args md) (gs ++ hs) where
  made g hg := by
    rcases List.mem_append.1 hg with hg | hg
    · obtain ⟨c, args, md, hp, hm⟩ := h.made g hg
      exact ⟨c, args, md, .inl hp, hm⟩
    · obtain ⟨c, args, md, hp, hm⟩ := h'.made g hg
      exact ⟨c, args, md, .inr hp, hm⟩
  placeholder c args md hr ha := by
    rcases hr with hp | hp
    · exact List.mem_append_left _ (h.placeholder c args md hp ha)
    · exact List.mem_append_right _ (h'.placeholder c args md hp ha)
  instances c args md m hr ha hm := by
    rcases hr with hp | hp
    · obtain ⟨g, hg, hi⟩ := h.instances c args md m hp ha hm
      exact ⟨g, List.mem_append_left _ hg, hi⟩
    · obtain ⟨g, hg, hi⟩ := h'.instances c args md m hp ha hm
      exact ⟨g, List.mem_append_right _ hg, hi⟩
  keys := by
    rw [List.map_append, List.nodup_append]
    refine ⟨h.keys, h'.keys, fun k hk k' hk' he => ?_⟩
    obtain ⟨g, hg, rfl⟩ := List.mem_map.1 hk
    obtain ⟨g', hg', rfl⟩ := List.mem_map.1 hk'
    obtain ⟨c, args, md, hp, hm⟩ := h.made g hg
    obtain ⟨c', args', md', hq, hm'⟩ := h'.made g' hg'
    exact hapart c args md g c' args' md' g' hp hm hq hm' he

end Declares

/-- What a method gives at receiver arguments that it applies to. -/
theorem declares_of_method {N : String → Prop} (hG : G.Apart N) {c : String} {args : List Ty}
    {md : MethodDecl} (hmd : md ∈ G.table.methodDecls) (ha : G.AppliesAt args md)
    {gs : List MethodDecl}
    (h : List.Forall₂ (fun m g => G.IsInstance c args md m g)
      (G.instancesOf (.named c args) md.sig.name md.sig.formals) gs) :
    G.Declares (fun c' args' md' => c' = c ∧ args' = args ∧ md' = md)
      (G.placeholderAt c args md :: gs) where
  made g hg := by
    refine ⟨c, args, md, ⟨rfl, rfl, rfl⟩, ?_⟩
    rcases List.mem_cons.1 hg with rfl | hg
    · exact .inl ⟨ha, rfl⟩
    · obtain ⟨m, -, hm⟩ := exists_of_mem_forall₂ h.flip hg
      exact .inr ⟨m, hm⟩
  placeholder := by
    rintro _ _ _ ⟨rfl, rfl, rfl⟩ -
    exact List.mem_cons_self
  instances := by
    rintro _ _ _ m ⟨rfl, rfl, rfl⟩ - hm
    obtain ⟨g, hg, hi⟩ := exists_of_mem_forall₂ h hm
    exact ⟨g, List.mem_cons_of_mem _ hg, hi⟩
  keys := by
    rw [List.map_cons, List.nodup_cons]
    refine ⟨fun hk => ?_, keys_of_instances hG hmd (hG.methsNodup.filter _) h⟩
    obtain ⟨g, hg, hkey⟩ := List.mem_map.1 hk
    obtain ⟨m, hm, hi⟩ := exists_of_mem_forall₂ h.flip hg
    refine methodName_ne_placeholderName (hG.unmarked _ (hG.methods md hmd))
      (hG.targs m (mem_instancesOf.1 hm).1) (md.sig.subst (instantiation md.recvFormals args)) ?_
    rw [← hi.name_eq]
    exact (Prod.mk.inj hkey).2

omit [Digest] in
theorem typing_eq_ok {α : Type} {x : Answer TypeError α} {a : α} (h : typing x = .ok a) :
    x = .ok a :=
  Answer.mapError_eq_ok.1 h

/-- The ground methods on an instance of a declared type. -/
theorem declares_of_methodDeclsOn {N : String → Prop} (hG : G.Apart N) {c : String} {args : List Ty}
    {mds : List MethodDecl} {ds : List Decl} (hmds : ∀ md ∈ mds, md ∈ G.table.methodDecls)
    (hn : (mds.map (·.sig.name)).Nodup) (h : G.methodDeclsOn c args mds = .ok ds) :
    ∃ gs, ds = gs.map .method
      ∧ G.Declares (fun c' args' md => c' = c ∧ args' = args ∧ md ∈ mds) gs := by
  induction mds generalizing ds with
  | nil =>
    obtain rfl := Answer.ok.inj h
    exact ⟨[], rfl, Declares.nil.of_applies (fun _ _ _ hp => hp.elim)
      fun _ _ _ hq _ => absurd hq.2.2 List.not_mem_nil⟩
  | cons md mds ih =>
    rw [List.forall_mem_cons] at hmds
    rw [List.map_cons, List.nodup_cons] at hn
    obtain ⟨r, hr, h⟩ := Answer.bind_eq_ok.1 h
    have hr := typing_eq_ok hr
    cases r with
    | none =>
      obtain ⟨gs, rfl, hgs⟩ := ih hmds.2 hn.2 h
      refine ⟨gs, rfl, hgs.of_applies (fun c' args' md' hp => ?_) fun c' args' md' hq ha => ?_⟩
      · exact ⟨hp.1, hp.2.1, List.mem_cons_of_mem _ hp.2.2⟩
      · obtain ⟨rfl, rfl, hmd'⟩ := hq
        rcases List.mem_cons.1 hmd' with rfl | hmd'
        · rw [AppliesAt, hr] at ha
          cases ha
        · exact ⟨rfl, rfl, hmd'⟩
    | some η =>
      obtain ⟨-, rfl, -⟩ := Table.receiverBy_eq_some.1 hr
      obtain ⟨instances, hinstances, h⟩ := Answer.bind_eq_ok.1 h
      obtain ⟨rest, hrest, h⟩ := Answer.bind_eq_ok.1 h
      obtain rfl := Answer.ok.inj h
      obtain ⟨is, rfl, his⟩ := instanceDecls_eq_ok hr (fun m hm => hm)
        (Answer.ofExcept_eq_ok.1 hinstances)
      obtain ⟨gs, rfl, hgs⟩ := ih hmds.2 hn.2 hrest
      refine ⟨(G.placeholderAt c args md :: is) ++ gs, by simp [placeholderAt], ?_⟩
      refine ((declares_of_method hG hmds.1 hr his).append hgs ?_).of_applies ?_ ?_
      · rintro _ _ _ g _ _ md' g' ⟨rfl, rfl, rfl⟩ hg ⟨rfl, rfl, hmd'⟩ hg' he
        refine name_ne_of_makes hG hmds.1 (hmds.2 _ hmd') (fun hname => ?_) hg hg'
          (Prod.mk.inj he).2
        exact hn.1 (List.mem_map.2 ⟨md', hmd', hname.symm⟩)
      · rintro c' args' md' (⟨rfl, rfl, rfl⟩ | ⟨rfl, rfl, hmd'⟩)
        · exact ⟨rfl, rfl, List.mem_cons_self⟩
        · exact ⟨rfl, rfl, List.mem_cons_of_mem _ hmd'⟩
      · rintro c' args' md' ⟨rfl, rfl, hmd'⟩ -
        rcases List.mem_cons.1 hmd' with rfl | hmd'
        · exact .inl ⟨rfl, rfl, rfl⟩
        · exact .inr ⟨rfl, rfl, hmd'⟩

/-- Where the ground methods on a type are found, it is known which methods apply to it. -/
theorem receivers_of_methodDeclsOn {c : String} {args : List Ty} {mds : List MethodDecl}
    {ds : List Decl} (h : G.methodDeclsOn c args mds = .ok ds) :
    ∀ md ∈ mds, ∃ r, G.table.receiver G.fuel [] md.recvFormals args = .ok r := by
  induction mds generalizing ds with
  | nil => simp
  | cons md mds ih =>
    obtain ⟨r, hr, h⟩ := Answer.bind_eq_ok.1 h
    refine List.forall_mem_cons.2 ⟨⟨r, typing_eq_ok hr⟩, ?_⟩
    cases r with
    | none => exact ih h
    | some η =>
      obtain ⟨_, -, h⟩ := Answer.bind_eq_ok.1 h
      obtain ⟨rest, hrest, -⟩ := Answer.bind_eq_ok.1 h
      exact ih hrest

theorem receivers_of_methodDecls {ts : List Ty} {ds : List Decl} (h : G.methodDecls ts = .ok ds)
    {c : String} {args : List Ty} (hmem : .named c args ∈ ts)
    (hi : G.table.isInterface (.named c args) = .ok false) :
    ∀ md ∈ G.table.methodsOn c, ∃ r, G.table.receiver G.fuel [] md.recvFormals args = .ok r := by
  induction ts generalizing ds with
  | nil => cases hmem
  | cons t ts ih =>
    cases t with
    | named c' args' =>
      obtain ⟨b, hb, h⟩ := Answer.bind_eq_ok.1 h
      have hb := Answer.ofExcept_eq_ok.1 (typing_eq_ok hb)
      rcases List.mem_cons.1 hmem with he | hmem
      · obtain ⟨rfl, rfl⟩ := Ty.named.inj he
        obtain rfl := Except.ok.inj (hi.symm.trans hb)
        obtain ⟨decls, hdecls, -⟩ := Answer.bind_eq_ok.1 h
        exact receivers_of_methodDeclsOn hdecls
      · cases b with
        | true => exact ih h hmem
        | false =>
          obtain ⟨_, -, h⟩ := Answer.bind_eq_ok.1 h
          obtain ⟨rest, hrest, -⟩ := Answer.bind_eq_ok.1 h
          exact ih hrest hmem
    | _ => exact ih h ((List.mem_cons.1 hmem).resolve_left (fun he => by cases he))

omit [Digest] in
/-- The methods that are declared on one type have names of their own. -/
theorem nodup_methodsOn {T : Table} (h : T.NamesNodup) (c : String) :
    ((T.methodsOn c).map (·.sig.name)).Nodup := by
  refine List.Nodup.of_map (Prod.mk c) ?_
  rw [List.map_map]
  have heq : (T.methodsOn c).map (Prod.mk c ∘ (·.sig.name)) = (T.methodsOn c).map MethodDecl.key := by
    refine List.map_congr_left fun md hmd => ?_
    rw [MethodDecl.key, (Table.mem_methodsOn.1 hmd).2]
    rfl
  rw [heq]
  exact h.methods.sublist ((List.filter_sublist).map _)

/-- The ground methods on some instances. -/
theorem declares_of_methodDecls {N : String → Prop} (hG : G.Apart N) {ts : List Ty} {ds : List Decl}
    (hts : ∀ t ∈ ts, t ∈ G.instances.types) (hn : ts.Nodup) (h : G.methodDecls ts = .ok ds) :
    ∃ gs, ds = gs.map .method
      ∧ G.Declares (fun c args md => .named c args ∈ ts
          ∧ G.table.isInterface (.named c args) = .ok false ∧ md ∈ G.table.methodsOn c) gs := by
  induction ts generalizing ds with
  | nil =>
    obtain rfl := Answer.ok.inj h
    exact ⟨[], rfl, Declares.nil.of_applies (fun _ _ _ hp => hp.elim)
      fun _ _ _ hq _ => absurd hq.1 List.not_mem_nil⟩
  | cons t ts ih =>
    rw [List.forall_mem_cons] at hts
    rw [List.nodup_cons] at hn
    -- What is no instance of a type that is no interface adds no method.
    have hskip {gs : List MethodDecl} (hnot : ∀ c args, t = .named c args →
        G.table.isInterface (.named c args) ≠ .ok false)
        (hgs : G.Declares (fun c args md => .named c args ∈ ts
          ∧ G.table.isInterface (.named c args) = .ok false ∧ md ∈ G.table.methodsOn c) gs) :
        G.Declares (fun c args md => .named c args ∈ t :: ts
          ∧ G.table.isInterface (.named c args) = .ok false ∧ md ∈ G.table.methodsOn c) gs := by
      refine hgs.of_applies (fun c args md hp => ⟨List.mem_cons_of_mem _ hp.1, hp.2⟩)
        fun c args md hq _ => ?_
      rcases List.mem_cons.1 hq.1 with he | hmem
      · exact absurd hq.2.1 (hnot c args he.symm)
      · exact ⟨hmem, hq.2⟩
    cases t with
    | named c args =>
      obtain ⟨b, hb, h⟩ := Answer.bind_eq_ok.1 h
      have hb := Answer.ofExcept_eq_ok.1 (typing_eq_ok hb)
      cases b with
      | true =>
        obtain ⟨gs, rfl, hgs⟩ := ih hts.2 hn.2 h
        refine ⟨gs, rfl, hskip ?_ hgs⟩
        rintro _ _ ⟨rfl, rfl⟩
        simp [hb]
      | false =>
        obtain ⟨decls, hdecls, h⟩ := Answer.bind_eq_ok.1 h
        obtain ⟨rest, hrest, h⟩ := Answer.bind_eq_ok.1 h
        obtain rfl := Answer.ok.inj h
        obtain ⟨hs, rfl, hhs⟩ := declares_of_methodDeclsOn hG
          (fun md hmd => (Table.mem_methodsOn.1 hmd).1) (nodup_methodsOn hG.names c) hdecls
        obtain ⟨gs, rfl, hgs⟩ := ih hts.2 hn.2 hrest
        refine ⟨hs ++ gs, (List.map_append ..).symm, (hhs.append hgs ?_).of_applies ?_ ?_⟩
        · rintro _ _ md g c' args' md' g' ⟨rfl, rfl, -⟩ hg ⟨hmem, -⟩ hg' he
          have hname : g.recvType = g'.recvType := (Prod.mk.inj he).1
          rw [recvType_of_makes hg, recvType_of_makes hg'] at hname
          exact hn.1 (hG.types _ _ _ _ hts.1 (hts.2 _ hmem) hname ▸ hmem)
        · rintro c' args' md' (⟨rfl, rfl, hmd'⟩ | ⟨hmem, hrest⟩)
          · exact ⟨List.mem_cons_self, hb, hmd'⟩
          · exact ⟨List.mem_cons_of_mem _ hmem, hrest⟩
        · rintro c' args' md' ⟨hmem, hrest⟩ -
          rcases List.mem_cons.1 hmem with he | hmem
          · obtain ⟨rfl, rfl⟩ := Ty.named.inj he
            exact .inl ⟨rfl, rfl, hrest.2⟩
          · exact .inr ⟨hmem, hrest⟩
    | _ =>
      obtain ⟨gs, rfl, hgs⟩ := ih hts.2 hn.2 h
      exact ⟨gs, rfl, hskip (fun _ _ he => by cases he) hgs⟩

/-! ## Types -/

/-- What the source of a ground type is. -/
def IsSource (G : Grounding) (t source : Ty) : Prop :=
  (G.table.isInterface t = .ok true ∧ ∃ S ms, G.table.methods [] G.fuel t = .ok S
      ∧ G.interfaceMembers t S = .ok ms ∧ source = .interface ms)
    ∨ (G.table.isInterface t = .ok false ∧ ∃ u, G.table.underlying t = .ok u
      ∧ imageTy G.top u = .ok source)

/-- The declaration of an instance is under its ground name and takes no arguments. -/
theorem typeDecl_eq_ok {c : String} {args : List Ty} {td : TypeDecl}
    (h : G.typeDecl c args = .ok td) : td.name = typeName c args ∧ td.formals = []
      ∧ G.IsSource (.named c args) td.source := by
  obtain ⟨b, hb, h⟩ := Answer.bind_eq_ok.1 h
  have hb := Answer.ofExcept_eq_ok.1 (typing_eq_ok hb)
  cases b with
  | true =>
    obtain ⟨S, hS, h⟩ := Answer.bind_eq_ok.1 h
    obtain ⟨ms, hms, h⟩ := Answer.bind_eq_ok.1 h
    obtain rfl := Answer.ok.inj h
    exact ⟨rfl, rfl, .inl ⟨hb, S, ms, typing_eq_ok hS, Answer.ofExcept_eq_ok.1 hms, rfl⟩⟩
  | false =>
    obtain ⟨u, hu, h⟩ := Answer.bind_eq_ok.1 h
    obtain ⟨source, hsource, h⟩ := Answer.bind_eq_ok.1 h
    obtain rfl := Answer.ok.inj h
    exact ⟨rfl, rfl, .inr ⟨hb, u, Answer.ofExcept_eq_ok.1 (typing_eq_ok hu),
      Answer.ofExcept_eq_ok.1 hsource⟩⟩

theorem declared_of_typeDecl {c : String} {args : List Ty} {td : TypeDecl}
    (h : G.typeDecl c args = .ok td) : c ∈ G.table.typeDecls.map (·.name) := by
  obtain ⟨b, hb, -⟩ := Answer.bind_eq_ok.1 h
  obtain ⟨v, hv, -⟩ := except_bind_eq_ok.1 (Answer.ofExcept_eq_ok.1 (typing_eq_ok hb))
  obtain ⟨u, hu, -⟩ := except_bind_eq_ok.1 hv
  obtain ⟨td', htd', -⟩ := Table.underlying_eq_ok.1 hu
  obtain ⟨hmem, rfl⟩ := Table.mem_of_type? htd'
  exact List.mem_map_of_mem hmem

/-- Ground types are those of the declared types among some types, each under a name of its own. -/
structure DeclaresTypes (G : Grounding) (ts : List Ty) (tds : List TypeDecl) : Prop where
  made : ∀ td ∈ tds, ∃ c args, .named c args ∈ ts ∧ G.typeDecl c args = .ok td
  declared : ∀ c args, .named c args ∈ ts → ∃ td ∈ tds, G.typeDecl c args = .ok td
  names : (tds.map (·.name)).Nodup

theorem declaresTypes_of_typeDecls {N : String → Prop} (hG : G.Apart N) {ts : List Ty}
    {ds : List Decl} (hts : ∀ t ∈ ts, t ∈ G.instances.types) (hn : ts.Nodup)
    (h : G.typeDecls ts = .ok ds) :
    ∃ tds, ds = tds.map .type ∧ G.DeclaresTypes ts tds := by
  induction ts generalizing ds with
  | nil =>
    obtain rfl := Answer.ok.inj h
    exact ⟨[], rfl, by simp, by simp, .nil⟩
  | cons t ts ih =>
    rw [List.forall_mem_cons] at hts
    rw [List.nodup_cons] at hn
    have hskip {tds : List TypeDecl} (hnot : ∀ c args, t ≠ .named c args)
        (htds : G.DeclaresTypes ts tds) : G.DeclaresTypes (t :: ts) tds := by
      refine ⟨fun td htd => ?_, fun c args hmem => ?_, htds.names⟩
      · obtain ⟨c, args, hmem, hok⟩ := htds.made td htd
        exact ⟨c, args, List.mem_cons_of_mem _ hmem, hok⟩
      · rcases List.mem_cons.1 hmem with he | hmem
        · exact absurd he.symm (hnot c args)
        · exact htds.declared c args hmem
    cases t with
    | named c args =>
      obtain ⟨td, htd, h⟩ := Answer.bind_eq_ok.1 h
      obtain ⟨rest, hrest, h⟩ := Answer.bind_eq_ok.1 h
      obtain rfl := Answer.ok.inj h
      obtain ⟨tds, rfl, htds⟩ := ih hts.2 hn.2 hrest
      refine ⟨td :: tds, rfl, fun td' htd' => ?_, fun c' args' hmem => ?_, ?_⟩
      · rcases List.mem_cons.1 htd' with rfl | htd'
        · exact ⟨c, args, List.mem_cons_self, htd⟩
        · obtain ⟨c', args', hmem, hok⟩ := htds.made td' htd'
          exact ⟨c', args', List.mem_cons_of_mem _ hmem, hok⟩
      · rcases List.mem_cons.1 hmem with he | hmem
        · obtain ⟨rfl, rfl⟩ := Ty.named.inj he
          exact ⟨td, List.mem_cons_self, htd⟩
        · obtain ⟨td', htd', hok⟩ := htds.declared c' args' hmem
          exact ⟨td', List.mem_cons_of_mem _ htd', hok⟩
      · rw [List.map_cons, List.nodup_cons]
        refine ⟨fun hmem => ?_, htds.names⟩
        obtain ⟨td', htd', he⟩ := List.mem_map.1 hmem
        obtain ⟨c', args', hmem', hok⟩ := htds.made td' htd'
        rw [(typeDecl_eq_ok htd).1, (typeDecl_eq_ok hok).1] at he
        exact hn.1 (hG.types _ _ _ _ (hts.2 _ hmem') hts.1 he ▸ hmem')
    | _ =>
      obtain ⟨tds, rfl, htds⟩ := ih hts.2 hn.2 h
      exact ⟨tds, rfl, hskip (fun _ _ he => by cases he) htds⟩

/-! ## Programs -/

/-- A method that is declared on an instance which is no interface. -/
def Live (G : Grounding) (c : String) (args : List Ty) (md : MethodDecl) : Prop :=
  .named c args ∈ G.instances.types ∧ G.table.isInterface (.named c args) = .ok false
    ∧ md ∈ G.table.methodsOn c

omit [Digest] in
theorem Live.mem {c : String} {args : List Ty} {md : MethodDecl} (h : G.Live c args md) :
    .named c args ∈ G.instances.types ∧ md ∈ G.table.methodDecls ∧ md.recvType = c :=
  ⟨h.1, Table.mem_methodsOn.1 h.2.2⟩

/-- A table holds the ground declarations of the instances, and it is known which methods apply to
them. -/
structure Declared (G : Grounding) (T : Table) : Prop where
  types : ∀ c args, .named c args ∈ G.instances.types →
    ∃ td, G.typeDecl c args = .ok td ∧ T.type? (typeName c args) = some td
  formals : ∀ c td, T.type? c = some td → td.formals = []
  receivers : ∀ c args md, G.Live c args md →
    ∃ r, G.table.receiver G.fuel [] md.recvFormals args = .ok r
  methods : G.Declares G.Live T.methodDecls
  unique : T.MethodsUnique

omit [Digest] in
theorem filterMap_typeDecl? (tds : List TypeDecl) (mds : List MethodDecl) (td : TypeDecl) :
    ((tds.map Decl.type ++ mds.map Decl.method) ++ [Decl.type td]).filterMap Decl.typeDecl?
      = tds ++ [td] := by
  have htypes : (tds.map Decl.type).filterMap Decl.typeDecl? = tds := by
    induction tds with
    | nil => rfl
    | cons td tds ih => simpa [Decl.typeDecl?] using ih
  have hmethods : (mds.map Decl.method).filterMap Decl.typeDecl? = [] := by
    simp [List.filterMap_eq_nil_iff, Decl.typeDecl?]
  rw [List.filterMap_append, List.filterMap_append, htypes, hmethods, List.append_nil]
  rfl

omit [Digest] in
theorem filterMap_methodDecl? (tds : List TypeDecl) (mds : List MethodDecl) (td : TypeDecl) :
    ((tds.map Decl.type ++ mds.map Decl.method) ++ [Decl.type td]).filterMap Decl.methodDecl?
      = mds := by
  have htypes : (tds.map Decl.type).filterMap Decl.methodDecl? = [] := by
    simp [List.filterMap_eq_nil_iff, Decl.methodDecl?]
  have hmethods : (mds.map Decl.method).filterMap Decl.methodDecl? = mds := by
    induction mds with
    | nil => rfl
    | cons md mds ih => simpa [Decl.methodDecl?] using ih
  rw [List.filterMap_append, List.filterMap_append, htypes, hmethods, List.nil_append]
  exact List.append_nil _

/-- Declarations consist of those of the instances, those of the methods on them, and the interface that
placeholders return. -/
structure Consists (G : Grounding) (decls : List Decl) (tds : List TypeDecl) (gs : List MethodDecl) :
    Prop where
  eq : decls = tds.map .type ++ gs.map .method ++ [.type ⟨G.top, [], .anything⟩]
  types : G.DeclaresTypes G.instances.types tds
  methods : G.Declares G.Live gs
  receivers : ∀ c args md, G.Live c args md →
    ∃ r, G.table.receiver G.fuel [] md.recvFormals args = .ok r

theorem exists_consists_of_program {N : String → Prop} (hG : G.Apart N) {main : Expr} {printf : Bool}
    {q : Program} (h : G.program main printf = .ok q) :
    (∃ tds gs, G.Consists q.decls tds gs) ∧ Imaged G.top main q.main ∧ q.printf = printf := by
  obtain ⟨types, htypes, h⟩ := Answer.bind_eq_ok.1 h
  obtain ⟨methods, hmethods, h⟩ := Answer.bind_eq_ok.1 h
  obtain ⟨main', hmain, h⟩ := Answer.bind_eq_ok.1 h
  obtain rfl := Answer.ok.inj h
  obtain ⟨tds, rfl, htds⟩ :=
    declaresTypes_of_typeDecls hG (fun t ht => ht) hG.typesNodup htypes
  obtain ⟨gs, rfl, hgs⟩ := declares_of_methodDecls hG (fun t ht => ht) hG.typesNodup hmethods
  exact ⟨⟨tds, gs, rfl, htds, hgs, fun c args md hlive =>
    receivers_of_methodDecls hmethods hlive.1 hlive.2.1 md hlive.2.2⟩, Answer.ofExcept_eq_ok.1 hmain, rfl⟩

/-- The table of a ground program. -/
theorem Consists.ofDecls {N : String → Prop} (hG : G.Apart N) {decls : List Decl} {tds : List TypeDecl}
    {gs : List MethodDecl} (h : G.Consists decls tds gs) :
    Table.ofDecls decls = .ok ⟨tds ++ [⟨G.top, [], .anything⟩], gs⟩
      ∧ ((tds ++ [TypeDecl.mk G.top [] .anything]).map (·.name)).Nodup := by
  have hnames : ((tds ++ [TypeDecl.mk G.top [] .anything]).map (·.name)).Nodup := by
    rw [List.map_append, List.nodup_append]
    refine ⟨h.types.names, List.nodup_singleton _, fun a ha b hb => ?_⟩
    obtain rfl : b = G.top := List.mem_singleton.1 hb
    obtain ⟨td, htd, rfl⟩ := List.mem_map.1 ha
    obtain ⟨c, args, hmem, hok⟩ := h.types.made td htd
    rw [(typeDecl_eq_ok hok).1, hG.top]
    exact typeName_ne_freshName (by decide) (declared_of_typeDecl hok)
  refine ⟨?_, hnames⟩
  rw [h.eq, Table.ofDecls_of_nodup, filterMap_typeDecl?, filterMap_methodDecl?]
  · rwa [filterMap_typeDecl?]
  · rw [filterMap_methodDecl?]
    exact h.methods.keys

/-- **The declarations of a ground program make a table of what its instances declare.** -/
theorem Consists.declared {N : String → Prop} (hG : G.Apart N) {decls : List Decl} {tds : List TypeDecl}
    {gs : List MethodDecl} (h : G.Consists decls tds gs) :
    G.Declared ⟨tds ++ [⟨G.top, [], .anything⟩], gs⟩ := by
  obtain ⟨hT, hnames⟩ := h.ofDecls hG
  refine ⟨fun c args hmem => ?_, fun c td htd => ?_, h.receivers, h.methods, (Table.ofDecls_eq_ok hT).2.2⟩
  · obtain ⟨td, htd, hok⟩ := h.types.declared c args hmem
    refine ⟨td, hok, ?_⟩
    rw [← (typeDecl_eq_ok hok).1]
    exact Table.type?_of_mem hnames (List.mem_append_left _ htd)
  · rcases List.mem_append.1 (List.mem_of_find?_eq_some htd) with htd | htd
    · obtain ⟨c', args, -, hok⟩ := h.types.made td htd
      exact (typeDecl_eq_ok hok).2.1
    · rw [List.mem_singleton.1 htd]

theorem declared_of_program {N : String → Prop} (hG : G.Apart N) {main : Expr} {printf : Bool}
    {q : Program} (h : G.program main printf = .ok q) :
    ∃ T, Table.ofDecls q.decls = .ok T ∧ G.Declared T ∧ Imaged G.top main q.main := by
  obtain ⟨⟨tds, gs, hconsists⟩, hmain, -⟩ := exists_consists_of_program hG h
  exact ⟨_, (hconsists.ofDecls hG).1, hconsists.declared hG, hmain⟩

end Grounding

end FeatherGo.Ground
