import FeatherGo.Command.Digest
import FeatherGo.Ground.Program
import FeatherGo.Proofs.Discovery.Grounded
import FeatherGo.Proofs.Ground.Existence

/-!
# Translation stays ground

Where declarations write types under their formals, the ground program of ground instances is made from
images of ground types alone, and these exist: the members of an interface instance, the source of a type
and the declaration of a method instance have ground types put in for all formals that they are under. So
neither discovery nor the translation of what it answers comes upon an open type in a checked program
(`Ground.staysGround_of_checkProgram`). Both may fail in typing, and discovery may run into its limit.
-/

namespace FeatherGo

namespace Ground

/-- A signature has an image where its types are ground. -/
theorem exists_imageSignature [Digest] (top name : String) {s : Signature} {η : Env Ty}
    (hs : ∀ t ∈ s.types, (t.subst η).isGround = true) :
    ∃ image, imageSignature top name (s.params.map (Slot.map (Ty.subst η))) (s.result.subst η)
      = .ok image := by
  have hparams : ∀ f ∈ s.params.map (Slot.map (Ty.subst η)), HasImage top f.ty :=
    List.forall_mem_map.2 fun p hp => exists_imageTy top (hs p.ty (Signature.mem_types_param hp))
  obtain ⟨ps, hps⟩ := exists_imageSlots.2 hparams
  obtain ⟨r, hr⟩ := exists_imageTy top (hs _ s.mem_types_result)
  exact ⟨_, except_bind_eq_ok.2 ⟨ps, hps, except_bind_eq_ok.2 ⟨r, hr, rfl⟩⟩⟩

namespace Grounding

/-- Declarations that write types under their formals, and ground instances. -/
structure Grounded (G : Grounding) : Prop where
  table : G.table.WritesUnder
  types : ∀ t ∈ G.instances.types, t.isGround = true
  meths : ∀ m ∈ G.instances.meths, ∀ t ∈ m.targs, t.isGround = true

variable {G : Grounding}

theorem of_mem_instancesOf {recv : Ty} {meth : String} {formals : List Slot} {m : MethodInstance}
    (h : m ∈ G.instancesOf recv meth formals) :
    m ∈ G.instances.meths ∧ formals.length = m.targs.length := by
  obtain ⟨hm, hp⟩ := List.mem_filter.1 h
  exact ⟨hm, (of_decide_eq_true hp).2.2.symm⟩

variable [Digest] (hG : G.Grounded)

include hG

/-! ## Declarations of types -/

theorem exists_signatureImages {s : Signature} (hs : s.alone.isGround = true)
    {ms : List MethodInstance}
    (hms : ∀ m ∈ ms, m ∈ G.instances.meths ∧ s.formals.length = m.targs.length) :
    ∃ images, G.signatureImages s ms = .ok images := by
  induction ms with
  | nil => exact ⟨[], rfl⟩
  | cons m ms ih =>
    rw [List.forall_mem_cons] at hms
    obtain ⟨⟨hm, hl⟩, hms⟩ := hms
    obtain ⟨image, himage⟩ := exists_imageSignature G.top (methodName s.name m.targs)
      fun t ht => Signature.isGround_at hs hl (hG.meths m hm) ht
    obtain ⟨images, himages⟩ := ih hms
    exact ⟨_, except_bind_eq_ok.2 ⟨image, himage, except_bind_eq_ok.2 ⟨images, himages, rfl⟩⟩⟩

theorem exists_interfaceMembers (t : Ty) {S : MethodSet} (hS : ∀ s ∈ S, s.alone.isGround = true) :
    ∃ ms, G.interfaceMembers t S = .ok ms := by
  induction S with
  | nil => exact ⟨[], rfl⟩
  | cons s S ih =>
    rw [List.forall_mem_cons] at hS
    obtain ⟨images, himages⟩ := exists_signatureImages hG hS.1 fun _ hm => of_mem_instancesOf hm
    obtain ⟨rest, hrest⟩ := ih hS.2
    exact ⟨_, except_bind_eq_ok.2 ⟨images, himages, except_bind_eq_ok.2 ⟨rest, hrest, rfl⟩⟩⟩

theorem staysGround_typeDecl {c : String} {args : List Ty} (ht : (Ty.named c args).isGround = true) :
    (G.typeDecl c args).StaysGround := by
  refine .bind (.typing _) fun b _ => ?_
  dsimp only
  split
  · refine .bind (.typing _) fun S hS => ?_
    have hS := hG.table.stable.of_methods ht (Answer.mapError_eq_ok.1 hS)
    exact .bind (.lift (exists_interfaceMembers hG _ hS)) fun _ _ => .ok _
  · refine .bind (.typing _) fun u hu => ?_
    have hu := hG.table.stable.of_underlying ht
      (Answer.ofExcept_eq_ok.1 (Answer.mapError_eq_ok.1 hu))
    exact .bind (.lift (exists_imageTy _ hu)) fun _ _ => .ok _

theorem staysGround_typeDecls {ts : List Ty} (hts : ∀ t ∈ ts, t.isGround = true) :
    (G.typeDecls ts).StaysGround := by
  induction ts with
  | nil => exact .ok _
  | cons t ts ih =>
    rw [List.forall_mem_cons] at hts
    cases t with
    | named c args =>
      exact .bind (staysGround_typeDecl hG hts.1) fun _ _ => .bind (ih hts.2) fun _ _ => .ok _
    | _ => exact ih hts.2

/-! ## Declarations of methods -/

theorem exists_instanceDecls {md : MethodDecl} (hmd : md ∈ G.table.methodDecls) {args : List Ty}
    (hargs : (Ty.named md.recvType args).isGround = true) (hl : md.recvFormals.length = args.length)
    (recvType : String) {ms : List MethodInstance}
    (hms : ∀ m ∈ ms, m ∈ G.instances.meths ∧ md.sig.formals.length = m.targs.length) :
    ∃ ds, G.instanceDecls recvType (instantiation md.recvFormals args) md ms = .ok ds := by
  induction ms with
  | nil => exact ⟨[], rfl⟩
  | cons m ms ih =>
    rw [List.forall_mem_cons] at hms
    obtain ⟨⟨hm, hl'⟩, hms⟩ := hms
    obtain ⟨hbody, -⟩ := hG.table.keepsInstances.bodies md hmd args m.targs hargs hl
      (fun t ht => ⟨hG.meths m hm t ht, trivial⟩) hl'
    obtain ⟨sig, hsig⟩ := exists_imageSignature G.top (methodName md.sig.name m.targs)
      fun t ht => MethodDecl.WritesUnder.isGround_at ((hG.table.methods md hmd).sigTypes ht) hl
        (Ty.isGround_named.1 hargs) hl' (hG.meths m hm)
    obtain ⟨body, hbody⟩ := exists_imageExpr G.top hbody.types
    obtain ⟨ds, hds⟩ := ih hms
    exact ⟨_, except_bind_eq_ok.2 ⟨sig, hsig, except_bind_eq_ok.2 ⟨body, hbody,
      except_bind_eq_ok.2 ⟨ds, hds, rfl⟩⟩⟩⟩

theorem staysGround_methodDeclsOn {c : String} {args : List Ty}
    (ht : (Ty.named c args).isGround = true) {mds : List MethodDecl}
    (hmds : ∀ md ∈ mds, md ∈ G.table.methodDecls ∧ md.recvType = c) :
    (G.methodDeclsOn c args mds).StaysGround := by
  induction mds with
  | nil => exact .ok _
  | cons md mds ih =>
    rw [List.forall_mem_cons] at hmds
    obtain ⟨⟨hmd, rfl⟩, hmds⟩ := hmds
    refine .bind (.typing _) fun η? hη => ?_
    cases η? with
    | none => exact ih hmds
    | some η =>
      obtain ⟨hl, rfl, -⟩ := Table.receiverBy_eq_some.1 (Answer.mapError_eq_ok.1 hη)
      exact .bind (.lift (exists_instanceDecls hG hmd ht hl _ fun _ hm => of_mem_instancesOf hm))
        fun _ _ => .bind (ih hmds) fun _ _ => .ok _

theorem staysGround_methodDecls {ts : List Ty} (hts : ∀ t ∈ ts, t.isGround = true) :
    (G.methodDecls ts).StaysGround := by
  induction ts with
  | nil => exact .ok _
  | cons t ts ih =>
    rw [List.forall_mem_cons] at hts
    cases t with
    | named c args =>
      refine .bind (.typing _) fun b _ => ?_
      split
      · exact ih hts.2
      · exact .bind (staysGround_methodDeclsOn hG hts.1 fun _ hmd => Table.mem_methodsOn.1 hmd)
          fun _ _ => .bind (ih hts.2) fun _ _ => .ok _
    | _ => exact ih hts.2

/-- The ground program of ground instances is made without coming upon an open type. -/
theorem staysGround_program {main : Expr} (hmain : ∀ t ∈ main.types, t.isGround = true)
    (printf : Bool) : (G.program main printf).StaysGround :=
  .bind (staysGround_typeDecls hG hG.types) fun _ _ => .bind (staysGround_methodDecls hG hG.types)
    fun _ _ => .bind (.lift (exists_imageExpr _ hmain)) fun _ _ => .ok _

end Grounding

/-! ## Checked programs -/

/-- Discovery stays ground at a table and a main expression, whatever its limit, and so does the
translation of what it answers. -/
def StaysGround [Digest] (T : Table) (main : Expr) (printf : Bool) : Prop :=
  ∀ fuel limit, (discover fuel T main limit).StaysGround
    ∧ ∀ F, discover fuel T main limit = .ok F → ∀ fuel', (programOf fuel' T F main printf).StaysGround

theorem staysGround_of_writesUnder [Digest] {T : Table} (h : T.WritesUnder) {main : Expr}
    (hmain : ∀ t ∈ main.types, t.isGround = true) (printf : Bool) : StaysGround T main printf := by
  intro fuel limit
  obtain ⟨hdiscover, hF⟩ := h.of_discover hmain fuel limit
  refine ⟨hdiscover, fun F hF' fuel' => ?_⟩
  obtain ⟨htypes, hmeths⟩ := hF F hF'
  exact Grounding.staysGround_program ⟨h, htypes, fun m hm t ht =>
    hmeths m hm t (List.mem_cons_of_mem _ ht)⟩ hmain printf

/-- **Discovery and translation of checked programs stay ground.** Where the types of a program that
passes its check hold no variables, neither discovery, whatever its limit, nor the translation of what it
answers comes upon an open type, be it in the program as it was written or as it was checked. -/
theorem staysGround_of_checkProgram [Digest] {fuel : Nat} {p q : Program} {t : Ty}
    (h : checkProgram fuel false p = .ok (t, q)) (hvars : ∀ u ∈ p.types, u.hasVars = false) :
    ∀ r, r = p ∨ r = q → ∃ T, Table.ofDecls r.decls = .ok T ∧ StaysGround T r.main r.printf := by
  obtain ⟨T, T', hcheck⟩ := exists_programCheck h
  obtain ⟨hsource, hchecked⟩ := hcheck.writesUnder hvars
  obtain ⟨hmain, hmain'⟩ := hcheck.isGround_main hvars
  rintro r (rfl | rfl)
  · exact ⟨T, hcheck.source, staysGround_of_writesUnder hsource hmain r.printf⟩
  · exact ⟨T', hcheck.checked, staysGround_of_writesUnder hchecked hmain' r.printf⟩

theorem dispatchingProgram_staysGround :
    (∀ u ∈ dispatchingProgram.types, u.hasVars = false)
      ∧ ∃ t q, checkProgram 9 false dispatchingProgram = .ok (t, q)
        ∧ ∀ r, r = dispatchingProgram ∨ r = q →
          ∃ T, Table.ofDecls r.decls = .ok T ∧ StaysGround T r.main r.printf := by
  have hvars : ∀ u ∈ dispatchingProgram.types, u.hasVars = false := by decide +kernel
  have hok : (checkProgram 9 false dispatchingProgram).any (fun _ => true) = true := by decide +kernel
  obtain ⟨⟨t, q⟩, hq, -⟩ := Answer.any_eq_true.1 hok
  exact ⟨hvars, t, q, hq, staysGround_of_checkProgram hq hvars⟩

end Ground

end FeatherGo
