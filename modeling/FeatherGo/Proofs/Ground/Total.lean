import FeatherGo.Proofs.Ground.Declarations
import FeatherGo.Proofs.Ground.Grounded
import FeatherGo.Proofs.Methods.Total
import FeatherGo.Proofs.Settling

/-!
# Ground programs are made

For ground instances of declared types typing answers all that their declarations are made from. So with
enough fuel there is a ground program, and more fuel does not change it
(`Grounding.exists_reaches_program`).
-/

namespace FeatherGo.Ground

open Answer (Reaches)

namespace Grounding

/-- With other fuel for method sets. -/
def withFuel (G : Grounding) (n : Nat) : Grounding := { G with fuel := n }

variable {G : Grounding} {rank : String → Nat}

/-! ## What takes no fuel -/

section

variable [Digest]

theorem signatureImages_withFuel (n : Nat) (s : Signature) (ms : List MethodInstance) :
    (G.withFuel n).signatureImages s ms = G.signatureImages s ms := by
  induction ms with
  | nil => rfl
  | cons m ms ih =>
    rw [signatureImages, signatureImages, ih]
    rfl

theorem interfaceMembers_withFuel (n : Nat) (t : Ty) (S : MethodSet) :
    (G.withFuel n).interfaceMembers t S = G.interfaceMembers t S := by
  induction S with
  | nil => rfl
  | cons s S ih =>
    rw [interfaceMembers, interfaceMembers, ih, signatureImages_withFuel]
    rfl

theorem instanceDecls_withFuel (n : Nat) (recvType : String) (η : Env Ty) (md : MethodDecl)
    (ms : List MethodInstance) :
    (G.withFuel n).instanceDecls recvType η md ms = G.instanceDecls recvType η md ms := by
  induction ms with
  | nil => rfl
  | cons m ms ih =>
    rw [instanceDecls, instanceDecls, ih]
    rfl

end

theorem reaches_typing {α : Type} {x : Nat → Answer TypeError α} {a : α}
    (h : ∃ k, ∀ n ≥ k, x n = .ok a) : Reaches (fun n => typing (x n)) (.ok a) :=
  Reaches.mapError MonoError.type h

theorem reaches_except {α : Type} {x : Nat → Except MonoError α} {a : α} (h : ∀ n, x n = .ok a) :
    Reaches (fun n => (monadLift (x n) : Answer MonoError α)) (.ok a) :=
  ⟨0, fun n _ => Answer.ofExcept_eq_ok.2 (h n)⟩

variable [Digest] (hG : G.Grounded) (h : G.table.Lawful true rank)
include hG h

/-! ## Types -/

omit [Digest] hG in
/-- Whether a closed type is an interface has an answer. -/
theorem exists_reaches_isInterface {t : Ty} (ht : t.Closed (G.table.vocabulary true)) :
    ∃ b, Reaches (fun _ => typing (.ofExcept (G.table.isInterface t))) (.ok b) := by
  obtain ⟨b, hb, -⟩ := h.shaped.isInterface_total (Table.headed_of_scoped ht.sealed.inner)
  exact ⟨b, reaches_typing ⟨0, fun _ _ => Answer.ofExcept_eq_ok.2 hb⟩⟩

theorem exists_reaches_typeDecl {c : String} {args : List Ty} (mem : .named c args ∈ G.instances.types)
    (ht : (Ty.named c args).Closed (G.table.vocabulary true)) :
    ∃ td, Reaches (fun n => (G.withFuel n).typeDecl c args) (.ok td) := by
  obtain ⟨b, hb⟩ := exists_reaches_isInterface h ht
  have hground := hG.types _ mem
  cases b with
  | true =>
    obtain ⟨S, hS⟩ := h.methods_total ht.sealed []
    obtain ⟨k, hk⟩ := (Finitary.find _).eventually hS
    obtain ⟨ms, hms⟩ := exists_interfaceMembers hG (.named c args)
      (hG.table.stable.of_methods hground (hk k le_rfl))
    have hmembers (n : Nat) : (G.withFuel n).interfaceMembers (.named c args) S = .ok ms :=
      (interfaceMembers_withFuel n _ S).trans hms
    refine ⟨⟨typeName c args, [], .interface ms⟩, hb.bind (.bind (reaches_typing ⟨k, hk⟩) ?_)⟩
    exact .bind (reaches_except hmembers) (.const _)
  | false =>
    obtain ⟨v, hv⟩ := h.resolve_total ht.sealed.inner
    obtain ⟨u, hu⟩ : ∃ u, G.table.underlying (.named c args) = .ok u := by
      cases Table.resolves_of_resolve hv with
      | step head => exact ⟨_, head⟩
      | stop unnamed => exact unnamed.elim
    obtain ⟨source, hsource⟩ := exists_imageTy G.top (hG.table.stable.of_underlying hground hu)
    refine ⟨⟨typeName c args, [], source⟩,
      hb.bind (.bind (reaches_typing ⟨0, fun _ _ => Answer.ofExcept_eq_ok.2 hu⟩) ?_)⟩
    exact .bind (reaches_except fun _ => hsource) (.const _)

theorem exists_reaches_typeDecls {ts : List Ty} (hts : ∀ t ∈ ts, t ∈ G.instances.types)
    (hclosed : ∀ t ∈ ts, t.Closed (G.table.vocabulary true)) :
    ∃ ds, Reaches (fun n => (G.withFuel n).typeDecls ts) (.ok ds) := by
  induction ts with
  | nil => exact ⟨_, .const _⟩
  | cons t ts ih =>
    rw [List.forall_mem_cons] at hts hclosed
    obtain ⟨ds, hds⟩ := ih hts.2 hclosed.2
    cases t with
    | named c args =>
      obtain ⟨td, htd⟩ := exists_reaches_typeDecl hG h hts.1 hclosed.1
      exact ⟨_, htd.bind (hds.bind (.const _))⟩
    | _ => exact ⟨ds, hds⟩

/-! ## Methods -/

theorem exists_reaches_methodDeclsOn {c : String} {args : List Ty} (mem : .named c args ∈ G.instances.types)
    (ht : (Ty.named c args).Closed (G.table.vocabulary true)) {mds : List MethodDecl}
    (hmds : ∀ md ∈ mds, md ∈ G.table.methodDecls ∧ md.recvType = c) :
    ∃ ds, Reaches (fun n => (G.withFuel n).methodDeclsOn c args mds) (.ok ds) := by
  induction mds with
  | nil => exact ⟨_, .const _⟩
  | cons md mds ih =>
    rw [List.forall_mem_cons] at hmds
    obtain ⟨⟨hmd, rfl⟩, hmds⟩ := hmds
    obtain ⟨rest, hrest⟩ := ih hmds
    have hargs : ∀ a ∈ args, a.Sealed (G.table.vocabulary true) := fun a ha => (ht.args a ha).1.sealed
    obtain ⟨r, hr⟩ := h.receiverBy_total (h.methods md hmd) (fun a ha => (hargs a ha).inner)
      fun a ha => h.methods_total (hargs a ha) []
    have hreaches := reaches_typing ((Table.finitary_receiverBy _ md.recvFormals args).eventually hr)
    cases r with
    | none => exact ⟨rest, hreaches.bind hrest⟩
    | some η =>
      obtain ⟨hl, rfl, -⟩ := Table.receiverBy_eq_some.1 hr
      obtain ⟨ds, hds⟩ := exists_instanceDecls hG hmd (hG.types _ mem) hl (typeName md.recvType args)
        fun _ hm => of_mem_instancesOf hm
      have hinstances (n : Nat) := (instanceDecls_withFuel n _ _ _ _).trans hds
      exact ⟨.method (G.placeholderAt md.recvType args md) :: ds ++ rest,
        hreaches.bind (.bind (reaches_except hinstances) (hrest.bind ⟨0, fun _ _ => rfl⟩))⟩

theorem exists_reaches_methodDecls {ts : List Ty} (hts : ∀ t ∈ ts, t ∈ G.instances.types)
    (hclosed : ∀ t ∈ ts, t.Closed (G.table.vocabulary true)) :
    ∃ ds, Reaches (fun n => (G.withFuel n).methodDecls ts) (.ok ds) := by
  induction ts with
  | nil => exact ⟨_, .const _⟩
  | cons t ts ih =>
    rw [List.forall_mem_cons] at hts hclosed
    obtain ⟨rest, hrest⟩ := ih hts.2 hclosed.2
    cases t with
    | named c args =>
      obtain ⟨b, hb⟩ := exists_reaches_isInterface h hclosed.1
      cases b with
      | true => exact ⟨rest, hb.bind hrest⟩
      | false =>
        obtain ⟨ds, hds⟩ := exists_reaches_methodDeclsOn hG h hts.1 hclosed.1
          fun _ (hmd : _ ∈ G.table.methodsOn c) => Table.mem_methodsOn.1 hmd
        exact ⟨ds ++ rest, hb.bind (hds.bind (hrest.bind (.const _)))⟩
    | _ => exact ⟨rest, hrest⟩

/-! ## Programs -/

/-- **Given enough fuel there is a ground program**, always the same. -/
theorem exists_reaches_program (hclosed : ∀ t ∈ G.instances.types, t.Closed (G.table.vocabulary true))
    {main : Expr} (hmain : ∀ t ∈ main.types, t.isGround = true) (printf : Bool) :
    ∃ q, Reaches (fun n => (G.withFuel n).program main printf) (.ok q) := by
  obtain ⟨types, htypes⟩ := exists_reaches_typeDecls hG h (fun _ ht => ht) hclosed
  obtain ⟨methods, hmethods⟩ := exists_reaches_methodDecls hG h (fun _ ht => ht) hclosed
  obtain ⟨m, hm⟩ := exists_imageExpr G.top hmain
  exact ⟨⟨types ++ methods ++ [.type ⟨G.top, [], .anything⟩], m, printf⟩,
    htypes.bind (hmethods.bind (.bind (reaches_except fun _ => hm) ⟨0, fun _ _ => rfl⟩))⟩

end Grounding

end FeatherGo.Ground
