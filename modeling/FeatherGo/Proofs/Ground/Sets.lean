import FeatherGo.Proofs.Discovery.Least
import FeatherGo.Proofs.Ground.Declarations
import FeatherGo.Proofs.Methods.Ground
import FeatherGo.Proofs.Methods.Limit

/-!
# Method sets of ground types

For every signature that an instance of a declared type offers, its ground form offers the placeholder
and the images at the instances of the method on that type, and it offers nothing else
(`Grounding.Declared.exists_sets`). Interfaces list these signatures as their members, other types
have a method for each.
-/

namespace FeatherGo.Ground

/-- Unnamed types have unnamed images, and interfaces alone have interfaces as images. -/
theorem unnamed_of_imageTy [Digest] {top : String} {t t' : Ty} (h : imageTy top t = .ok t') (ht : t.Unnamed) :
    t'.Unnamed ∧ ((∃ ms, t' = .interface ms) ↔ ∃ ms, t = .interface ms) := by
  cases t with
  | named c args => exact ht.elim
  | param a => cases h
  | var n => cases h
  | prim p =>
    obtain rfl := Except.ok.inj h
    simp [Ty.Unnamed]
  | struct fs =>
    obtain ⟨fs', -, h⟩ := except_bind_eq_ok.1 h
    obtain rfl := Except.ok.inj h
    simp [Ty.Unnamed]
  | interface ms =>
    obtain ⟨ms', -, h⟩ := except_bind_eq_ok.1 h
    obtain rfl := Except.ok.inj h
    simp [Ty.Unnamed]

namespace Grounding

variable [Digest] {G : Grounding} {T' : Table} {N : String → Prop} {S : MethodSet}

/-! ## What is offered -/

/-- A signature is the image of another at an instance of its method on a type. -/
structure IsImage (G : Grounding) (t : Ty) (s : Signature) (m : MethodInstance) (x : Signature) :
    Prop where
  mem : m ∈ G.instancesOf t s.name s.formals
  image : imageSignature G.top (methodName s.name m.targs)
    (s.params.map (Slot.map (Ty.subst (instantiation s.formals m.targs))))
    (s.result.subst (instantiation s.formals m.targs)) = .ok x

/-- What the ground form of a type offers for the signatures that the type offers. -/
inductive Offered (G : Grounding) (t : Ty) (S : MethodSet) : Signature → Prop
  | placeholder {s : Signature} (mem : s ∈ S) : Offered G t S (placeholder G.top s)
  | image {s : Signature} {m : MethodInstance} {x : Signature} (mem : s ∈ S)
      (isImage : G.IsImage t s m x) : Offered G t S x

theorem IsImage.name_eq {t : Ty} {s x : Signature} {m : MethodInstance} (h : G.IsImage t s m x) :
    x.name = methodName s.name m.targs :=
  name_imageSignature h.image

/-- No image is named like a placeholder. -/
theorem IsImage.name_ne (hG : G.Apart N) {t : Ty} {s x : Signature} {m : MethodInstance}
    (h : G.IsImage t s m x) (hs : N s.name) (o : Signature) : x.name ≠ placeholderName o := by
  rw [h.name_eq]
  exact methodName_ne_placeholderName (hG.unmarked _ hs) (hG.targs m (mem_instancesOf.1 h.mem).1) o

/-- Images of one name on a type are those of one instance. -/
theorem IsImage.eq_of_name (hG : G.Apart N) {t : Ty} {s o x y : Signature} {m m' : MethodInstance}
    (hx : G.IsImage t s m x) (hy : G.IsImage t o m' y) (hs : N s.name) (ho : N o.name)
    (h : x.name = y.name) : m = m' ∧ s.name = o.name := by
  obtain ⟨hmem, hrecv, hmeth, -⟩ := mem_instancesOf.1 hx.mem
  obtain ⟨hmem', hrecv', hmeth', -⟩ := mem_instancesOf.1 hy.mem
  have hm : m = m' := by
    refine hG.meths m hmem m' hmem' (hmeth ▸ hs) (hmeth' ▸ ho) (hrecv.trans hrecv'.symm) ?_
    rw [hmeth, hmeth', ← hx.name_eq, ← hy.name_eq, h]
  exact ⟨hm, hmeth.symm.trans (hm ▸ hmeth')⟩

/-- What is offered has names of its own. -/
theorem Offered.eq_of_name (hG : G.Apart N) (hS : S.Sorted) (hN : ∀ s ∈ S, N s.name) {t : Ty}
    {x y : Signature} (hx : G.Offered t S x) (hy : G.Offered t S y) (h : x.name = y.name) :
    x = y := by
  have hsame {s o : Signature} (hs : s ∈ S) (ho : o ∈ S) (hname : s.name = o.name) : s = o := by
    have hfind := MethodSet.find?_of_mem hS hs
    rw [hname, MethodSet.find?_of_mem hS ho] at hfind
    exact (Option.some.inj hfind).symm
  cases hx with
  | @placeholder s hs =>
    cases hy with
    | @placeholder o ho =>
      rw [hsame hs ho (name_eq_of_placeholderName (hG.unmarked _ (hN s hs))
        (hG.unmarked _ (hN o ho)) h)]
    | @image o m y ho hi => exact absurd h.symm (hi.name_ne hG (hN o ho) s)
  | @image s m x hs hi =>
    cases hy with
    | @placeholder o ho => exact absurd h (hi.name_ne hG (hN s hs) o)
    | @image o m' y ho hi' =>
      obtain ⟨rfl, hname⟩ := hi.eq_of_name hG hi' (hN s hs) (hN o ho) h
      obtain rfl := hsame hs ho hname
      exact Except.ok.inj (hi.image.symm.trans hi'.image)

/-- What is offered for a signature is not named like what is offered for others. -/
theorem Offered.name_ne (hG : G.Apart N) {t : Ty} {S S' : MethodSet} (hN : ∀ s ∈ S, N s.name)
    (hN' : ∀ s ∈ S', N s.name) (hapart : ∀ s ∈ S, ∀ o ∈ S', s.name ≠ o.name) {x y : Signature}
    (hx : G.Offered t S x) (hy : G.Offered t S' y) : x.name ≠ y.name := by
  intro h
  cases hx with
  | @placeholder s hs =>
    cases hy with
    | @placeholder o ho =>
      exact hapart s hs o ho (name_eq_of_placeholderName (hG.unmarked _ (hN s hs))
        (hG.unmarked _ (hN' o ho)) h)
    | @image o m y ho hi => exact hi.name_ne hG (hN' o ho) s h.symm
  | @image s m x hs hi =>
    cases hy with
    | @placeholder o ho => exact hi.name_ne hG (hN s hs) o h
    | @image o m' y ho hi' => exact hapart s hs o ho (hi.eq_of_name hG hi' (hN s hs) (hN' o ho) h).2

/-- A list has what is offered and nothing else, and there is an image at every instance. -/
structure Lists (G : Grounding) (t : Ty) (S : MethodSet) (sigs : List Signature) : Prop where
  mem : ∀ x, x ∈ sigs ↔ G.Offered t S x
  images : ∀ s ∈ S, ∀ m ∈ G.instancesOf t s.name s.formals, ∃ x, G.IsImage t s m x

theorem Lists.mem_union {t : Ty} {sigs : List Signature} (h : G.Lists t S sigs) (hG : G.Apart N)
    (hS : S.Sorted) (hN : ∀ s ∈ S, N s.name) {x : Signature} :
    x ∈ MethodSet.union [] sigs ↔ G.Offered t S x := by
  rw [MethodSet.mem_union_nil fun x hx y hy =>
    ((h.mem x).1 hx).eq_of_name hG hS hN ((h.mem y).1 hy), h.mem]

/-! ## Interfaces -/

theorem signatureImages_eq_ok {t : Ty} {s : Signature} {ms : List MethodInstance}
    {members : List Member} (hms : ∀ m ∈ ms, m ∈ G.instancesOf t s.name s.formals)
    (h : G.signatureImages s ms = .ok members) :
    ∃ xs, members = xs.map .method ∧ List.Forall₂ (G.IsImage t s) ms xs := by
  induction ms generalizing members with
  | nil =>
    obtain rfl := Except.ok.inj h
    exact ⟨[], rfl, .nil⟩
  | cons m ms ih =>
    rw [List.forall_mem_cons] at hms
    obtain ⟨x, hx, h⟩ := except_bind_eq_ok.1 h
    obtain ⟨rest, hrest, h⟩ := except_bind_eq_ok.1 h
    obtain rfl := Except.ok.inj h
    obtain ⟨xs, rfl, hxs⟩ := ih hms.2 hrest
    exact ⟨x :: xs, rfl, .cons ⟨hms.1, hx⟩ hxs⟩

/-- The members of a ground interface list what is offered. -/
theorem lists_of_interfaceMembers {t : Ty} {members : List Member}
    (h : G.interfaceMembers t S = .ok members) :
    ∃ sigs, members = sigs.map .method ∧ G.Lists t S sigs := by
  induction S generalizing members with
  | nil =>
    obtain rfl := Except.ok.inj h
    refine ⟨[], rfl, fun x => ⟨fun hx => absurd hx List.not_mem_nil, fun hx => ?_⟩, by simp⟩
    cases hx with
    | placeholder hs => cases hs
    | image hs => cases hs
  | cons s S ih =>
    obtain ⟨images, himages, h⟩ := except_bind_eq_ok.1 h
    obtain ⟨rest, hrest, h⟩ := except_bind_eq_ok.1 h
    obtain rfl := Except.ok.inj h
    obtain ⟨xs, rfl, hxs⟩ := signatureImages_eq_ok (fun m hm => hm) himages
    obtain ⟨sigs, rfl, hsigs⟩ := ih hrest
    refine ⟨xs ++ placeholder G.top s :: sigs, by simp, fun x => ⟨fun hx => ?_, fun hx => ?_⟩, ?_⟩
    · rcases List.mem_append.1 hx with hx | hx
      · obtain ⟨m, -, hi⟩ := exists_of_mem_forall₂ hxs.flip hx
        exact .image List.mem_cons_self hi
      · rcases List.mem_cons.1 hx with rfl | hx
        · exact .placeholder List.mem_cons_self
        · cases (hsigs.mem x).1 hx with
          | placeholder hs => exact .placeholder (List.mem_cons_of_mem _ hs)
          | image hs hi => exact .image (List.mem_cons_of_mem _ hs) hi
    · cases hx with
      | placeholder hs =>
        rcases List.mem_cons.1 hs with rfl | hs
        · exact List.mem_append_right _ List.mem_cons_self
        · exact List.mem_append_right _ (List.mem_cons_of_mem _ ((hsigs.mem _).2 (.placeholder hs)))
      | @image o m x hs hi =>
        rcases List.mem_cons.1 hs with rfl | hs
        · obtain ⟨x', hx', hi'⟩ := exists_of_mem_forall₂ hxs hi.mem
          rw [Except.ok.inj (hi.image.symm.trans hi'.image)]
          exact List.mem_append_left _ hx'
        · exact List.mem_append_right _ (List.mem_cons_of_mem _ ((hsigs.mem _).2 (.image hs hi)))
    · rw [List.forall_mem_cons]
      refine ⟨fun m hm => ?_, hsigs.images⟩
      obtain ⟨x, -, hi⟩ := exists_of_mem_forall₂ hxs hm
      exact ⟨x, hi⟩

/-- Images at different instances of one method have names of their own. -/
theorem nodup_names_of_images (hG : G.Apart N) {t : Ty} {s : Signature} (hs : N s.name)
    {ms : List MethodInstance} {xs : List Signature} (hn : ms.Nodup)
    (h : List.Forall₂ (G.IsImage t s) ms xs) : (xs.map (·.name)).Nodup := by
  induction h with
  | nil => exact .nil
  | cons hx hxs ih =>
    obtain ⟨hnew, hn⟩ := List.nodup_cons.1 hn
    rw [List.map_cons, List.nodup_cons]
    refine ⟨fun hmem => ?_, ih hn⟩
    obtain ⟨y, hy, he⟩ := List.mem_map.1 hmem
    obtain ⟨m', hm', hi⟩ := exists_of_mem_forall₂ hxs.flip hy
    exact hnew ((hi.eq_of_name hG hx hs hs he).1 ▸ hm')

/-- The methods of a ground interface have names of their own. -/
theorem nodup_of_interfaceMembers (hG : G.Apart N) {t : Ty} {S : MethodSet} (hS : S.Sorted)
    (hN : ∀ s ∈ S, N s.name) {sigs : List Signature}
    (h : G.interfaceMembers t S = .ok (sigs.map .method)) : (sigs.map (·.name)).Nodup := by
  have hinj : Function.Injective (List.map Member.method) :=
    List.map_injective_iff.2 fun _ _ => Member.method.inj
  induction S generalizing sigs with
  | nil =>
    obtain rfl : [] = sigs := hinj (Except.ok.inj h)
    exact .nil
  | cons s S ih =>
    obtain ⟨images, himages, h⟩ := except_bind_eq_ok.1 h
    obtain ⟨rest, hrest, h⟩ := except_bind_eq_ok.1 h
    obtain ⟨xs, rfl, hxs⟩ := signatureImages_eq_ok (fun m hm => hm) himages
    obtain ⟨os, rfl, hos⟩ := lists_of_interfaceMembers hrest
    obtain rfl : xs ++ placeholder G.top s :: os = sigs := by
      refine hinj (Eq.trans ?_ (Except.ok.inj h))
      rw [List.map_append, List.map_cons]
    rw [List.forall_mem_cons] at hN
    obtain ⟨hlt, hS⟩ := List.pairwise_cons.1 hS
    have hapart : ∀ o ∈ [s], ∀ o' ∈ S, o.name ≠ o'.name := by
      intro o ho o' ho' he
      obtain rfl := List.mem_singleton.1 ho
      exact String.lt_irrefl _ (he ▸ hlt o' ho')
    have hone : ∀ o ∈ [s], N o.name := fun o ho => List.mem_singleton.1 ho ▸ hN.1
    have hrest {x y : Signature} (hx : G.Offered t [s] x) (hy : y ∈ os) : x.name ≠ y.name :=
      hx.name_ne hG hone hN.2 hapart ((hos.mem y).1 hy)
    have himage {x : Signature} (hx : x ∈ xs) : ∃ m, G.IsImage t s m x := by
      obtain ⟨m, -, hm⟩ := exists_of_mem_forall₂ hxs.flip hx
      exact ⟨m, hm⟩
    rw [List.map_append, List.map_cons, List.nodup_append, List.nodup_cons]
    refine ⟨nodup_names_of_images hG hN.1 (hG.methsNodup.filter _) hxs, ⟨fun hmem => ?_, ih hS hN.2 ‹_›⟩, ?_⟩
    · obtain ⟨y, hy, he⟩ := List.mem_map.1 hmem
      exact hrest (.placeholder (List.mem_singleton_self s)) hy he.symm
    · intro a ha b hb
      obtain ⟨x, hx, rfl⟩ := List.mem_map.1 ha
      obtain ⟨m, hm⟩ := himage hx
      rcases List.mem_cons.1 hb with rfl | hb
      · exact hm.name_ne hG hN.1 s
      · obtain ⟨y, hy, rfl⟩ := List.mem_map.1 hb
        exact hrest (.image (List.mem_singleton_self s) hm) hy

omit [Digest] in
theorem memberMethods_methods (f : Finder) (sigs : List Signature) (acc : MethodSet) :
    Table.memberMethods f (sigs.map .method) acc = .ok (acc.union sigs) := by
  induction sigs generalizing acc with
  | nil => rfl
  | cons s sigs ih => exact ih (acc.add s)

/-! ## Types with declared methods -/

omit [Digest] in
theorem declaredMethods_of_recvFormals {T : Table} (f : Finder) {mds : List MethodDecl}
    (h : ∀ md ∈ mds, md.recvFormals = []) (acc : MethodSet) :
    T.declaredMethods f [] mds acc = .ok (acc.union (mds.map (·.sig))) := by
  induction mds generalizing acc with
  | nil => rfl
  | cons md mds ih =>
    rw [List.forall_mem_cons] at h
    have hr : T.receiverBy f md.recvFormals [] = .ok (some []) := by
      rw [h.1]
      rfl
    rw [Table.declaredMethods, hr, Answer.ok_bind]
    dsimp only
    rw [Signature.subst_nil]
    exact ih h.2 (acc.add md.sig)

/-! ## Definition chains -/

namespace Declared

variable (hT : G.Declared T')

include hT

/-- A ground type unfolds to its source. -/
theorem underlying {c : String} {args : List Ty} (h : .named c args ∈ G.instances.types) :
    ∃ source, G.IsSource (.named c args) source
      ∧ T'.underlying (.named (typeName c args) []) = .ok source := by
  obtain ⟨td, hok, htd⟩ := hT.types c args h
  obtain ⟨-, hformals, hsource⟩ := typeDecl_eq_ok hok
  refine ⟨td.source, hsource, Table.underlying_eq_ok.2 ⟨td, htd, by rw [hformals]; rfl, ?_⟩⟩
  rw [hformals]
  exact (Ty.subst_nil _).symm

/-- The definition chain of an instance that is no interface ends in the image of what the chain of
the instance ends in. -/
theorem resolves (hF : G.table.Saturated G.instances.sets) {t v : Ty} (hv : G.table.Resolves t v)
    (hi : ∀ ms, v ≠ .interface ms) {c : String} {args : List Ty} (ht : t = .named c args)
    (hmem : t ∈ G.instances.types) :
    ∃ v', imageTy G.top v = .ok v' ∧ T'.Resolves (.named (typeName c args) []) v' := by
  induction hv generalizing c args with
  | stop unnamed =>
    subst ht
    exact unnamed.elim
  | @step d as u v head rest ih =>
    obtain ⟨rfl, rfl⟩ := Ty.named.inj ht
    obtain ⟨source, hsource, hunder⟩ := hT.underlying hmem
    rcases hsource with ⟨htrue, -⟩ | ⟨-, u', hu', himage⟩
    · obtain ⟨w, hw, htrue⟩ := except_bind_eq_ok.1 htrue
      obtain rfl := (Table.Resolves.step head rest).unique (Table.resolves_of_resolve hw)
      cases v with
      | interface ms => exact absurd rfl (hi ms)
      | _ => cases htrue
    · obtain rfl := Except.ok.inj (head.symm.trans hu')
      cases rest with
      | stop unnamed =>
        exact ⟨source, himage, .step hunder (.stop (unnamed_of_imageTy himage unnamed).1)⟩
      | @step d' as' w _ head' rest' =>
        obtain rfl := imageTy_named_eq_ok himage
        obtain ⟨v', himage', hres⟩ := ih hi rfl (hF.source _ _ _ hmem head rfl)
        exact ⟨v', himage', .step hunder hres⟩

/-- A ground type is an interface if the instance is one. -/
theorem resolve_interface {c : String} {args : List Ty} (h : .named c args ∈ G.instances.types)
    (hi : G.table.isInterface (.named c args) = .ok true) :
    ∃ S ms, G.table.methods [] G.fuel (.named c args) = .ok S
      ∧ G.interfaceMembers (.named c args) S = .ok ms
      ∧ T'.resolve (.named (typeName c args) []) = .ok (.interface ms) := by
  obtain ⟨source, hsource, hunder⟩ := hT.underlying h
  rcases hsource with ⟨-, S, ms, hS, hms, rfl⟩ | ⟨hfalse, -⟩
  · exact ⟨S, ms, hS, hms,
      (Table.resolve_eq_ok_iff hT.formals).2 (.step hunder (.stop trivial))⟩
  · rw [hi] at hfalse
    cases hfalse

/-- A ground type is no interface if the instance is none. -/
theorem resolve_other (hF : G.table.Saturated G.instances.sets) {c : String} {args : List Ty}
    (h : .named c args ∈ G.instances.types)
    (hi : G.table.isInterface (.named c args) = .ok false) :
    ∃ v v', G.table.resolve (.named c args) = .ok v ∧ (∀ ms, v ≠ .interface ms)
      ∧ imageTy G.top v = .ok v' ∧ T'.resolve (.named (typeName c args) []) = .ok v'
      ∧ ∀ ms, v' ≠ .interface ms := by
  obtain ⟨v, hv, hfalse⟩ := except_bind_eq_ok.1 hi
  have hne : ∀ ms, v ≠ .interface ms := by
    rintro ms rfl
    cases hfalse
  have hres := Table.resolves_of_resolve hv
  obtain ⟨v', himage, hres'⟩ := hT.resolves hF hres hne rfl h
  refine ⟨v, v', hv, hne, himage, (Table.resolve_eq_ok_iff hT.formals).2 hres', fun ms he => ?_⟩
  obtain ⟨ms', hms'⟩ := (unnamed_of_imageTy himage hres.unnamed).2.1 ⟨ms, he⟩
  exact hne ms' hms'

/-- A ground type is an interface just if the instance is one. -/
theorem isInterface (hF : G.table.Saturated G.instances.sets) {c : String} {args : List Ty}
    (h : .named c args ∈ G.instances.types) : ∃ b, G.table.isInterface (.named c args) = .ok b
      ∧ T'.isInterface (.named (typeName c args) []) = .ok b := by
  obtain ⟨source, hsource, -⟩ := hT.underlying h
  rcases hsource with ⟨hi, -⟩ | ⟨hi, -⟩
  · obtain ⟨S, ms, -, -, hres⟩ := hT.resolve_interface h hi
    exact ⟨true, hi, Closure.isInterface_of_resolve hres⟩
  · obtain ⟨v, v', -, -, -, hres, hne⟩ := hT.resolve_other hF h hi
    refine ⟨false, hi, except_bind_eq_ok.2 ⟨v', hres, ?_⟩⟩
    cases v' with
    | interface ms => exact absurd rfl (hne ms)
    | _ => rfl

end Declared

/-! ## Method sets -/

/-- The method sets of an instance and of its ground form. -/
structure Sets (G : Grounding) (T' : Table) (c : String) (args : List Ty) (S S' : MethodSet) :
    Prop where
  generic : G.table.allMethods [] (.named c args) = .ok S
  ground : T'.allMethods [] (.named (typeName c args) []) = .ok S'
  mem : ∀ x, x ∈ S' ↔ G.Offered (.named c args) S x
  images : ∀ s ∈ S, ∀ m ∈ G.instancesOf (.named c args) s.name s.formals,
    ∃ x, G.IsImage (.named c args) s m x

omit [Digest] in
/-- Which methods apply does not depend on more fuel. -/
theorem receiverBy_iff {args : List Ty} {md : MethodDecl}
    (h : ∃ r, G.table.receiver G.fuel [] md.recvFormals args = .ok r) {η : Env Ty} :
    G.table.receiverBy (G.table.allMethods []) md.recvFormals args = .ok (some η)
      ↔ G.AppliesAt args md ∧ η = instantiation md.recvFormals args := by
  obtain ⟨r, hr⟩ := h
  have hall := (Table.finitary_receiverBy _ md.recvFormals args).of_methods hr
  rw [AppliesAt, hr, hall]
  constructor
  · intro he
    obtain rfl := Answer.ok.inj he
    obtain ⟨-, rfl, -⟩ := Table.receiverBy_eq_some.1 hall
    exact ⟨rfl, rfl⟩
  · rintro ⟨he, rfl⟩
    exact he

omit [Digest] in
theorem instancesOf_subst {t : Ty} {s : Signature} {η : Env Ty} :
    G.instancesOf t (s.subst η).name (s.subst η).formals = G.instancesOf t s.name s.formals := by
  rw [instancesOf, instancesOf, Signature.name_subst, Signature.length_formals_subst]

/-- A ground method has the image of what the method is at the receiver's arguments. -/
theorem IsInstance.isImage {c : String} {args : List Ty} {md g : MethodDecl} {m : MethodInstance}
    (h : G.IsInstance c args md m g)
    (hground : ∀ m ∈ G.instances.meths, ∀ t ∈ m.targs, t.isGround = true)
    (hargs : ∀ t ∈ args, t.isGround = true) :
    G.IsImage (.named c args) (md.sig.subst (instantiation md.recvFormals args)) m g.sig := by
  obtain ⟨hmeths, -, -, hl⟩ := mem_instancesOf.1 h.mem
  obtain ⟨-, hparams, hresult⟩ :=
    md.parts_at (fun t ht => Ty.freeParams_of_isGround (hargs t ht)) hl.symm
      (fun t ht => Ty.freeParams_of_isGround (hground m hmeths t ht)) rfl
  refine ⟨by rw [instancesOf_subst]; exact h.mem, ?_⟩
  rw [hparams, hresult, Signature.name_subst]
  exact h.sig

namespace Declared

variable (hT : G.Declared T')

include hT

/-- What an instance that is no interface offers is declared. -/
theorem mem_declaredMethods (hU : G.table.MethodsUnique) {c : String} {args : List Ty}
    (h : .named c args ∈ G.instances.types)
    (hi : G.table.isInterface (.named c args) = .ok false)
    (hS : G.table.declaredMethods (G.table.allMethods []) args (G.table.methodsOn c) [] = .ok S)
    {s : Signature} : s ∈ S ↔ ∃ md, G.Live c args md ∧ G.AppliesAt args md
      ∧ s = md.sig.subst (instantiation md.recvFormals args) := by
  constructor
  · intro hs
    rcases Table.of_mem_declaredMethods hS hs with hs | ⟨md, hmd, η, hη, rfl⟩
    · cases hs
    · have hlive : G.Live c args md := ⟨h, hi, hmd⟩
      obtain ⟨happ, rfl⟩ := (receiverBy_iff (hT.receivers c args md hlive)).1 hη
      exact ⟨md, hlive, happ, rfl⟩
  · rintro ⟨md, hlive, happ, rfl⟩
    obtain ⟨hmd, rfl⟩ := Table.mem_methodsOn.1 hlive.2.2
    have hη := (receiverBy_iff (hT.receivers _ args md hlive)).2 ⟨happ, rfl⟩
    exact (MethodSet.mem_of_find?
      ((hU.find?_declaredMethods hS).2 ⟨md, _, hU md hmd, hη, rfl⟩)).1

/-- The methods on a ground type list what is offered. -/
theorem lists_of_methodsOn (hG : G.Apart N) (hU : G.table.MethodsUnique)
    (hground : ∀ m ∈ G.instances.meths, ∀ t ∈ m.targs, t.isGround = true) {c : String}
    {args : List Ty} (hargs : ∀ t ∈ args, t.isGround = true) (h : .named c args ∈ G.instances.types)
    (hi : G.table.isInterface (.named c args) = .ok false)
    (hS : G.table.declaredMethods (G.table.allMethods []) args (G.table.methodsOn c) [] = .ok S) :
    G.Lists (.named c args) S ((T'.methodsOn (typeName c args)).map (·.sig)) := by
  have hmem {s : Signature} := hT.mem_declaredMethods hU h hi hS (s := s)
  refine ⟨fun x => ⟨fun hx => ?_, fun hx => ?_⟩, fun s hs m hm => ?_⟩
  · obtain ⟨g, hg, rfl⟩ := List.mem_map.1 hx
    obtain ⟨hg, hrecv⟩ := Table.mem_methodsOn.1 hg
    obtain ⟨c', args', md, hlive, hmakes⟩ := hT.methods.made g hg
    rw [recvType_of_makes hmakes] at hrecv
    obtain ⟨rfl, rfl⟩ := Ty.named.inj (hG.types _ _ _ _ hlive.1 h hrecv)
    rcases hmakes with ⟨happ, rfl⟩ | ⟨m, hm⟩
    · exact .placeholder (hmem.2 ⟨md, hlive, happ, rfl⟩)
    · exact .image (hmem.2 ⟨md, hlive, hm.applies, rfl⟩) (hm.isImage hground hargs)
  · cases hx with
    | placeholder hs =>
      obtain ⟨md, hlive, happ, rfl⟩ := hmem.1 hs
      have hg := hT.methods.placeholder c args md hlive happ
      exact List.mem_map.2 ⟨_, Table.mem_methodsOn.2 ⟨hg, rfl⟩, rfl⟩
    | @image s m x hs hx =>
      obtain ⟨md, hlive, happ, rfl⟩ := hmem.1 hs
      have hm := hx.mem
      rw [instancesOf_subst] at hm
      obtain ⟨g, hg, hi⟩ := hT.methods.instances c args md m hlive happ hm
      refine List.mem_map.2 ⟨g, Table.mem_methodsOn.2 ⟨hg, hi.recvType⟩, ?_⟩
      exact Except.ok.inj ((hi.isImage hground hargs).image.symm.trans hx.image)
  · obtain ⟨md, hlive, happ, rfl⟩ := hmem.1 hs
    rw [instancesOf_subst] at hm
    obtain ⟨g, -, hi⟩ := hT.methods.instances c args md m hlive happ hm
    exact ⟨g.sig, hi.isImage hground hargs⟩

/-- **For what an instance offers its ground form offers placeholders and images, and nothing else.** -/
theorem exists_sets (hG : G.Apart N) (hF : G.table.Saturated G.instances.sets)
    (hU : G.table.MethodsUnique)
    (hground : ∀ m ∈ G.instances.meths, ∀ t ∈ m.targs, t.isGround = true) {c : String}
    {args : List Ty} (hargs : ∀ t ∈ args, t.isGround = true) (h : .named c args ∈ G.instances.types)
    (hN : ∀ S, G.table.allMethods [] (.named c args) = .ok S → ∀ s ∈ S, N s.name) :
    ∃ S S', G.Sets T' c args S S' := by
  have hof {S : MethodSet} {sigs : List Signature}
      (hS : G.table.allMethods [] (.named c args) = .ok S) (hl : G.Lists (.named c args) S sigs)
      (hS' : T'.allMethods [] (.named (typeName c args) []) = .ok (MethodSet.union [] sigs)) :
      ∃ S S', G.Sets T' c args S S' :=
    ⟨S, _, hS, hS', fun x => hl.mem_union hG (Table.sorted_allMethods hS) (hN S hS), hl.images⟩
  obtain ⟨b, hb, -⟩ := hT.isInterface hF h
  cases b with
  | true =>
    obtain ⟨S, ms, hS, hms, hres⟩ := hT.resolve_interface h hb
    obtain ⟨sigs, rfl, hl⟩ := lists_of_interfaceMembers hms
    refine hof (Table.allMethods_of_methods hS) hl ?_
    rw [Table.allMethods_of_resolve_interface hres, Table.allMethods_interface,
      memberMethods_methods]
  | false =>
    obtain ⟨v, v', hv, hne, -, hv', hne'⟩ := hT.resolve_other hF h hb
    have heq := Table.allMethods_of_resolve (Δ := []) hv hne
    obtain ⟨S, hS⟩ : ∃ S, G.table.declaredMethods (G.table.allMethods []) args
        (G.table.methodsOn c) [] = .ok S := by
      refine Table.declaredMethods_total [] fun md hmd => ?_
      obtain ⟨r, hr⟩ := hT.receivers c args md ⟨h, hb, hmd⟩
      exact ⟨r, (Table.finitary_receiverBy _ md.recvFormals args).of_methods hr⟩
    refine hof (heq.trans hS) (hT.lists_of_methodsOn hG hU hground hargs h hb hS) ?_
    rw [Table.allMethods_of_resolve hv' hne', declaredMethods_of_recvFormals]
    intro g hg
    obtain ⟨_, _, _, -, hmakes⟩ := hT.methods.made g (Table.mem_methodsOn.1 hg).1
    exact recvFormals_of_makes hmakes

end Declared

end Grounding

end FeatherGo.Ground
