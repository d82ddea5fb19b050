import FeatherGo.Proofs.Discovery.Least

/-!
# Passes and their limit

Over a ground saturated set in which typing answers (`Table.Answers`) every pass comes to an end
(`Closure.exists_pass`). Each pass but the last adds an instance, so a run ends or makes as many
passes as it may, and then it has found as many instances (`Closure.runFrom_ok_or_passLimit`).
-/

namespace FeatherGo

open Track

/-- Typing answers what discovery asks about the members of a ground set. -/
structure Table.Answers (T : Table) (fuel : Nat) (S : InstanceSets) : Prop where
  typesGround : ∀ t ∈ S.1, t.isGround = true
  methsGround : ∀ m ∈ S.2, ∀ t ∈ m.recv :: m.targs, t.isGround = true
  demanded : ∀ t ∈ S.1, ∃ ds, Closure.demanded T t = .ok ds
  decided : ∀ m ∈ S.2, ∃ b, T.isInterface m.recv = .ok b
  implements : ∀ m ∈ S.2, T.isInterface m.recv = .ok true → ∀ t ∈ S.1, t.isNamed = true →
    t ≠ m.recv → ∃ b, T.implements fuel [] t m.recv = .ok b
  embedded : ∀ m ∈ S.2, T.isInterface m.recv = .ok true →
    ∃ us, Closure.embeddedIn T m.recv = .ok us ∧ ∀ u ∈ us, ∃ E, T.methods [] fuel u = .ok E
  methods : ∀ m ∈ S.2, ∃ E, T.methods [] fuel m.recv = .ok E
  bodies : ∀ c args m md, m ∈ S.2 → m.recv = .named c args → m.recv ∈ S.1 →
    T.isInterface m.recv = .ok false → T.method? c m.meth = some md →
    md.recvFormals.length = args.length → md.sig.formals.length = m.targs.length → ∃ found,
      (Checker.mk T true fuel).collect [] (Closure.bodyScope m args md) (md.body.substTypes
        (instantiation md.recvFormals args ++ instantiation md.sig.formals m.targs)) .empty
        = (.ok (), found)

namespace Closure

variable {T : Table} {fuel : Nat} {S : InstanceSets}

/-! ## Visits come to an end -/

theorem bind_apply {α β : Type} {x : Visit α} {f : α → Visit β} {s s' : Frontier} {a : α}
    (hx : x.Ends s a s') : (x >>= f) s = f a s' := by
  rw [Ends] at hx
  change x.bind f s = f a s'
  rw [Track.bind, hx]

theorem exists_bind {α β : Type} {x : Visit α} {f : α → Visit β} {s s' : Frontier} {a : α} {b : β}
    (hx : x.Ends s a s') (hf : ∃ s'', (f a).Ends s' b s'') : ∃ s'', (x >>= f).Ends s b s'' := by
  obtain ⟨s'', hf⟩ := hf
  exact ⟨s'', ends_bind.2 ⟨a, s', hx, hf⟩⟩

theorem ends_typing {α : Type} {x : Answer TypeError α} {a : α} (h : x = .ok a)
    (s : Frontier) : (typing x).Ends s a s := by
  rw [h]
  rfl

theorem ends_permit {ts : List Ty} (h : ∀ t ∈ ts, t.isGround = true) (s : Frontier) :
    ((ground T fuel).permit ts).Ends s () s := by
  have hnone : ts.findSome? (ground T fuel).refusal? = none :=
    List.findSome?_eq_none_iff.2 fun t ht => by simp [refusal?, ground, h t ht]
  rw [permit, hnone]
  rfl

theorem exists_addType {t : Ty} (ht : t.isGround = true) (s : Frontier) :
    ∃ b s', ((ground T fuel).addType t).Ends s b s' :=
  ⟨_, _, ends_bind.2 ⟨(), s, ends_permit (by simpa using ht) s,
    ends_bind.2 ⟨s, s, rfl, ends_bind.2 ⟨(), _, rfl, rfl⟩⟩⟩⟩

theorem exists_addMethod {m : MethodInstance} (hm : ∀ t ∈ m.recv :: m.targs, t.isGround = true)
    (s : Frontier) : ∃ b s', ((ground T fuel).addMethod m).Ends s b s' :=
  ⟨_, _, ends_bind.2 ⟨(), s, ends_permit hm s,
    ends_bind.2 ⟨s, s, rfl, ends_bind.2 ⟨(), _, rfl, rfl⟩⟩⟩⟩

theorem exists_addTypes {ts : List Ty} (hts : ∀ t ∈ ts, t.isGround = true) (s : Frontier) :
    ∃ s', ((ground T fuel).addTypes ts).Ends s () s' := by
  induction ts generalizing s with
  | nil => exact ⟨s, rfl⟩
  | cons t ts ih =>
    rw [List.forall_mem_cons] at hts
    obtain ⟨b, s₁, h₁⟩ : ∃ b s₁, ((ground T fuel).addType t).Ends s b s₁ := exists_addType hts.1 s
    exact exists_bind h₁ (ih hts.2 s₁)

theorem exists_addMethods {ms : List MethodInstance}
    (hms : ∀ m ∈ ms, ∀ t ∈ m.recv :: m.targs, t.isGround = true) (s : Frontier) :
    ∃ s', ((ground T fuel).addMethods ms).Ends s () s' := by
  induction ms generalizing s with
  | nil => exact ⟨s, rfl⟩
  | cons m ms ih =>
    rw [List.forall_mem_cons] at hms
    obtain ⟨b, s₁, h₁⟩ : ∃ b s₁, ((ground T fuel).addMethod m).Ends s b s₁ :=
      exists_addMethod hms.1 s
    exact exists_bind h₁ (ih hms.2 s₁)

section Rules

variable (hA : T.Answers fuel S)

include hA

theorem exists_addFrom {Γ : Scope} {e : Expr} {found : Instances}
    (hc : (Checker.mk T true fuel).collect [] Γ e .empty = (.ok (), found)) (hfound : found.sets ≤ S)
    (s : Frontier) : ∃ s', ((ground T fuel).addFrom Γ e).Ends s () s' := by
  obtain ⟨htypes, hmeths⟩ := Instances.sets_le.1 hfound
  have hcollect : (ground T fuel).checker.collect (ground T fuel).bounds Γ e .empty
      = (.ok (), found) := hc
  rw [addFrom, hcollect]
  obtain ⟨s₁, h₁⟩ := exists_addTypes (T := T) (fun t ht => hA.typesGround t (htypes t ht)) s
  exact exists_bind (ends_typing rfl s) (exists_bind h₁
    (exists_addMethods (fun m hm => hA.methsGround m (hmeths m hm)) s₁))

theorem exists_implementers {m : MethodInstance} (hm : m ∈ S.2) (hi : T.isInterface m.recv = .ok true)
    {ts : List Ty} (hts : ∀ t ∈ ts, t ∈ S.1) (s : Frontier) :
    ∃ s', ((ground T fuel).implementers m ts).Ends s () s' := by
  induction ts generalizing s with
  | nil => exact ⟨s, rfl⟩
  | cons t ts ih =>
    rw [List.forall_mem_cons] at hts
    rw [implementers]
    dsimp only
    by_cases hc : (t.isNamed && decide (t ≠ m.recv)) = true
    · rw [if_pos hc]
      obtain ⟨hn, hne⟩ := Bool.and_eq_true_iff.1 hc
      obtain ⟨b, hb⟩ := hA.implements m hm hi t hts.1 hn (of_decide_eq_true hne)
      refine exists_bind (ends_typing hb s) ?_
      cases b with
      | true =>
        have hground : ∀ u ∈ t :: m.targs, u.isGround = true := List.forall_mem_cons.2
          ⟨hA.typesGround t hts.1, fun u hu => hA.methsGround m hm u (List.mem_cons_of_mem _ hu)⟩
        obtain ⟨new, s₁, h₁⟩ := exists_addMethod (T := T) (m := ⟨t, m.meth, m.targs⟩) hground s
        exact exists_bind h₁ (ih hts.2 s₁)
      | false => exact ih hts.2 s
    · rw [if_neg hc]
      exact ih hts.2 s

variable (hS : T.Saturated S)

include hS

theorem exists_growTypes {ts : List Ty} (hts : ∀ t ∈ ts, t ∈ S.1) (s : Frontier) :
    ∃ s', ((ground T fuel).growTypes ts).Ends s () s' := by
  induction ts generalizing s with
  | nil => exact ⟨s, rfl⟩
  | cons t ts ih =>
    rw [List.forall_mem_cons] at hts
    obtain ⟨ds, hds⟩ := hA.demanded t hts.1
    obtain ⟨s₁, h₁⟩ := exists_addTypes (T := T) (fun d hd => hA.typesGround d
      (Saturated.mem_of_demands hS hts.1 ((mem_demanded hds).1 hd))) s
    exact exists_bind (ends_typing (Answer.ofExcept_eq_ok.2 hds) s) (exists_bind h₁ (ih hts.2 s₁))

theorem exists_embeddings {m : MethodInstance} (hm : m ∈ S.2) {ts : List Ty}
    (hts : ∀ t ∈ ts, (∃ ms d as, T.resolve m.recv = .ok (.interface ms) ∧ .embed d as ∈ ms
      ∧ t = .named d as) ∧ ∃ E, T.methods [] fuel t = .ok E) (s : Frontier) :
    ∃ s', ((ground T fuel).embeddings m ts).Ends s () s' := by
  induction ts generalizing s with
  | nil => exact ⟨s, rfl⟩
  | cons t ts ih =>
    rw [List.forall_mem_cons] at hts
    obtain ⟨⟨⟨ms, d, as, hms, hd, rfl⟩, E, hE⟩, hts⟩ := hts
    refine exists_bind (ends_typing hE s) ?_
    dsimp only
    by_cases hc : (E.find? m.meth).isSome = true
    · rw [if_pos hc]
      have hmem := hS.embeddings m ms d as fuel E hm hms hd hE hc
      obtain ⟨new, s₁, h₁⟩ := exists_addMethod (T := T) (hA.methsGround _ hmem) s
      exact exists_bind h₁ (ih hts s₁)
    · rw [if_neg hc]
      exact ih hts s

theorem exists_signatureTypes {m : MethodInstance} (hm : m ∈ S.2) (s : Frontier) :
    ∃ s', ((ground T fuel).signatureTypes m).Ends s () s' := by
  obtain ⟨E, hE⟩ := hA.methods m hm
  refine exists_bind (ends_typing hE s) ?_
  split
  · exact ⟨s, rfl⟩
  · rename_i sig hsig
    by_cases hl : sig.formals.length = m.targs.length
    · rw [if_pos hl]
      obtain ⟨hparams, hresult⟩ := hS.signature m fuel E sig hm hE hsig hl
      refine exists_addTypes (fun t ht => hA.typesGround t ?_) s
      rcases List.mem_append.1 ht with ht | ht
      · obtain ⟨p, hp, rfl⟩ := List.mem_map.1 ht
        exact hparams p hp
      · exact List.mem_singleton.1 ht ▸ hresult
    · rw [if_neg hl]
      exact ⟨s, rfl⟩

theorem exists_bodies {m : MethodInstance} (hm : m ∈ S.2) {s : Frontier} (hs : s.found.Within S) :
    ∃ s', ((ground T fuel).bodies m).Ends s () s' := by
  rw [bodies]
  split
  · rename_i c args hr
    obtain ⟨b, hb⟩ := hA.decided m hm
    refine exists_bind (ends_typing (Answer.ofExcept_eq_ok.2 hb) s) ?_
    cases b with
    | true => exact ⟨s, rfl⟩
    | false =>
      refine exists_bind (show Track.state.Ends s s s from rfl) ?_
      split
      · rename_i md hmd
        by_cases hmem : m.recv ∈ s.found.types
        · rw [if_pos (hr ▸ hmem)]
          refine exists_bind (show ((ground T fuel).visit c m).Ends s _ _ from rfl) ?_
          dsimp only
          split
          · rw [body]
            split
            · rename_i hl
              have hrecv := hs.le.1 hmem
              obtain ⟨found, hfound⟩ := hA.bodies c args m md hm hr hrecv hb hmd hl.1 hl.2
              have hle := hS.body c args m md found hm hr hrecv hb hmd hl.1 hl.2 ⟨fuel, hfound⟩
              exact exists_addFrom hA hfound hle _
            · exact ⟨_, rfl⟩
          · exact ⟨_, rfl⟩
        · rw [if_neg (hr ▸ hmem)]
          exact ⟨s, rfl⟩
      · exact ⟨s, rfl⟩
  · exact ⟨s, rfl⟩

theorem exists_growMethod {types : List Ty} (htypes : ∀ t ∈ types, t ∈ S.1) {m : MethodInstance}
    (hm : m ∈ S.2) {s : Frontier} (hs : s.found.Within S) :
    ∃ s', ((ground T fuel).growMethod types m).Ends s () s' := by
  have hrest {s : Frontier} (hs : s.found.Within S) : ∃ s', (do
      (ground T fuel).signatureTypes m
      (ground T fuel).bodies m : Visit Unit).Ends s () s' := by
    obtain ⟨s₁, h₁⟩ := exists_signatureTypes hA hS hm s
    exact exists_bind h₁ (exists_bodies hA hS hm (within_of_signatureTypes hS hm h₁ hs))
  obtain ⟨b, hb⟩ := hA.decided m hm
  refine exists_bind (ends_typing (Answer.ofExcept_eq_ok.2 hb) s) ?_
  dsimp only
  cases b with
  | true =>
    rw [if_pos rfl]
    obtain ⟨us, hus, hE⟩ := hA.embedded m hm hb
    have hembedded := fun u hu => And.intro ((mem_embeddedIn hus).1 hu) (hE u hu)
    obtain ⟨s₁, h₁⟩ := exists_implementers hA hm hb htypes s
    obtain ⟨s₂, h₂⟩ := exists_embeddings hA hS hm hembedded s₁
    have hs₂ := within_of_embeddings hS hm (fun u hu => (hembedded u hu).1) h₂
      (within_of_implementers hS hm hb htypes h₁ hs)
    exact exists_bind h₁ (exists_bind (ends_typing (Answer.ofExcept_eq_ok.2 hus) s₁)
      (exists_bind h₂ (hrest hs₂)))
  | false =>
    rw [if_neg (by simp)]
    exact hrest hs

theorem exists_growMethods {types : List Ty} (htypes : ∀ t ∈ types, t ∈ S.1)
    {ms : List MethodInstance} (hms : ∀ m ∈ ms, m ∈ S.2) {s : Frontier} (hs : s.found.Within S) :
    ∃ s', ((ground T fuel).growMethods types ms).Ends s () s' := by
  induction ms generalizing s with
  | nil => exact ⟨s, rfl⟩
  | cons m ms ih =>
    rw [List.forall_mem_cons] at hms
    obtain ⟨s₁, h₁⟩ := exists_growMethod hA hS htypes hms.1 hs
    exact exists_bind h₁ (ih hms.2 (within_of_growMethod hS htypes hms.1 h₁ hs))

/-- Passes come to an end. -/
theorem exists_pass {s : Frontier} (hs : s.found.Within S) :
    ∃ s', (ground T fuel).pass.Ends s () s' := by
  obtain ⟨s₁, h₁⟩ := exists_growTypes hA hS (fun _ ht => hs.le.1 ht) s
  have hs₁ := within_of_growTypes hS (fun _ ht => hs.le.1 ht) h₁ hs
  exact exists_bind (show Track.state.Ends s s s from rfl) (exists_bind h₁
    (exists_growMethods hA hS (fun _ ht => hs.le.1 ht) (fun _ hm => hs.le.2 hm) hs₁))

/-! ## Runs come to an end, or to the limit -/

/-- A run ends, or it runs into its limit after passes that all added an instance. -/
theorem runFrom_ok_or_passLimit {most rounds passes : Nat} (hrounds : rounds + passes = max 1 most)
    (hpasses : passes < max 1 most) {s : Frontier} (hs : s.found.Within S)
    (hsound : (ground T fuel).Sound s) {r : Answer MonoError Nat} {s' : Frontier}
    (hrun : (ground T fuel).runFrom (some most) rounds passes s = (r, s')) :
    (∃ n, r = .ok n) ∨ (r = .error (.passLimit (max 1 most)) ∧ s'.found.Within S
      ∧ s.found.size + rounds ≤ s'.found.size) := by
  induction rounds generalizing passes s with
  | zero => omega
  | succ rounds ih =>
    obtain ⟨s₁, h₁⟩ := exists_pass hA hS hs
    have hs₁ := within_of_pass hS h₁ hs
    obtain ⟨hle, hsound₁, -⟩ := of_pass rfl h₁ hsound
    have hle : s.found.size ≤ s₁.found.size :=
      Nat.add_le_add hle.types.length_le hle.meths.length_le
    have hstate (s : Frontier) : (Track.state : Visit Frontier).Ends s s s := rfl
    rw [runFrom, bind_apply (hstate s), bind_apply h₁, bind_apply (hstate s₁)] at hrun
    by_cases hsize : s₁.found.size = s.found.size
    · rw [if_pos hsize] at hrun
      exact .inl ⟨passes + 1, (Prod.mk.inj hrun).1.symm⟩
    · rw [if_neg hsize, Option.any_some] at hrun
      by_cases hmost : most ≤ passes + 1
      · rw [if_pos (decide_eq_true hmost)] at hrun
        obtain ⟨rfl, rfl⟩ := Prod.mk.inj hrun
        refine .inr ⟨?_, hs₁, by omega⟩
        rw [show max 1 most = passes + 1 by omega]
      · rw [if_neg (by simpa using hmost)] at hrun
        rcases ih (by omega) (by omega) hs₁ hsound₁ hrun with hok | ⟨herror, hwithin, hgrown⟩
        · exact .inl hok
        · exact .inr ⟨herror, hwithin, by omega⟩

end Rules

/-- Discovery is a run from what the main expression holds. -/
theorem discover_eq_run {main : Expr} {s s' : Frontier} {limit : Option Nat}
    {r : Answer MonoError Nat} (hs : ((ground T fuel).addFrom [] main).Ends .empty () s)
    (hrun : (ground T fuel).run limit s = (r, s')) :
    discover fuel T main limit = (do let _ ← r; return s'.found) := by
  have hbind : ((ground T fuel).run limit >>= fun _ => pure ()) s = (do let _ ← r; return (), s') := by
    change Track.bind _ _ _ = _
    rw [Track.bind, hrun]
    cases r <;> rfl
  rw [discover]
  dsimp only
  rw [bind_apply hs, hbind]
  cases r <;> rfl

end Closure

end FeatherGo
