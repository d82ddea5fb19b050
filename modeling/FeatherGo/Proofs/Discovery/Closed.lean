import FeatherGo.Proofs.Discovery.Visits

/-!
# Discovery ends in a closed set

The last pass adds nothing, so what it would add is there: `Closure.of_discover` says that the
instances which discovery answers hold those of the main expression and, with every instance, all
that it demands.
-/

namespace FeatherGo

namespace Closure

variable {K : Closure} {s s' : Frontier} {F F' : Instances}

/-! ## Demands in growing sets -/

theorem TypeDone.mono {t : Ty} (h : K.TypeDone t F) (hF : F.Le F') : K.TypeDone t F' := by
  obtain ⟨ds, hds, hmem⟩ := h
  exact ⟨ds, hds, fun d hd => hF.mem_types (hmem d hd)⟩

theorem ImplementerDone.mono {m : MethodInstance} {t : Ty} (h : K.ImplementerDone m t F)
    (hF : F.Le F') : K.ImplementerDone m t F' := by
  intro hn hne
  obtain ⟨b, hb, hmem⟩ := h hn hne
  exact ⟨b, hb, fun ht => hF.mem_meths (hmem ht)⟩

theorem EmbeddingDone.mono {m : MethodInstance} {t : Ty} (h : K.EmbeddingDone m t F)
    (hF : F.Le F') : K.EmbeddingDone m t F' := by
  obtain ⟨S, hS, hmem⟩ := h
  exact ⟨S, hS, fun hs => hF.mem_meths (hmem hs)⟩

theorem SignatureDone.mono {m : MethodInstance} (h : K.SignatureDone m F) (hF : F.Le F') :
    K.SignatureDone m F' := by
  obtain ⟨S, hS, hmem⟩ := h
  refine ⟨S, hS, fun sig hsig hl => ?_⟩
  obtain ⟨hparams, hresult⟩ := hmem sig hsig hl
  exact ⟨fun p hp => hF.mem_types (hparams p hp), hF.mem_types hresult⟩

/-- What a call demands beside some types is in a set. -/
structure MethodDone (K : Closure) (types : List Ty) (m : MethodInstance) (F : Instances) :
    Prop where
  decided : ∃ b, K.table.isInterface m.recv = .ok b
  implementers : K.table.isInterface m.recv = .ok true → ∀ t ∈ types, K.ImplementerDone m t F
  embeddings : K.table.isInterface m.recv = .ok true →
    ∃ us, embeddedIn K.table m.recv = .ok us ∧ ∀ u ∈ us, K.EmbeddingDone m u F
  signature : K.SignatureDone m F
  body : K.table.isInterface m.recv = .ok false → m.recv ∈ types → K.BodyDone m F

theorem MethodDone.mono {types : List Ty} {m : MethodInstance} (h : K.MethodDone types m F)
    (hF : F.Le F') : K.MethodDone types m F' where
  decided := h.decided
  implementers hi t ht := (h.implementers hi t ht).mono hF
  embeddings hi := by
    obtain ⟨us, hus, hall⟩ := h.embeddings hi
    exact ⟨us, hus, fun u hu => (hall u hu).mono hF⟩
  signature := h.signature.mono hF
  body hi hm := (h.body hi hm).mono hF

/-! ## Passes -/

theorem of_growMethod (hK : K.admission = .ground) {types : List Ty} {m : MethodInstance}
    (h : (K.growMethod types m).Ends s () s') (hs : K.Sound s)
    (htypes : ∀ t ∈ types, t ∈ s.found.types) :
    s.found.Le s'.found ∧ K.Sound s' ∧ K.MethodDone types m s'.found := by
  obtain ⟨b, s₁, h₁, h⟩ := Track.ends_bind.1 h
  obtain ⟨hb, rfl⟩ := of_typing h₁
  rw [Answer.ofExcept_eq_ok] at hb
  cases b with
  | true =>
    dsimp only at h
    rw [if_pos rfl] at h
    obtain ⟨⟨⟩, s₂, h₂, h⟩ := Track.ends_bind.1 h
    obtain ⟨hext₂, himpl⟩ := of_implementers h₂
    obtain ⟨us, s₃, h₃, h⟩ := Track.ends_bind.1 h
    obtain ⟨hus, rfl⟩ := of_typing h₃
    rw [Answer.ofExcept_eq_ok] at hus
    obtain ⟨⟨⟩, s₄, h₄, h⟩ := Track.ends_bind.1 h
    obtain ⟨hext₄, hembed⟩ := of_embeddings h₄
    obtain ⟨⟨⟩, s₅, h₅, h⟩ := Track.ends_bind.1 h
    obtain ⟨hext₅, hsig⟩ := of_signatureTypes h₅
    obtain ⟨hle, hsound, -⟩ := of_bodies hK h (hext₅.sound (hext₄.sound (hext₂.sound hs)))
    have hle₄ := hext₅.found.trans hle
    refine ⟨hext₂.found.trans (hext₄.found.trans hle₄), hsound, ⟨true, hb⟩, fun _ t ht => ?_,
      fun _ => ⟨us, hus, fun u hu => (hembed u hu).mono hle₄⟩, hsig.mono hle, fun hf => ?_⟩
    · exact (himpl t ht).mono (hext₄.found.trans hle₄)
    · rw [hb] at hf
      cases hf
  | false =>
    dsimp only at h
    rw [if_neg (by simp)] at h
    obtain ⟨⟨⟩, s₅, h₅, h⟩ := Track.ends_bind.1 h
    obtain ⟨hext₅, hsig⟩ := of_signatureTypes h₅
    obtain ⟨hle, hsound, hbody⟩ := of_bodies hK h (hext₅.sound hs)
    refine ⟨hext₅.found.trans hle, hsound, ⟨false, hb⟩, fun ht => ?_, fun ht => ?_,
      hsig.mono hle, fun hf hm => hbody hf (hext₅.found.mem_types (htypes _ hm))⟩
    all_goals
      rw [hb] at ht
      cases ht

theorem of_growMethods (hK : K.admission = .ground) {types : List Ty} {ms : List MethodInstance}
    (h : (K.growMethods types ms).Ends s () s') (hs : K.Sound s)
    (htypes : ∀ t ∈ types, t ∈ s.found.types) :
    s.found.Le s'.found ∧ K.Sound s' ∧ ∀ m ∈ ms, K.MethodDone types m s'.found := by
  induction ms generalizing s with
  | nil =>
    obtain ⟨-, rfl⟩ := Track.of_ends_pure h
    exact ⟨.refl _, hs, by simp⟩
  | cons m ms ih =>
    obtain ⟨⟨⟩, s₁, h₁, h⟩ := Track.ends_bind.1 h
    obtain ⟨hle, hsound, hm⟩ := of_growMethod hK h₁ hs htypes
    obtain ⟨hle', hsound', hms⟩ := ih h hsound fun t ht => hle.mem_types (htypes t ht)
    exact ⟨hle.trans hle', hsound', List.forall_mem_cons.2 ⟨hm.mono hle', hms⟩⟩

theorem of_pass (hK : K.admission = .ground) (h : K.pass.Ends s () s') (hs : K.Sound s) :
    s.found.Le s'.found ∧ K.Sound s' ∧ (∀ t ∈ s.found.types, K.TypeDone t s'.found)
      ∧ ∀ m ∈ s.found.meths, K.MethodDone s.found.types m s'.found := by
  obtain ⟨s₁, s₂, h₁, h⟩ := Track.ends_bind.1 h
  obtain ⟨rfl, rfl⟩ := Track.of_ends_state h₁
  obtain ⟨⟨⟩, s₃, h₃, h⟩ := Track.ends_bind.1 h
  obtain ⟨hext, htypes⟩ := of_growTypes h₃
  obtain ⟨hle, hsound, hmeths⟩ :=
    of_growMethods hK h (hext.sound hs) fun t ht => hext.found.mem_types ht
  exact ⟨hext.found.trans hle, hsound, fun t ht => (htypes t ht).mono hle, hmeths⟩

/-! ## The run -/

/-- A set of instances holds all that its instances demand. -/
structure Closed (K : Closure) (F : Instances) : Prop where
  types : ∀ t ∈ F.types, K.TypeDone t F
  meths : ∀ m ∈ F.meths, K.MethodDone F.types m F

/-- A run that ends has added to what was found until it was closed. -/
theorem of_runFrom (hK : K.admission = .ground) {limit : Option Nat} {rounds passes n : Nat}
    (h : (K.runFrom limit rounds passes).Ends s n s') (hs : K.Sound s) :
    s.found.Le s'.found ∧ K.Closed s'.found := by
  induction rounds generalizing s passes with
  | zero => cases h
  | succ rounds ih =>
    obtain ⟨s₁, s₂, h₁, h⟩ := Track.ends_bind.1 h
    obtain ⟨rfl, rfl⟩ := Track.of_ends_state h₁
    obtain ⟨⟨⟩, s₃, h₃, h⟩ := Track.ends_bind.1 h
    obtain ⟨hle, hsound, htypes, hmeths⟩ := of_pass hK h₃ hs
    obtain ⟨s₄, s₅, h₄, h⟩ := Track.ends_bind.1 h
    obtain ⟨rfl, rfl⟩ := Track.of_ends_state h₄
    by_cases hsize : s₃.found.size = s.found.size
    · rw [if_pos hsize] at h
      obtain ⟨-, rfl⟩ := Track.of_ends_pure h
      rw [← hle.eq_of_size hsize] at htypes hmeths
      exact ⟨hle, htypes, hmeths⟩
    · rw [if_neg hsize] at h
      split at h
      · cases h
      · obtain ⟨hle', hclosed⟩ := ih h hsound
        exact ⟨hle.trans hle', hclosed⟩

theorem ends_of_found {x : Visit Unit}
    (h : (do (x s).1; return (x s).2.found : Answer MonoError Instances) = .ok F) :
    x.Ends s () (x s).2 ∧ (x s).2.found = F := by
  obtain ⟨⟨⟩, houtcome, h⟩ := Answer.bind_eq_ok.1 h
  exact ⟨Prod.ext_iff.2 ⟨houtcome, rfl⟩, Answer.ok.inj h⟩

/-- **What discovery answers holds the instances of the main expression and is closed.** -/
theorem of_discover {T : Table} {fuel : Nat} {main : Expr} {limit : Option Nat}
    (h : discover fuel T main limit = .ok F) :
    (ground T fuel).Holds [] main F ∧ (ground T fuel).Closed F := by
  obtain ⟨hrun, rfl⟩ := ends_of_found
    (x := do (ground T fuel).addFrom [] main; let _ ← (ground T fuel).run limit) h
  obtain ⟨⟨⟩, s₁, h₁, h₂⟩ := Track.ends_bind.1 hrun
  obtain ⟨n, s₂, h₂, h₃⟩ := Track.ends_bind.1 h₂
  obtain ⟨-, rfl⟩ := Track.of_ends_pure h₃
  obtain ⟨hext, hholds⟩ := of_addFrom h₁
  have hsound : (ground T fuel).Sound s₁ :=
    hext.sound fun m hm => absurd hm List.not_mem_nil
  obtain ⟨hle, hclosed⟩ := of_runFrom rfl h₂ hsound
  exact ⟨hholds.mono hle, hclosed⟩

end Closure

end FeatherGo
