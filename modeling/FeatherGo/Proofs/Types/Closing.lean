import FeatherGo.Proofs.Types.Freshness

/-!
# Closing a type

Typing works on open types, evaluation on closed ones. `Ty.close` replaces all type parameters of a
type at once and gives every nested formal its stem, so it does not see which formals a substitution
had to rename: `Ty.Scoped.close_subst` closes a substituted type by closing the entries first. It holds
of scoped types: what renaming makes of a nested formal is neither in scope nor replaced.

A type is a text if closing it by its own parameters gives it back; types as programs write them are
texts. On a text, substitution of closed types is closing (`Ty.Scoped.subst_eq_close`).
-/

namespace FeatherGo

/-- Under formals: they become their stems, and what they hide does not count. -/
def shield (ρ : String → Ty) (names : List String) (a : String) : Ty :=
  if a ∈ names then .param (stem a) else ρ a

mutual

/-- Replace every type parameter and give nested formals their stems. -/
def Ty.close (ρ : String → Ty) : Ty → Ty
  | .param a => ρ a
  | .named c args => .named c (Ty.closeAll ρ args)
  | .prim p => .prim p
  | .struct fs => .struct (Slot.closeAll ρ fs)
  | .interface ms => .interface (Member.closeAll ρ ms)
  | .var n => .var n
termination_by structural t => t

/-- Close types. -/
def Ty.closeAll (ρ : String → Ty) : List Ty → List Ty
  | [] => []
  | t :: ts => t.close ρ :: Ty.closeAll ρ ts

/-- Close the types of slots. -/
def Slot.closeAll (ρ : String → Ty) : List Slot → List Slot
  | [] => []
  | ⟨x, t⟩ :: fs => ⟨x, t.close ρ⟩ :: Slot.closeAll ρ fs

/-- Close the bounds of formals, which become their stems. -/
def Slot.closeFormals (ρ : String → Ty) : List Slot → List Slot
  | [] => []
  | ⟨f, t⟩ :: fs => ⟨stem f, t.close ρ⟩ :: Slot.closeFormals ρ fs

/-- Close interface members. -/
def Member.closeAll (ρ : String → Ty) : List Member → List Member
  | [] => []
  | .method ⟨m, fs, ps, r⟩ :: ms =>
    .method ⟨m, Slot.closeFormals (shield ρ (fs.map (·.name))) fs,
        Slot.closeAll (shield ρ (fs.map (·.name))) ps, r.close (shield ρ (fs.map (·.name)))⟩
      :: Member.closeAll ρ ms
  | .embed c args :: ms => .embed c (Ty.closeAll ρ args) :: Member.closeAll ρ ms

end

/-- Close a signature. -/
def Signature.close (ρ : String → Ty) (s : Signature) : Signature :=
  ⟨s.name, s.formals.map fun f => ⟨stem f.name, f.ty.close (shield ρ s.formalNames)⟩,
    s.params.map (Slot.map (Ty.close (shield ρ s.formalNames))),
    s.result.close (shield ρ s.formalNames)⟩

/-- Close an interface member. -/
def Member.close (ρ : String → Ty) : Member → Member
  | .method s => .method (s.close ρ)
  | .embed c args => .embed c (args.map (Ty.close ρ))

section Equations

variable (ρ : String → Ty)

theorem Ty.closeAll_eq (ts : List Ty) : Ty.closeAll ρ ts = ts.map (Ty.close ρ) := by
  induction ts with
  | nil => rfl
  | cons t ts ih => rw [Ty.closeAll, ih, List.map_cons]

theorem Slot.closeAll_eq (fs : List Slot) : Slot.closeAll ρ fs = fs.map (Slot.map (Ty.close ρ)) := by
  induction fs with
  | nil => rfl
  | cons f fs ih =>
    obtain ⟨x, t⟩ := f
    rw [Slot.closeAll, ih, List.map_cons, Slot.map]

theorem Slot.closeFormals_eq (fs : List Slot) :
    Slot.closeFormals ρ fs = fs.map fun f => ⟨stem f.name, f.ty.close ρ⟩ := by
  induction fs with
  | nil => rfl
  | cons f fs ih =>
    obtain ⟨x, t⟩ := f
    rw [Slot.closeFormals, ih, List.map_cons]

theorem Member.closeAll_eq (ms : List Member) : Member.closeAll ρ ms = ms.map (Member.close ρ) := by
  induction ms with
  | nil => rfl
  | cons m ms ih =>
    cases m with
    | method s =>
      obtain ⟨x, fs, ps, r⟩ := s
      rw [Member.closeAll, ih, Slot.closeFormals_eq, Slot.closeAll_eq]
      rfl
    | embed c args =>
      rw [Member.closeAll, ih, Ty.closeAll_eq]
      rfl

@[simp] theorem Ty.close_param (a : String) : (Ty.param a).close ρ = ρ a := rfl

@[simp] theorem Ty.close_prim (p : Prim) : (Ty.prim p).close ρ = .prim p := rfl

@[simp] theorem Ty.close_var (n : Nat) : (Ty.var n).close ρ = .var n := rfl

@[simp] theorem Ty.close_named (c : String) (args : List Ty) :
    (Ty.named c args).close ρ = .named c (args.map (Ty.close ρ)) := by
  rw [Ty.close, Ty.closeAll_eq]

@[simp] theorem Ty.close_struct (fs : List Slot) :
    (Ty.struct fs).close ρ = .struct (fs.map (Slot.map (Ty.close ρ))) := by
  rw [Ty.close, Slot.closeAll_eq]

@[simp] theorem Ty.close_interface (ms : List Member) :
    (Ty.interface ms).close ρ = .interface (ms.map (Member.close ρ)) := by
  rw [Ty.close, Member.closeAll_eq]

@[simp] theorem Signature.name_close (s : Signature) : (s.close ρ).name = s.name := rfl

@[simp] theorem Signature.formalNames_close (s : Signature) :
    (s.close ρ).formalNames = s.formalNames.map stem := by
  simp [Signature.close, Signature.formalNames, Function.comp_def]

@[simp] theorem Signature.types_close (s : Signature) :
    (s.close ρ).types = s.types.map (Ty.close (shield ρ s.formalNames)) := by
  simp [Signature.close, Signature.types, Slot.map, Function.comp_def]

end Equations

/-- Signatures of one name whose formals are named alike and whose types agree are equal. -/
theorem Signature.close_eq_close {ρ σ : String → Ty} {s : Signature}
    (h : ∀ t ∈ s.types, t.close (shield ρ s.formalNames) = t.close (shield σ s.formalNames)) :
    s.close ρ = s.close σ := by
  obtain ⟨hf, hp, hr⟩ := Signature.forall_types.1 h
  rw [Signature.close, Signature.close, hr]
  congr 1
  · exact List.map_congr_left fun f hm => by rw [hf f hm]
  · exact List.map_congr_left fun p hm => by rw [Slot.map, Slot.map, hp p hm]

/-- Closing depends on the free type parameters alone. -/
theorem Ty.close_congr {ρ σ : String → Ty} {t : Ty} (h : ∀ a ∈ t.freeParams, ρ a = σ a) :
    t.close ρ = t.close σ := by
  induction t using Ty.induction generalizing ρ σ with
  | param a => exact h a (by simp [Ty.freeParams])
  | named c args ih =>
    rw [close_named, close_named, Ty.named.injEq]
    refine ⟨rfl, List.map_congr_left fun t ht => ih t ht fun a ha => h a ?_⟩
    rw [Ty.freeParams, Ty.mem_freeParamsAll]
    exact ⟨t, ht, ha⟩
  | prim p => rfl
  | struct fs ih =>
    rw [close_struct, close_struct, Ty.struct.injEq]
    refine List.map_congr_left fun f hf => ?_
    rw [Slot.map, Slot.map, ih f hf fun a ha => h a ?_]
    rw [Ty.freeParams, Slot.mem_freeParamsAll]
    exact ⟨f, hf, ha⟩
  | interface ms ih =>
    rw [close_interface, close_interface, Ty.interface.injEq]
    refine List.map_congr_left fun m hm => ?_
    have h : ∀ a ∈ m.freeParams, ρ a = σ a := by
      intro a ha
      apply h a
      rw [Ty.freeParams, Member.mem_freeParamsAll]
      exact ⟨m, hm, ha⟩
    cases m with
    | method s =>
      refine congrArg Member.method (Signature.close_eq_close fun t ht => ih _ hm t ht ?_)
      intro a ha
      by_cases hf : a ∈ s.formalNames
      · simp [shield, hf]
      · simpa [shield, hf] using h a (Signature.mem_freeParams.2 ⟨hf, t, ht, ha⟩)
    | embed c args =>
      refine congrArg (Member.embed c) (List.map_congr_left fun t ht => ih _ hm t ht ?_)
      exact fun a ha => h a (Ty.mem_freeParamsAll.2 ⟨t, ht, ha⟩)
  | var n => rfl

/-- A type without free parameters is the same under every closing. -/
theorem Ty.close_congr_of_freeParams_eq_nil {t : Ty} (h : t.freeParams = []) (ρ σ : String → Ty) :
    t.close ρ = t.close σ :=
  Ty.close_congr fun a ha => by simp [h] at ha

end FeatherGo
