import FeatherGo.Ty.Scope

/-!
# Solutions of inference variables

A `VarSubst` maps inference variables to types. It is kept in ascending order of variables, each
bound once, so equal maps are equal lists. Nothing in a type binds an inference variable: applying a
solution never has to rename.
-/

namespace FeatherGo

/-- Types for inference variables, in ascending order of variables. -/
abbrev VarSubst := List (Nat × Ty)

namespace VarSubst

/-- The type of a variable. -/
def find? : VarSubst → Nat → Option Ty
  | [], _ => none
  | (n, t) :: rest, v => if v = n then some t else find? rest v

/-- Bind a variable, replacing any type it had. -/
def insert (v : Nat) (t : Ty) : VarSubst → VarSubst
  | [] => [(v, t)]
  | (n, u) :: rest =>
    if v < n then (v, t) :: (n, u) :: rest
    else if v = n then (v, t) :: rest
    else (n, u) :: insert v t rest

/-- The solution that a list of bindings describes; of two for one variable the later counts. -/
def ofList (bindings : List (Nat × Ty)) : VarSubst :=
  bindings.foldl (fun σ (v, t) => insert v t σ) []

@[simp] theorem find?_nil (v : Nat) : find? [] v = none := rfl

theorem find?_insert (σ : VarSubst) (v w : Nat) (t : Ty) :
    find? (insert v t σ) w = if w = v then some t else find? σ w := by
  induction σ with
  | nil => simp [insert, find?]
  | cons b rest ih =>
    obtain ⟨n, u⟩ := b
    simp only [insert]
    split
    · simp [find?]
    · split
      · subst v; by_cases h : w = n <;> simp [find?, h]
      · by_cases h : w = n
        · subst h
          simp [find?, Ne.symm ‹¬v = w›]
        · simp [find?, h, ih]

end VarSubst

mutual

/-- Replace inference variables by their types; variables without one stay. -/
def Ty.assign (σ : VarSubst) : Ty → Ty
  | .param p => .param p
  | .named c args => .named c (Ty.assignAll σ args)
  | .prim p => .prim p
  | .struct fs => .struct (Slot.assignAll σ fs)
  | .interface ms => .interface (Member.assignAll σ ms)
  | .var n => (σ.find? n).getD (.var n)

/-- Replace inference variables in a list of types. -/
def Ty.assignAll (σ : VarSubst) : List Ty → List Ty
  | [] => []
  | t :: ts => t.assign σ :: Ty.assignAll σ ts

/-- Replace inference variables in the types of slots. -/
def Slot.assignAll (σ : VarSubst) : List Slot → List Slot
  | [] => []
  | ⟨x, t⟩ :: fs => ⟨x, t.assign σ⟩ :: Slot.assignAll σ fs

/-- Replace inference variables in interface members. -/
def Member.assignAll (σ : VarSubst) : List Member → List Member
  | [] => []
  | .method ⟨m, fs, ps, r⟩ :: ms =>
    .method ⟨m, Slot.assignAll σ fs, Slot.assignAll σ ps, r.assign σ⟩ :: Member.assignAll σ ms
  | .embed c args :: ms => .embed c (Ty.assignAll σ args) :: Member.assignAll σ ms

end

end FeatherGo
