/-!
# Name environments

An `Env` maps names to entries as a list of bindings in which a later binding of a name hides the
earlier ones. Bounding contexts, value contexts and substitutions are all environments: extending
one appends, and leaves what was extended as it was.
-/

namespace FeatherGo

/-- A finite map from names; of two bindings of a name the later one counts. -/
abbrev Env (α : Type) := List (String × α)

namespace Env

variable {α β : Type}

/-- The entry of a name: that of its last binding. -/
def find? : Env α → String → Option α
  | [], _ => none
  | (k, a) :: rest, name => (find? rest name).or (if k = name then some a else none)

/-- Add a binding, hiding any earlier one of the same name. -/
def bind (env : Env α) (name : String) (a : α) : Env α := env ++ [(name, a)]

/-- The names that are bound. -/
def names (env : Env α) : List String := env.map (·.1)

/-- How many names are bound. -/
def size (env : Env α) : Nat := env.names.eraseDups.length

/-- The entries that count, one for each binding (a hidden binding shows the one that hides it). -/
def entries (env : Env α) : List α := env.filterMap fun (k, _) => env.find? k

@[simp] theorem find?_nil (name : String) : find? ([] : Env α) name = none := rfl

@[simp] theorem find?_append (env env' : Env α) (name : String) :
    find? (env ++ env') name = (find? env' name).or (find? env name) := by
  induction env with
  | nil => cases h : find? env' name <;> simp [h]
  | cons b rest ih => obtain ⟨k, a⟩ := b; simp [find?, ih, Option.or_assoc]

end Env

end FeatherGo
