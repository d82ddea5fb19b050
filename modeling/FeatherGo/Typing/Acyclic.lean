import FeatherGo.Table

/-!
# Acyclic declarations

A declaration unfolds to the name of its source, if that is a declared type again, and an interface
to the interfaces it embeds. No declaration may reach itself so. Nesting under a field or inside a
method signature is not unfolding and may recur.

The search goes depth first and remembers the names whose unfolding it has finished. The path to the
current name holds distinct declared names, so one more level than there are declarations is enough.
-/

namespace FeatherGo

/-- The names that a member embeds. -/
def Member.embedded? : Member → Option String
  | .method _ => none
  | .embed c _ => some c

/-- The names that a type used as a source unfolds to. -/
def Ty.unfoldsTo : Ty → List String
  | .named c _ => [c]
  | .interface ms => ms.filterMap Member.embedded?
  | _ => []

namespace Table

/-- Follow the unfolding of a name whose path from the start is `path`, within a number of levels,
and add the names whose unfolding is finished to `done`. Undeclared names unfold to nothing. -/
def unfoldFrom (T : Table) : Nat → List String → List String → String →
    Except TypeError (List String)
  | 0, _, _, name => .error (.cyclicDecl name)
  | levels + 1, path, done, name =>
    if name ∈ done then .ok done
    else if name ∈ path then .error (.cyclicDecl name)
    else
      match T.type? name with
      | none => .ok done
      | some td => do
        let done ← td.source.unfoldsTo.foldlM (unfoldFrom T levels (name :: path)) done
        return name :: done

/-- No declaration reaches itself by unfolding. -/
def checkAcyclic (T : Table) : Except TypeError Unit := do
  let _ ← (T.typeDecls.map (·.name)).foldlM (T.unfoldFrom (T.typeDecls.length + 1) []) []

end Table

end FeatherGo
