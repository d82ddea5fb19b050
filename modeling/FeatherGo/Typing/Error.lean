import FeatherGo.Program

/-!
# Type errors

What can be wrong with declarations, types and expressions, as causes; `TypeError.message` has the
wording. Unification has causes of its own, which a failed inference carries with it.
-/

namespace FeatherGo

/-- Where a value flows when it is assigned. -/
inductive Destination where
  /-- A struct literal's element into a field. -/
  | field (name : String)
  /-- A call's argument into a parameter, counted from zero. -/
  | argument (meth : String) (index : Nat)
  /-- A method's body into its result. -/
  | result (meth : String)
  /-- An untyped constant to the other operand's type. -/
  | operand (op : Operator)

/-- A text between backquotes. -/
def backquoted (s : String) : String := "`" ++ s ++ "`"

/-- The text of a destination. -/
def Destination.render : Destination → String
  | .field name => "field " ++ backquoted name
  | .argument meth index => "parameter " ++ toString (index + 1) ++ " of " ++ backquoted meth
  | .result meth => "the result of " ++ backquoted meth
  | .operand op => "an operand of " ++ backquoted op.symbol

/-- What a type argument is out of bounds in: a type or a call. -/
inductive Place where
  | type (t : Ty)
  | term (e : Expr)

/-- The text of a place. -/
def Place.render : Place → String
  | .type t => t.render
  | .term e => e.render

mutual

/-- What is wrong with a program. -/
inductive TypeError where
  | duplicateType (name : String)
  | duplicateMethod (recvType meth : String)
  | duplicateFormal (name decl : String)
  | duplicateField (name : String) (ty : Ty)
  | duplicateParam (name meth : String)
  | duplicateMember (meth : String) (ty : Ty)
  /-- Unfolding a declaration reaches it again through renaming or embedding. -/
  | cyclicDecl (name : String)
  | badSource (name : String) (source : Ty)
  /-- The bound of a type formal is neither an interface nor a primitive. -/
  | badBound (formal : String) (bound : Ty)
  | embedNotInterface (embedded ty : Ty)
  | interfaceReceiver (recvType meth : String)
  | receiverArity (recvType meth : String) (expected found : Nat)
  | fieldMethodClash (recvType name : String)
  | undeclaredType (name : String)
  | unboundParam (name : String)
  /-- A declared type is applied to the wrong number of arguments. -/
  | typeArity (ty : Ty) (expected found : Nat)
  /-- A type argument does not implement the bound of its formal. -/
  | boundViolation (arg bound : Ty) (place : Place)
  /-- A type parameter stands as the supertype of another type. -/
  | paramAsBound (param : String) (sub : Ty)
  | unknownVariable (name : String)
  | unknownField (ty : Ty) (field : String)
  | unknownMethod (ty : Ty) (meth : String)
  | notAStruct (ty : Ty) (term : Expr)
  | fieldCount (ty : Ty) (expected found : Nat) (term : Expr)
  | argumentCount (meth : String) (expected found : Nat) (term : Expr)
  | typeArgumentCount (meth : String) (expected found : Nat) (term : Expr)
  | notAssignable (found expected : Ty) (dest : Destination) (term : Expr)
  | assertOnConcrete (ty : Ty) (term : Expr)
  | impossibleAssertion (ty target : Ty) (term : Expr)
  | operandMismatch (op : Operator) (lhs rhs : Ty) (term : Expr)
  | invalidOperand (op : Operator) (ty : Ty) (term : Expr)
  | invalidConversion (source : Ty) (target : Kind) (term : Expr)
  | notRepresentable (payload : Payload) (ty : Ty)
  /-- Omitted type arguments cannot be found. -/
  | cannotInfer (term : Expr) (cause : UnifyError)

/-- Why types cannot be made to agree. -/
inductive UnifyError where
  /-- A variable would stand for a type that contains it. -/
  | occurs (var : Nat) (ty : Ty)
  /-- Two substitutions bind a variable to unrelated types. -/
  | conflict (var : Nat) (left right : Ty)
  | mismatch (left right : Ty)
  | missingMethod (ty : Ty) (meth : String)
  /-- Two signatures differ in the number of formals or parameters. -/
  | signatureShape (meth : String)
  | unresolved (var : Nat)
  /-- The solution of a variable does not implement its bound. -/
  | bound (var : Nat) (ty bound : Ty)
  | type (error : TypeError)

end

/-- The text of an inference variable. -/
def renderVar (n : Nat) : String := (Ty.var n).render

mutual

/-- The wording of a type error. -/
def TypeError.message : TypeError → String
  | .duplicateType name => "type " ++ backquoted name ++ " declared more than once"
  | .duplicateMethod recvType meth =>
    "method " ++ backquoted meth ++ " declared more than once for " ++ backquoted recvType
  | .duplicateFormal name decl =>
    "type parameter " ++ backquoted name ++ " declared more than once in " ++ backquoted decl
  | .duplicateField name ty =>
    "field " ++ backquoted name ++ " declared more than once in " ++ ty.render
  | .duplicateParam name meth =>
    "parameter " ++ backquoted name ++ " declared more than once in " ++ backquoted meth
  | .duplicateMember meth ty =>
    "method " ++ backquoted meth ++ " specified more than once in " ++ ty.render
  | .cyclicDecl name => "invalid recursive type " ++ backquoted name
  | .badSource name source =>
    "type " ++ backquoted name ++ " cannot be declared as " ++ source.render
  | .badBound formal bound =>
    "bound " ++ bound.render ++ " of type parameter " ++ backquoted formal
      ++ " is not an interface or primitive"
  | .embedNotInterface embedded ty =>
    embedded.render ++ " embedded in " ++ ty.render ++ " is not an interface"
  | .interfaceReceiver recvType meth =>
    "method " ++ backquoted meth ++ " has interface receiver type " ++ backquoted recvType
  | .receiverArity recvType meth expected found =>
    "receiver of " ++ backquoted meth ++ " binds " ++ toString found ++ " type parameter(s), but "
      ++ backquoted recvType ++ " has " ++ toString expected
  | .fieldMethodClash recvType name =>
    backquoted recvType ++ " has both a field and a method named " ++ backquoted name
  | .undeclaredType name => "undefined type " ++ backquoted name
  | .unboundParam name => "type parameter " ++ backquoted name ++ " is not in scope"
  | .typeArity ty expected found =>
    ty.render ++ " applied to " ++ toString found ++ " type argument(s), expected "
      ++ toString expected
  | .boundViolation arg bound place =>
    "type argument " ++ arg.render ++ " does not implement " ++ bound.render ++ " in "
      ++ place.render
  | .paramAsBound param sub =>
    "type parameter " ++ backquoted param ++ " used as an upper bound of " ++ sub.render
  | .unknownVariable name => "undefined variable " ++ backquoted name
  | .unknownField ty field => ty.render ++ " has no field " ++ backquoted field
  | .unknownMethod ty meth => ty.render ++ " has no method " ++ backquoted meth
  | .notAStruct ty term => ty.render ++ " is not a struct type in " ++ backquoted term.render
  | .fieldCount ty expected found term =>
    ty.render ++ " has " ++ toString expected ++ " field(s), but " ++ backquoted term.render
      ++ " supplies " ++ toString found
  | .argumentCount meth expected found term =>
    backquoted meth ++ " takes " ++ toString expected ++ " argument(s), but "
      ++ backquoted term.render ++ " supplies " ++ toString found
  | .typeArgumentCount meth expected found term =>
    backquoted meth ++ " takes " ++ toString expected ++ " type argument(s), but "
      ++ backquoted term.render ++ " supplies " ++ toString found
  | .notAssignable found expected dest term =>
    "arg " ++ backquoted term.render ++ " of type " ++ found.render ++ " not assignable to "
      ++ dest.render ++ " of type " ++ expected.render
  | .assertOnConcrete ty term =>
    "cannot assert on " ++ backquoted term.render ++ " of non-interface type " ++ ty.render
  | .impossibleAssertion ty target term =>
    "impossible assertion " ++ backquoted term.render ++ ": " ++ target.render
      ++ " does not implement " ++ ty.render
  | .operandMismatch op lhs rhs term =>
    "mismatched operand types " ++ lhs.render ++ " and " ++ rhs.render ++ " for "
      ++ backquoted op.symbol ++ " in " ++ backquoted term.render
  | .invalidOperand op ty term =>
    "operator " ++ backquoted op.symbol ++ " not defined on " ++ ty.render ++ " in "
      ++ backquoted term.render
  | .invalidConversion source target term =>
    "cannot convert " ++ source.render ++ " to " ++ target.name ++ " in " ++ backquoted term.render
  | .notRepresentable payload ty =>
    "constant " ++ payload.render ++ " overflows " ++ ty.render
  | .cannotInfer term cause =>
    "cannot infer type arguments for " ++ backquoted term.render ++ ": " ++ cause.message

/-- The wording of a unification error. -/
def UnifyError.message : UnifyError → String
  | .occurs var ty => "infinite type: " ++ renderVar var ++ " occurs in " ++ ty.render
  | .conflict var left right =>
    "incompatible mappings for " ++ renderVar var ++ ": " ++ left.render ++ " and " ++ right.render
  | .mismatch left right => "cannot unify " ++ left.render ++ " with " ++ right.render
  | .missingMethod ty meth => ty.render ++ " has no method " ++ backquoted meth
  | .signatureShape meth => "signatures of " ++ backquoted meth ++ " differ in shape"
  | .unresolved var => "nothing constrains " ++ renderVar var
  | .bound var ty bound =>
    renderVar var ++ " solved to " ++ ty.render ++ ", which does not implement " ++ bound.render
  | .type error => error.message

end

/-- The text that an error is about, if it names one. -/
def TypeError.term : TypeError → Option String
  | .notAStruct _ term
  | .fieldCount _ _ _ term
  | .argumentCount _ _ _ term
  | .typeArgumentCount _ _ _ term
  | .notAssignable _ _ _ term
  | .assertOnConcrete _ term
  | .impossibleAssertion _ _ term
  | .operandMismatch _ _ _ term
  | .invalidOperand _ _ term
  | .invalidConversion _ _ term
  | .cannotInfer term _ => some term.render
  | .duplicateType name
  | .cyclicDecl name
  | .badSource name _
  | .undeclaredType name
  | .unknownVariable name => some name
  | .duplicateMethod _ meth
  | .interfaceReceiver _ meth
  | .receiverArity _ meth _ _
  | .unknownMethod _ meth => some meth
  | .unknownField _ field => some field
  | .boundViolation _ _ place => some place.render
  | .typeArity ty _ _ => some ty.render
  | .notRepresentable payload _ => some payload.render
  | .duplicateFormal ..
  | .duplicateField ..
  | .duplicateParam ..
  | .duplicateMember ..
  | .badBound ..
  | .embedNotInterface ..
  | .fieldMethodClash ..
  | .unboundParam ..
  | .paramAsBound .. => none

end FeatherGo
