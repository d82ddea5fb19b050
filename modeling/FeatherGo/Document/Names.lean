import FeatherGo.Program

/-!
# Names in documents

How kinds and operators are named in the JSON form of programs.
-/

namespace FeatherGo.Document

/-- The name of a kind in documents. -/
def kindTag : Kind → String
  | .bool => "Bool"
  | .int32 => "Int32"
  | .int64 => "Int64"
  | .float32 => "Float32"
  | .float64 => "Float64"
  | .string => "String"

/-- The kind of a name. -/
def kindOfTag? (tag : String) : Option Kind := Kind.all.find? fun k => kindTag k = tag

/-- Every operator, in the order of declaration. -/
def operators : List Operator :=
  [.add, .sub, .mul, .div, .eq, .ne, .lt, .le, .gt, .ge, .and, .or]

/-- The name of an operator in documents. -/
def operatorTag : Operator → String
  | .add => "Add"
  | .sub => "Sub"
  | .mul => "Mul"
  | .div => "Div"
  | .eq => "Eq"
  | .ne => "Ne"
  | .lt => "Lt"
  | .le => "Le"
  | .gt => "Gt"
  | .ge => "Ge"
  | .and => "And"
  | .or => "Or"

/-- The operator of a name. -/
def operatorOfTag? (tag : String) : Option Operator :=
  operators.find? fun op => operatorTag op = tag

end FeatherGo.Document
