import FeatherGo.Expr.Render

/-!
# Formatted text

What `fmt.Sprintf` makes of a format and values. The verbs are `%v %d %s %t %f %q %%`. A struct is
written as its elements between braces under every verb that its elements may have; a verb that does
not fit its argument, and arguments that are missing or left over, are written into the text.
-/

namespace FeatherGo

/-- Texts between braces. -/
def braced (texts : List String) : String := "\x7b" ++ " ".intercalate texts ++ "\x7d"

/-- The text of a payload as a value. -/
def Payload.display : Payload → String
  | .bool b => if b then "true" else "false"
  | .int n => toString n.toInt
  | .float x => Decimal.printed.render x
  | .string s => s

/-- The text of a payload under a verb, if the verb fits it. -/
def Payload.format? (verb : Char) (p : Payload) : Option String :=
  match verb, p with
  | 'v', p => some p.display
  | 'd', .int n => some (toString n.toInt)
  | 's', .string s => some s
  | 't', .bool b => some (if b then "true" else "false")
  | 'f', .float x => some (Decimal.fixed 6 x)
  | 'q', .string s => some (Text.quote s)
  | _, _ => none

/-- The verbs that look into structs. -/
def isElementVerb (verb : Char) : Bool :=
  verb == 'd' || verb == 's' || verb == 't' || verb == 'f' || verb == 'q'

mutual

/-- The text of a value. -/
def Expr.display : Expr → String
  | .lit l => l.payload.display
  | .structLit _ _ es => braced (Expr.displayAll es)
  | e => e.render

/-- The texts of some values. -/
def Expr.displayAll : List Expr → List String
  | [] => []
  | e :: es => e.display :: Expr.displayAll es

end

/-- The name of a value's type in a text on a fault. -/
def Expr.typeName : Expr → String
  | .lit l => (Ty.prim l.prim.settled).render
  | .structLit c ts _ => (Ty.named c ts).render
  | _ => "?"

/-- A value with its type. -/
def Expr.described (e : Expr) : String := e.typeName ++ "=" ++ e.display

/-- The text of an argument that a verb does not fit. -/
def Expr.misfit (verb : Char) (e : Expr) : String :=
  "%!" ++ String.singleton verb ++ "(" ++ e.described ++ ")"

mutual

/-- The text of an argument under a verb. -/
def Expr.format (verb : Char) : Expr → String
  | .lit l => (l.payload.format? verb).getD ((Expr.lit l).misfit verb)
  | .structLit c ts es =>
    if verb = 'v' then (Expr.structLit c ts es).display
    else if isElementVerb verb then braced (Expr.formatAll verb es)
    else (Expr.structLit c ts es).misfit verb
  | e => if verb = 'v' then e.display else e.misfit verb

/-- The texts of some arguments under a verb. -/
def Expr.formatAll (verb : Char) : List Expr → List String
  | [] => []
  | e :: es => e.format verb :: Expr.formatAll verb es

end

/-- The text on arguments that no verb took. -/
def leftOver : List Expr → String
  | [] => ""
  | es => "%!(EXTRA " ++ ", ".intercalate (es.map Expr.described) ++ ")"

/-- Expand a format, each verb taking an argument. -/
def expandFormat : List Char → List Expr → String
  | [], args => leftOver args
  | ['%'], args => "%!(NOVERB)" ++ leftOver args
  | '%' :: '%' :: cs, args => "%" ++ expandFormat cs args
  | '%' :: verb :: cs, arg :: args => arg.format verb ++ expandFormat cs args
  | '%' :: verb :: cs, [] => "%!" ++ String.singleton verb ++ "(MISSING)" ++ expandFormat cs []
  | c :: cs, args => String.singleton c ++ expandFormat cs args

/-- The text that a format makes of arguments. -/
def sprintf (format : String) (args : List Expr) : String := expandFormat format.toList args

end FeatherGo
