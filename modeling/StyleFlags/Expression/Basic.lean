import StyleFlags.Literal

/-!
# Structured values

The values that can be written where a style takes more than text: literals,
arrays, objects, members, calls, and `token(...)`, which keeps what stands
between its parentheses as it is.
-/

namespace StyleFlags

/-- A structured value. -/
inductive Expression where
  | identifier (name : String)
  | literal (l : Literal)
  | array (items : List Expression)
  | object (entries : List (String × Expression))
  | member (object property : Expression) (computed : Bool)
  | call (callee : Expression) (arguments : List Expression)
  | token (raw : String)
deriving Repr

namespace Expression

mutual

/-- A structured value as it is written. -/
def text : Expression → String
  | identifier name => name
  | literal l => l.spelling
  | array items => "[" ++ ", ".intercalate (textItems items) ++ "]"
  | object entries => "\x7b" ++ ", ".intercalate (textEntries entries) ++ "\x7d"
  | member base key computed =>
    if computed then base.text ++ "[" ++ key.text ++ "]" else base.text ++ "." ++ key.text
  | call callee arguments =>
    callee.text ++ "(" ++ ", ".intercalate (textItems arguments) ++ ")"
  | token raw => "token(" ++ raw ++ ")"

def textItems : List Expression → List String
  | [] => []
  | item :: rest => item.text :: textItems rest

def textEntries : List (String × Expression) → List String
  | [] => []
  | (key, value) :: rest => (key ++ ": " ++ value.text) :: textEntries rest

end

end Expression

end StyleFlags
