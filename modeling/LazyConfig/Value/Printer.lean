-- Values as source text.
import LazyConfig.Number.Decimal
import LazyConfig.Source.Token
import LazyConfig.Value.Basic

namespace LazyConfig.Value

/-- A key as it is written: bare if it is a name. -/
def keyText (key : String) : String := if isName key then key else Escape.quote key

mutual

/-- The text of a value. -/
def text : Value → String
  | undefined => "undefined"
  | null => "null"
  | boolean b => if b then "true" else "false"
  | number x => Double.text x
  | bigint n => n.text ++ "n"
  | string s => Escape.quote s
  | blob bytes => blobLiteral bytes
  | array _ items => "[" ++ ", ".intercalate (itemTexts items) ++ "]"
  | object _ [] => "\x7b\x7d"
  | object _ (e :: entries) =>
    "\x7b " ++ ", ".intercalate (entryTexts (e :: entries)) ++ " \x7d"
  | function _ f => "<function " ++ f.name ++ ">"

def itemTexts : List Value → List String
  | [] => []
  | v :: vs => text v :: itemTexts vs

def entryTexts : List (String × Value) → List String
  | [] => []
  | (key, v) :: rest => (keyText key ++ ": " ++ text v) :: entryTexts rest

end

end LazyConfig.Value
