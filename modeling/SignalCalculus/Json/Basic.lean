import SignalCalculus.Decimal.Shortest
import SignalCalculus.Text.Quoted

set_option autoImplicit false

namespace SignalCalculus

open Text

/-- JSON data; integers of any size are apart from floating-point numbers. -/
inductive Json where
  | null
  | bool (value : Bool)
  | int (value : Int)
  | float (value : Float)
  | str (value : String)
  | arr (items : List Json)
  | obj (fields : List (String × Json))
  deriving Inhabited

namespace Json

abbrev ofChars (cs : List Char) : Json := .str (String.ofList cs)

def field? (name : String) : List (String × Json) → Option Json
  | [] => none
  | (key, value) :: rest => if key = name then some value else field? name rest

def escapedChar (c : Char) : List Char :=
  if c = '"' then ['\\', '"']
  else if c = '\\' then ['\\', '\\']
  else if c = '\n' then ['\\', 'n']
  else if c = '\r' then ['\\', 'r']
  else if c = '\t' then ['\\', 't']
  else if c = Char.ofNat 8 then ['\\', 'b']
  else if c = Char.ofNat 12 then ['\\', 'f']
  else if c.toNat < 0x20 then '\\' :: 'u' :: hex 4 c.toNat
  else [c]

def escapedOnto : List Char → List Char → List Char
  | [], rest => '"' :: rest
  | c :: cs, rest => escapedChar c ++ escapedOnto cs rest

def stringOnto (text : String) (rest : List Char) : List Char := '"' :: escapedOnto text.toList rest

def floatNames : Decimal.Names := ⟨"Infinity".toList, "NaN".toList⟩

structure Separators where
  item : List Char
  key : List Char

def tight : Separators := ⟨[','], [':']⟩

def spaced : Separators := ⟨[',', ' '], [':', ' ']⟩

mutual

def lineOnto (sep : Separators) : Json → List Char → List Char
  | .null, rest => 'n' :: 'u' :: 'l' :: 'l' :: rest
  | .bool true, rest => 't' :: 'r' :: 'u' :: 'e' :: rest
  | .bool false, rest => 'f' :: 'a' :: 'l' :: 's' :: 'e' :: rest
  | .int n, rest => decimal n ++ rest
  | .float x, rest => Decimal.floatText floatNames x ++ rest
  | .str text, rest => stringOnto text rest
  | .arr [], rest => '[' :: ']' :: rest
  | .arr (item :: items), rest => '[' :: lineOnto sep item (itemsOnto sep items rest)
  | .obj [], rest => '{' :: '}' :: rest
  | .obj ((key, value) :: fields), rest =>
    '{' :: stringOnto key (sep.key ++ lineOnto sep value (fieldsOnto sep fields rest))

def itemsOnto (sep : Separators) : List Json → List Char → List Char
  | [], rest => ']' :: rest
  | item :: items, rest => sep.item ++ lineOnto sep item (itemsOnto sep items rest)

def fieldsOnto (sep : Separators) : List (String × Json) → List Char → List Char
  | [], rest => '}' :: rest
  | (key, value) :: fields, rest =>
    sep.item ++ stringOnto key (sep.key ++ lineOnto sep value (fieldsOnto sep fields rest))

end

def line (sep : Separators) (json : Json) : String := String.ofList (lineOnto sep json [])

def newLine (level : Nat) (rest : List Char) : List Char :=
  '\n' :: (List.replicate (2 * level) ' ' ++ rest)

mutual

def blockOnto (level : Nat) : Json → List Char → List Char
  | .arr (item :: items), rest =>
    '[' :: newLine (level + 1) (blockOnto (level + 1) item (blockItemsOnto level items rest))
  | .obj ((key, value) :: fields), rest =>
    '{' :: newLine (level + 1) (stringOnto key (':' :: ' ' ::
      blockOnto (level + 1) value (blockFieldsOnto level fields rest)))
  | json, rest => lineOnto tight json rest

def blockItemsOnto (level : Nat) : List Json → List Char → List Char
  | [], rest => newLine level (']' :: rest)
  | item :: items, rest =>
    ',' :: newLine (level + 1) (blockOnto (level + 1) item (blockItemsOnto level items rest))

def blockFieldsOnto (level : Nat) : List (String × Json) → List Char → List Char
  | [], rest => newLine level ('}' :: rest)
  | (key, value) :: fields, rest =>
    ',' :: newLine (level + 1) (stringOnto key (':' :: ' ' ::
      blockOnto (level + 1) value (blockFieldsOnto level fields rest)))

end

def block (json : Json) : String := String.ofList (blockOnto 0 json [])

def kind : Json → String
  | .null => "NoneType"
  | .bool _ => "bool"
  | .int _ => "int"
  | .float _ => "float"
  | .str _ => "str"
  | .arr _ => "list"
  | .obj _ => "dict"

def accountNames : Decimal.Names := ⟨"inf".toList, "nan".toList⟩

def floatAccount (x : Float) : String := String.ofList (Decimal.floatText accountNames x)

mutual

def account : Json → String
  | .null => "None"
  | .bool true => "True"
  | .bool false => "False"
  | .int n => String.ofList (decimal n)
  | .float x => floatAccount x
  | .str text => String.ofList (quoted text.toList)
  | .arr items => "[" ++ ", ".intercalate (accountItems items) ++ "]"
  | .obj fields => "\x7b" ++ ", ".intercalate (accountFields fields) ++ "\x7d"

def accountItems : List Json → List String
  | [] => []
  | item :: items => account item :: accountItems items

def accountFields : List (String × Json) → List String
  | [] => []
  | (key, value) :: fields =>
    (String.ofList (quoted key.toList) ++ ": " ++ account value) :: accountFields fields

end

mutual

/-- The same data with the fields of every object in the order of their names. -/
def sorted : Json → Json
  | .arr items => .arr (sortedItems items)
  | .obj fields => .obj ((sortedFields fields).mergeSort fun a b => !(b.1 < a.1))
  | json => json

def sortedItems : List Json → List Json
  | [] => []
  | item :: items => sorted item :: sortedItems items

def sortedFields : List (String × Json) → List (String × Json)
  | [] => []
  | (key, value) :: fields => (key, sorted value) :: sortedFields fields

end

end Json

end SignalCalculus
