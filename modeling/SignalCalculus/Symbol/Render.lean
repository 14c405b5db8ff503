import SignalCalculus.Symbol.Basic
import SignalCalculus.Text.Quoted

set_option autoImplicit false

namespace SignalCalculus

open Text

def Fn.word : Fn → List Char
  | .inc => ['i', 'n', 'c']
  | .dec => ['d', 'e', 'c']
  | .add => ['a', 'd', 'd']
  | .mul => ['m', 'u', 'l']
  | .div => ['d', 'i', 'v']
  | .neg => ['n', 'e', 'g']
  | .eq => ['e', 'q']
  | .lt => ['l', 't']
  | .t => ['t']
  | .f => ['f']
  | .i => ['i']
  | .c => ['c']
  | .b => ['b']
  | .s => ['s']
  | .cons => ['c', 'o', 'n', 's']
  | .vec => ['v', 'e', 'c']
  | .car => ['c', 'a', 'r']
  | .cdr => ['c', 'd', 'r']
  | .nil => ['n', 'i', 'l']
  | .isnil => ['i', 's', 'n', 'i', 'l']
  | .if0 => ['i', 'f', '0']
  | .mod => ['m', 'o', 'd']
  | .dem => ['d', 'e', 'm']
  | .modem => ['m', 'o', 'd', 'e', 'm']
  | .send => ['s', 'e', 'n', 'd']
  | .draw => ['d', 'r', 'a', 'w']
  | .multipledraw => ['m', 'u', 'l', 't', 'i', 'p', 'l', 'e', 'd', 'r', 'a', 'w']
  | .interact => ['i', 'n', 't', 'e', 'r', 'a', 'c', 't']
  | .f38 => ['f', '3', '8']
  | .galaxy => ['g', 'a', 'l', 'a', 'x', 'y']

def Fn.ofWord? (word : List Char) : Option Fn := Fn.all.find? fun fn => fn.word == word

def Mark.word : Mark → List Char
  | .ap => ['a', 'p']
  | .leftParen => ['(']
  | .comma => [',']
  | .rightParen => [')']

def Mark.ofWord? (word : List Char) : Option Mark :=
  [Mark.ap, .leftParen, .comma, .rightParen].find? fun mark => mark.word == word

/-- The word of a symbol. The entry variable is written by its word, and a picture by how many
    points it has. -/
def Symbol.spelling : Symbol → List Char
  | .number n => if n.modulated then '[' :: (decimal n.value ++ [']']) else decimal n.value
  | .fn g => g.word
  | .var id => if id = entryId then Fn.galaxy.word else ':' :: decimal id
  | .mark m => m.word
  | .bits text => '{' :: (text ++ ['}'])
  | .picture points => "<picture:".toList ++ natural points.length ++ ['>']

def renderChars : List Symbol → List Char
  | [] => []
  | [symbol] => symbol.spelling
  | symbol :: next :: rest => symbol.spelling ++ ' ' :: renderChars (next :: rest)

def render (symbols : List Symbol) : String := String.ofList (renderChars symbols)

def Fn.title : Fn → String
  | .t => "TRUE"
  | .f => "FALSE"
  | fn => (String.ofList fn.word).toUpper

def Mark.title : Mark → String
  | .ap => "AP"
  | .leftParen => "LEFT_PAREN"
  | .comma => "COMMA"
  | .rightParen => "RIGHT_PAREN"

def Tagged.account (n : Tagged) : String :=
  "EncodedNumber(value=" ++ String.ofList (decimal n.value) ++ ", modulation=<Modulation." ++
    (if n.modulated then "MODULATED: 2" else "DEMODULATED: 1") ++ ">)"

def Mark.account (mark : Mark) : String :=
  "<Syntax." ++ mark.title ++ ": '" ++ String.ofList mark.word ++ "'>"

def pointAccount (point : Int × Int) : String :=
  "(" ++ String.ofList (decimal point.1) ++ ", " ++ String.ofList (decimal point.2) ++ ")"

def sequenceAccount : List String → String
  | [] => "()"
  | [account] => "(" ++ account ++ ",)"
  | accounts => "(" ++ ", ".intercalate accounts ++ ")"

def Symbol.account : Symbol → String
  | .number n => n.account
  | .fn g => "<Fun." ++ g.title ++ ": '" ++ String.ofList g.word ++ "'>"
  | .var id => "Variable(name=" ++ String.ofList (decimal id) ++ ")"
  | .mark m => m.account
  | .bits text => "ModulatedBits(bits=" ++ String.ofList (quoted text) ++ ")"
  | .picture points => "Picture(points=" ++ sequenceAccount (points.map pointAccount) ++ ")"

end SignalCalculus
