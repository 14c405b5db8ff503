import SignalCalculus.Text.Quoted

set_option autoImplicit false

namespace SignalCalculus.CommandLine

open Text

inductive Flag where
  | help | schema | pretty | trace | script | serverUrl
  deriving DecidableEq, Repr

def flagNames : List (List Char × Flag) := [
  ("-h".toList, .help), ("--help".toList, .help), ("--schema".toList, .schema),
  ("--pretty".toList, .pretty), ("--trace".toList, .trace), ("--script".toList, .script),
  ("--server-url".toList, .serverUrl)]

namespace Flag

def takesValue : Flag → Bool
  | script | serverUrl => true
  | _ => false

def title : Flag → String
  | help => "-h/--help"
  | schema => "--schema"
  | pretty => "--pretty"
  | trace => "--trace"
  | script => "--script"
  | serverUrl => "--server-url"

def ofName? (name : List Char) : Option Flag :=
  (flagNames.find? fun entry => entry.1 == name).map (·.2)

end Flag

inductive UsageError where
  | ambiguous (word : List Char) (names : List (List Char))
  | needsValue (flag : Flag)
  | unwantedValue (flag : Flag) (value : List Char)
  | missingFile (name : List Char)
  | isDirectory (name : List Char)
  | unrecognized (words : List (List Char))
  | noExpression
  deriving DecidableEq, Repr

namespace UsageError

def fileMessage (name : List Char) (cause : String) : String :=
  "argument --script: can't open '" ++ String.ofList name ++ "': " ++ cause ++ ": " ++
    String.ofList (quoted name)

def message : UsageError → String
  | ambiguous word names =>
    "ambiguous option: " ++ String.ofList word ++ " could match " ++
      ", ".intercalate (names.map String.ofList)
  | needsValue flag => "argument " ++ flag.title ++ ": expected one argument"
  | unwantedValue flag value =>
    "argument " ++ flag.title ++ ": ignored explicit argument " ++ String.ofList (quoted value)
  | missingFile name => fileMessage name "[Errno 2] No such file or directory"
  | isDirectory name => fileMessage name "[Errno 21] Is a directory"
  | unrecognized words =>
    "unrecognized arguments: " ++ " ".intercalate (words.map String.ofList)
  | noExpression => "expression is required unless --schema is used"

end UsageError

inductive Argument where
  | plain (word : List Char)
  | dashes
  | option (flag : Flag) (value : Option (List Char))
  | unknown (word : List Char)

def looksNegative : List Char → Bool
  | '-' :: rest =>
    let number := if rest.getLast? = some '\n' then rest.dropLast else rest
    let isDigit := fun c => (digit? c).isSome
    match number.dropWhile isDigit with
    | [] => !number.isEmpty
    | '.' :: fraction => !fraction.isEmpty && fraction.all isDigit
    | _ => false
  | _ => false

def cutAtEquals (word : List Char) : List Char × Option (List Char) :=
  match word.dropWhile (· != '=') with
  | [] => (word, none)
  | _ :: value => (word.takeWhile (· != '='), some value)

/-- The options that a word may be short for, by name. Behind a single dash the first letter is the
    name; letters that follow ask for more of the kind, but a dash that follows is a value. -/
def candidates (word : List Char) : List (List Char × Flag × Option (List Char)) :=
  match word with
  | '-' :: '-' :: _ =>
    let (name, value) := cutAtEquals word
    (flagNames.filter fun entry => name.isPrefixOf entry.1).map fun (full, flag) => (full, flag, value)
  | '-' :: letter :: rest =>
    (flagNames.filter fun entry => entry.1 == ['-', letter]).map fun (full, flag) =>
      (full, flag, if rest.head? = some '-' then some rest else none)
  | _ => []

def classify (word : List Char) : Except UsageError Argument :=
  match word with
  | [] | ['-'] => .ok (.plain word)
  | '-' :: _ =>
    match Flag.ofName? word, cutAtEquals word with
    | some flag, _ => .ok (.option flag none)
    | none, (name, value) =>
      match value, Flag.ofName? name with
      | some value, some flag => .ok (.option flag (some value))
      | _, _ =>
        match candidates word with
        | [(_, flag, value)] => .ok (.option flag value)
        | [] => .ok (if looksNegative word || word.contains ' ' then .plain word else .unknown word)
        | several => .error (.ambiguous word (several.map (·.1)))
  | _ => .ok (.plain word)

def classifyAll : List (List Char) → Except UsageError (List Argument)
  | [] => .ok []
  | ['-', '-'] :: rest => .ok (.dashes :: rest.map .plain)
  | word :: rest => do
    let first ← classify word
    let more ← classifyAll rest
    return first :: more

inductive FileState where
  | text (content : List Char)
  | missing
  | directory

structure Options where
  help : Bool := false
  schema : Bool := false
  pretty : Bool := false
  trace : Bool := false
  script : Option (List Char) := none
  serverUrl : Option (List Char) := none
  expression : Option (List Char) := none
  extras : List (List Char) := []

namespace Options

def set (options : Options) : Flag → Options
  | .help => { options with help := true }
  | .schema => { options with schema := true }
  | .pretty => { options with pretty := true }
  | .trace => { options with trace := true }
  | .script | .serverUrl => options

def give (options : Options) (files : List Char → FileState) (flag : Flag) (value : List Char) :
    Except UsageError Options :=
  match flag with
  | .serverUrl => .ok { options with serverUrl := some value }
  | .script =>
    match files value with
    | .text content => .ok { options with script := some content }
    | .missing => .error (.missingFile value)
    | .directory => .error (.isDirectory value)
  | flag => .error (.unwantedValue flag value)

def setAside (options : Options) (word : List Char) : Options :=
  { options with extras := options.extras ++ [word] }

def take (options : Options) (word : List Char) : Options :=
  match options.expression with
  | none => { options with expression := some word }
  | some _ => options.setAside word

def takeDashes (options : Options) (taken : Bool) : Options :=
  if taken then options.setAside ['-', '-'] else options

def takeAll (options : Options) (files : List Char → FileState) :
    List Argument → Except UsageError Options
  | [] => .ok options
  | .option flag (some value) :: rest => do
    let options ← options.give files flag value
    options.takeAll files rest
  | .option flag none :: rest =>
    if flag.takesValue then
      match rest with
      | .plain value :: rest => do
        let options ← options.give files flag value
        options.takeAll files rest
      | _ => .error (.needsValue flag)
    else
      let options := options.set flag
      if options.help then .ok options else options.takeAll files rest
  | .unknown word :: rest => (options.setAside word).takeAll files rest
  | .plain word :: .dashes :: rest =>
    ((options.take word).takeDashes options.expression.isSome).takeAll files rest
  | .plain word :: rest => (options.take word).takeAll files rest
  | .dashes :: rest => (options.takeDashes options.expression.isSome).takeAll files rest

def parse (files : List Char → FileState) (words : List (List Char)) : Except UsageError Options := do
  let options ← ({} : Options).takeAll files (← classifyAll words)
  if options.help || options.extras.isEmpty then return options
  else .error (.unrecognized options.extras)

end Options

end SignalCalculus.CommandLine
