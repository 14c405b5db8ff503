import SignalCalculus.CommandLine.Options
import SignalCalculus.Digest
import SignalCalculus.Link.Http
import SignalCalculus.Session

set_option autoImplicit false

namespace SignalCalculus.CommandLine

open Text

def schemaTag : String := "galaxy-eval.v1"

def schemaDoc : String := "docs/schemas/galaxy-eval.v1.json"

def toolName : String := "galaxy_eval_cli"

structure World where
  files : List Char → FileState
  setting : String → Option String
  now : String

structure Report where
  exit : Nat
  out : String := ""
  err : String := ""
  usage : Option UsageError := none

def inputsHash (script expression : List Char) : String :=
  Digest.sha256Text
    (Json.line Json.tight (.obj [("script", .ofChars script), ("expression", .ofChars expression)]))

structure Finding where
  output : Option String
  value : Option String
  warnings : List String

def Finding.ofResult : Except Fault Term → Finding
  | .ok w => ⟨some w.render, Value.prettySymbols? w.symbols, []⟩
  | .error fault => ⟨none, none, [fault.label ++ ": " ++ fault.message]⟩

def Finding.toJson (finding : Finding) (world : World) (script expression : List Char) : Json :=
  let text := fun found : Option String => (found.map Json.str).getD .null
  .obj [
    ("schema", .str schemaTag),
    ("schema_doc", .str schemaDoc),
    ("expression", .ofChars expression),
    ("output", text finding.output),
    ("value", text finding.value),
    ("ok", .bool finding.warnings.isEmpty),
    ("warnings", .arr (finding.warnings.map .str)),
    ("meta", .obj [
      ("tool", .str toolName),
      ("generated_at", .str world.now),
      ("determinism", .obj [("inputs_hash", .str (inputsHash script expression))])])]

structure Prepared where
  endpoint : Option Http.Endpoint
  book : Book
  query : Option Term

def prepare (world : World) (options : Options) (script expression : List Char) :
    Except Fault Prepared := do
  let nonempty := fun text : List Char => !text.isEmpty
  let address := (world.setting "GALAXY_SERVER_URL").map String.toList
  let url := (options.serverUrl.filter nonempty).or (address.filter nonempty)
  let key := (world.setting "GALAXY_API_KEY").map String.toList
  let endpoint ← url.mapM fun url => Http.Endpoint.make (some url) none none key none
  let equations ← (Script.parseScript script).mapError .parse
  let book ← (Book.ofEquations equations).mapError .build
  let query ← Session.readTerm (String.ofList expression)
  return ⟨endpoint, book, query⟩

def linkTo {σ : Type} (network : Http.Network σ) : Option Http.Endpoint → Link σ
  | none => Link.absent
  | some endpoint => Http.link network endpoint

/-- A run after its preparation. A fault that belongs to no family is not the expression's and ends
    the run. -/
def evaluate {σ : Type} (world : World) (network : Http.Network σ) (fuel : Nat) (options : Options)
    (script expression : List Char) (prepared : Prepared) (state : σ) :
    Option (Except Fault Report × σ) := do
  let engine : Engine := { recorder := { enabled := options.trace } }
  let (result, engine, state) ←
    engine.eval 0 prepared.book fuel (linkTo network prepared.endpoint) state prepared.query
  match result with
  | .error fault => if fault.family?.isNone then return (.error fault, state)
  | .ok _ => pure ()
  let finding := Finding.ofResult result
  let json := finding.toJson world script expression
  return (.ok {
    exit := if finding.warnings.isEmpty then 0 else 1
    out := (if options.pretty then json.block else json.line Json.spaced) ++ "\n"
    err := if options.trace then engine.recorder.trace.toOption.getD "" else "" }, state)

/-- A run of the command line; nothing if `fuel` runs out. -/
def run {σ : Type} (world : World) (network : Http.Network σ) (fuel : Nat) (words : List (List Char))
    (state : σ) : Option (Except Fault Report × σ) :=
  match Options.parse world.files words with
  | .error e => some (.ok { exit := 2, usage := some e }, state)
  | .ok options =>
    if options.help then some (.ok { exit := 0 }, state)
    else if options.schema then
      some (.ok { exit := 0, out := schemaTag ++ " " ++ schemaDoc ++ "\n" }, state)
    else
      match options.expression.filter fun text => !text.isEmpty with
      | none => some (.ok { exit := 2, usage := some .noExpression }, state)
      | some expression =>
        let script := unifyLineEnds (options.script.getD [])
        match prepare world options script expression with
        | .ok prepared => evaluate world network fuel options script expression prepared state
        | .error fault =>
          if fault.family?.isNone then some (.error fault, state)
          else some (.ok { exit := 2, err := "Invalid input: " ++ fault.message ++ "\n" }, state)

end SignalCalculus.CommandLine
