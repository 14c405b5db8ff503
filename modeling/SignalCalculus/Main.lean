import SignalCalculus.CommandLine.Clock
import SignalCalculus.CommandLine.Run
import Std.Time.DateTime.Timestamp

set_option autoImplicit false

namespace SignalCalculus.CommandLine

def lookAt (name : String) : IO FileState :=
  tryCatch (do return .text (← IO.FS.readFile name).toList) fun
    | .inappropriateType .. => return .directory
    | _ => return .missing

def fileNames (word : String) : List String :=
  match cutAtEquals word.toList with
  | (_, some value) => [word, String.ofList value]
  | (_, none) => [word]

def offline : Http.Network Unit := fun _ state => (.unreachable "no network", state)

/-- More steps than a run can make in practice. -/
def ampleFuel : Nat := 1000000000000000000

end SignalCalculus.CommandLine

open SignalCalculus CommandLine in
def main (args : List String) : IO UInt32 := do
  let mut files : Table String FileState := []
  for name in args.flatMap fileNames do
    files := files.put name (← lookAt name)
  let mut settings : Table String String := []
  for name in ["GALAXY_SERVER_URL", "GALAXY_API_KEY"] do
    if let some value ← IO.getEnv name then settings := settings.put name value
  let now := (← Std.Time.Timestamp.now).toSecondsSinceUnixEpoch.val.toNat
  let found := files
  let given := settings
  let world : World :=
    { files := fun name => (found.get? (String.ofList name)).getD .missing
      setting := fun name => given.get? name
      now := timeText now }
  match CommandLine.run world offline ampleFuel (args.map String.toList) () with
  | none => return 1
  | some (.error fault, _) =>
    IO.eprintln (fault.label ++ ": " ++ fault.message)
    return 1
  | some (.ok report, _) =>
    IO.print report.out
    IO.eprint report.err
    if let some e := report.usage then IO.eprintln ("error: " ++ e.message)
    return report.exit.toUInt32
