import Juggling.Pattern.Document
import Juggling.Report
import Juggling.CommandLine.Command
import Juggling.CommandLine.FileName

namespace Juggling.CommandLine

inductive Status where
  | success
  /-- The command line asks for nothing that can be done. -/
  | usage
  /-- The pattern cannot be read or laid out. -/
  | pattern
  /-- A layout does not answer, or the answer cannot be written. -/
  | internal
  deriving DecidableEq

/-- What is wrong, if it has been said. -/
structure Failure where
  status : Status
  message : Option String

/-- What a run prints, and the text of the file that it writes. -/
structure Outcome where
  failure : Option Failure := none
  output : Option Json := none
  file : Option (String × String) := none

namespace Status

def code : Status → Nat
  | success => 0
  | usage => 1
  | pattern => 2
  | internal => 3

end Status

namespace Outcome

def fail (status : Status) (message : String) : Outcome :=
  { failure := some ⟨status, some message⟩ }

def status (o : Outcome) : Status := (o.failure.map (·.status)).getD .success

end Outcome

def formatOf (name : String) : Except String Format :=
  match (extension? name).map String.ofList with
  | some "json" => .ok .json
  | some "yaml" | some "yml" => .ok .yaml
  | _ => .error ("unsupported document extension: " ++ shown name)

def readDocument (name : String) (content : Except String String) : Except String Element := do
  let format ← formatOf name
  let text ← lift (fun e ↦ s!"Failed to read input file: {shown name}: {e}") content
  lift (fun e ↦ s!"Failed to parse pattern document: {shown name}: {e.message}")
    (Element.fromText format text)

/-- A pattern error is the fault of the pattern or of the layout. -/
def failureOf (e : PatternError Double) : Outcome :=
  match e with
  | .user _ => .fail .pattern e.message
  | .internal _ => .fail .internal e.message

def load (name : String) (content : Except String String) : Except Outcome (Pattern Double) := do
  let root ← lift (Outcome.fail .pattern) (readDocument name content)
  let p ← lift (fun e ↦ failureOf (.user e)) (Pattern.ofDocument root)
  let (p, result) := p.layOut
  lift failureOf result
  return p

def report (answer : Except (PatternError Double) Json) : Except Outcome Outcome :=
  lift failureOf (answer.map fun x ↦ { output := some x })

def save (p : Pattern Double) (name : String) (o : Outcome) : Outcome :=
  match formatOf name with
  | .ok format => { o with file := some (name, p.toText format) }
  | .error message => { o with failure := some ⟨.internal, some message⟩ }

def Command.answer (content : Except String String) : Command → Except Outcome Outcome
  | .layout input output => do
    let p ← load input content
    let o ← report (Report.summary p)
    return match output with
      | some name => save p name o
      | none => o
  | .sample input path steps => do
    if steps = 0 then throw (.fail .usage "--steps must be at least 1")
    let p ← load input content
    report (Report.samples p path steps)
  | .pose input juggler time => do
    if !Scalar.isFinite time then throw (.fail .usage "--time must be a finite number")
    let p ← load input content
    report (Report.pose p juggler time)

def Command.run (c : Command) (content : Except String String) : Outcome :=
  match c.answer content with
  | .ok o | .error o => o

def Refusal.outcome : Refusal → Outcome
  | .help => {}
  | .usage => { failure := some ⟨.usage, none⟩ }

/-- A file that could not be written is a failure, whatever has been printed before. -/
def Outcome.notWritten (o : Outcome) (name reason : String) : Outcome :=
  { o with failure := some ⟨.internal, some s!"Failed to write {shown name}: {reason}"⟩ }

end Juggling.CommandLine
