import Juggling.Double
import Juggling.CommandLine.Options

namespace Juggling.CommandLine

/-- What is asked for, with the name of the file that holds the pattern. -/
inductive Command where
  /-- A summary of the layout, and perhaps the pattern in another file. -/
  | layout (input : String) (output : Option String)
  /-- So many places of one path, evenly over a loop. -/
  | sample (input : String) (path steps : Nat)
  /-- The pose of a juggler at some time. -/
  | pose (input : String) (juggler : Nat) (time : Double)

namespace Command

def input : Command → String
  | layout input _ | sample input _ _ | pose input _ _ => input

def readNat? (s : String) : Option Nat := Text.readNat? s.toList

def debug : OptionSpec := ⟨"debug", 'd', none⟩

def fileOption (long : String) (short : Char) : OptionSpec := ⟨long, short, some (!·.isEmpty)⟩

def natOption (long : String) (short : Char) : OptionSpec :=
  ⟨long, short, some fun s ↦ (readNat? s).isSome⟩

def numberOption (long : String) (short : Char) : OptionSpec :=
  ⟨long, short, some fun s ↦ (Numeral.read? s : Option Double).isSome⟩

def natD (g : Given) (long : String) (default : Nat) : Nat :=
  ((g.get? long).bind readNat?).getD default

def numberD (g : Given) (long : String) (default : Double) : Double :=
  ((g.get? long).bind Numeral.read?).getD default

/-- A command with an operand, made of what has been given. -/
def ofGiven (make : Given → String → Command) (g : Given) : Except Refusal Command :=
  match g.operand with
  | some input => .ok (make g input)
  | none => .error .usage

def parseNamed (name : String) (args : List String) : Except Refusal Command :=
  let take (options : List OptionSpec) (make : Given → String → Command) :=
    takeAll ⟨debug :: options, [("help", 'h')]⟩ {} none args >>= ofGiven make
  match name with
  | "layout" => take [fileOption "output" 'o'] fun g input ↦ layout input (g.get? "output")
  | "sample" =>
    take [natOption "path" 'p', natOption "steps" 's'] fun g input ↦
      sample input (natD g "path" 1) (natD g "steps" 20)
  | "pose" =>
    take [natOption "juggler" 'j', numberOption "time" 't'] fun g input ↦
      pose input (natD g "juggler" 1) (numberD g "time" 0)
  | "help" =>
    .error <|
      match args with
      | [] => .help
      | [topic] => if ["layout", "sample", "pose", "help"].contains topic then .help else .usage
      | _ => .usage
  | _ => .error .usage

/-- The options in front of a command. Asking for the version is asking for help. -/
def leading : Grammar := ⟨[debug], [("help", 'h'), ("version", 'V')]⟩

def parse (args : List String) : Except Refusal Command := do
  let (name, args) ← takeLeading leading {} args
  parseNamed name args

end Command

end Juggling.CommandLine
