import Juggling.CommandLine.Run

open Juggling.CommandLine

namespace Juggling

def usageText : String :=
  "Usage: juggle [-d] layout FILE [-o FILE]\n" ++
  "       juggle [-d] sample FILE [-p PATH] [-s STEPS]\n" ++
  "       juggle [-d] pose FILE [-j JUGGLER] [-t TIME]"

/-- The number of an error, which some calls tell as a negative one of 32 bits. -/
def errorNumber (code : UInt32) : Nat := min code.toNat (-code).toNat

def told (code : UInt32) (details : String) : String :=
  s!"{details.capitalize} (os error {errorNumber code})"

/-- What the system says about a failed access to a file. -/
def reason : IO.Error → String
  | .noFileOrDirectory _ code details => told code details
  | .permissionDenied _ code details => told code details
  | .inappropriateType _ code details => told code details
  | e => toString e

def readInput (name : String) : IO (Except String String) := do
  try
    return .ok (← IO.FS.readFile name)
  catch e =>
    return .error (reason e)

def writeOutput (o : Outcome) : IO Outcome := do
  match o.file with
  | none => return o
  | some (name, text) =>
    try
      IO.FS.writeFile name text
      return o
    catch e =>
      return o.notWritten name (reason e)

def runCommand (c : Command) : IO Outcome := do
  let o := c.run (← readInput c.input)
  match o.output with
  | some x => IO.println x.pretty
  | none => pure ()
  writeOutput o

end Juggling

open Juggling in
def main (args : List String) : IO UInt32 := do
  match Command.parse args with
  | .error r =>
    if r = .help then IO.println usageText else IO.eprintln usageText
    return UInt32.ofNat r.outcome.status.code
  | .ok c =>
    let o ← runCommand c
    match o.failure.bind (·.message) with
    | some message => IO.eprintln ("error: " ++ message)
    | none => pure ()
    return UInt32.ofNat o.status.code
