namespace Juggling.CommandLine

/-- Why arguments do not start a command. -/
inductive Refusal where
  /-- Help is asked for, which is no mistake. -/
  | help
  | usage
  deriving DecidableEq

/-- An option that may be given once, by its long or its short name. A switch has no value. -/
structure OptionSpec where
  long : String
  short : Char
  accepts? : Option (String → Bool)

/-- The options of a command, and the long and short names that ask for help instead. -/
structure Grammar where
  options : List OptionSpec
  asks : List (String × Char)

structure Given where
  operand : Option String := none
  values : List (String × String) := []

namespace Given

/-- Takes an operand, of which there is one at most; it cannot be empty. -/
def setOperand (g : Given) (s : String) : Except Refusal Given :=
  if g.operand.isSome || s.isEmpty then .error .usage else .ok { g with operand := some s }

def set (g : Given) (o : OptionSpec) (value : String) : Except Refusal Given :=
  let accepted := match o.accepts? with
    | some accepts => accepts value
    | none => true
  if (g.values.lookup o.long).isSome || !accepted then .error .usage
  else .ok { g with values := (o.long, value) :: g.values }

def get? (g : Given) (long : String) : Option String := g.values.lookup long

end Given

variable (grammar : Grammar)

/-- Takes a long option, perhaps with its value after an equals sign. The option comes back when
its value is still to come. -/
def takeLong (g : Given) (body : String) : Except Refusal (Given × Option OptionSpec) :=
  let (name, value) : List Char × Option String :=
    let name := body.toList.takeWhile (· != '=')
    match body.toList.dropWhile (· != '=') with
    | [] => (name, none)
    | _ :: value => (name, some (String.ofList value))
  match grammar.options.find? (·.long == String.ofList name), value with
  | some o, some v =>
    if o.accepts?.isSome then (g.set o v).map (·, none) else .error .usage
  | some o, none =>
    if o.accepts?.isSome then .ok (g, some o) else (g.set o "").map (·, none)
  | none, some _ => .error .usage
  | none, none =>
    .error (if grammar.asks.any (·.1 == String.ofList name) then .help else .usage)

/-- Takes short options behind one dash, the last of which may have its value right behind it. -/
def takeShort (g : Given) : List Char → Except Refusal (Given × Option OptionSpec)
  | [] => .ok (g, none)
  | c :: cs =>
    match grammar.options.find? (·.short == c) with
    | none => .error (if grammar.asks.any (·.2 == c) then .help else .usage)
    | some o =>
      if o.accepts?.isNone then do takeShort (← g.set o "") cs
      else match cs with
        | [] => .ok (g, some o)
        -- The rest of the word is the value.
        | '=' :: value | value => (g.set o (String.ofList value)).map (·, none)

/-- Whether an argument is no operand but stands for options. A dash alone is an operand. -/
def isOption (arg : String) : Bool :=
  match arg.toList with
  | '-' :: _ :: _ => true
  | _ => false

def take (g : Given) (arg : String) : Except Refusal (Given × Option OptionSpec) :=
  match arg.toList with
  | '-' :: '-' :: body => takeLong grammar g (String.ofList body)
  | '-' :: c :: cs => takeShort grammar g (c :: cs)
  | _ => (g.setOperand arg).map (·, none)

/-- Takes all arguments, given the option that waits for its value. Behind a double dash all are
operands. -/
def takeAll (g : Given) (waiting : Option OptionSpec) : List String → Except Refusal Given
  | [] => if waiting.isSome then .error .usage else .ok g
  | arg :: args =>
    match waiting with
    | some o => if isOption arg then .error .usage else do takeAll (← g.set o arg) none args
    | none =>
      if arg = "--" then args.foldlM Given.setOperand g
      else do
        let (g, waiting) ← take grammar g arg
        takeAll g waiting args

/-- Takes the arguments in front of the first operand, and returns the operand and those behind
it. -/
def takeLeading (g : Given) : List String → Except Refusal (String × List String)
  | [] => .error .usage
  | arg :: args =>
    if arg = "--" then .error .usage
    else if isOption arg then do
      let (g, _) ← take grammar g arg
      takeLeading g args
    else .ok (arg, args)

end Juggling.CommandLine
