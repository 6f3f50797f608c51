import AsmScan.Options
import AsmScan.Text.Terminal

/-!
The command line of `p16asm`. Arguments are read from left to right. Values
without a flag of their own are held back until the next argument that is not
one of them, and only then accepted or refused.
-/

namespace AsmScan.CommandLine

inductive Parameter where
  | inputs
  | output
  | verbose
  | help
  | version
  deriving DecidableEq

def Parameter.shown : Parameter → String
  | inputs => "[INPUTS]..."
  | output => "--output <OUTPUT>"
  | verbose => "--verbose"
  | help => "--help"
  | version => "--version"

inductive UsageFault where
  | unexpectedArgument (argument : String)
  | unexpectedValue (parameter : Parameter) (value : String)
  | missingValue (parameter : Parameter)
  | repeated (parameter : Parameter)
  deriving DecidableEq

def UsageFault.message : UsageFault → String
  | unexpectedArgument argument =>
    s!"unexpected argument '{Text.Terminal.printed argument}' found"
  | unexpectedValue parameter value =>
    s!"unexpected value '{Text.Terminal.printed value}' for '{parameter.shown}' found; " ++
      "no more were expected"
  | missingValue parameter =>
    s!"a value is required for '{parameter.shown}' but none was supplied"
  | repeated parameter => s!"the argument '{parameter.shown}' cannot be used multiple times"

inductive Stop where
  | help
  | version
  | fault (fault : UsageFault)
  deriving DecidableEq

inductive Pending where
  | inputs (values : List String)
  | output (value : Option String)
  deriving DecidableEq

structure Reading where
  inputs : List String := []
  output : Option String := none
  verbose : Bool := false
  pending : Option Pending := none
  deriving DecidableEq

abbrev Reader := Except Stop

def refuse {α : Type} (fault : UsageFault) : Reader α := throw (.fault fault)

namespace Reading

def acceptOutput (r : Reading) (value : String) : Reader Reading :=
  if r.output.isSome then refuse (.repeated .output)
  else if value = "" then refuse (.missingValue .output)
  else return { r with output := some value }

def settle (r : Reading) : Reader Reading :=
  let settled := { r with pending := none }
  match r.pending with
  | none => return settled
  | some (.inputs values) =>
    if "" ∈ values then refuse (.missingValue .inputs)
    else return { settled with inputs := r.inputs ++ values }
  | some (.output none) => refuse (.missingValue .output)
  | some (.output (some value)) => settled.acceptOutput value

def attachOutput (r : Reading) (value : String) : Reader Reading := do
  (← r.settle).acceptOutput value

def openOutput (r : Reading) : Reader Reading := do
  return { ← r.settle with pending := some (.output none) }

def setVerbose (r : Reading) : Reader Reading := do
  let r ← r.settle
  if r.verbose then refuse (.repeated .verbose) else return { r with verbose := true }

def stop (r : Reading) (reason : Stop) : Reader Reading := do
  let _ ← r.settle
  throw reason

def input (r : Reading) (value : String) : Reader Reading :=
  match r.pending with
  | some (.inputs values) => return { r with pending := some (.inputs (values ++ [value])) }
  | _ => do return { ← r.settle with pending := some (.inputs [value]) }

/-- A value belongs to the output option right before it, or else is an input. -/
def value (r : Reading) (value : String) : Reader Reading :=
  if r.pending = some (.output none) then return { r with pending := some (.output (some value)) }
  else r.input value

/-- The letters after a single dash. A letter that takes a value takes the rest,
    from which one equals sign in front is dropped. -/
def letters (r : Reading) : List Char → Reader Reading
  | [] => return r
  | 'v' :: rest => do (← r.setVerbose).letters rest
  | 'h' :: _ => r.stop .help
  | 'V' :: _ => r.stop .version
  | ['o'] => r.openOutput
  | 'o' :: '=' :: rest => r.attachOutput (String.ofList rest)
  | 'o' :: rest => r.attachOutput (String.ofList rest)
  | c :: _ => refuse (.unexpectedArgument (String.ofList ['-', c]))

def flag (attached : Option String) (parameter : Parameter) (act : Reader Reading) :
    Reader Reading :=
  match attached with
  | none => act
  | some value => refuse (.unexpectedValue parameter value)

def long (r : Reading) (cs : List Char) : Reader Reading :=
  let name := String.ofList (cs.takeWhile (· != '='))
  let attached := (cs.dropWhile (· != '=')).tail?.map String.ofList
  if name = "output" then
    match attached with
    | none => r.openOutput
    | some value => r.attachOutput value
  else if name = "verbose" then flag attached .verbose r.setVerbose
  else if name = "help" then flag attached .help (r.stop .help)
  else if name = "version" then flag attached .version (r.stop .version)
  else refuse (.unexpectedArgument ("--" ++ name))

end Reading

/-- Reads the arguments. Two dashes alone make everything after them an input;
    one dash alone is a value. -/
def read (onlyInputs : Bool) (r : Reading) : List String → Reader Reading
  | [] => r.settle
  | argument :: rest =>
    if onlyInputs then do read true (← r.input argument) rest
    else match argument.toList with
      | ['-', '-'] => read true r rest
      | '-' :: '-' :: cs => do read false (← r.long cs) rest
      | '-' :: c :: cs => do read false (← r.letters (c :: cs)) rest
      | _ => do read false (← r.value argument) rest

inductive Request where
  | help
  | version
  | invalid (fault : UsageFault)
  | assemble (inputs : List Path) (options : Options)
  deriving DecidableEq

def Reading.options (r : Reading) : Options :=
  let options : Options := match r.output with
    | none => {}
    | some output => Options.withOutput {} (.ofString output)
  if r.verbose then options.withVerbose else options

def parse (arguments : List String) : Request :=
  match read false {} arguments with
  | .ok reading => .assemble (reading.inputs.map Path.ofString) reading.options
  | .error .help => .help
  | .error .version => .version
  | .error (.fault fault) => .invalid fault

end AsmScan.CommandLine
