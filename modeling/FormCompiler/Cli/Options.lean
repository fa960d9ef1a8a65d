/-! The options of the command line. Long options take their value after a blank or an equals sign;
short ones can be joined, the last with its value. Each can be given once. -/

namespace FormCompiler

namespace Cli

inductive Emit where
  | wasm
  | wat
  deriving DecidableEq, Inhabited

inductive Flag where
  | input
  | output
  | library
  | emit
  | run
  | entry
  | verbose
  | help
  | version
  deriving DecidableEq, Inhabited

namespace Flag

def takesValue : Flag → Bool
  | input | output | library | emit | entry => true
  | run | verbose | help | version => false

def ofLong? : String → Option Flag
  | "input" => some input
  | "output" => some output
  | "stdlib" => some library
  | "emit" => some emit
  | "run" => some run
  | "entry" => some entry
  | "verbose" => some verbose
  | "help" => some help
  | "version" => some version
  | _ => none

def ofShort? : Char → Option Flag
  | 'i' => some input
  | 'o' => some output
  | 'v' => some verbose
  | 'h' => some help
  | 'V' => some version
  | _ => none

end Flag

abbrev Setting := Flag × String

/-- Flags of one argument with their values, and the flag that takes the next argument. -/
abbrev Reading := List Setting × Option Flag

def readShort : List Char → Option Reading
  | [] => some ([], none)
  | c :: cs => do
    let flag ← Flag.ofShort? c
    if flag.takesValue then
      match cs with
      | [] => some ([], some flag)
      | '=' :: value => some ([(flag, String.ofList value)], none)
      | value => some ([(flag, String.ofList value)], none)
    else
      let (settings, open_) ← readShort cs
      some ((flag, "") :: settings, open_)

def readLong (text : List Char) : Option Reading := do
  let flag ← Flag.ofLong? (String.ofList (text.takeWhile (· ≠ '=')))
  match flag.takesValue, text.dropWhile (· ≠ '=') with
  | true, [] => some ([], some flag)
  | true, _ :: value => some ([(flag, String.ofList value)], none)
  | false, [] => some ([(flag, "")], none)
  | false, _ => none

def readArgument (argument : String) : Option Reading :=
  match argument.toList with
  | '-' :: '-' :: text => if text.isEmpty then none else readLong text
  | '-' :: c :: cs => readShort (c :: cs)
  | _ => none

/-- Whether an argument cannot be the value of an option before it. -/
def isOption (argument : String) : Bool :=
  match argument.toList with
  | '-' :: _ :: _ => true
  | _ => false

def emitOf? : String → Option Emit
  | "wasm" => some .wasm
  | "wat" => some .wat
  | _ => none

structure Options where
  input : Option String := none
  output : Option String := none
  /-- Where the library is, if not with the compiler. -/
  library : Option String := none
  emit : Emit := .wasm
  run : Bool := false
  entry : String := "main"
  verbose : Bool := false
  deriving DecidableEq, Inhabited

namespace Options

/-- Applies a setting; nothing if its value is wrong. -/
def set? (o : Options) : Setting → Option Options
  | (.input, path) => some { o with input := some path }
  | (.output, path) => some { o with output := some path }
  | (.library, path) => some { o with library := some path }
  | (.emit, text) => (emitOf? text).map fun emit => { o with emit }
  | (.run, _) => some { o with run := true }
  | (.entry, name) => some { o with entry := name }
  | (.verbose, _) => some { o with verbose := true }
  | (.help, _) | (.version, _) => some o

end Options

inductive Request where
  | help
  | version
  | compile (options : Options)
  deriving DecidableEq, Inhabited

/-- What was read so far: a request that ends the reading, or options and the flags they came with. -/
inductive Progress where
  | settled (request : Request)
  | options (options : Options) (seen : List Flag)

/-- Applies settings in order. A flag cannot be given twice. -/
def applyAll (o : Options) (seen : List Flag) : List Setting → Option Progress
  | [] => some (.options o seen)
  | (.help, _) :: _ => some (.settled .help)
  | (.version, _) :: _ => some (.settled .version)
  | (flag, value) :: rest =>
    if seen.contains flag then none
    else do applyAll (← o.set? (flag, value)) (flag :: seen) rest

def readFrom (o : Options) (seen : List Flag) : List String → Option Request
  | [] => some (.compile o)
  | argument :: rest =>
    if argument = "--" then (if rest.isEmpty then some (.compile o) else none)
    else
      match readArgument argument with
      | none => none
      | some (settings, none) =>
        match applyAll o seen settings with
        | none => none
        | some (.settled request) => some request
        | some (.options o seen) => readFrom o seen rest
      | some (settings, some flag) =>
        match rest with
        | [] => none
        | value :: rest =>
          if isOption value then none
          else
            match applyAll o seen (settings ++ [(flag, value)]) with
            | none => none
            | some (.settled request) => some request
            | some (.options o seen) => readFrom o seen rest

/-- Reads a command line; nothing if it is wrong. -/
def read (arguments : List String) : Option Request := readFrom {} [] arguments

end Cli

end FormCompiler
