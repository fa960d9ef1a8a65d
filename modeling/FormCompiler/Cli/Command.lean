import FormCompiler.Cli.Options
import FormCompiler.Compile
import FormCompiler.Text.Quoted
import FormCompiler.Wasm.Machine

/-! What a command line does to a tree of files: compile, write the result, run a function. -/

namespace FormCompiler

namespace Cli

/-- A failure: what was attempted, and the causes from the nearest to the last. -/
structure Report where
  message : String
  causes : List String := []
  deriving DecidableEq, Inhabited

namespace Report

/-- A text of several lines, all after the first moved in. -/
def indented (blanks : String) (text : String) : String :=
  ("\n" ++ blanks).intercalate (text.splitOn "\n")

/-- Causes are numbered if there is more than one. -/
def causeLines : Nat → List String → List String
  | _, [] => []
  | n, cause :: rest => (s!"    {n}: " ++ indented "       " cause) :: causeLines (n + 1) rest

def text (r : Report) : String :=
  let causes :=
    match r.causes with
    | [] => []
    | [cause] => ["", "Caused by:", "    " ++ indented "    " cause]
    | causes => "" :: "Caused by:" :: causeLines 0 causes
  String.join ((("Error: " ++ r.message) :: causes).map (· ++ "\n"))

end Report

/-- What a command changes: the files, and what it printed so far. -/
structure Session where
  files : FileTree := {}
  printed : String := ""
  deriving Inhabited

/-- Steps of a command. What was printed and written before a failure stays. -/
abbrev Command := EStateM Report Session

def print (text : String) : Command Unit := modify fun s => { s with printed := s.printed ++ text }

def refuse {α : Type} (message : String) (causes : List String := []) : Command α :=
  throw ⟨message, causes⟩

def notText : String := "stream did not contain valid UTF-8"

/-- The source text and its name in messages. -/
def source (o : Options) (stdin : ByteArray) : Command (String × String) := do
  match o.input with
  | none =>
    match decodeText? stdin with
    | some text => return (text, "<stdin>")
    | none => refuse notText
  | some path =>
    match (← get).files.bytesAt path with
    | .error fault => refuse s!"failed to read input file {path}" [fault.text]
    | .ok bytes =>
      match decodeText? bytes with
      | some text => return (text, path)
      | none => refuse s!"failed to read input file {path}" [notText]

/-- A refused program with what lies behind the refusal. -/
def causesOf (d : Diagnostic) : List String :=
  match d.cause with
  | .unreadableSource reason => [d.message, reason]
  | _ => [d.message]

def artifact (o : Options) (text file : String) : Command Artifact := do
  let files := (← get).files
  let library : Except Diagnostic (List SourceFile) :=
    match o.library with
    | none => .ok Library.shipped
    | some root => Library.load files root
  match library.bind fun library => compile library file text with
  | .ok a => return a
  | .error d => refuse s!"failed to compile {file}" (causesOf d)

/-- Writes the result, and makes the directories it needs. -/
def writeOutput (path : String) (bytes : ByteArray) : Command Unit := do
  let parent := Path.parent path
  unless parent = "" do
    match (← get).files.makeDirectories parent with
    | .error fault => refuse s!"failed to create directory {Text.quoted parent}" [fault.text]
    | .ok files => modify fun s => { s with files }
  match (← get).files.writeAt path bytes with
  | .error fault => refuse s!"failed to write output file {path}" [fault.text]
  | .ok files => modify fun s => { s with files }

def emit (o : Options) (a : Artifact) : Command Unit :=
  match o.emit, o.output with
  | .wasm, some path => writeOutput path ⟨a.wasm.toArray⟩
  | .wasm, none => unless o.run do refuse "--output is required for --emit wasm"
  | .wat, some path => writeOutput path a.module.wat.toUTF8
  | .wat, none => print a.module.wat

def printSource : Wasm.ImportName := ⟨"imports", "print"⟩

def printHost : Wasm.Host := ⟨printSource, fun _ _ => .ok none⟩

/-- What the host printed. A call prints if it has one argument. -/
def printedBy (store : Wasm.Store) : String :=
  String.join (store.log.toList.map fun call =>
    match call.args with
    | [value] => value.text store.heap ++ "\n"
    | _ => "")

/-- How a failed call is worded for modules of plain numbers. -/
def plainText : Wasm.Trap → String
  | .divisionByZero => "integer divide by zero"
  | .unreachable => "wasm `unreachable` instruction executed"
  | trap => trap.message

def stopText (plain : Bool) : Wasm.Stop → String
  | .trap trap => if plain then plainText trap else trap.message
  | .unfinished => "loop did not end"

def plainDepth : Nat := 1000

def typeText (params : List Wasm.ValueType) (result : Option Wasm.ValueType) : String :=
  let name : Wasm.ValueType → String
    | .i32 => "I32"
    | .i64 => "I64"
    | .f32 => "F32"
    | .f64 => "F64"
    | .ref _ => "AnyRef"
  let list (types : List Wasm.ValueType) := "[" ++ ", ".intercalate (types.map name) ++ "]"
  "FuncType \x7b core: FuncType \x7b params: " ++ list params ++ ", results: "
    ++ list result.toList ++ " \x7d \x7d"

/-- The functions that the host is to provide, with their names there. -/
def imports (m : Wasm.Module) : List (Wasm.ImportName × Wasm.Func) :=
  m.funcs.toList.filterMap fun f => f.host?.map fun source => (source, f)

/-- What the host does not provide at all. -/
def missingImport? : Wasm.ImportName × Wasm.Func → Option String
  | (source, f) =>
    if source = printSource then none
    else
      let wanted := typeText f.params f.result
      some s!"cannot find definition for import {source.module}::{source.name} with type Func({wanted})"

/-- What the host provides with other types. -/
def mistypedImport? : Wasm.ImportName × Wasm.Func → Option String
  | (_, f) =>
    if f.params = [.i32] ∧ f.result = none then none
    else
      let wanted := typeText f.params f.result
      let found := typeText [.i32] none
      some s!"imported function type mismatch. expected {wanted} but found {found}"

/-- Modules of plain numbers must find all they import before they start. All of it has to be there
before the types are compared. -/
def checkImports (m : Wasm.Module) : Command Unit :=
  match (imports m).findSome? missingImport? <|> (imports m).findSome? mistypedImport? with
  | some fault => refuse "failed to instantiate module" [fault]
  | none => return

/-- Runs an exported function; gives its value in words. -/
def runEntry (m : Wasm.Module) (entry : String) : Command (Option String) := do
  match m.exported? entry with
  | none => refuse s!"no exported function named `{entry}`"
  | some (_, f) =>
    unless f.params.isEmpty do refuse s!"`{entry}` takes parameters and cannot be run directly"
    let plain := !m.usesGc
    if plain then checkImports m
    match Wasm.Instance.ofModule m {} with
    | .error stop _ => refuse "failed to load module" [stopText plain stop]
    | .ok i store =>
      let i := i.withHost printHost
      let i := if plain then { i with depthLimit := plainDepth } else i
      match i.callExport entry [] store with
      | .error stop store =>
        print (printedBy store)
        refuse s!"failed to execute {entry}" [stopText plain stop]
      | .ok value store =>
        print (printedBy store)
        return value.map (·.text store.heap)

def execute (o : Options) (stdin : ByteArray) : Command Unit := do
  let (text, file) ← source o stdin
  let a ← artifact o text file
  emit o a
  if o.run then
    match ← runEntry a.module o.entry with
    | some value => print s!"Program exited with {value}\n"
    | none => print "Program exited\n"

structure Outcome where
  code : Nat
  stdout : String := ""
  stderr : String := ""
  files : FileTree

def usage : String :=
  "Usage: [-i FILE] [-o FILE] [--stdlib PATH] [--emit wasm|wat] [--run] [--entry NAME] [-v]\n"

/-- The name and the version that the program gives of itself. -/
def versionText : String := "voyd-cli 0.1.0\n"

def run (arguments : List String) (stdin : ByteArray) (files : FileTree) : Outcome :=
  match read arguments with
  | none => { code := 2, stderr := usage, files }
  | some .help => { code := 0, stdout := usage, files }
  | some .version => { code := 0, stdout := versionText, files }
  | some (.compile o) =>
    match execute o stdin { files } with
    | .ok _ s => { code := 0, stdout := s.printed, files := s.files }
    | .error report s => { code := 1, stdout := s.printed, stderr := report.text, files := s.files }

end Cli

end FormCompiler
