import FormCompiler.Diagnostic
import FormCompiler.Literal

/-! Forms: identifiers, constants, quoted text, and lists of forms, each with its place. -/

namespace FormCompiler

inductive Form where
  | identifier (name : String) (location : Location)
  | literal (value : Literal) (location : Location)
  | string (text : String) (location : Location)
  | list (items : List Form) (location : Location)
  deriving Inhabited

namespace Form

def location : Form → Location
  | identifier _ loc | literal _ loc | string _ loc | list _ loc => loc

def identifier? : Form → Option String
  | identifier name _ => some name
  | _ => none

/-- The items of a list; nothing for an atom. -/
def items : Form → List Form
  | list items _ => items
  | _ => []

def head? (form : Form) : Option String := form.items.head?.bind identifier?

def tail (form : Form) : List Form := form.items.tail

def startsWith (name : String) (form : Form) : Bool := form.head? == some name

def names : List Form → Except Diagnostic (List String)
  | [] => .ok []
  | form :: rest =>
    match form.identifier? with
    | none => .error (.rule form.location .identifierExpected)
    | some name => (name :: ·) <$> names rest

end Form

end FormCompiler
