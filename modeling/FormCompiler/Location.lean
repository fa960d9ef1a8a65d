/-! Places in source text. Offsets and columns count UTF-8 bytes; lines and columns start at 1. -/

namespace FormCompiler

/-- A stretch of a source file, from the byte offset `start` up to and excluding `stop`;
`line` and `column` are those of `start`. -/
structure Location where
  file : String
  line : Nat
  column : Nat
  start : Nat
  stop : Nat
  deriving DecidableEq

namespace Location

/-- The place of everything the compiler itself provides. -/
def builtin : Location := ⟨"<builtin>", 0, 0, 0, 0⟩

instance : Inhabited Location := ⟨builtin⟩

/-- The stretch from the start of `first` to the end of `last`. -/
def through (first last : Location) : Location := { first with stop := last.stop }

def text (loc : Location) : String := s!"{loc.file}:{loc.line}:{loc.column}"

end Location

structure Position where
  line : Nat
  column : Nat
  offset : Nat
  deriving DecidableEq

namespace Position

def start : Position := ⟨1, 1, 0⟩

/-- The point after a byte. -/
def next (p : Position) (b : Char) : Position :=
  if b = '\n' then ⟨p.line + 1, 1, p.offset + 1⟩ else ⟨p.line, p.column + 1, p.offset + 1⟩

end Position

end FormCompiler
