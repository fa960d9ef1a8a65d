import FormCompiler.Form
import FormCompiler.Token

/-! Reading forms from tokens. The reader keeps the lists that are open, innermost first, each with
its opening parenthesis and the items read so far in reverse. -/

namespace FormCompiler

structure Numeral where
  negative : Bool
  digits : Nat
  /-- How many of the digits stand after the point. -/
  places : Nat
  suffix : String
  /-- Whether the text before the suffix, without separators, is a decimal number. -/
  decimal : Bool

namespace Numeral

def digitValue (c : Char) : Nat := c.toNat - '0'.toNat

/-- The number a run of digits writes; separators do not count. -/
def value (cs : List Char) : Nat :=
  (cs.filter Char.isDigit).foldl (fun n c => 10 * n + digitValue c) 0

/-- A sign or none, digits, and possibly a point and more digits. -/
def isDecimal (cs : List Char) : Bool :=
  let unsigned := if cs.head? == some '-' || cs.head? == some '+' then cs.tail else cs
  !(unsigned.takeWhile Char.isDigit).isEmpty &&
    match unsigned.dropWhile Char.isDigit with
    | [] => true
    | point :: part => point = '.' && !part.isEmpty && part.all Char.isDigit

/-- The parts of a number: sign, digits before and after the point, and a suffix that starts at the
first letter. -/
def ofText (text : List Char) : Numeral :=
  let body := text.takeWhile (!·.isAlpha)
  let after := body.dropWhile (· != '.')
  { negative := text.head? == some '-'
    digits := value body
    places := (after.filter Char.isDigit).length
    suffix := String.ofList (text.dropWhile (!·.isAlpha))
    decimal := isDecimal (body.filter (· != '_')) }

def int (n : Numeral) : Int := if n.negative then -n.digits else n.digits

/-- The constant a floating-point token writes: double precision unless its suffix says single. -/
def float? (n : Numeral) : Except ReadFault Literal :=
  let v := Binary64.ofDecimal n.negative n.digits n.places
  if !n.decimal then .error .malformedFloat
  else .ok (if n.suffix = "f32" then .f32 v else .f64 v)

/-- The constant an integer token writes: 32 bits wide unless its suffix says 64, or that it is no integer. -/
def integer? (n : Numeral) : Except ReadFault Literal :=
  let v := n.int
  if n.suffix ∈ ["f32", "f64"] then n.float?
  else if v < -0x8000000000000000 || 0x8000000000000000 ≤ v then .error .integerRange
  else if n.suffix = "i64" then .ok (.i64 (Int64.ofInt v))
  else if v < -0x80000000 || 0x80000000 ≤ v then .error .integerRange32
  else .ok (.i32 (Int32.ofInt v))

end Numeral

namespace Form

/-- A list whose closing parenthesis is still to come. -/
structure OpenList where
  opening : Token
  reversed : List Form

/-- The lists that are open, innermost first, and the finished top-level forms in reverse. -/
structure ReaderState where
  pending : List OpenList
  finished : List Form

namespace ReaderState

def initial : ReaderState := ⟨[], []⟩

/-- Puts a finished form after what was read of the innermost open list. -/
def add (form : Form) : ReaderState → ReaderState
  | ⟨[], finished⟩ => ⟨[], form :: finished⟩
  | ⟨inner :: outer, finished⟩ =>
    ⟨{ inner with reversed := form :: inner.reversed } :: outer, finished⟩

def constant (loc : Location) : Except ReadFault Literal → Except Diagnostic Form
  | .ok value => .ok (.literal value loc)
  | .error fault => .error (.here loc (.syntactic fault))

/-- The form a token other than a parenthesis stands for. -/
def atom (loc : Location) (token : Token) : Except Diagnostic Form :=
  match token.kind with
  | .identifier => .ok (.identifier (String.ofList token.text) loc)
  | .boolean => .ok (.literal (.bool (token.text = "true".toList)) loc)
  | .string => .ok (.string (String.ofList (token.text.drop 1).dropLast) loc)
  | .integer => constant loc (Numeral.ofText token.text).integer?
  | .float => constant loc (Numeral.ofText token.text).float?
  | .openParen | .closeParen => .error (.here loc (.syntactic .unexpectedClose))

def step (file : String) (state : ReaderState) (token : Token) :
    Except Diagnostic ReaderState :=
  match token.kind with
  | .openParen => .ok { state with pending := ⟨token, []⟩ :: state.pending }
  | .closeParen =>
    match state.pending with
    | [] => .error (.here (token.location file) (.syntactic .unexpectedClose))
    | inner :: outer =>
      let form := .list inner.reversed.reverse (inner.opening.span file token)
      .ok (add form { state with pending := outer })
  | _ => (add · state) <$> atom (token.location file) token

def finish (file : String) (state : ReaderState) : Except Diagnostic (List Form) :=
  match state.pending with
  | [] => .ok state.finished.reverse
  | inner :: _ => .error (.here (inner.opening.location file) (.syntactic .unterminatedList))

end ReaderState

def ofTokens (file : String) (tokens : List Token) : Except Diagnostic (List Form) := do
  let state ← tokens.foldlM (ReaderState.step file) .initial
  state.finish file

def read (file source : String) : Except Diagnostic (List Form) := do
  ofTokens file (← Token.scan file source)

end Form

end FormCompiler
