import FormCompiler.Diagnostic

/-! Tokens of the parenthesised text form, and the lexer, which goes through the bytes of the text.
Operators are ordinary identifiers; text in quotes has no escapes and ends on its line. -/

namespace FormCompiler

inductive TokenKind where
  | openParen
  | closeParen
  | identifier
  | integer
  | float
  | boolean
  | string
  deriving DecidableEq

/-- A token, the characters it is written with, where it starts and the offset after it. -/
structure Token where
  kind : TokenKind
  text : List Char
  start : Position
  stop : Nat
  deriving DecidableEq

namespace Token

def span (file : String) (first last : Token) : Location :=
  ⟨file, first.start.line, first.start.column, first.start.offset, last.stop⟩

def location (file : String) (token : Token) : Location := span file token token

/-- Separators; a comma is one. -/
def isBlank (c : Char) : Bool := c = ' ' || c = '\t' || c = '\n' || c = '\r' || c = ','

/-- Characters of identifiers, numbers and their suffixes. -/
def isAtomic (c : Char) : Bool :=
  !isBlank c && !(c = '(' || c = ')' || c = ';' || c = '"')

/-- Digits of a number; an underscore separates groups of digits. -/
def isNumeral (c : Char) : Bool := c.isDigit || c = '_'

end Token

/-- The first token of some text without its place: its kind, characters, and what follows. -/
structure Lexeme where
  kind : TokenKind
  text : List Char
  rest : List Char

namespace Lexeme

def single (kind : TokenKind) (c : Char) (rest : List Char) : Lexeme := ⟨kind, [c], rest⟩

/-- The fraction at the head of `cs`, with its point; empty unless a digit follows the point. -/
def fraction : List Char → List Char
  | '.' :: d :: cs => if d.isDigit then '.' :: (d :: cs).takeWhile Token.isNumeral else []
  | _ => []

def afterFraction : List Char → List Char
  | '.' :: d :: cs =>
    if d.isDigit then (d :: cs).dropWhile Token.isNumeral else '.' :: d :: cs
  | cs => cs

/-- The kind of a number with or without a fraction and with the given suffix. -/
def numberKind (hasFraction : Bool) (suffix : String) : Option TokenKind :=
  if suffix = "" then some (if hasFraction then .float else .integer)
  else if suffix = "i32" || suffix = "i64" then (if hasFraction then none else some .integer)
  else if suffix = "f32" || suffix = "f64" then some .float
  else none

/-- A number: digits, an optional fraction, and the rest of the atom as its suffix. `lead` is the
sign, if there is one. A wrong suffix gives the characters read. -/
def number (lead cs : List Char) : Except (LexFault × List Char) Lexeme :=
  let whole := cs.takeWhile Token.isNumeral
  let afterWhole := cs.dropWhile Token.isNumeral
  let part := fraction afterWhole
  let afterPart := afterFraction afterWhole
  let suffix := afterPart.takeWhile Token.isAtomic
  let rest := afterPart.dropWhile Token.isAtomic
  let text := lead ++ whole ++ part ++ suffix
  match numberKind (!part.isEmpty) (String.ofList suffix) with
  | some kind => .ok ⟨kind, text, rest⟩
  | none => .error (.numberSuffix (String.ofList suffix), text)

/-- Quoted text, after its opening quote. -/
def quoted (cs : List Char) : Except (LexFault × List Char) Lexeme :=
  let inner := cs.takeWhile fun c => c != '"' && c != '\n'
  match cs.dropWhile fun c => c != '"' && c != '\n' with
  | '"' :: rest => .ok ⟨.string, '"' :: inner ++ ['"'], rest⟩
  | _ => .error (.unterminatedString, '"' :: inner)

def atom (cs : List Char) : Lexeme :=
  let text := cs.takeWhile Token.isAtomic
  let kind := if text = "true".toList || text = "false".toList then .boolean else .identifier
  ⟨kind, text, cs.dropWhile Token.isAtomic⟩

/-- Whether a number starts with the sign `c` before `cs`. -/
def isSigned (c : Char) (cs : List Char) : Bool :=
  (c = '-' || c = '+') && match cs with
    | d :: _ => d.isDigit
    | [] => false

/-- The token at the start of `c :: cs`, where `c` begins neither a blank nor a comment. -/
def first (c : Char) (cs : List Char) : Except (LexFault × List Char) Lexeme :=
  if c = '(' then .ok (single .openParen c cs)
  else if c = ')' then .ok (single .closeParen c cs)
  else if c = '"' then quoted cs
  else if c.isDigit then number [] (c :: cs)
  else if isSigned c cs then number [c] cs
  else .ok (atom (c :: cs))

theorem length_dropWhile_le (p : Char → Bool) (cs : List Char) :
    (cs.dropWhile p).length ≤ cs.length :=
  (List.dropWhile_suffix p).length_le

theorem length_afterFraction_le (cs : List Char) : (afterFraction cs).length ≤ cs.length := by
  unfold afterFraction
  split
  · split
    · exact Nat.le_succ_of_le (length_dropWhile_le _ _)
    · exact Nat.le_refl _
  · exact Nat.le_refl _

theorem number_rest_le {lead cs : List Char} {l : Lexeme} (h : number lead cs = .ok l) :
    l.rest.length ≤ (cs.dropWhile Token.isNumeral).length := by
  simp only [number] at h
  split at h
  · cases h
    exact Nat.le_trans (length_dropWhile_le _ _) (length_afterFraction_le _)
  · cases h

theorem quoted_rest_lt {cs : List Char} {l : Lexeme} (h : quoted cs = .ok l) :
    l.rest.length ≤ cs.length := by
  simp only [quoted] at h
  split at h
  next rest heq =>
    cases h
    have := length_dropWhile_le (fun c => c != '"' && c != '\n') cs
    rw [heq, List.length_cons] at this
    exact Nat.le_of_succ_le this
  · cases h

theorem isNumeral_of_isDigit {c : Char} (h : c.isDigit) : Token.isNumeral c := by
  simp [Token.isNumeral, h]

/-- A token is never empty: what follows is shorter. -/
theorem first_rest_lt {c : Char} {cs : List Char} {l : Lexeme} (hb : Token.isBlank c = false)
    (hs : c ≠ ';') (h : first c cs = .ok l) : l.rest.length < (c :: cs).length := by
  simp only [first] at h
  split at h
  · cases h; simp [single]
  split at h
  · cases h; simp [single]
  split at h
  · exact Nat.lt_succ_of_le (quoted_rest_lt h)
  split at h
  next hd =>
    have := number_rest_le h
    rw [List.dropWhile_cons_of_pos (isNumeral_of_isDigit hd)] at this
    exact Nat.lt_succ_of_le (Nat.le_trans this (length_dropWhile_le _ _))
  split at h
  · exact Nat.lt_succ_of_le (Nat.le_trans (number_rest_le h) (length_dropWhile_le _ _))
  next ho hc hq _ _ =>
    cases h
    have ha : Token.isAtomic c = true := by simp [Token.isAtomic, hb, ho, hc, hq, hs]
    simp only [atom, List.dropWhile_cons_of_pos ha]
    exact Nat.lt_succ_of_le (length_dropWhile_le _ _)

end Lexeme

namespace LexFault

def map (f : List Char → List Char) : LexFault → LexFault
  | unterminatedString => unterminatedString
  | numberSuffix suffix => numberSuffix (String.ofList (f suffix.toList))

end LexFault

namespace Token

/-- The bytes of some text, each as the character with its number. -/
def encode (cs : List Char) : List Char := (cs.flatMap String.utf8EncodeChar).map Char.ofUInt8

/-- The text of some bytes, of which `left` end the character begun as `value`. -/
def decodeFrom : (left value : Nat) → List Char → List Char
  | _, _, [] => []
  | 0, _, b :: bs =>
    if b.toNat < 128 then b :: decodeFrom 0 0 bs
    else if b.toNat < 224 then decodeFrom 1 (b.toNat % 32) bs
    else if b.toNat < 240 then decodeFrom 2 (b.toNat % 16) bs
    else decodeFrom 3 (b.toNat % 8) bs
  | left + 1, value, b :: bs =>
    let value := value * 64 + b.toNat % 64
    if left = 0 then Char.ofNat value :: decodeFrom 0 0 bs else decodeFrom left value bs

/-- What a text is made of: how a unit of it moves the place, and the characters a run of units stands for. -/
structure Units where
  step : Position → Char → Position
  text : List Char → List Char

def Units.bytes : Units := ⟨Position.next, decodeFrom 0 0⟩

/-- The tokens of the text that starts at `p`. A wrong token is placed at the point where reading
it stopped. -/
def scanFrom (u : Units) (file : String) (p : Position) : List Char → Except Diagnostic (List Token)
  | [] => .ok []
  | c :: cs =>
    if _blank : isBlank c = true then scanFrom u file (u.step p c) cs
    else if _comment : c = ';' then
      scanFrom u file ((c :: cs.takeWhile (· != '\n')).foldl u.step p) (cs.dropWhile (· != '\n'))
    else
      match _lexeme : Lexeme.first c cs with
      | .ok lexeme =>
        let after := lexeme.text.foldl u.step p
        match scanFrom u file after lexeme.rest with
        | .ok tokens => .ok (⟨lexeme.kind, u.text lexeme.text, p, after.offset⟩ :: tokens)
        | .error e => .error e
      | .error (fault, read) =>
        let after := read.foldl u.step p
        .error (.here ⟨file, after.line, after.column, p.offset, after.offset⟩ (.lexical (fault.map u.text)))
termination_by cs => cs.length
decreasing_by
  · simp
  · exact Nat.lt_succ_of_le (Lexeme.length_dropWhile_le _ _)
  · exact Lexeme.first_rest_lt (by simpa using _blank) _comment _lexeme

def scan (file source : String) : Except Diagnostic (List Token) :=
  scanFrom .bytes file .start (encode source.toList)

end Token

end FormCompiler
