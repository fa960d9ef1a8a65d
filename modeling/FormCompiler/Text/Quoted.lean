import FormCompiler.Text.Shown

/-! Text between double quotes, on one line and in characters that can be seen. -/

namespace FormCompiler.Text

/-- How a character is written between quotes: by its own escape, as it is, or by its number. -/
def escape (c : Char) : String :=
  match c with
  | '\x00' => "\\0"
  | '\t' => "\\t"
  | '\n' => "\\n"
  | '\r' => "\\r"
  | '"' => "\\\""
  | '\\' => "\\\\"
  | c =>
    if isShown c then c.toString
    else "\\u\x7b" ++ String.ofList (Nat.toDigits 16 c.toNat) ++ "\x7d"

def quoted (text : String) : String := "\"" ++ String.join (text.toList.map escape) ++ "\""

end FormCompiler.Text
