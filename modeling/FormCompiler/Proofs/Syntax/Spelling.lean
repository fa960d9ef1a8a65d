import FormCompiler.Form.Reader
import Mathlib.Data.List.TakeWhile

/-! How tokens are spelled. The lexer takes the longest token at every place; here is what it can take, and that a token
is taken again wherever something follows that cannot extend it. -/

namespace FormCompiler

open List

variable {cs rest : List Char} {c : Char} {l : Lexeme}

namespace Position

def advance (p : Position) (c : Char) : Position :=
  if c = '\n' then ⟨p.line + 1,1,p.offset + c.utf8Size⟩ else ⟨p.line,p.column + c.utf8Size,p.offset + c.utf8Size⟩

def advanceAll (p : Position) (cs : List Char) : Position := cs.foldl advance p

@[simp] theorem advanceAll_nil (p : Position) : p.advanceAll [] = p := rfl

@[simp] theorem advanceAll_cons (p : Position) (c : Char) (cs : List Char) :
    p.advanceAll (c :: cs) = (p.advance c).advanceAll cs := rfl

theorem advanceAll_append (p : Position) (cs ds : List Char) :
    p.advanceAll (cs ++ ds) = (p.advanceAll cs).advanceAll ds := foldl_append

end Position

/-! ### Characters -/

namespace Token

private theorem isAlpha_of_isDigit (h : c.isDigit = true) : c.isAlpha = false := by
  delta Char.isAlpha Char.isUpper Char.isLower
  simp only [Char.isDigit,Bool.and_eq_true,decide_eq_true_eq,Bool.or_eq_false_iff,
    Bool.and_eq_false_iff,decide_eq_false_iff_not,ge_iff_le,UInt32.le_iff_toNat_le] at h ⊢
  have h9 : '9'.val.toNat = 57 := rfl
  have hA : 'A'.val.toNat = 65 := rfl
  have ha : 'a'.val.toNat = 97 := rfl
  omega

theorem isAlpha_of_isNumeral (h : isNumeral c = true) : c.isAlpha = false := by
  simp only [isNumeral,Bool.or_eq_true,decide_eq_true_eq] at h
  rcases h with h | rfl
  · exact isAlpha_of_isDigit h
  · decide

theorem ne_of_isNumeral {d : Char} (h : isNumeral c = true) (hd : isNumeral d = false) : c ≠ d := by
  rintro rfl
  simp [h] at hd

private theorem isAtomic_of_isNumeral (h : isNumeral c = true) : isAtomic c = true := by
  have hne {d : Char} := ne_of_isNumeral (d := d) h
  simp [isAtomic,isBlank,hne,isNumeral]

private theorem isBlank_of_isAtomic (h : isAtomic c = true) : isBlank c = false := by
  simp only [isAtomic,Bool.and_eq_true,Bool.not_eq_true'] at h
  exact h.1

private theorem ne_of_isAtomic {d : Char} (h : isAtomic c = true) (hd : isAtomic d = false) : c ≠ d := by
  rintro rfl
  simp [h] at hd

/-- The text does not go on with a character of some sort. -/
def Stops (p : Char → Bool) (rest : List Char) : Prop := ∀ c ∈ rest.head?, p c = false

variable {p : Char → Bool} {run : List Char}

theorem Stops.cons (h : p c = false) : Stops p (c :: rest) := by
  rintro _ ⟨⟩
  exact h

theorem Stops.nil : Stops p [] := by
  rintro _ ⟨⟩

theorem takeWhile_run (hrun : ∀ c ∈ run, p c = true) (hrest : Stops p rest) : (run ++ rest).takeWhile p = run := by
  rw [takeWhile_append_of_pos hrun]
  cases rest with
  | nil => simp
  | cons c rest => simp [hrest c rfl]

theorem dropWhile_run (hrun : ∀ c ∈ run, p c = true) (hrest : Stops p rest) : (run ++ rest).dropWhile p = rest := by
  rw [dropWhile_append_of_pos hrun]
  cases rest with
  | nil => rfl
  | cons c rest => simp [hrest c rfl]

/-! ### Numbers -/

/-- Digits and separators; the first is a digit. -/
structure Digits (cs : List Char) : Prop where
  all : ∀ c ∈ cs, isNumeral c = true
  head : ∃ d ∈ cs.head?, d.isDigit = true

theorem exists_cons_of_head (h : ∃ d ∈ cs.head?, d.isDigit = true) : ∃ d ds, cs = d :: ds ∧ d.isDigit = true := by
  obtain ⟨d,hd,hdigit⟩ := h
  cases cs with
  | nil => cases hd
  | cons e ds =>
    cases hd
    exact ⟨d,ds,rfl,hdigit⟩

end Token

/-- The text of a number in parts: a sign, digits, a fraction with its point, and a suffix. -/
structure NumberText where
  sign : List Char
  whole : List Char
  part : List Char
  suffix : String
  sign_mem : sign ∈ [[],['+'],['-']]
  whole_digits : Token.Digits whole
  part_digits : part = [] ∨ ∃ ds, part = '.' :: ds ∧ Token.Digits ds
  suffix_mem : suffix ∈ ["","i32","i64","f32","f64"]
  suffix_float : part ≠ [] → suffix ∉ ["i32","i64"]

namespace NumberText

def text (n : NumberText) : List Char := n.sign ++ n.whole ++ n.part ++ n.suffix.toList

/-- A number is an integer unless it has a fraction or its suffix says otherwise. -/
def kind (n : NumberText) : TokenKind :=
  if n.part = [] ∧ n.suffix ∉ ["f32","f64"] then .integer else .float

private theorem numberKind_eq (n : NumberText) : Lexeme.numberKind (!n.part.isEmpty) n.suffix = some n.kind := by
  have hs := n.suffix_mem
  have hf := n.suffix_float
  unfold Lexeme.numberKind kind
  simp only [mem_cons,not_mem_nil,or_false] at hs hf ⊢
  rcases hs with hs | hs | hs | hs | hs <;> by_cases hp : n.part = [] <;> simp_all

end NumberText

/-- How tokens of each kind are written. -/
inductive Token.Spelled : TokenKind → List Char → Prop
  | openParen : Spelled .openParen ['(']
  | closeParen : Spelled .closeParen [')']
  | string {inner : List Char} : (∀ c ∈ inner, c ≠ '"' ∧ c ≠ '\n') → Spelled .string ('"' :: (inner ++ ['"']))
  | boolean {cs : List Char} : cs ∈ ["true".toList,"false".toList] → Spelled .boolean cs
  | identifier {c : Char} {cs : List Char} : (∀ d ∈ c :: cs, Token.isAtomic d = true) → c.isDigit = false →
      Lexeme.isSigned c cs = false → c :: cs ∉ ["true".toList,"false".toList] → Spelled .identifier (c :: cs)
  | number (n : NumberText) : Spelled n.kind n.text

/-! ### What the lexer takes -/

namespace Lexeme

open Token

variable {lead : List Char}

private theorem digits_takeWhile (h : ∃ d ∈ cs.head?, d.isDigit = true) : Digits (cs.takeWhile isNumeral) := by
  obtain ⟨d,ds,rfl,hdigit⟩ := exists_cons_of_head h
  refine ⟨fun c hc => mem_takeWhile_imp hc,d,?_,hdigit⟩
  simp [isNumeral_of_isDigit hdigit]

private theorem fraction_cases (cs : List Char) : fraction cs = [] ∧ afterFraction cs = cs ∨
      ∃ ds, fraction cs = '.' :: ds ∧ Digits ds ∧ cs = '.' :: ds ++ afterFraction cs := by
  unfold fraction afterFraction
  split
  · rename_i d ds
    split
    · rename_i hd
      refine .inr ⟨_,rfl,digits_takeWhile ⟨d,rfl,hd⟩,?_⟩
      rw [cons_append,takeWhile_append_dropWhile]
    · exact .inl ⟨rfl,rfl⟩
  · exact .inl ⟨rfl,rfl⟩

private theorem suffix_of_numberKind {hasFraction : Bool} {suffix : String} {kind : TokenKind}
    (h : numberKind hasFraction suffix = some kind) :
    suffix ∈ ["","i32","i64","f32","f64"] ∧ (hasFraction = true → suffix ∉ ["i32","i64"]) := by
  unfold numberKind at h
  cases hasFraction <;> grind

/-- What is taken as a number is one, and it is taken from the front. -/
private theorem number_spelled (hlead : lead ∈ [[],['+'],['-']]) (hdigit : ∃ d ∈ cs.head?, d.isDigit = true)
    (h : number lead cs = .ok l) : Spelled l.kind l.text ∧ lead ++ cs = l.text ++ l.rest := by
  simp only [number] at h
  split at h
  · rename_i kind hkind
    cases h
    obtain ⟨hmem,hfloat⟩ := suffix_of_numberKind hkind
    have hpart := fraction_cases (cs.dropWhile isNumeral)
    let n : NumberText := {
      sign := lead
      whole := cs.takeWhile isNumeral
      part := fraction (cs.dropWhile isNumeral)
      suffix := String.ofList ((afterFraction (cs.dropWhile isNumeral)).takeWhile isAtomic)
      sign_mem := hlead
      whole_digits := digits_takeWhile hdigit
      part_digits := by
        rcases hpart with ⟨he, -⟩ | ⟨ds,he,hd, -⟩
        · exact .inl he
        · exact .inr ⟨ds,he,hd⟩
      suffix_mem := hmem
      suffix_float := fun hp => hfloat (by simpa using hp) }
    have htext : n.text = lead ++ cs.takeWhile isNumeral ++ fraction (cs.dropWhile isNumeral) ++
        (afterFraction (cs.dropWhile isNumeral)).takeWhile isAtomic := by
      simp [NumberText.text,n]
    have hkind' : n.kind = kind := Option.some.inj (n.numberKind_eq.symm.trans hkind)
    refine ⟨?_,?_⟩
    · have := Spelled.number n
      rwa [htext,hkind'] at this
    · have hsplit : fraction (cs.dropWhile isNumeral) ++ afterFraction (cs.dropWhile isNumeral) =
          cs.dropWhile isNumeral := by
        rcases hpart with ⟨he,ha⟩ | ⟨ds,he, -,ha⟩
        · rw [he,ha,nil_append]
        · rw [he,← ha]
      simp only [append_assoc,takeWhile_append_dropWhile,hsplit]
  · cases h

private theorem quoted_spelled (h : quoted cs = .ok l) : Spelled l.kind l.text ∧ '"' :: cs = l.text ++ l.rest := by
  simp only [quoted] at h
  split at h
  · rename_i rest hrest
    cases h
    have hinner : ∀ c ∈ cs.takeWhile (fun c => c != '"' && c != '\n'), c ≠ '"' ∧ c ≠ '\n' := by
      intro c hc
      simpa using mem_takeWhile_imp hc
    refine ⟨.string hinner,?_⟩
    have := takeWhile_append_dropWhile (p := fun c => c != '"' && c != '\n') (l := cs)
    rw [hrest] at this
    simpa using this.symm
  · cases h

private theorem atom_spelled (hc : isAtomic c = true) (hdigit : c.isDigit = false) (hsigned : isSigned c cs = false) :
    Spelled (atom (c :: cs)).kind (atom (c :: cs)).text ∧
      c :: cs = (atom (c :: cs)).text ++ (atom (c :: cs)).rest := by
  have htext : (c :: cs).takeWhile isAtomic = c :: cs.takeWhile isAtomic := takeWhile_cons_of_pos hc
  refine ⟨?_,takeWhile_append_dropWhile.symm⟩
  simp only [atom,htext]
  split
  · rename_i hb
    exact .boolean (by simpa using hb)
  · rename_i hb
    refine .identifier ?_ hdigit ?_ (by simpa using hb)
    · rw [← htext]
      exact fun d hd => mem_takeWhile_imp hd
    · cases cs with
      | nil => exact hsigned
      | cons d ds =>
        by_cases hd : isAtomic d = true
        · rw [takeWhile_cons_of_pos hd]
          exact hsigned
        · rw [takeWhile_cons_of_neg hd]
          simp [isSigned]

private theorem isDigit_of_isSigned (h : isSigned c cs = true) :
    (c = '-' ∨ c = '+') ∧ ∃ d ∈ cs.head?, d.isDigit = true := by
  unfold isSigned at h
  rw [Bool.and_eq_true] at h
  refine ⟨by simpa using h.1,?_⟩
  cases cs with
  | nil => exact absurd h.2 (by simp)
  | cons d ds => exact ⟨d,rfl,h.2⟩

/-- Every token is spelled as its kind asks for, and is taken from the front. -/
private theorem first_spelled (hblank : isBlank c = false) (hcomment : c ≠ ';') (h : first c cs = .ok l) :
    Spelled l.kind l.text ∧ c :: cs = l.text ++ l.rest := by
  unfold first at h
  split at h
  · rename_i hc
    cases h
    subst hc
    exact ⟨.openParen,rfl⟩
  split at h
  · rename_i hc
    cases h
    subst hc
    exact ⟨.closeParen,rfl⟩
  split at h
  · rename_i hc
    subst hc
    exact quoted_spelled h
  split at h
  · rename_i hd
    exact number_spelled (by simp) ⟨c,rfl,hd⟩ h
  split at h
  · rename_i hs
    obtain ⟨hc,hd⟩ := isDigit_of_isSigned hs
    exact number_spelled (by simpa [or_comm] using hc) hd h
  · rename_i ho hc hq hd hs
    cases h
    exact atom_spelled (by simp [isAtomic,hblank,ho,hc,hq,hcomment]) (by simpa using hd) (by simpa using hs)

/-! ### Taking a token again -/

private theorem fraction_append {ds : List Char} (hds : Digits ds) (hrest : Stops isNumeral rest) :
    fraction ('.' :: ds ++ rest) = '.' :: ds ∧ afterFraction ('.' :: ds ++ rest) = rest := by
  obtain ⟨d,es,rfl,hd⟩ := exists_cons_of_head hds.head
  have htake := takeWhile_run hds.all hrest
  have hdrop := dropWhile_run hds.all hrest
  show (if d.isDigit = true then _ else _) = _ ∧ (if d.isDigit = true then _ else _) = _
  rw [if_pos hd,if_pos hd]
  exact ⟨congrArg _ htake,hdrop⟩

theorem fraction_of_stops (h : Stops (· == '.') rest) : fraction rest = [] ∧ afterFraction rest = rest := by
  unfold fraction afterFraction
  split
  · have := h '.' rfl
    simp at this
  · exact ⟨rfl,rfl⟩

end Lexeme

namespace NumberText

open Token

private theorem isAtomic_suffix (n : NumberText) : ∀ c ∈ n.suffix.toList, isAtomic c = true := by
  have := n.suffix_mem
  simp only [mem_cons,not_mem_nil,or_false] at this
  rcases this with h | h | h | h | h <;> rw [h] <;> exact all_eq_true.mp (by decide)

/-- Neither a suffix nor the end of the atom goes on with digits or with a fraction. -/
private theorem stops_suffix (n : NumberText) (hrest : Stops isAtomic rest) :
    Stops isNumeral (n.suffix.toList ++ rest) ∧ Stops (· == '.') (n.suffix.toList ++ rest) := by
  have hs := n.suffix_mem
  simp only [mem_cons,not_mem_nil,or_false] at hs
  rcases hs with h | h | h | h | h <;> rw [h]
  · refine ⟨fun c hc => ?_,fun c hc => ?_⟩
    · refine Bool.eq_false_iff.mpr fun hn => ?_
      have ha := hrest c hc
      rw [isAtomic_of_isNumeral hn] at ha
      cases ha
    · rw [beq_eq_false_iff_ne]
      rintro rfl
      exact absurd (hrest _ hc) (by decide)
  all_goals exact ⟨.cons (by decide),.cons (by decide)⟩

private theorem number_append (n : NumberText) (hrest : Stops isAtomic rest) :
    Lexeme.number n.sign (n.whole ++ (n.part ++ (n.suffix.toList ++ rest))) = .ok ⟨n.kind,n.text,rest⟩ := by
  obtain ⟨hnumeral,hdot⟩ := n.stops_suffix hrest
  have hwhole : Stops isNumeral (n.part ++ (n.suffix.toList ++ rest)) := by
    rcases n.part_digits with h | ⟨ds,h, -⟩ <;> rw [h]
    · exact hnumeral
    · exact .cons (by decide)
  have hpart : Lexeme.fraction (n.part ++ (n.suffix.toList ++ rest)) = n.part ∧
      Lexeme.afterFraction (n.part ++ (n.suffix.toList ++ rest)) = n.suffix.toList ++ rest := by
    rcases n.part_digits with h | ⟨ds,h,hds⟩ <;> rw [h]
    · exact Lexeme.fraction_of_stops hdot
    · exact Lexeme.fraction_append hds hnumeral
  simp only [Lexeme.number]
  rw [takeWhile_run n.whole_digits.all hwhole,dropWhile_run n.whole_digits.all hwhole,hpart.1,hpart.2,
    takeWhile_run n.isAtomic_suffix hrest,dropWhile_run n.isAtomic_suffix hrest,String.ofList_toList,
    n.numberKind_eq]
  rfl

end NumberText

namespace Lexeme

open Token

private theorem quoted_append {inner : List Char} (h : ∀ c ∈ inner, c ≠ '"' ∧ c ≠ '\n') :
    quoted (inner ++ '"' :: rest) = .ok ⟨.string,'"' :: (inner ++ ['"']),rest⟩ := by
  have hrun : ∀ c ∈ inner, (c != '"' && c != '\n') = true := fun c hc => by simp [h c hc]
  have hstop : Stops (fun c => c != '"' && c != '\n') ('"' :: rest) := .cons (by decide)
  simp only [quoted]
  rw [takeWhile_run hrun hstop,dropWhile_run hrun hstop]
  rfl

private theorem atom_append (hcs : ∀ c ∈ cs, isAtomic c = true) (hrest : Stops isAtomic rest) :
    atom (cs ++ rest) = ⟨if cs ∈ ["true".toList,"false".toList] then .boolean else .identifier,cs,rest⟩ := by
  simp only [atom]
  rw [takeWhile_run hcs hrest,dropWhile_run hcs hrest]
  simp

private theorem first_isAtomic (hc : isAtomic c = true) : first c cs =
    if c.isDigit then number [] (c :: cs) else if isSigned c cs then number [c] cs else .ok (atom (c :: cs)) := by
  have hne {d : Char} := ne_of_isAtomic (d := d) hc
  simp [first,hne,isAtomic]

/-- What starts an atom that is no number. -/
theorem first_atom (hc : isAtomic c = true) (hdigit : c.isDigit = false) (hsigned : isSigned c cs = false) :
    first c cs = .ok (atom (c :: cs)) := by simp [first_isAtomic hc,hdigit,hsigned]

private theorem first_digit (hdigit : c.isDigit = true) : first c cs = number [] (c :: cs) := by
  rw [first_isAtomic (isAtomic_of_isNumeral (isNumeral_of_isDigit hdigit)),if_pos hdigit]

private theorem first_signed (hc : c = '+' ∨ c = '-') (hdigit : ∃ d ∈ cs.head?, d.isDigit = true) :
    first c cs = number [c] cs := by
  obtain ⟨d,ds,rfl,hd⟩ := exists_cons_of_head hdigit
  rcases hc with rfl | rfl <;> simp [first,isSigned,hd]

/-- A sign is not separated from what comes next by what follows the atom. -/
private theorem isSigned_append (h : isSigned c cs = false) (hrest : Stops isAtomic rest) :
    isSigned c (cs ++ rest) = false := by
  cases cs with
  | cons d ds => exact h
  | nil =>
    cases rest with
    | nil => exact h
    | cons d ds =>
      have hd : d.isDigit = false := Bool.eq_false_iff.mpr fun hdigit => by
        have := hrest d rfl
        rw [isAtomic_of_isNumeral (isNumeral_of_isDigit hdigit)] at this
        cases this
      simp [isSigned,hd]

/-- A token is taken again wherever nothing follows that can extend it. -/
theorem first_append {kind : TokenKind} {text : List Char} (h : Spelled kind text) :
    ∃ c cs, text = c :: cs ∧ isBlank c = false ∧ c ≠ ';' ∧
      ∀ rest, Stops isAtomic rest → first c (cs ++ rest) = .ok ⟨kind,text,rest⟩ := by
  have atomic {c : Char} {cs : List Char} (hall : ∀ d ∈ c :: cs, isAtomic d = true) (hdigit : c.isDigit = false)
      (hsigned : isSigned c cs = false) : isBlank c = false ∧ c ≠ ';' ∧ ∀ rest, Stops isAtomic rest →
      first c (cs ++ rest) =
        .ok ⟨if c :: cs ∈ ["true".toList,"false".toList] then .boolean else .identifier,c :: cs,rest⟩ := by
    have hc := hall c (by simp)
    refine ⟨isBlank_of_isAtomic hc,ne_of_isAtomic hc rfl,fun rest hrest => ?_⟩
    rw [first_atom hc hdigit (isSigned_append hsigned hrest),← cons_append,atom_append hall hrest]
  cases h with
  | openParen => exact ⟨'(',[],rfl,rfl,by decide,fun _ _ => rfl⟩
  | closeParen => exact ⟨')',[],rfl,rfl,by decide,fun _ _ => rfl⟩
  | @string inner hinner =>
    refine ⟨'"',inner ++ ['"'],rfl,rfl,by decide,fun rest _ => ?_⟩
    show quoted _ = _
    rw [append_assoc,singleton_append,quoted_append hinner]
  | boolean hmem =>
    simp only [mem_cons,not_mem_nil,or_false] at hmem
    rcases hmem with rfl | rfl
    · exact ⟨'t',['r','u','e'],rfl,atomic (all_eq_true.mp (by decide)) rfl rfl⟩
    · exact ⟨'f',['a','l','s','e'],rfl,atomic (all_eq_true.mp (by decide)) rfl rfl⟩
  | @identifier c cs hall hdigit hsigned hnot =>
    obtain ⟨hblank,hcomment,hfirst⟩ := atomic hall hdigit hsigned
    refine ⟨c,cs,rfl,hblank,hcomment,fun rest hrest => ?_⟩
    rw [hfirst rest hrest,if_neg hnot]
  | number n =>
    obtain ⟨d,ds,hwhole,hd⟩ := exists_cons_of_head n.whole_digits.head
    have hsign := n.sign_mem
    simp only [mem_cons,not_mem_nil,or_false] at hsign
    have signed {c : Char} (hc : c = '+' ∨ c = '-') (hn : n.sign = [c]) : ∃ c cs, n.text = c :: cs ∧
        isBlank c = false ∧ c ≠ ';' ∧ ∀ rest, Stops isAtomic rest → first c (cs ++ rest) = .ok ⟨n.kind,n.text,rest⟩ := by
      refine ⟨c,n.whole ++ (n.part ++ n.suffix.toList),by simp [NumberText.text,hn],?_,?_,fun rest hrest => ?_⟩
      · rcases hc with rfl | rfl <;> rfl
      · rcases hc with rfl | rfl <;> decide
      · rw [first_signed hc ⟨d,by simp [hwhole],hd⟩,append_assoc,append_assoc,← hn]
        exact n.number_append hrest
    rcases hsign with hn | hn | hn
    · have hc := isAtomic_of_isNumeral (isNumeral_of_isDigit hd)
      refine ⟨d,ds ++ (n.part ++ n.suffix.toList),by simp [NumberText.text,hn,hwhole],isBlank_of_isAtomic hc,
        ne_of_isAtomic hc rfl,fun rest hrest => ?_⟩
      rw [first_digit hd,← cons_append,← cons_append,← hwhole,append_assoc,append_assoc,← hn]
      exact n.number_append hrest
    · exact signed (.inl rfl) hn
    · exact signed (.inr rfl) hn

end Lexeme

namespace Token

variable {u : Units} {file : String} {p : Position}

theorem scanFrom_blank (h : isBlank c = true) : scanFrom u file p (c :: cs) = scanFrom u file (u.step p c) cs := by
  rw [scanFrom,dif_pos h]

theorem scanFrom_comment : scanFrom u file p (';' :: cs) =
    scanFrom u file ((';' :: cs.takeWhile (· != '\n')).foldl u.step p) (cs.dropWhile (· != '\n')) := by
  rw [scanFrom,dif_neg (by decide),dif_pos rfl]

/-- A token and what comes after it. -/
theorem scanFrom_token (hblank : isBlank c = false) (hcomment : c ≠ ';') (h : Lexeme.first c cs = .ok l) :
    scanFrom u file p (c :: cs) = (⟨l.kind,u.text l.text,p,(l.text.foldl u.step p).offset⟩ :: ·) <$>
      scanFrom u file (l.text.foldl u.step p) l.rest := by
  rw [scanFrom,dif_neg (by simp [hblank]),dif_neg hcomment]
  split
  · rename_i l' h'
    obtain rfl : l = l' := by
      rw [h] at h'
      exact Except.ok.inj h'
    dsimp only
    cases scanFrom u file (l.text.foldl u.step p) l.rest <;> rfl
  · rename_i h'
    rw [h] at h'
    cases h'

theorem scanFrom_wrong (hblank : isBlank c = false) (hcomment : c ≠ ';') {fault : LexFault} {read : List Char}
    (h : Lexeme.first c cs = .error (fault,read)) : scanFrom u file p (c :: cs) =
      .error (.here ⟨file,(read.foldl u.step p).line,(read.foldl u.step p).column,p.offset,(read.foldl u.step p).offset⟩
        (.lexical (fault.map u.text))) := by
  rw [scanFrom,dif_neg (by simp [hblank]),dif_neg hcomment]
  split
  · rename_i h'
    rw [h] at h'
    cases h'
  · rename_i h'
    rw [h] at h'
    cases h'
    rfl

/-- A text as its characters. -/
def Units.chars : Units := ⟨Position.advance,id⟩

/-- Text that starts at `p` is made of its tokens, each spelled as its kind asks for and standing where it says, and
besides them only of blanks and of comments, which run to the end of a line or of the text. -/
inductive Tiled : Position → List Char → List Token → Prop
  | nil {p : Position} : Tiled p [] []
  | blank {p : Position} {c : Char} {cs : List Char} {tokens : List Token} : isBlank c = true →
      Tiled (p.advance c) cs tokens → Tiled p (c :: cs) tokens
  | comment {p : Position} {cs rest : List Char} {tokens : List Token} : '\n' ∉ cs → Stops (· != '\n') rest →
      Tiled (p.advanceAll (';' :: cs)) rest tokens → Tiled p (';' :: cs ++ rest) tokens
  | token {p : Position} {kind : TokenKind} {text rest : List Char} {tokens : List Token} : Spelled kind text →
      Tiled (p.advanceAll text) rest tokens →
      Tiled p (text ++ rest) (⟨kind,text,p,(p.advanceAll text).offset⟩ :: tokens)

theorem Tiled.spelled {tokens : List Token} (h : Tiled p cs tokens) : ∀ t ∈ tokens, Spelled t.kind t.text := by
  induction h with
  | nil => simp
  | blank _ _ ih | comment _ _ _ ih => exact ih
  | token hs _ ih => exact forall_mem_cons.mpr ⟨hs,ih⟩

/-- The lexer finds the tokens that the text is made of, or what is wrong in it. -/
theorem scanFrom_cases (file : String) (p : Position) (cs : List Char) :
    (∃ tokens, scanFrom .chars file p cs = .ok tokens ∧ Tiled p cs tokens) ∨
      ∃ d fault, scanFrom .chars file p cs = .error d ∧ d.cause = .lexical fault := by
  induction hn : cs.length using Nat.strongRecOn generalizing cs p with
  | ind n ih =>
    subst hn
    cases cs with
    | nil => exact .inl ⟨[],by rw [scanFrom],.nil⟩
    | cons c cs =>
      by_cases hblank : isBlank c = true
      · rw [scanFrom_blank hblank]
        exact (ih _ (by simp) _ _ rfl).imp_left (.imp fun _ h => ⟨h.1,.blank hblank h.2⟩)
      by_cases hcomment : c = ';'
      · subst hcomment
        rw [scanFrom_comment]
        refine (ih _ (Nat.lt_succ_of_le (Lexeme.length_dropWhile_le _ _)) _ _ rfl).imp_left ?_
        rintro ⟨tokens,h,ht⟩
        refine ⟨tokens,h,?_⟩
        have hline : '\n' ∉ cs.takeWhile (· != '\n') := fun hm => by simpa using mem_takeWhile_imp hm
        have hstop : Stops (· != '\n') (cs.dropWhile (· != '\n')) := fun d hd => by
          simpa [Option.mem_def.mp hd] using head?_dropWhile_not (· != '\n') cs
        have := Tiled.comment hline hstop ht
        rwa [cons_append,takeWhile_append_dropWhile] at this
      have hblank' : isBlank c = false := by simpa using hblank
      cases hl : Lexeme.first c cs with
      | error e => exact .inr ⟨_,_,scanFrom_wrong hblank' hcomment hl,rfl⟩
      | ok l =>
        obtain ⟨hspelled,htext⟩ := Lexeme.first_spelled hblank' hcomment hl
        rw [scanFrom_token hblank' hcomment hl]
        rcases ih _ (Lexeme.first_rest_lt hblank' hcomment hl) (l.text.foldl Units.chars.step p) l.rest rfl with
          ⟨tokens,hrest,ht⟩ | ⟨d,fault,hrest,hcause⟩
        · refine .inl ⟨_,by rw [hrest]; rfl,?_⟩
          rw [htext]
          exact .token hspelled ht
        · exact .inr ⟨d,fault,by rw [hrest]; rfl,hcause⟩

end Token

end FormCompiler
