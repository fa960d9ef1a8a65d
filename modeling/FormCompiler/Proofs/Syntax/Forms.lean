import FormCompiler.Proofs.Syntax.Bytes
import Mathlib.Data.List.Forall2

/-! Reading forms. Text can be read just when its tokens are balanced and its integers fit, and written out again the
forms give back all the tokens. -/

namespace FormCompiler

open List

variable {tokens : List Token} {kind : TokenKind} {text : List Char} {d : Diagnostic} {file : String}

/-! ### What a number says -/

namespace NumberText

open Token

variable (n : NumberText) {c : Char}

def negative : Bool := n.sign == ['-']

def digits : Nat := Numeral.value (n.whole ++ n.part)

def places : Nat := (n.part.filter Char.isDigit).length

def int : Int := if n.negative then -n.digits else n.digits

/-- Integers have 64 bits if the suffix says so, and 32 otherwise. -/
def bound : Int := if n.suffix = "i64" then 0x8000000000000000 else 0x80000000

def Fits : Prop := -n.bound ≤ n.int ∧ n.int < n.bound

private theorem mem_sign (h : c ∈ n.sign) : c = '+' ∨ c = '-' := by
  have hs := n.sign_mem
  simp only [mem_cons,not_mem_nil,or_false] at hs
  rcases hs with hs | hs | hs <;> rw [hs] at h
  · cases h
  · exact .inl (mem_singleton.mp h)
  · exact .inr (mem_singleton.mp h)

private theorem mem_part (h : c ∈ n.part) : c = '.' ∨ isNumeral c = true := by
  rcases n.part_digits with hp | ⟨ds,hp,hds⟩ <;> rw [hp] at h
  · cases h
  · exact (mem_cons.mp h).imp_right (hds.all c)

/-- The first letter of a number starts its suffix. -/
theorem isAlpha_body (h : c ∈ n.sign ++ n.whole ++ n.part) : (!c.isAlpha) = true := by
  rw [mem_append,mem_append] at h
  rcases h with (h | h) | h
  · rcases n.mem_sign h with rfl | rfl <;> decide
  · rw [isAlpha_of_isNumeral (n.whole_digits.all c h)]
    rfl
  · rcases n.mem_part h with rfl | h
    · decide
    · rw [isAlpha_of_isNumeral h]
      rfl

private theorem stops_isAlpha_suffix : Stops (!·.isAlpha) n.suffix.toList := by
  have hs := n.suffix_mem
  simp only [mem_cons,not_mem_nil,or_false] at hs
  rcases hs with h | h | h | h | h <;> rw [h]
  · exact .nil
  all_goals exact .cons (by decide)

private theorem dropWhile_point : (n.sign ++ n.whole ++ n.part).dropWhile (· != '.') = n.part := by
  refine dropWhile_run (fun c hc => ?_) ?_
  · rw [bne_iff_ne]
    rcases mem_append.mp hc with hc | hc
    · rcases n.mem_sign hc with rfl | rfl <;> decide
    · exact ne_of_isNumeral (n.whole_digits.all c hc) rfl
  · rcases n.part_digits with h | ⟨ds,h, -⟩ <;> rw [h]
    · exact .nil
    · exact .cons (by decide)

private theorem value_body : Numeral.value (n.sign ++ n.whole ++ n.part) = n.digits := by
  have hsign : n.sign.filter Char.isDigit = [] := by
    rw [filter_eq_nil_iff]
    intro c hc
    rcases n.mem_sign hc with rfl | rfl <;> decide
  simp [digits,Numeral.value,hsign]

private theorem head?_text : (n.text.head? == some '-') = n.negative := by
  obtain ⟨d,ds,hw,hd⟩ := exists_cons_of_head n.whole_digits.head
  have hs := n.sign_mem
  simp only [mem_cons,not_mem_nil,or_false] at hs
  rcases hs with h | h | h
  · have hne : d ≠ '-' := ne_of_isNumeral (Lexeme.isNumeral_of_isDigit hd) rfl
    simp [text,negative,h,hw,hne]
  · simp [text,negative,h]
  · simp [text,negative,h]

end NumberText

namespace Token.Digits

variable {cs : List Char}

/-- Without separators only digits are left, and some are. -/
theorem filter_separators (h : Token.Digits cs) :
    cs.filter (· != '_') ≠ [] ∧ ∀ c ∈ cs.filter (· != '_'), c.isDigit = true := by
  obtain ⟨d,ds,rfl,hd⟩ := exists_cons_of_head h.head
  refine ⟨fun hnil => ?_,fun c hc => ?_⟩
  · rw [filter_eq_nil_iff] at hnil
    have := hnil d (by simp)
    rw [bne_iff_ne,not_not] at this
    subst this
    exact absurd hd (by decide)
  · rw [mem_filter,bne_iff_ne] at hc
    have := h.all c hc.1
    rw [isNumeral,Bool.or_eq_true,decide_eq_true_eq] at this
    exact this.resolve_right hc.2

end Token.Digits

namespace Numeral

open Token

variable {sign whole part : List Char}

private theorem isDecimal_append (hsign : sign ∈ [[],['+'],['-']]) (hwhole : whole ≠ [] ∧ ∀ c ∈ whole, c.isDigit = true)
    (hpart : part = [] ∨ ∃ ds, part = '.' :: ds ∧ ds ≠ [] ∧ ∀ c ∈ ds, c.isDigit = true) :
    isDecimal (sign ++ whole ++ part) = true := by
  have hunsigned : (if (sign ++ whole ++ part).head? == some '-' || (sign ++ whole ++ part).head? == some '+'
      then (sign ++ whole ++ part).tail else sign ++ whole ++ part) = whole ++ part := by
    obtain ⟨d,ds,rfl⟩ := exists_cons_of_ne_nil hwhole.1
    have hd := Lexeme.isNumeral_of_isDigit (hwhole.2 d (by simp))
    have hminus : d ≠ '-' := ne_of_isNumeral hd rfl
    have hplus : d ≠ '+' := ne_of_isNumeral hd rfl
    simp only [mem_cons,not_mem_nil,or_false] at hsign
    rcases hsign with rfl | rfl | rfl <;> simp [hminus,hplus]
  have hstop : Stops Char.isDigit part := by
    rcases hpart with rfl | ⟨ds,rfl, -⟩
    · exact .nil
    · exact .cons (by decide)
  unfold isDecimal
  rw [hunsigned]
  dsimp only
  rw [takeWhile_run hwhole.2 hstop,dropWhile_run hwhole.2 hstop]
  rcases hpart with rfl | ⟨ds,rfl,hne,hds⟩
  · simpa using hwhole.1
  · simpa [hne,hwhole.1] using hds

end Numeral

namespace NumberText

open Token

variable (n : NumberText)

/-- The text of a number falls into its parts again, and it is a decimal number. -/
theorem ofText_text : Numeral.ofText n.text = ⟨n.negative,n.digits,n.places,n.suffix,true⟩ := by
  have hdecimal : Numeral.isDecimal ((n.sign ++ n.whole ++ n.part).filter (· != '_')) = true := by
    have hsign : n.sign.filter (· != '_') = n.sign := by
      rw [filter_eq_self]
      intro c hc
      rcases n.mem_sign hc with rfl | rfl <;> decide
    rw [filter_append,filter_append,hsign]
    refine Numeral.isDecimal_append n.sign_mem n.whole_digits.filter_separators ?_
    rcases n.part_digits with h | ⟨ds,h,hds⟩ <;> rw [h]
    · exact .inl rfl
    · exact .inr ⟨_,filter_cons_of_pos (by decide),hds.filter_separators⟩
  have hbody : n.text.takeWhile (!·.isAlpha) = n.sign ++ n.whole ++ n.part :=
    takeWhile_run (fun _ => n.isAlpha_body) n.stops_isAlpha_suffix
  have hsuffix : n.text.dropWhile (!·.isAlpha) = n.suffix.toList :=
    dropWhile_run (fun _ => n.isAlpha_body) n.stops_isAlpha_suffix
  unfold Numeral.ofText
  simp only [hbody,hsuffix,n.dropWhile_point,n.value_body,n.head?_text,hdecimal,String.ofList_toList]
  rfl

def integer : Literal := if n.suffix = "i64" then .i64 (Int64.ofInt n.int) else .i32 (Int32.ofInt n.int)

/-- The constant of any other number: double precision unless its suffix says single. -/
def float : Literal :=
  let value := Binary64.ofDecimal n.negative n.digits n.places
  if n.suffix = "f32" then .f32 value else .f64 value

variable {n} (hk : n.kind = .integer)
include hk

private theorem integer?_text : (Numeral.ofText n.text).integer? =
    if n.int < -0x8000000000000000 || 0x8000000000000000 ≤ n.int then .error .integerRange
    else if n.suffix = "i64" then .ok (.i64 (Int64.ofInt n.int))
    else if n.int < -0x80000000 || 0x80000000 ≤ n.int then .error .integerRange32
    else .ok (.i32 (Int32.ofInt n.int)) := by
  have hsuffix : n.suffix ∉ ["f32","f64"] := by
    unfold kind at hk
    split at hk
    · exact ‹_ ∧ _›.2
    · cases hk
  rw [ofText_text]
  exact if_neg hsuffix

theorem integer?_ok (h : n.Fits) : (Numeral.ofText n.text).integer? = .ok n.integer := by
  rw [integer?_text hk,integer]
  unfold Fits bound at h
  split at h
  · rename_i hs
    rw [if_neg (by simp; omega),if_pos hs,if_pos hs]
  · rename_i hs
    rw [if_neg (by simp; omega),if_neg hs,if_neg (by simp; omega),if_neg hs]

theorem integer?_error (h : ¬ n.Fits) :
    ∃ fault, fault ≠ .malformedFloat ∧ (Numeral.ofText n.text).integer? = .error fault := by
  rw [integer?_text hk]
  unfold Fits bound at h
  by_cases hwide : (n.int < -0x8000000000000000 || 0x8000000000000000 ≤ n.int) = true
  · exact ⟨_,by simp,if_pos hwide⟩
  · rw [if_neg hwide]
    simp only [Bool.or_eq_true,decide_eq_true_eq,not_or,Int.not_lt,Int.not_le] at hwide
    split at h
    · omega
    · rename_i hs
      rw [if_neg hs,if_pos (by simp; omega)]
      exact ⟨.integerRange32,by simp,rfl⟩

omit hk

private theorem float?_ok : (Numeral.ofText n.text).float? = .ok n.float := by
  rw [ofText_text]
  rfl

end NumberText

private theorem NumberText.kind_cases (n : NumberText) : n.kind = .integer ∨ n.kind = .float := by
  unfold kind
  split
  · exact .inl rfl
  · exact .inr rfl

private theorem Token.Spelled.paren (h : Spelled kind text) :
    (kind = .openParen → text = ['(']) ∧ (kind = .closeParen → text = [')']) := by
  cases h with
  | number n => rcases n.kind_cases with hk | hk <;> simp [hk]
  | _ => simp

/-! ### What tokens say -/

/-- What a token says: a parenthesis, a name, a constant or quoted text. -/
inductive Content where
  | opening
  | closing
  | identifier (name : String)
  | constant (value : Literal)
  | quoted (text : String)

/-- What the text of a token says. -/
inductive Token.Says : TokenKind → List Char → Content → Prop
  | opening : Says .openParen ['('] .opening
  | closing : Says .closeParen [')'] .closing
  | identifier (cs : List Char) : Says .identifier cs (.identifier (String.ofList cs))
  | isTrue : Says .boolean "true".toList (.constant (.bool true))
  | isFalse : Says .boolean "false".toList (.constant (.bool false))
  | quoted (inner : List Char) : Says .string ('"' :: (inner ++ ['"'])) (.quoted (String.ofList inner))
  | i32 (n : NumberText) (v : Int32) : n.kind = .integer → n.suffix ≠ "i64" → v.toInt = n.int →
      Says .integer n.text (.constant (.i32 v))
  | i64 (n : NumberText) (v : Int64) : n.kind = .integer → n.suffix = "i64" → v.toInt = n.int →
      Says .integer n.text (.constant (.i64 v))
  | float (n : NumberText) : n.kind = .float → Says .float n.text (.constant n.float)

/-- An integer token fits its type. -/
def Token.InRange (t : Token) : Prop := t.kind = .integer → ∃ n : NumberText, n.text = t.text ∧ n.Fits

namespace NumberText

variable {n m : NumberText}

private theorem parts_of_text (h : n.text = m.text) : n.suffix = m.suffix ∧ n.int = m.int ∧ n.float = m.float := by
  have hparts := m.ofText_text
  rw [← h,n.ofText_text,Numeral.mk.injEq] at hparts
  obtain ⟨hnegative,hdigits,hplaces,hsuffix, -⟩ := hparts
  simp only [int,float,hnegative,hdigits,hplaces,hsuffix,and_self]

private theorem fits_of_text (h : n.text = m.text) (hn : n.Fits) : m.Fits := by
  obtain ⟨hsuffix,hint, -⟩ := parts_of_text h
  simpa only [Fits,bound,hsuffix,hint] using hn

private theorem says_integer (hk : n.kind = .integer) (h : n.Fits) :
    Token.Says .integer n.text (.constant n.integer) := by
  unfold Fits bound at h
  unfold integer
  split at h
  · rename_i hs
    rw [if_pos hs]
    exact .i64 n _ hk hs (Int64.toInt_ofInt_of_le h.1 h.2)
  · rename_i hs
    rw [if_neg hs]
    exact .i32 n _ hk hs (Int32.toInt_ofInt_of_le h.1 h.2)

end NumberText

/-- A token says one thing. -/
theorem Token.Says.unique {a b : Content} (ha : Says kind text a) (hb : Says kind text b) : a = b := by
  cases ha with
  | opening => cases hb; rfl
  | closing => cases hb; rfl
  | identifier => cases hb; rfl
  | isTrue =>
    generalize ht : "true".toList = text at hb
    cases hb with
    | isTrue => rfl
    | isFalse => exact absurd ht (by decide)
  | isFalse =>
    generalize ht : "false".toList = text at hb
    cases hb with
    | isTrue => exact absurd ht (by decide)
    | isFalse => rfl
  | quoted inner =>
    generalize ht : '"' :: (inner ++ ['"']) = text at hb
    cases hb with
    | quoted other =>
      simp only [List.cons.injEq,true_and,append_cancel_right_eq] at ht
      rw [ht]
  | i32 n v _ hs hv =>
    generalize ht : n.text = text at hb
    cases hb with
    | i32 m w _ _ hw =>
      obtain ⟨-,hint, -⟩ := NumberText.parts_of_text ht
      rw [Int32.toInt_inj.mp (hv.trans (hint.trans hw.symm))]
    | i64 m w _ hs' _ => exact absurd ((NumberText.parts_of_text ht).1.trans hs') hs
  | i64 n v _ hs hv =>
    generalize ht : n.text = text at hb
    cases hb with
    | i32 m w _ hs' _ => exact absurd ((NumberText.parts_of_text ht).1.symm.trans hs) hs'
    | i64 m w _ _ hw =>
      obtain ⟨-,hint, -⟩ := NumberText.parts_of_text ht
      rw [Int64.toInt_inj.mp (hv.trans (hint.trans hw.symm))]
  | float n =>
    generalize ht : n.text = text at hb
    cases hb with
    | float m => rw [(NumberText.parts_of_text ht).2.2]

/-! ### Writing forms -/

namespace Form

mutual

/-- A form written out: a list between parentheses, anything else as one token. -/
def written : Form → List Content
  | identifier name _ => [.identifier name]
  | literal value _ => [.constant value]
  | string text _ => [.quoted text]
  | list items _ => .opening :: (writtenAll items ++ [.closing])

def writtenAll : List Form → List Content
  | [] => []
  | form :: forms => form.written ++ writtenAll forms

end

private theorem writtenAll_append (forms more : List Form) :
    writtenAll (forms ++ more) = writtenAll forms ++ writtenAll more := by
  induction forms with
  | nil => rfl
  | cons form forms ih => simp [writtenAll,ih]

namespace ReaderState

def writtenPending : List OpenList → List Content
  | [] => []
  | inner :: outer => writtenPending outer ++ .opening :: writtenAll inner.reversed.reverse

def written (s : ReaderState) : List Content := writtenAll s.finished.reverse ++ writtenPending s.pending

private theorem written_add (form : Form) (s : ReaderState) : (add form s).written = s.written ++ form.written := by
  obtain ⟨pending,finished⟩ := s
  cases pending <;> simp [add,written,writtenPending,writtenAll_append,writtenAll]

private theorem length_pending_add (form : Form) (s : ReaderState) :
    (add form s).pending.length = s.pending.length := by
  obtain ⟨pending,finished⟩ := s
  cases pending <;> rfl

end ReaderState

end Form

/-! ### Reading token by token -/

namespace Token

def opens (tokens : List Token) : Nat := tokens.countP (·.kind = .openParen)

def closes (tokens : List Token) : Nat := tokens.countP (·.kind = .closeParen)

/-- At no point more lists are closed than opened, and in the end all are closed. -/
structure Balanced (tokens : List Token) : Prop where
  front : ∀ front, front <+: tokens → closes front ≤ opens front
  whole : closes tokens = opens tokens

private theorem opens_cons (t : Token) (tokens : List Token) : opens (t :: tokens) = opens [t] + opens tokens := by
  simp only [opens,countP_cons,countP_nil]
  omega

private theorem closes_cons (t : Token) (tokens : List Token) : closes (t :: tokens) = closes [t] + closes tokens := by
  simp only [closes,countP_cons,countP_nil]
  omega

end Token

namespace Form.ReaderState

open Token

variable {t : Token} {s : ReaderState}

/-- A token that is no parenthesis is read unless it is an integer that does not fit. -/
theorem atom_spec (h : Spelled t.kind t.text) (hopen : t.kind ≠ .openParen) (hclose : t.kind ≠ .closeParen)
    (loc : Location) : (t.InRange ∧ ∃ form c, atom loc t = .ok form ∧ form.written = [c] ∧ Says t.kind t.text c) ∨
      (¬ t.InRange ∧ ∃ d, atom loc t = .error d ∧ d.cause ≠ .syntactic .malformedFloat) := by
  obtain ⟨kind,text,start,stop⟩ := t
  simp only at h hopen hclose
  cases h with
  | openParen => exact absurd rfl hopen
  | closeParen => exact absurd rfl hclose
  | @string inner =>
    refine .inl ⟨nofun,.string (String.ofList inner) loc,_,?_,rfl,.quoted inner⟩
    simp [atom]
  | boolean h =>
    simp only [mem_cons,not_mem_nil,or_false] at h
    rcases h with rfl | rfl
    · exact .inl ⟨nofun,.literal (.bool true) loc,_,rfl,rfl,.isTrue⟩
    · exact .inl ⟨nofun,.literal (.bool false) loc,_,rfl,rfl,.isFalse⟩
  | @identifier c cs => exact .inl ⟨nofun,.identifier (String.ofList (c :: cs)) loc,_,rfl,rfl,.identifier _⟩
  | number n =>
    rcases n.kind_cases with hk | hk
    · by_cases hfits : n.Fits
      · refine .inl ⟨fun _ => ⟨n,rfl,hfits⟩,.literal n.integer loc,.constant n.integer,?_,rfl,?_⟩
        · simp only [atom,hk,NumberText.integer?_ok hk hfits]
          rfl
        · simpa only [hk] using NumberText.says_integer hk hfits
      · obtain ⟨fault,hne,hfault⟩ := NumberText.integer?_error hk hfits
        refine .inr ⟨fun hin => ?_,.here loc (.syntactic fault),?_,by simpa [Diagnostic.here] using hne⟩
        · obtain ⟨m,htext,hm⟩ := hin hk
          exact hfits (NumberText.fits_of_text htext hm)
        · simp only [atom,hk,hfault]
          rfl
    · refine .inl ⟨fun hi => ?_,.literal n.float loc,.constant n.float,?_,rfl,?_⟩
      · simp [hk] at hi
      · simp only [atom,hk,NumberText.float?_ok]
        rfl
      · simpa only [hk] using Says.float n hk

/-- One token is read unless it closes a list when none is open, or is an integer that does not fit. -/
theorem step_spec (file : String) (s : ReaderState) (h : Spelled t.kind t.text) :
    (∃ s' c, step file s t = .ok s' ∧ s'.written = s.written ++ [c] ∧ Says t.kind t.text c ∧ t.InRange ∧
      s'.pending.length + closes [t] = s.pending.length + opens [t]) ∨
    (∃ d, step file s t = .error d ∧ d.cause ≠ .syntactic .malformedFloat ∧
      (closes [t] > s.pending.length + opens [t] ∨ ¬ t.InRange)) := by
  by_cases hopen : t.kind = .openParen
  · refine .inl ⟨⟨⟨t,[]⟩ :: s.pending,s.finished⟩,.opening,by simp [step,hopen],?_,?_,?_,?_⟩
    · simp [written,writtenPending,writtenAll]
    · rw [hopen,h.paren.1 hopen]
      exact .opening
    · simp [InRange,hopen]
    · simp [opens,closes,hopen]
  by_cases hclose : t.kind = .closeParen
  · have hcount : closes [t] = 1 ∧ opens [t] = 0 := by simp [opens,closes,hclose]
    obtain ⟨pending,finished⟩ := s
    cases pending with
    | nil =>
      refine .inr ⟨.here (t.location file) (.syntactic .unexpectedClose),by simp [step,hclose],?_,.inl ?_⟩
      · simp [Diagnostic.here]
      · simp [hcount]
    | cons inner outer =>
      refine .inl ⟨add (.list inner.reversed.reverse (inner.opening.span file t)) ⟨outer,finished⟩,.closing,
        by simp [step,hclose],?_,?_,?_,?_⟩
      · rw [written_add]
        simp [written,writtenPending,Form.written]
      · rw [hclose,h.paren.2 hclose]
        exact .closing
      · simp [InRange,hclose]
      · rw [length_pending_add,hcount.1,hcount.2]
        rfl
  · have hcount : closes [t] = 0 ∧ opens [t] = 0 := by simp [opens,closes,hopen,hclose]
    have hstep : step file s t = (add · s) <$> atom (t.location file) t := by
      unfold step
      split
      · exact absurd ‹_› hopen
      · exact absurd ‹_› hclose
      · rfl
    rcases atom_spec h hopen hclose (t.location file) with ⟨hin,form,c,hform,hwritten, hsays⟩ | ⟨hin,d,hd,hcause⟩
    · refine .inl ⟨add form s,c,by rw [hstep,hform]; rfl,by rw [written_add,hwritten], hsays,hin,?_⟩
      rw [length_pending_add,hcount.1,hcount.2]
    · exact .inr ⟨d,by rw [hstep,hd]; rfl,hcause,.inr hin⟩

/-- All tokens are read when none closes too much and all integers fit, and then they are all there. -/
theorem foldlM_ok {s' : ReaderState} (h : ∀ t ∈ tokens, Spelled t.kind t.text)
    (hrun : tokens.foldlM (step file) s = .ok s') :
    (∃ contents, List.Forall₂ (fun t c => Says t.kind t.text c) tokens contents ∧ s'.written = s.written ++ contents) ∧
      s'.pending.length + closes tokens = s.pending.length + opens tokens ∧
      (∀ front, front <+: tokens → closes front ≤ s.pending.length + opens front) ∧ ∀ t ∈ tokens, t.InRange := by
  induction tokens generalizing s with
  | nil =>
    cases hrun
    refine ⟨⟨[],.nil,by simp⟩,rfl,fun front hfront => ?_,by simp⟩
    rw [prefix_nil.mp hfront]
    exact Nat.zero_le _
  | cons t tokens ih =>
    rw [foldlM_cons] at hrun
    rcases step_spec file s (h t (by simp)) with ⟨s₁,c,hstep,hwritten, hsays,hin,hdepth⟩ | ⟨d,hstep, -⟩
    · rw [hstep] at hrun
      obtain ⟨⟨contents,hall,hw⟩,hd,hfront,hrange⟩ := ih (fun u hu => h u (by simp [hu])) hrun
      refine ⟨⟨c :: contents,.cons hsays hall,by simp [hw,hwritten]⟩,?_,fun front hf => ?_,?_⟩
      · rw [opens_cons,closes_cons]
        omega
      · cases front with
        | nil => exact Nat.zero_le _
        | cons u front =>
          obtain ⟨rfl,hf'⟩ := cons_prefix_cons.mp hf
          have := hfront front hf'
          rw [opens_cons,closes_cons]
          omega
      · rintro u hu
        rcases mem_cons.mp hu with rfl | hu
        · exact hin
        · exact hrange u hu
    · rw [hstep] at hrun
      cases hrun

private theorem foldlM_error (h : ∀ t ∈ tokens, Spelled t.kind t.text)
    (hrun : tokens.foldlM (step file) s = .error d) : d.cause ≠ .syntactic .malformedFloat ∧
      ((∃ front, front <+: tokens ∧ closes front > s.pending.length + opens front) ∨ ∃ t ∈ tokens, ¬ t.InRange) := by
  induction tokens generalizing s with
  | nil => cases hrun
  | cons t tokens ih =>
    rw [foldlM_cons] at hrun
    rcases step_spec file s (h t (by simp)) with ⟨s₁,c,hstep, -, -, -,hdepth⟩ | ⟨d',hstep,hcause,hwhy⟩
    · rw [hstep] at hrun
      obtain ⟨hcause,hwhy⟩ := ih (fun u hu => h u (by simp [hu])) hrun
      refine ⟨hcause,hwhy.imp ?_ ?_⟩
      · rintro ⟨front,hf,hgt⟩
        refine ⟨t :: front,cons_prefix_cons.mpr ⟨rfl,hf⟩,?_⟩
        rw [opens_cons,closes_cons]
        omega
      · rintro ⟨u,hu,hnot⟩
        exact ⟨u,by simp [hu],hnot⟩
    · rw [hstep] at hrun
      cases hrun
      refine ⟨hcause,hwhy.imp (fun hgt => ⟨[t],?_,hgt⟩) fun hnot => ⟨t,by simp,hnot⟩⟩
      exact cons_prefix_cons.mpr ⟨rfl, nil_prefix⟩

end Form.ReaderState

namespace Form

open Token

private theorem ofTokens_ok {forms : List Form} (h : ∀ t ∈ tokens, Spelled t.kind t.text)
    (hrun : ofTokens file tokens = .ok forms) : Balanced tokens ∧ (∀ t ∈ tokens, t.InRange) ∧
      List.Forall₂ (fun t c => Says t.kind t.text c) tokens (writtenAll forms) := by
  unfold ofTokens at hrun
  cases hfold : tokens.foldlM (ReaderState.step file) .initial with
  | error d =>
    rw [hfold] at hrun
    cases hrun
  | ok s =>
    rw [hfold] at hrun
    obtain ⟨⟨contents,hall,hwritten⟩,hdepth,hfront,hrange⟩ := ReaderState.foldlM_ok h hfold
    obtain ⟨pending,finished⟩ := s
    cases pending with
    | cons inner outer => cases hrun
    | nil =>
      cases hrun
      have hcontents : contents = writtenAll finished.reverse := by
        simpa [ReaderState.written,ReaderState.writtenPending,ReaderState.initial,writtenAll] using hwritten.symm
      exact ⟨⟨by simpa [ReaderState.initial] using hfront,by simpa [ReaderState.initial] using hdepth⟩,hrange,
        hcontents ▸ hall⟩

private theorem ofTokens_error (h : ∀ t ∈ tokens, Spelled t.kind t.text) (hrun : ofTokens file tokens = .error d) :
    d.cause ≠ .syntactic .malformedFloat ∧ (Balanced tokens → ∃ t ∈ tokens, ¬ t.InRange) := by
  unfold ofTokens at hrun
  cases hfold : tokens.foldlM (ReaderState.step file) .initial with
  | error d' =>
    rw [hfold] at hrun
    cases hrun
    obtain ⟨hcause,hwhy⟩ := ReaderState.foldlM_error h hfold
    refine ⟨hcause,fun hbalanced => hwhy.resolve_left ?_⟩
    rintro ⟨front,hf,hgt⟩
    have := hbalanced.front front hf
    omega
  | ok s =>
    rw [hfold] at hrun
    obtain ⟨-,hdepth, -, -⟩ := ReaderState.foldlM_ok h hfold
    obtain ⟨pending,finished⟩ := s
    cases pending with
    | nil => cases hrun
    | cons inner outer =>
      cases hrun
      refine ⟨by simp [Diagnostic.here],fun hbalanced => ?_⟩
      have := hbalanced.whole
      simp [ReaderState.initial] at hdepth
      omega

/-- Text is read just when its tokens are balanced and its integers fit. The forms written out are what the tokens say,
each once and in order, and no number is ever found malformed. -/
theorem read_balanced (file source : String) : ((∃ forms, read file source = .ok forms) ↔
      ∃ tokens, scan file source = .ok tokens ∧ Balanced tokens ∧ ∀ t ∈ tokens, t.InRange) ∧
    (∀ forms, read file source = .ok forms → ∃ tokens, scan file source = .ok tokens ∧
      ∀ contents, List.Forall₂ (fun t c => Says t.kind t.text c) tokens contents ↔ contents = writtenAll forms) ∧
    ∀ d, read file source = .error d → d.cause ≠ .syntactic .malformedFloat := by
  cases hscan : scan file source with
  | error d =>
    have hread : read file source = .error d := by
      unfold read
      rw [hscan]
      rfl
    obtain ⟨fault,hfault⟩ := lexical_of_scan hscan
    refine ⟨?_,?_,?_⟩
    · simp [hread]
    · simp [hread]
    · intro d' hd
      rw [hread] at hd
      cases hd
      simp [hfault]
  | ok tokens =>
    have hread : read file source = ofTokens file tokens := by
      unfold read
      rw [hscan]
      rfl
    have hspelled := spelled_of_scan hscan
    rw [hread]
    refine ⟨⟨?_,?_⟩,?_,fun d hd => (ofTokens_error hspelled hd).1⟩
    · rintro ⟨forms,hforms⟩
      obtain ⟨hbalanced,hrange, -⟩ := ofTokens_ok hspelled hforms
      exact ⟨tokens,rfl,hbalanced,hrange⟩
    · rintro ⟨_,⟨⟩,hbalanced,hrange⟩
      cases hforms : ofTokens file tokens with
      | ok forms => exact ⟨forms,rfl⟩
      | error d =>
        obtain ⟨t,ht,hnot⟩ := (ofTokens_error hspelled hforms).2 hbalanced
        exact absurd (hrange t ht) hnot
    · intro forms hforms
      obtain ⟨-, -,hall⟩ := ofTokens_ok hspelled hforms
      refine ⟨tokens,rfl,fun contents => ⟨fun hc => ?_,fun hc => hc ▸ hall⟩⟩
      have hunique : Relator.RightUnique fun (t : Token) c => Says t.kind t.text c := fun _ _ _ ha hb => ha.unique hb
      exact right_unique_forall₂' hunique hc hall

end Form

end FormCompiler
