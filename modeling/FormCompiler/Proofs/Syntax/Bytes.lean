import FormCompiler.Proofs.Syntax.Spelling

/-! Bytes and characters. The lexer goes through the bytes of a text. What it looks for are ASCII characters, and no byte
of any other character is one, so it finds the tokens that it would find going through the characters. -/

namespace FormCompiler

open List

variable {bs cs : List Char} {b c : Char}

namespace Position

private theorem foldl_next (h : '\n' ∉ bs) (p : Position) :
    bs.foldl next p = ⟨p.line,p.column + bs.length,p.offset + bs.length⟩ := by
  induction bs generalizing p with
  | nil => rfl
  | cons b bs ih =>
    simp only [mem_cons,not_or] at h
    rw [foldl_cons,ih h.2,next,if_neg (Ne.symm h.1)]
    simp only [length_cons,Nat.add_assoc,Nat.add_comm 1]

end Position

namespace Token

variable {p : Char → Bool}

/-! ### The bytes of a character -/

private theorem encode_append (cs ds : List Char) : encode (cs ++ ds) = encode cs ++ encode ds := by simp [encode]

private theorem ofUInt8_toNat (n : Nat) (h : n < 256) : (Char.ofUInt8 (UInt8.ofNat n)).toNat = n := by
  show (UInt8.ofNat n).toUInt32.toNat = n
  simp
  omega

private theorem ofUInt8_self (h : c.toNat < 128) : Char.ofUInt8 (UInt8.ofNat c.toNat) = c := by
  rw [← Char.ofNat_toNat (Char.ofUInt8 _),ofUInt8_toNat _ (by omega),Char.ofNat_toNat]

/-- An ASCII character is its own byte, and no byte of another one is an ASCII character. -/
private theorem encode_one (c : Char) : c.toNat < 128 ∧ encode [c] = [c] ∨
    128 ≤ c.toNat ∧ encode [c] ≠ [] ∧ ∀ b ∈ encode [c], 128 ≤ b.toNat := by
  have hc : c.val.toNat = c.toNat := rfl
  simp only [encode,flatMap_cons,flatMap_nil,append_nil,String.utf8EncodeChar,hc]
  split
  · exact .inl ⟨by omega,by rw [map_cons,map_nil,ofUInt8_self (by omega)]⟩
  · refine .inr ⟨by omega,by split <;> [simp; (split <;> simp)],?_⟩
    split <;> [skip; split]
    all_goals
      simp (disch := omega) only [map_cons,map_nil,mem_cons,not_mem_nil,or_false,forall_eq_or_imp,forall_eq,ofUInt8_toNat]
      omega

private theorem encode_cons (c : Char) (cs : List Char) : encode (c :: cs) = encode [c] ++ encode cs :=
  encode_append [c] cs

private theorem decode_more (left value n : Nat) (bs : List Char) (h : n < 64) :
    decodeFrom (left + 1) value (Char.ofUInt8 (UInt8.ofNat (n + 128)) :: bs) =
      if left = 0 then Char.ofNat (value * 64 + n) :: decodeFrom 0 0 bs else decodeFrom left (value * 64 + n) bs := by
  rw [decodeFrom,ofUInt8_toNat _ (by omega),show (n + 128) % 64 = n by omega]

private theorem decode_one (c : Char) (bs : List Char) : decodeFrom 0 0 (encode [c] ++ bs) = c :: decodeFrom 0 0 bs := by
  have hc : c.val.toNat = c.toNat := rfl
  have hlt : c.toNat < 1114112 := by
    have := c.valid
    unfold UInt32.isValidChar Nat.isValidChar at this
    omega
  have whole {n : Nat} (h : n = c.toNat) : Char.ofNat n = c := by rw [h,Char.ofNat_toNat]
  simp only [encode,flatMap_cons,flatMap_nil,append_nil,String.utf8EncodeChar,hc]
  split <;> [skip; split <;> [skip; split]]
  all_goals
    simp only [map_cons,map_nil,cons_append,nil_append]
    rw [decodeFrom,ofUInt8_toNat _ (by omega)]
  · rw [if_pos (by omega),ofUInt8_self (by omega)]
  · rw [if_neg (by omega),if_pos (by omega),decode_more _ _ _ _ (by omega),if_pos rfl,whole (by omega)]
  · rw [if_neg (by omega),if_neg (by omega),if_pos (by omega),decode_more _ _ _ _ (by omega),if_neg (by decide),
      decode_more _ _ _ _ (by omega),if_pos rfl,whole (by omega)]
  · rw [if_neg (by omega),if_neg (by omega),if_neg (by omega),decode_more _ _ _ _ (by omega),if_neg (by decide),
      decode_more _ _ _ _ (by omega),if_neg (by decide),decode_more _ _ _ _ (by omega),if_pos rfl,whole (by omega)]

private theorem decode_encode (cs : List Char) : decodeFrom 0 0 (encode cs) = cs := by
  induction cs with
  | nil => rfl
  | cons c cs ih => rw [encode_cons,decode_one,ih]

private theorem foldl_encode (p : Position) (cs : List Char) : (encode cs).foldl Position.next p = p.advanceAll cs := by
  induction cs generalizing p with
  | nil => rfl
  | cons c cs ih =>
    rw [encode_cons,foldl_append,ih,Position.advanceAll_cons]
    congr 1
    have hlength : (encode [c]).length = c.utf8Size := by simp [encode]
    rcases encode_one c with ⟨-,hc⟩ | ⟨hc, -,hbs⟩
    · rw [hc] at hlength ⊢
      simp only [foldl_cons,foldl_nil,Position.next,Position.advance,← hlength,length_singleton]
    · rw [Position.foldl_next (fun hn => absurd (hbs _ hn) (by decide)),hlength,Position.advance,if_neg]
      rintro rfl
      exact absurd hc (by decide)

/-! ### Runs of characters -/

/-- A test that tells no character beyond ASCII from another. -/
def Blind (p : Char → Bool) (v : Bool) : Prop := ∀ c : Char, 128 ≤ c.toNat → p c = v

private theorem takeWhile_encode {v : Bool} (h : Blind p v) (cs : List Char) :
    (encode cs).takeWhile p = encode (cs.takeWhile p) := by
  induction cs with
  | nil => rfl
  | cons c cs ih =>
    rw [encode_cons,takeWhile_cons]
    rcases encode_one c with ⟨-,hc⟩ | ⟨hc,hne,hbs⟩
    · rw [hc,singleton_append,takeWhile_cons,ih]
      split <;> [rw [encode_cons,hc,singleton_append]; rfl]
    · rw [h c hc]
      cases v
      · obtain ⟨b,bs,hb⟩ := exists_cons_of_ne_nil hne
        rw [hb,cons_append,takeWhile_cons,h b (hbs b (by simp [hb]))]
        rfl
      · rw [takeWhile_append_of_pos fun b hb => h b (hbs b hb),ih,if_pos rfl,encode_cons c (cs.takeWhile p)]

private theorem dropWhile_encode {v : Bool} (h : Blind p v) (cs : List Char) :
    (encode cs).dropWhile p = encode (cs.dropWhile p) := by
  have := takeWhile_append_dropWhile (p := p) (l := encode cs)
  rw [takeWhile_encode h] at this
  exact append_cancel_left (this.trans (by rw [← encode_append,takeWhile_append_dropWhile]))

private theorem ne_of_high {d : Char} (h : 128 ≤ c.toNat) (hd : d.toNat < 128) : c ≠ d := by
  rintro rfl
  omega

private theorem blind_isBlank : Blind isBlank false := fun c h => by simp [isBlank,ne_of_high h]

private theorem blind_isAtomic : Blind isAtomic true := fun c h => by simp [isAtomic,blind_isBlank c h,ne_of_high h]

private theorem blind_isDigit : Blind Char.isDigit false := fun c h => by
  have hc : c.val.toNat = c.toNat := rfl
  have h9 : '9'.val.toNat = 57 := rfl
  grind [Char.isDigit,UInt32.le_iff_toNat_le]

private theorem blind_isNumeral : Blind isNumeral false := fun c h => by simp [isNumeral,blind_isDigit c h,ne_of_high h]

private theorem encode_eq_iff {l : List Char} (hd : encode l = l) : encode cs = l ↔ cs = l := by
  refine ⟨fun h => ?_,fun h => h ▸ hd⟩
  rw [← decode_encode cs,h,← hd,decode_encode,hd]

/-- What the lexer sees at a character: the character itself, or a byte that it does not tell from it. -/
theorem encode_cases (c : Char) (cs : List Char) : ∃ b bs, encode (c :: cs) = b :: bs ∧
    (encode [c] = [c] ∧ b = c ∧ bs = encode cs ∨ 128 ≤ b.toNat ∧ 128 ≤ c.toNat) := by
  rcases encode_one c with ⟨-,hc⟩ | ⟨hc,hne,hbs⟩
  · exact ⟨c,encode cs,by rw [encode_cons,hc]; rfl,.inl ⟨hc,rfl,rfl⟩⟩
  · obtain ⟨b,bs,hb⟩ := exists_cons_of_ne_nil hne
    exact ⟨b,bs ++ encode cs,by rw [encode_cons,hb]; rfl,.inr ⟨hbs b (by simp [hb]),hc⟩⟩

end Token

namespace Lexeme

open Token

def encoded : Except (LexFault × List Char) Lexeme → Except (LexFault × List Char) Lexeme
  | .ok l => .ok ⟨l.kind,encode l.text,encode l.rest⟩
  | .error (fault,read) => .error (fault.map encode,encode read)

private theorem isDigit_head (h : encode (c :: cs) = b :: bs) : b.isDigit = c.isDigit := by
  obtain ⟨b',bs',h',⟨-,rfl, -⟩ | ⟨hb,hc⟩⟩ := encode_cases c cs <;> cases h.symm.trans h'
  · rfl
  · rw [blind_isDigit b hb,blind_isDigit c hc]

private theorem fraction_encode (cs : List Char) :
    fraction (encode cs) = encode (fraction cs) ∧ afterFraction (encode cs) = encode (afterFraction cs) := by
  by_cases hdot : ∃ rest, cs = '.' :: rest
  · obtain ⟨_ | ⟨d,ds⟩,rfl⟩ := hdot
    · exact ⟨rfl,rfl⟩
    obtain ⟨e,es,he, -⟩ := encode_cases d ds
    rw [encode_cons,he]
    show (if e.isDigit = true then _ else _) = encode (if _ then _ else _) ∧
      (if e.isDigit = true then _ else _) = encode (if _ then _ else _)
    rw [isDigit_head he,← he,takeWhile_encode blind_isNumeral,dropWhile_encode blind_isNumeral]
    split <;> exact ⟨rfl,rfl⟩
  · have hstop : Stops (· == '.') cs ∧ Stops (· == '.') (encode cs) := by
      cases cs with
      | nil => exact ⟨.nil,.nil⟩
      | cons c cs =>
        have hc : c ≠ '.' := fun h => hdot ⟨cs,h ▸ rfl⟩
        obtain ⟨b,bs,hb,⟨-,rfl, -⟩ | ⟨hhigh, -⟩⟩ := encode_cases c cs <;> rw [hb]
        · exact ⟨.cons (beq_false_of_ne hc),.cons (beq_false_of_ne hc)⟩
        · exact ⟨.cons (beq_false_of_ne hc),.cons (beq_false_of_ne (ne_of_high hhigh (by decide)))⟩
    rw [(fraction_of_stops hstop.1).1,(fraction_of_stops hstop.1).2]
    exact fraction_of_stops hstop.2

private theorem numberKind_encode (b : Bool) (cs : List Char) :
    numberKind b (String.ofList (encode cs)) = numberKind b (String.ofList cs) := by
  have same {s : String} (h : encode s.toList = s.toList) : String.ofList (encode cs) = s ↔ String.ofList cs = s := by
    simp only [← String.toList_inj,String.toList_ofList,encode_eq_iff h]
  simp only [numberKind,same (s := "") rfl,same (s := "i32") rfl,same (s := "i64") rfl,same (s := "f32") rfl,
    same (s := "f64") rfl]

private theorem number_encode (lead : List Char) (h : encode lead = lead) (cs : List Char) :
    number lead (encode cs) = encoded (number lead cs) := by
  have hempty (cs : List Char) : (encode cs).isEmpty = cs.isEmpty := by
    rw [Bool.eq_iff_iff,List.isEmpty_iff,List.isEmpty_iff,encode_eq_iff rfl]
  simp only [number,takeWhile_encode blind_isNumeral,dropWhile_encode blind_isNumeral,fraction_encode,
    takeWhile_encode blind_isAtomic,dropWhile_encode blind_isAtomic,numberKind_encode,hempty]
  split <;> simp [encoded,encode_append,h,LexFault.map]

private theorem quoted_encode (cs : List Char) : quoted (encode cs) = encoded (quoted cs) := by
  have hblind : Blind (fun c => c != '"' && c != '\n') true := fun c h => by simp [ne_of_high h]
  have hend := head?_dropWhile_not (fun c => c != '"' && c != '\n') cs
  simp only [quoted,takeWhile_encode hblind,dropWhile_encode hblind]
  cases hrest : cs.dropWhile fun c => c != '"' && c != '\n' with
  | nil => rfl
  | cons c rest =>
    rw [hrest] at hend
    have hc : c = '"' ∨ c = '\n' := by simpa [-not_and,imp_iff_not_or] using hend
    rcases hc with rfl | rfl
    · show _ = Except.ok (Lexeme.mk _ (encode ('"' :: cs.takeWhile _ ++ ['"'])) _)
      rw [encode_append]
      rfl
    · rfl

private theorem atom_encode (cs : List Char) :
    atom (encode cs) = ⟨(atom cs).kind,encode (atom cs).text,encode (atom cs).rest⟩ := by
  simp only [atom,takeWhile_encode blind_isAtomic,dropWhile_encode blind_isAtomic,
    encode_eq_iff (l := "true".toList) rfl,encode_eq_iff (l := "false".toList) rfl]

/-- The token at a character is found from its bytes. -/
theorem first_encode (h : encode (c :: cs) = b :: bs) : first b bs = encoded (first c cs) := by
  have hatom : Except.ok (atom (b :: bs)) = encoded (.ok (atom (c :: cs))) := by
    rw [← h,atom_encode]
    rfl
  obtain ⟨b',bs',h',hcase⟩ := encode_cases c cs
  cases h.symm.trans h'
  rcases hcase with ⟨hc,rfl,rfl⟩ | ⟨hb,hc⟩
  · have hsigned : isSigned b (encode cs) = isSigned b cs := by
      cases cs with
      | nil => rfl
      | cons d ds =>
        obtain ⟨e,es,he, -⟩ := encode_cases d ds
        simp [he,isSigned,isDigit_head he]
    have hsingle (kind : TokenKind) : Except.ok (single kind b (encode cs)) = encoded (.ok (single kind b cs)) := by
      simp [encoded,single,hc]
    simp only [first,hsigned]
    split <;> [exact hsingle _; skip]
    split <;> [exact hsingle _; skip]
    split <;> [exact quoted_encode cs; skip]
    split <;> [exact h ▸ number_encode [] rfl _; skip]
    split <;> [exact number_encode _ hc _; exact hatom]
  · have plain {c : Char} (cs : List Char) (h : 128 ≤ c.toNat) : first c cs = .ok (atom (c :: cs)) :=
      first_atom (blind_isAtomic c h) (blind_isDigit c h) (by simp [isSigned,ne_of_high h])
    rw [plain bs hb,plain cs hc,hatom]

end Lexeme

namespace Token

/-- Going through bytes and going through characters gives the same tokens, in the same places. -/
theorem scanFrom_encode (file : String) (p : Position) (cs : List Char) :
    scanFrom .bytes file p (encode cs) = scanFrom .chars file p cs := by
  have htext (text : List Char) : Units.bytes.text (encode text) = Units.chars.text text := decode_encode text
  induction hn : cs.length using Nat.strongRecOn generalizing cs p with
  | ind n ih =>
    subst hn
    have hsteps (text : List Char) : (encode text).foldl Units.bytes.step p = text.foldl Units.chars.step p :=
      foldl_encode p text
    cases cs with
    | nil => exact (scanFrom.eq_1 ..).trans (scanFrom.eq_1 ..).symm
    | cons c cs =>
      obtain ⟨b,bs,h,hcase⟩ := encode_cases c cs
      have hfirst := Lexeme.first_encode h
      rw [h]
      by_cases hskip : isBlank c = true ∨ c = ';'
      · -- Blanks and the start of a comment are ASCII characters.
        obtain ⟨hc,rfl,rfl⟩ := hcase.resolve_right fun hhigh => by
          rw [blind_isBlank c hhigh.2] at hskip
          exact ne_of_high hhigh.2 (by decide) (hskip.resolve_left (by simp))
        rcases hskip with hblank | rfl
        · rw [scanFrom_blank hblank,scanFrom_blank hblank,ih _ (by simp) _ _ rfl]
          have := hsteps [b]
          rw [hc] at this
          exact congrArg (scanFrom .chars file · cs) this
        · have hblind : Blind (· != '\n') true := fun c h => by simp [ne_of_high h]
          rw [scanFrom_comment,scanFrom_comment,takeWhile_encode hblind,dropWhile_encode hblind,
            ih _ (Nat.lt_succ_of_le (Lexeme.length_dropWhile_le _ _)) _ _ rfl]
          exact congrArg (scanFrom .chars file · _) (hsteps (';' :: _))
      · obtain ⟨hblank,hcomment⟩ := not_or.mp hskip
        rw [Bool.not_eq_true] at hblank
        obtain ⟨hblank',hcomment'⟩ : isBlank b = false ∧ b ≠ ';' := by
          rcases hcase with ⟨-,rfl, -⟩ | ⟨hb, -⟩
          · exact ⟨hblank,hcomment⟩
          · exact ⟨blind_isBlank b hb,ne_of_high hb (by decide)⟩
        cases hl : Lexeme.first c cs with
        | error e =>
          rw [hl] at hfirst
          have hfault : (e.1.map encode).map Units.bytes.text = e.1.map Units.chars.text := by
            cases e.1 <;> simp [LexFault.map,htext]
          rw [scanFrom_wrong hblank' hcomment' hfirst,scanFrom_wrong hblank hcomment hl,hsteps,hfault]
        | ok l =>
          rw [hl] at hfirst
          rw [scanFrom_token hblank' hcomment' hfirst,scanFrom_token hblank hcomment hl,hsteps,
            ih _ (Lexeme.first_rest_lt hblank hcomment hl) _ _ rfl,htext]

variable {file source : String} {tokens : List Token}

theorem tiled_of_scan (h : scan file source = .ok tokens) : Tiled .start source.toList tokens := by
  rw [scan,scanFrom_encode] at h
  rcases scanFrom_cases file .start source.toList with ⟨tokens',h',ht⟩ | ⟨d,_,h', -⟩ <;> cases h.symm.trans h'
  exact ht

theorem spelled_of_scan (h : scan file source = .ok tokens) : ∀ t ∈ tokens, Spelled t.kind t.text :=
  (tiled_of_scan h).spelled

theorem lexical_of_scan {d : Diagnostic} (h : scan file source = .error d) : ∃ fault, d.cause = .lexical fault := by
  rw [scan,scanFrom_encode] at h
  rcases scanFrom_cases file .start source.toList with ⟨_,h', -⟩ | ⟨d',fault,h',hcause⟩ <;> cases h.symm.trans h'
  exact ⟨fault,hcause⟩

end Token

end FormCompiler
