import FormCompiler.Proofs.Syntax.Bytes

/-! The layout of text. Between two tokens any blanks and comments may stand, and it does not matter which: the tokens
are the same, and so are the forms but for their places. -/

namespace FormCompiler

open List

namespace Token

/-- A blank, or a comment with the end of its line. -/
inductive Separator : List Char → Prop
  | blank {c : Char} : isBlank c = true → Separator [c]
  | comment {cs : List Char} : '\n' ∉ cs → Separator (';' :: (cs ++ ['\n']))

/-- Any number of separators. -/
inductive Gap : List Char → Prop
  | nil : Gap []
  | cons {s gap : List Char} : Separator s → Gap gap → Gap (s ++ gap)

/-- Texts one after another, with a gap after each of them that is not empty before another one. -/
inductive Rendered : List (List Char) → List Char → Prop
  | nil : Rendered [] []
  | cons {text gap rest : List Char} {texts : List (List Char)} : Gap gap → (texts ≠ [] → gap ≠ []) →
      Rendered texts rest → Rendered (text :: texts) (text ++ (gap ++ rest))

def word (t : Token) : TokenKind × List Char := (t.kind, t.text)

variable {file : String} {p : Position} {s gap rest : List Char}

/-! ### Tokens -/

private theorem Separator.stops (h : Separator s) : Stops isAtomic (s ++ rest) := by
  cases h with
  | blank hc => exact .cons (by simp [isAtomic,hc])
  | comment => exact .cons (by decide)

private theorem Gap.stops (h : Gap gap) (hne : gap ≠ []) : Stops isAtomic (gap ++ rest) := by
  cases h with
  | nil => exact absurd rfl hne
  | cons hs _ =>
    rw [append_assoc]
    exact hs.stops

/-- The lexer passes over separators. -/
theorem Separator.scanFrom (h : Separator s) (file : String) (p : Position) (rest : List Char) :
    ∃ q, Token.scanFrom .chars file p (s ++ rest) = Token.scanFrom .chars file q rest := by
  cases h with
  | blank hc => exact ⟨_,scanFrom_blank hc⟩
  | @comment cs hcs =>
    have hrun : ∀ c ∈ cs, (c != '\n') = true := by
      intro c hc
      rw [bne_iff_ne]
      rintro rfl
      exact hcs hc
    have hstop : Stops (· != '\n') ('\n' :: rest) := .cons (by decide)
    rw [cons_append,append_assoc,singleton_append,scanFrom_comment,dropWhile_run hrun hstop]
    exact ⟨_,scanFrom_blank rfl⟩

private theorem Gap.scanFrom (h : Gap gap) (file : String) (p : Position) (rest : List Char) :
    ∃ q, Token.scanFrom .chars file p (gap ++ rest) = Token.scanFrom .chars file q rest := by
  induction h generalizing p with
  | nil => exact ⟨p,rfl⟩
  | cons hs _ ih =>
    rw [append_assoc]
    obtain ⟨q,hq⟩ := hs.scanFrom file p _
    obtain ⟨r,hr⟩ := ih q
    exact ⟨r,hq.trans hr⟩

/-- Tokens that are written down again are found again. -/
theorem scanFrom_rendered {tokens : List Token} {body : List Char} (h : ∀ t ∈ tokens, Spelled t.kind t.text)
    (hbody : Rendered (tokens.map text) body) (file : String) (p : Position) :
    ∃ tokens', Token.scanFrom .chars file p body = .ok tokens' ∧ tokens'.map word = tokens.map word := by
  induction tokens generalizing body p with
  | nil =>
    cases hbody
    exact ⟨[],by rw [Token.scanFrom],rfl⟩
  | cons t tokens ih =>
    cases hbody with
    | @cons _ gap rest _ hgap hne hrest =>
      obtain ⟨c,cs,htext,hblank,hcomment,hfirst⟩ := Lexeme.first_append (h t (by simp))
      have hstops : Stops isAtomic (gap ++ rest) := by
        by_cases hnil : gap = []
        · have : tokens = [] := by
            by_contra hcons
            exact hne (by simpa using hcons) hnil
          subst this
          cases hrest
          rw [hnil]
          exact .nil
        · exact hgap.stops hnil
      obtain ⟨q,hq⟩ := hgap.scanFrom file _ rest
      obtain ⟨tokens',hscan,hwords⟩ := ih (fun u hu => h u (by simp [hu])) hrest q
      rw [htext,cons_append,scanFrom_token hblank hcomment (hfirst _ hstops)]
      rw [hq,hscan]
      exact ⟨_,rfl,by simp [hwords,word,Units.chars]⟩

end Token

/-! ### Forms -/

/-- Both succeed, with results that are alike, or both fail for the same reason. -/
def SameOutcome {α β : Type} (alike : α → β → Prop) : Except Diagnostic α → Except Diagnostic β → Prop
  | .ok a, .ok b => alike a b
  | .error d, .error e => d.cause = e.cause
  | _, _ => False

namespace SameOutcome

variable {α β γ δ : Type} {alike : α → β → Prop} {same : γ → δ → Prop} {x : Except Diagnostic α}
  {y : Except Diagnostic β} {f : α → Except Diagnostic γ} {g : β → Except Diagnostic δ}

theorem bind (h : SameOutcome alike x y) (hfg : ∀ a b, alike a b → SameOutcome same (f a) (g b)) :
    SameOutcome same (x >>= f) (y >>= g) := by
  cases x with
  | error d =>
    cases y with
    | error e => exact h
    | ok b => exact h.elim
  | ok a =>
    cases y with
    | error e => exact h.elim
    | ok b => exact hfg a b h

theorem map {f : α → γ} {g : β → δ} (h : SameOutcome alike x y) (hfg : ∀ a b, alike a b → same (f a) (g b)) :
    SameOutcome same (f <$> x) (g <$> y) := h.bind hfg

end SameOutcome

namespace Form

mutual

def bare : Form → Form
  | identifier name _ => .identifier name .builtin
  | literal value _ => .literal value .builtin
  | string text _ => .string text .builtin
  | list items _ => .list (bareAll items) .builtin

def bareAll : List Form → List Form
  | [] => []
  | form :: forms => form.bare :: bareAll forms

end

private theorem bareAll_eq (forms : List Form) : bareAll forms = forms.map bare := by
  induction forms with
  | nil => rfl
  | cons form forms ih => rw [bareAll,ih,map_cons]

namespace ReaderState

/-- The same was read, at other places perhaps. -/
structure Alike (s u : ReaderState) : Prop where
  pending : s.pending.map (·.reversed.map bare) = u.pending.map (·.reversed.map bare)
  finished : s.finished.map bare = u.finished.map bare

variable {s u : ReaderState} {t v : Token} {file other : String}

private theorem Alike.add (h : Alike s u) {form form' : Form} (hform : form.bare = form'.bare) :
    Alike (add form s) (add form' u) := by
  obtain ⟨pending,finished⟩ := s
  obtain ⟨pending',finished'⟩ := u
  obtain ⟨hp,hf⟩ := h
  cases pending with
  | nil =>
    cases pending' with
    | nil => exact ⟨rfl,by simp [ReaderState.add,hform,hf]⟩
    | cons => cases hp
  | cons inner outer =>
    cases pending' with
    | nil => cases hp
    | cons inner' outer' =>
      simp only [map_cons,List.cons.injEq] at hp
      exact ⟨by simp [ReaderState.add,hform,hp],hf⟩

private theorem atom_alike (h : t.word = v.word) (loc loc' : Location) :
    SameOutcome (fun a b => a.bare = b.bare) (atom loc t) (atom loc' v) := by
  obtain ⟨kind,text,start,stop⟩ := t
  obtain ⟨kind',text',start',stop'⟩ := v
  cases h
  have hconstant (x : Except ReadFault Literal) :
      SameOutcome (fun a b => a.bare = b.bare) (constant loc x) (constant loc' x) := by
    cases x <;> rfl
  cases kind with
  | integer => exact hconstant _
  | float => exact hconstant _
  | _ => rfl

private theorem step_alike (hs : Alike s u) (h : t.word = v.word) :
    SameOutcome Alike (step file s t) (step other u v) := by
  have hatom := (atom_alike h (t.location file) (v.location other)).map fun _ _ hform => hs.add hform
  obtain ⟨kind,text,start,stop⟩ := t
  obtain ⟨kind',text',start',stop'⟩ := v
  cases h
  cases kind with
  | openParen => exact ⟨by simp [hs.pending],hs.finished⟩
  | closeParen =>
    obtain ⟨pending,finished⟩ := s
    obtain ⟨pending',finished'⟩ := u
    obtain ⟨hp,hf⟩ := hs
    cases pending with
    | nil =>
      cases pending' with
      | nil => rfl
      | cons => cases hp
    | cons inner outer =>
      cases pending' with
      | nil => cases hp
      | cons inner' outer' =>
        simp only [map_cons,List.cons.injEq] at hp
        have houter : Alike ⟨outer,finished⟩ ⟨outer',finished'⟩ := ⟨hp.2,hf⟩
        exact houter.add (by simp [bare,bareAll_eq,hp.1])
  | _ => exact hatom

private theorem foldlM_alike {tokens tokens' : List Token} (hs : Alike s u)
    (h : tokens.map Token.word = tokens'.map Token.word) :
    SameOutcome Alike (tokens.foldlM (step file) s) (tokens'.foldlM (step other) u) := by
  induction tokens generalizing tokens' s u with
  | nil =>
    cases tokens' with
    | nil => exact hs
    | cons => cases h
  | cons t tokens ih =>
    cases tokens' with
    | nil => cases h
    | cons v tokens' =>
      simp only [map_cons,List.cons.injEq] at h
      exact (step_alike hs h.1).bind fun _ _ hnext => ih hnext h.2

private theorem finish_alike (hs : Alike s u) :
    SameOutcome (fun a b => a.map bare = b.map bare) (s.finish file) (u.finish other) := by
  obtain ⟨pending,finished⟩ := s
  obtain ⟨pending',finished'⟩ := u
  obtain ⟨hp,hf⟩ := hs
  cases pending with
  | nil =>
    cases pending' with
    | nil =>
      show finished.reverse.map bare = finished'.reverse.map bare
      rw [map_reverse,map_reverse]
      exact congrArg List.reverse hf
    | cons => cases hp
  | cons inner outer =>
    cases pending' with
    | nil => cases hp
    | cons inner' outer' => rfl

end ReaderState

private theorem ofTokens_alike (file other : String) {tokens tokens' : List Token}
    (h : tokens.map Token.word = tokens'.map Token.word) :
    SameOutcome (fun a b => a.map bare = b.map bare) (ofTokens file tokens) (ofTokens other tokens') :=
  (ReaderState.foldlM_alike ⟨rfl,rfl⟩ h).bind fun _ _ hs => ReaderState.finish_alike hs

open Token

/-- Tokens written down again, with any blanks and comments around them, are the same tokens and make the same forms at
other places, or cannot be read for the same reason. -/
theorem layout_irrelevant {file source : String} {tokens : List Token} (h : scan file source = .ok tokens)
    {gap body : List Char} (hgap : Gap gap) (hbody : Rendered (tokens.map text) body) (other : String) :
    (∃ tokens', scan other (String.ofList (gap ++ body)) = .ok tokens' ∧ tokens'.map word = tokens.map word) ∧
      SameOutcome (fun forms forms' => forms.map bare = forms'.map bare) (read file source)
        (read other (String.ofList (gap ++ body))) := by
  obtain ⟨q,hq⟩ := hgap.scanFrom other .start body
  obtain ⟨tokens',hscan,hwords⟩ := scanFrom_rendered (spelled_of_scan h) hbody other q
  have hscan' : scan other (String.ofList (gap ++ body)) = .ok tokens' := by
    rw [scan,scanFrom_encode,String.toList_ofList,hq,hscan]
  refine ⟨⟨tokens',hscan',hwords⟩,?_⟩
  unfold read
  rw [h,hscan']
  exact ofTokens_alike file other hwords.symm

private def sampleText : String := "(f -1(g 2.5_0f32)\"a;b\")"

private def sampleWords : List (List Char) :=
  ["(".toList,"f".toList,"-1".toList,"(".toList,"g".toList,"2.5_0f32".toList,")".toList,"\"a;b\"".toList,
    ")".toList]

private theorem gap_comment : Gap ";,(\n\t".toList := by
  have hcomment : Separator (';' :: (",(".toList ++ ['\n'])) := .comment (by decide)
  exact .cons hcomment (.cons (.blank (c := '\t') rfl) .nil)

private theorem rendered_words (texts : List (List Char)) : Rendered texts (texts.flatMap (· ++ ";,(\n\t".toList)) := by
  induction texts with
  | nil => exact .nil
  | cons text texts ih =>
    rw [flatMap_cons,append_assoc]
    exact .cons gap_comment (fun _ => by decide) ih

theorem layout_irrelevant_sample : ∃ tokens, scan "a" sampleText = .ok tokens ∧ tokens.map text = sampleWords ∧
    (∃ tokens', scan "b" (String.ofList (sampleWords.flatMap (· ++ ";,(\n\t".toList))) = .ok tokens' ∧
      tokens'.map word = tokens.map word) ∧
    SameOutcome (fun forms forms' => forms.map bare = forms'.map bare) (read "a" sampleText)
      (read "b" (String.ofList (sampleWords.flatMap (· ++ ";,(\n\t".toList)))) := by
  have hcheck : (scan "a" sampleText).toOption.map (·.map text) = some sampleWords := by decide +kernel
  cases hscan : scan "a" sampleText with
  | error d =>
    rw [hscan] at hcheck
    cases hcheck
  | ok tokens =>
    rw [hscan] at hcheck
    have hwords : tokens.map text = sampleWords := Option.some.inj hcheck
    exact ⟨tokens,rfl,hwords,layout_irrelevant hscan .nil (hwords ▸ rendered_words _) "b"⟩

end Form

end FormCompiler
