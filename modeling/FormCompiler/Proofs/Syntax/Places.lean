import FormCompiler.Proofs.Syntax.Forms
import Mathlib.Data.List.DropRight

/-! Places of tokens and forms. A token stands where its characters stand in the text, counted in lines and bytes, and a
form takes up its tokens: one alone, or all from a list's opening to its closing parenthesis. -/

namespace FormCompiler

open Position List

namespace Position

/-- How many bytes a run of characters takes. -/
def bytes (cs : List Char) : Nat := (String.ofList cs).utf8ByteSize

private theorem bytes_append (cs ds : List Char) : bytes (cs ++ ds) = bytes cs + bytes ds := by
  rw [bytes,String.ofList_append,String.utf8ByteSize_append]
  rfl

private theorem bytes_singleton (c : Char) : bytes [c] = c.utf8Size := String.utf8ByteSize_singleton

private theorem bytes_pos {cs : List Char} (h : cs ≠ []) : 0 < bytes cs := by
  obtain ⟨c,cs,rfl⟩ := exists_cons_of_ne_nil h
  rw [← singleton_append,bytes_append,bytes_singleton]
  exact Nat.add_pos_left c.utf8Size_pos _

/-- The point after some text: its line counts the ends of lines, its column the bytes since the last of them. -/
theorem advanceAll_start (cs : List Char) :
    start.advanceAll cs = ⟨1 + cs.count '\n',1 + bytes (cs.rtakeWhile (· != '\n')),bytes cs⟩ := by
  induction cs using List.reverseRecOn with
  | nil => rfl
  | append_singleton cs c ih =>
    rw [advanceAll_append,ih,advanceAll_cons,advanceAll_nil,bytes_append,bytes_singleton]
    by_cases hc : c = '\n'
    · rw [advance,if_pos hc,rtakeWhile_concat_neg _ _ _ (by simp [hc])]
      simp [hc,bytes,Nat.add_assoc]
    · rw [advance,if_neg hc,rtakeWhile_concat_pos _ _ _ (by simp [hc]),bytes_append,bytes_singleton]
      simp [hc,Nat.add_assoc]

private theorem offset_advanceAll (p : Position) (cs : List Char) : (p.advanceAll cs).offset = p.offset + bytes cs := by
  induction cs generalizing p with
  | nil => rfl
  | cons c cs ih =>
    rw [advanceAll_cons,ih,← singleton_append,bytes_append,bytes_singleton,← Nat.add_assoc]
    unfold advance
    split <;> rfl

end Position

namespace Token

variable {p : Position} {cs : List Char} {tokens : List Token}

def Before (t u : Token) : Prop := t.stop ≤ u.start.offset

/-- A token has characters, and it stands where they are found in the text. -/
theorem Tiled.place (h : Tiled p cs tokens) : ∀ t ∈ tokens, t.text ≠ [] ∧ ∃ before after,
    cs = before ++ (t.text ++ after) ∧ t.start = p.advanceAll before ∧
      t.stop = (p.advanceAll (before ++ t.text)).offset := by
  have further {p : Position} {run cs : List Char} {t : Token} (h : t.text ≠ [] ∧ ∃ before after,
      cs = before ++ (t.text ++ after) ∧ t.start = (p.advanceAll run).advanceAll before ∧
        t.stop = ((p.advanceAll run).advanceAll (before ++ t.text)).offset) : t.text ≠ [] ∧ ∃ before after,
      run ++ cs = before ++ (t.text ++ after) ∧ t.start = p.advanceAll before ∧
        t.stop = (p.advanceAll (before ++ t.text)).offset := by
    obtain ⟨hne,before,after,rfl,hstart,hstop⟩ := h
    refine ⟨hne,run ++ before,after,(append_assoc ..).symm,?_,?_⟩
    · rw [hstart,advanceAll_append]
    · rw [hstop,append_assoc,advanceAll_append p]
  induction h with
  | nil => simp
  | @blank _ c _ _ _ _ ih => exact fun t ht => @further _ [c] _ t (ih t ht)
  | comment _ _ _ ih => exact fun t ht => further (ih t ht)
  | @token p kind text rest tokens hs _ ih =>
    refine forall_mem_cons.mpr ⟨⟨?_,[],rest,rfl,rfl,rfl⟩,fun t ht => further (ih t ht)⟩
    obtain ⟨c,cs,rfl, -⟩ := Lexeme.first_append hs
    exact cons_ne_nil c cs

/-- No token is empty, and each ends before the next starts. -/
theorem Tiled.apart (h : Tiled p cs tokens) : (∀ t ∈ tokens, t.start.offset < t.stop) ∧ tokens.Pairwise Before := by
  refine ⟨fun t ht => ?_,?_⟩
  · obtain ⟨hne,before,_,_,hstart,hstop⟩ := h.place t ht
    have := bytes_pos hne
    rw [hstart,hstop,advanceAll_append,offset_advanceAll _ t.text]
    omega
  · induction h with
    | nil => exact .nil
    | blank _ _ ih | comment _ _ _ ih => exact ih
    | token _ hrest ih =>
      refine .cons (fun u hu => ?_) ih
      obtain ⟨-,before,_,_,hstart, -⟩ := hrest.place u hu
      show _ ≤ u.start.offset
      rw [hstart,offset_advanceAll _ before]
      exact Nat.le_add_right ..

end Token

namespace Form

open Token

/-- The tokens a form is read from: one alone, or a list's from its opening to its closing parenthesis. -/
inductive ReadFrom (file : String) : Form → List Token → Prop
  | atom {form : Form} {t : Token} : ReaderState.atom (t.location file) t = .ok form → ReadFrom file form [t]
  | list {items : List Form} {runs : List (List Token)} {opening closing : Token} : opening.kind = .openParen →
      closing.kind = .closeParen → List.Forall₂ (ReadFrom file) items runs →
      ReadFrom file (.list items (opening.span file closing)) (opening :: (runs.flatten ++ [closing]))

/-- A form stands somewhere within other forms. -/
inductive Within (forms : List Form) : Form → Prop
  | top {form : Form} : form ∈ forms → Within forms form
  | item {form : Form} {items : List Form} {loc : Location} : Within forms (.list items loc) → form ∈ items →
      Within forms form

variable {file : String} {form : Form} {forms : List Form} {tokens run : List Token} {runs : List (List Token)}

/-! ### What was read so far -/

namespace ReaderState

/-- The tokens read so far belong to the finished forms, or open a list, or belong to its items. -/
inductive Accounts (file : String) : ReaderState → List Token → Prop
  | finished {forms : List Form} {runs : List (List Token)} : List.Forall₂ (ReadFrom file) forms runs →
      Accounts file ⟨[],forms⟩ runs.reverse.flatten
  | pending {inner : OpenList} {outer : List OpenList} {forms : List Form} {tokens : List Token}
      {runs : List (List Token)} : Accounts file ⟨outer,forms⟩ tokens → inner.opening.kind = .openParen →
      List.Forall₂ (ReadFrom file) inner.reversed runs →
      Accounts file ⟨inner :: outer,forms⟩ (tokens ++ inner.opening :: runs.reverse.flatten)

variable {s s' : ReaderState} {t : Token}

private theorem Accounts.add (h : Accounts file s tokens) (hform : ReadFrom file form run) :
    Accounts file (add form s) (tokens ++ run) := by
  cases h with
  | finished hall => simpa [ReaderState.add] using Accounts.finished (.cons hform hall)
  | @pending inner _ _ _ _ houter hopen hall =>
    simpa [ReaderState.add] using @Accounts.pending _ { inner with reversed := form :: inner.reversed } _ _ _ _ houter hopen
      (.cons hform hall)

private theorem Accounts.step (h : Accounts file s tokens) (hstep : step file s t = .ok s') :
    Accounts file s' (tokens ++ [t]) := by
  unfold ReaderState.step at hstep
  split at hstep
  · rename_i hopen
    cases hstep
    exact @Accounts.pending _ ⟨t,[]⟩ _ _ _ _ h hopen .nil
  · rename_i hclose
    split at hstep
    · cases hstep
    · cases hstep
      rename_i hpending
      obtain ⟨pending,finished⟩ := s
      cases hpending
      cases h with
      | pending houter hopen hall =>
        simpa using houter.add (.list hopen hclose (forall₂_reverse_iff.mpr hall))
  · cases hatom : atom (t.location file) t with
    | error d =>
      rw [hatom] at hstep
      cases hstep
    | ok form =>
      rw [hatom] at hstep
      cases hstep
      exact h.add (.atom hatom)

private theorem Accounts.foldlM {more : List Token} (h : Accounts file s tokens)
    (hrun : more.foldlM (ReaderState.step file) s = .ok s') : Accounts file s' (tokens ++ more) := by
  induction more generalizing s tokens with
  | nil =>
    cases hrun
    rwa [append_nil]
  | cons t more ih =>
    rw [foldlM_cons] at hrun
    cases hstep : ReaderState.step file s t with
    | error d =>
      rw [hstep] at hrun
      cases hrun
    | ok next =>
      rw [hstep] at hrun
      simpa using ih (h.step hstep) hrun

end ReaderState

/-- The forms share out the tokens among them, in order. -/
theorem readFrom_of_ofTokens (h : ofTokens file tokens = .ok forms) :
    ∃ runs, List.Forall₂ (ReadFrom file) forms runs ∧ runs.flatten = tokens := by
  unfold ofTokens at h
  cases hfold : tokens.foldlM (ReaderState.step file) .initial with
  | error d =>
    rw [hfold] at h
    cases h
  | ok s =>
    rw [hfold] at h
    have hs := (@ReaderState.Accounts.finished file _ _ .nil).foldlM hfold
    cases hs with
    | finished hall =>
      cases h
      exact ⟨_,forall₂_reverse_iff.mpr hall,rfl⟩
    | pending => cases h

/-! ### Where forms stand -/

private theorem location_of_atom {loc : Location} {t : Token} (h : ReaderState.atom loc t = .ok form) :
    form.location = loc ∧ ∀ items place, form ≠ .list items place := by
  have constant {x : Except ReadFault Literal} (h : ReaderState.constant loc x = .ok form) :
      form.location = loc ∧ ∀ items place, form ≠ .list items place := by
    cases x with
    | error => cases h
    | ok => cases h; exact ⟨rfl,nofun⟩
  unfold ReaderState.atom at h
  split at h
  · cases h; exact ⟨rfl,nofun⟩
  · cases h; exact ⟨rfl,nofun⟩
  · cases h; exact ⟨rfl,nofun⟩
  · exact constant h
  · exact constant h
  all_goals cases h

/-- A form reaches from one of its tokens to another. -/
theorem ReadFrom.location (h : ReadFrom file form run) :
    ∃ first ∈ run, ∃ last ∈ run, form.location = first.span file last := by
  cases h with
  | @atom _ t hatom => exact ⟨t,by simp,t,by simp,(location_of_atom hatom).1⟩
  | @list _ _ opening closing => exact ⟨opening,by simp,closing,by simp,rfl⟩

private theorem exists_run (h : List.Forall₂ (ReadFrom file) forms runs) (hform : form ∈ forms) :
    ∃ run ∈ runs, ReadFrom file form run := by
  induction h with
  | nil => cases hform
  | @cons _ run _ runs hfirst _ ih =>
    rcases mem_cons.mp hform with rfl | hform
    · exact ⟨run,by simp,hfirst⟩
    · obtain ⟨other,hmem,hother⟩ := ih hform
      exact ⟨other,by simp [hmem],hother⟩

/-- Each form that stands somewhere within others is read from some of their tokens, none left out between. -/
theorem Within.readFrom (h : Within forms form) (hall : List.Forall₂ (ReadFrom file) forms runs) :
    ∃ run, ReadFrom file form run ∧ run <:+: runs.flatten := by
  induction h with
  | top hform =>
    obtain ⟨run,hmem,hrun⟩ := exists_run hall hform
    exact ⟨run,hrun,infix_of_mem_flatten hmem⟩
  | item _ hform ih =>
    obtain ⟨_,hlist,hpart⟩ := ih
    cases hlist with
    | atom hatom => exact absurd rfl ((location_of_atom hatom).2 _ _)
    | @list _ inner opening closing _ _ hitems =>
      obtain ⟨run,hmem,hrun⟩ := exists_run hitems hform
      have hinner : inner.flatten <:+: opening :: (inner.flatten ++ [closing]) := ⟨[opening],[closing],rfl⟩
      exact ⟨run,hrun,((infix_of_mem_flatten hmem).trans hinner).trans hpart⟩

/-- Forms that are read from tokens one after another stand in order and apart from each other. -/
theorem pairwise_of_readFrom (h : List.Forall₂ (ReadFrom file) forms runs) (hapart : runs.flatten.Pairwise Before) :
    forms.Pairwise fun a b => a.location.stop ≤ b.location.start := by
  induction h with
  | nil => exact .nil
  | @cons form run forms runs hform hall ih =>
    rw [flatten_cons,pairwise_append] at hapart
    refine .cons (fun other hother => ?_) (ih hapart.2.1)
    obtain ⟨next,hmem,hnext⟩ := exists_run hall hother
    obtain ⟨_,_,last,hlast,hloc⟩ := hform.location
    obtain ⟨first,hfirst,_,_,hloc'⟩ := hnext.location
    rw [hloc,hloc']
    exact hapart.2.2 last hlast first (mem_flatten_of_mem hmem hfirst)

/-- The items of a list stand strictly between its ends. -/
theorem inside_of_readFrom {opening closing : Token} (h : List.Forall₂ (ReadFrom file) forms runs)
    (hne : opening.start.offset < opening.stop ∧ closing.start.offset < closing.stop)
    (hapart : (opening :: (runs.flatten ++ [closing])).Pairwise Before) (hform : form ∈ forms) :
    opening.start.offset < form.location.start ∧ form.location.stop < closing.stop := by
  rw [pairwise_cons,pairwise_append] at hapart
  obtain ⟨run,hmem,hrun⟩ := exists_run h hform
  obtain ⟨first,hfirst,last,hlast,hloc⟩ := hrun.location
  have hopening : opening.stop ≤ first.start.offset := hapart.1 first (by simp; exact .inl ⟨run,hmem,hfirst⟩)
  have hclosing : last.stop ≤ closing.start.offset :=
    hapart.2.2.2 last (mem_flatten_of_mem hmem hlast) closing (mem_singleton_self _)
  rw [hloc]
  exact ⟨hne.1.trans_le hopening,hclosing.trans_lt hne.2⟩

/-- The text is made of its tokens, of blanks and of comments. The tokens are not empty, follow each other without
touching each other's bytes, and each has the line, the column and the offsets of its characters. Forms share out the
tokens in order, and a list reaches from its opening to its closing parenthesis, strictly around its items. -/
theorem places_exact {file source : String} {tokens : List Token} (h : scan file source = .ok tokens) :
    Tiled .start source.toList tokens ∧
    (∀ t ∈ tokens, t.start.offset < t.stop ∧ ∃ before after, source.toList = before ++ (t.text ++ after) ∧
      t.start = ⟨1 + before.count '\n',1 + bytes (before.rtakeWhile (· != '\n')),bytes before⟩ ∧
      t.stop = bytes (before ++ t.text)) ∧
    tokens.Pairwise Before ∧
    ∀ forms, read file source = .ok forms → (∃ runs, List.Forall₂ (ReadFrom file) forms runs ∧ runs.flatten = tokens) ∧
      ∀ items loc, Within forms (.list items loc) → ∃ opening closing runs,
        opening.kind = .openParen ∧ closing.kind = .closeParen ∧ loc = opening.span file closing ∧
        List.Forall₂ (ReadFrom file) items runs ∧ opening :: (runs.flatten ++ [closing]) <:+: tokens ∧
        (∀ item ∈ items, loc.start < item.location.start ∧ item.location.stop < loc.stop) ∧
        items.Pairwise fun a b => a.location.stop ≤ b.location.start := by
  have ht : Tiled .start source.toList tokens := tiled_of_scan h
  obtain ⟨hne,hapart⟩ := ht.apart
  refine ⟨ht,fun t hmem => ⟨hne t hmem,?_⟩,hapart,fun forms hread => ?_⟩
  · obtain ⟨-,before,after,hsource,hstart,hstop⟩ := ht.place t hmem
    exact ⟨before,after,hsource,hstart.trans (advanceAll_start before), hstop.trans (by rw [advanceAll_start])⟩
  · unfold read at hread
    rw [h] at hread
    obtain ⟨runs,hall,rfl⟩ := readFrom_of_ofTokens hread
    refine ⟨⟨runs,hall,rfl⟩,fun items loc hlist => ?_⟩
    obtain ⟨_,hlist,hpart⟩ := hlist.readFrom hall
    cases hlist with
    | atom hatom => exact absurd rfl ((location_of_atom hatom).2 _ _)
    | @list _ inner opening closing hopen hclose hitems =>
      have hrow := hapart.sublist hpart.sublist
      refine ⟨opening,closing,inner,hopen,hclose,rfl,hitems,hpart,fun item hitem => ?_,?_⟩
      · exact inside_of_readFrom hitems ⟨hne _ (hpart.subset (by simp)),hne _ (hpart.subset (by simp))⟩ hrow hitem
      · exact pairwise_of_readFrom hitems (pairwise_append.mp (pairwise_cons.mp hrow).2).1

/-- A name of two bytes, a comment, a list over two lines with a list in it, and a comment that ends the text. -/
private def placedText : String := "é ;(\n(f,\"λ\"\n (g));)"

theorem places_exact_sample : ∃ tokens forms items loc, scan "a" placedText = .ok tokens ∧
    tokens.map (fun t => (t.start.line, t.start.column, t.start.offset, t.stop)) =
      [(1, 1, 0, 2),(2, 1, 6, 7),(2, 2, 7, 8),(2, 4, 9, 13),(3, 2, 15, 16),(3, 3, 16, 17),(3, 4, 17, 18),
        (3, 5, 18, 19)] ∧
    tokens.Pairwise Before ∧ read "a" placedText = .ok forms ∧ .list items loc ∈ forms ∧
    items.map (fun item => (item.location.start, item.location.stop)) = [(7, 8),(9, 13),(15, 18)] ∧
    items.Pairwise fun a b => a.location.stop ≤ b.location.start := by
  have hplaces : (scan "a" placedText).toOption.map (·.map fun t => (t.start.line, t.start.column, t.start.offset, t.stop)) =
      some [(1, 1, 0, 2),(2, 1, 6, 7),(2, 2, 7, 8),(2, 4, 9, 13),(3, 2, 15, 16),(3, 3, 16, 17),(3, 4, 17, 18),
        (3, 5, 18, 19)] := by decide +kernel
  have hitems : ((read "a" placedText).toOption.bind (·.getLast?)).map
      (·.items.map fun item => (item.location.start, item.location.stop)) = some [(7, 8),(9, 13),(15, 18)] := by
    decide +kernel
  cases hscan : scan "a" placedText with
  | error d =>
    rw [hscan] at hplaces
    cases hplaces
  | ok tokens =>
    obtain ⟨-, -,hapart,htrees⟩ := places_exact hscan
    rw [hscan] at hplaces
    cases hread : read "a" placedText with
    | error d =>
      rw [hread] at hitems
      cases hitems
    | ok forms =>
      rw [hread] at hitems
      obtain ⟨last,hlast,hmap⟩ := Option.map_eq_some_iff.mp hitems
      have hmem : last ∈ forms := mem_of_getLast? hlast
      cases last with
      | list items loc =>
        obtain ⟨_,_,_,_,_,_,_,_,_,hpairwise⟩ := (htrees forms hread).2 items loc (.top hmem)
        exact ⟨tokens,forms,items,loc,rfl,Option.some.inj hplaces,hapart,rfl,hmem,hmap,hpairwise⟩
      | _ => cases hmap

end Form

end FormCompiler
