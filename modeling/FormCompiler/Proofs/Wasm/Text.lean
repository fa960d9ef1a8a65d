import FormCompiler.Proofs.Wasm.Validation
import FormCompiler.Wasm.Wat

/-! The text form and the binary form describe the same code. The text is read letter by letter into trees of words
and groups; a tree is then read in evaluation order, with branch labels looked up among the frames around it. -/

namespace FormCompiler.Wasm

open FlatInstr List

variable {op arg : String} {is : List Instr} {index level number : Nat} {label : LabelId}

/-- Text cut at blanks and grouped by parentheses. -/
inductive Tree where
  | word (text : String)
  | group (items : List Tree)

/-- What was read so far: the items of the innermost open group, those of the groups around it, and the letters of a
word that may go on. -/
structure TreeReader where
  items : List Tree
  outer : List (List Tree)
  letters : List Char

namespace TreeReader

def delimits (c : Char) : Bool := c = '(' || c = ')' || c = ' ' || c = '\n'

def endWord (r : TreeReader) : TreeReader :=
  if r.letters = [] then r else ⟨r.items ++ [.word (String.ofList r.letters)],r.outer,[]⟩

def bracket (r : TreeReader) (c : Char) : TreeReader :=
  if c = '(' then ⟨[],r.items :: r.outer,[]⟩
  else if c = ')' then
    match r.outer with
    | around :: outer => ⟨around ++ [.group r.items],outer,[]⟩
    | [] => r
  else r

def next (r : TreeReader) (c : Char) : TreeReader :=
  if delimits c then r.endWord.bracket c else { r with letters := r.letters ++ [c] }

end TreeReader

open TreeReader

def treesOf (text : String) : List Tree := (text.toList.foldl next ⟨[],[],[]⟩).endWord.items

/-- The text adds these trees to those read before it; its last word may go on. -/
def Spells (text : String) (trees : List Tree) : Prop :=
  ∀ items outer, (text.toList.foldl next ⟨items,outer,[]⟩).endWord = ⟨items ++ trees,outer,[]⟩

/-- The text adds these trees to those read before it, and no word goes on. -/
def SpellsOut (text : String) (trees : List Tree) : Prop :=
  ∀ items outer, text.toList.foldl next ⟨items,outer,[]⟩ = ⟨items ++ trees,outer,[]⟩

/-- A text with no place to cut it. -/
def IsWord (text : String) : Prop := text.toList ≠ [] ∧ ∀ c ∈ text.toList, delimits c = false

instance (text : String) : Decidable (IsWord text) :=
  decidable_of_iff ((!text.toList.isEmpty && text.toList.all fun c => !delimits c) = true) (by simp [IsWord])

variable {a b text : String} {s t : List Tree}

theorem SpellsOut.nil : SpellsOut "" [] := fun items outer => by simp

theorem SpellsOut.append (ha : SpellsOut a s) (hb : SpellsOut b t) : SpellsOut (a ++ b) (s ++ t) := fun items outer => by
  rw [String.toList_append,foldl_append,ha,hb,append_assoc]

private theorem SpellsOut.before (ha : SpellsOut a s) (hb : Spells b t) :
    Spells (a ++ b) (s ++ t) := fun items outer => by
  rw [String.toList_append,foldl_append,ha,hb,append_assoc]

private theorem SpellsOut.spells (h : SpellsOut a s) : Spells a s := fun items outer => by
  rw [h]
  rfl

private theorem SpellsOut.trees (h : SpellsOut a s) : treesOf a = s := by
  rw [treesOf,h.spells]
  rfl

private theorem SpellsOut.blanks (n : Nat) : SpellsOut (String.ofList (List.replicate n ' ')) [] := by
  intro items outer
  rw [String.toList_ofList]
  induction n with
  | zero => simp
  | succ n ih => exact ih

private theorem Spells.blank (h : Spells a s) : SpellsOut (a ++ " ") s := fun items outer => by
  rw [String.toList_append,foldl_append]
  exact congrArg (bracket · ' ') (h items outer)

private theorem Spells.line (h : Spells a s) : SpellsOut (a ++ "\n") s := fun items outer => by
  rw [String.toList_append,foldl_append]
  exact congrArg (bracket · '\n') (h items outer)

private theorem Spells.group (h : Spells a s) : SpellsOut ("(" ++ a ++ ")") [.group s] := fun items outer => by
  rw [String.toList_append,String.toList_append,foldl_append,foldl_append]
  exact congrArg (bracket · ')') (h [] (items :: outer))

private theorem Spells.word (h : IsWord a) : Spells a [.word a] := by
  intro items outer
  have hletters : ∀ l ⊆ a.toList, ∀ letters, l.foldl next ⟨items,outer,letters⟩ = ⟨items,outer,letters ++ l⟩ := by
    intro l
    induction l with
    | nil => simp
    | cons c l ih =>
      intro hl letters
      obtain ⟨hc,hl⟩ := cons_subset.mp hl
      rw [foldl_cons,TreeReader.next,h.2 c hc,if_neg Bool.false_ne_true,ih hl]
      simp
  rw [hletters _ (List.Subset.refl _),nil_append,endWord,if_neg h.1,String.ofList_toList]

/-- A word before more text; `text` is the word with a blank behind it. -/
private theorem Spells.after (op : String) (h : text = op ++ " ") (hop : IsWord op) (ha : Spells a s) :
    Spells (text ++ a) (.word op :: s) := h ▸ (Spells.word hop).blank.before ha

/-- A group that begins with a word; `text` is the parenthesis and the word with a blank behind it. -/
private theorem Spells.opened (op : String) (h : text = "(" ++ (op ++ " ")) (hop : IsWord op) (ha : Spells a s) :
    SpellsOut (text ++ a ++ ")") [.group (.word op :: s)] := by
  rw [h,@String.append_assoc "(" _ a]
  exact (ha.after op rfl hop).group

theorem IsWord.append (ha : IsWord a) (hb : ∀ c ∈ b.toList, delimits c = false) : IsWord (a ++ b) := by
  refine ⟨by simp [ha.1],fun c hc => ?_⟩
  rw [String.toList_append] at hc
  exact (mem_append.mp hc).elim (ha.2 c) (hb c)

private theorem delimits_of_isAlphanum {c : Char} (h : c.isAlphanum = true) : delimits c = false := by
  refine Bool.eq_false_iff.mpr fun hc => ?_
  simp only [delimits,Bool.or_eq_true,decide_eq_true_eq] at hc
  rcases hc with ((rfl | rfl) | rfl) | rfl <;> exact absurd h (by decide)

private theorem delimits_of_mem_toDigits {n : Nat} {c : Char} (h : c ∈ Nat.toDigits 10 n) : delimits c = false :=
  delimits_of_isAlphanum (by simp [Char.isAlphanum,Nat.isDigit_of_mem_toDigits (by decide) (by decide) h])

private theorem isWord_nat (n : Nat) : IsWord (toString n) := by
  change IsWord n.repr
  rw [Nat.repr_eq_ofList_toDigits,IsWord,String.toList_ofList]
  exact ⟨Nat.toDigits_ne_nil,fun c => delimits_of_mem_toDigits⟩

private theorem isWord_int (n : Int) : IsWord (toString n) := by
  rw [Int.toString_eq_repr,Int.repr_eq_if]
  split
  · exact isWord_nat _
  · exact IsWord.append (by decide) (isWord_nat _).2

private theorem isWord_printedName (name : String) : IsWord (printedName name) := by
  refine IsWord.append (by decide) fun c hc => ?_
  rw [String.toList_ofList] at hc
  obtain ⟨d,_,rfl⟩ := mem_map.mp hc
  split
  · rename_i hd
    simp only [isNameChar,Bool.or_eq_true,decide_eq_true_eq] at hd
    rcases hd with ((hd | rfl) | rfl) | rfl
    · exact delimits_of_isAlphanum hd
    all_goals decide
  · decide

private theorem isWord_labelText (label : LabelId) : IsWord (labelText label) :=
  IsWord.append (a := "$l") (by decide) (isWord_nat label.index).2

private theorem labelText_inj {other : LabelId} : labelText label = labelText other ↔ label = other := by
  refine ⟨fun h => ?_,congrArg _⟩
  have h : ("$l" ++ label.index.repr).toList = ("$l" ++ other.index.repr).toList := congrArg String.toList h
  simp only [String.toList_append,append_cancel_left_eq,Nat.toList_repr] at h
  have h := congrArg (Nat.ofDigitChars 10 · 0) h
  cases label
  cases other
  simpa only [Nat.ofDigitChars_ten_toDigits,LabelId.mk.injEq] using h

private theorem isWord_decimal (d : Decimal) : IsWord d.text := by
  have hword : ∀ l : List Char, l ≠ [] → (∀ c ∈ l, c ∈ Nat.toDigits 10 d.digits ∨ c = '0' ∨ c = '.') →
      IsWord (String.ofList l) := by
    intro l hne hl
    rw [IsWord,String.toList_ofList]
    refine ⟨hne,fun c hc => ?_⟩
    rcases hl c hc with hc | rfl | rfl
    · exact delimits_of_mem_toDigits hc
    all_goals decide
  rw [Decimal.text]
  split
  · decide
  dsimp only
  split
  · refine hword _ (by simp [Nat.toDigits_ne_nil]) fun c hc => ?_
    exact (mem_append.mp hc).imp_right fun hc => .inl (eq_of_mem_replicate hc)
  split
  · refine hword _ (by simp) fun c hc => ?_
    rcases mem_append.mp hc with hc | hc
    · exact .inl (mem_of_mem_take hc)
    · exact (mem_cons.mp hc).elim (.inr ∘ .inr) fun hc => .inl (mem_of_mem_drop hc)
  · refine hword _ (by simp) fun c hc => ?_
    simp only [mem_cons,mem_append,mem_replicate] at hc
    rcases hc with hc | hc | ⟨_,hc⟩ | hc <;> simp [hc]

private theorem isWord_float (f : FloatFormat) (pattern : Nat) : IsWord (f.text pattern) := by
  have hsign : ∀ {text : String}, IsWord text → IsWord ((if f.negative pattern then "-" else "") ++ text) := by
    intro text h
    split
    · exact IsWord.append (by decide) h.2
    · exact h
  rw [FloatFormat.text]
  split
  · decide
  · exact hsign (by decide)
  · exact hsign (by decide)
  · exact hsign (isWord_decimal _)

/-- What a reader of either form learns next to the name of an instruction: a word or type, or a frame by the number of
frames inside it. -/
inductive Immediate where
  | tree (t : Tree)
  | frame (depth : Nat)

/-- An instruction as a reader of either form sees it. -/
structure Reading where
  mnemonic : String
  immediates : List Immediate

/-- What an item of a group is to the group. -/
inductive Role where
  | immediate
  | operand
  /-- One of the two bodies of a condition. -/
  | branch
  deriving DecidableEq

namespace Tree

def head : List Tree → String
  | word op :: _ => op
  | _ => ""

def role : Tree → Role
  | word _ => .immediate
  | group items =>
    if head items ∈ ["result","ref"] then .immediate
    else if head items ∈ ["then","else"] then .branch
    else .operand

/-- What stands between the head of a group and its operands. -/
def given (items : List Tree) : List Tree := (items.drop 1).filter (·.role = .immediate)

def target (frames : List (Option String)) : Tree → Immediate
  | word label =>
    match frames.findIdx? (· == some label) with
    | some depth => .frame depth
    | none => .tree (word label)
  | t => .tree t

def isBranch (op : String) : Bool := op ∈ ["br","br_if","br_table"]

def label? : List Tree → Option String
  | word label :: _ => some label
  | _ => none

mutual

/-- What a tree says in evaluation order inside these frames, innermost first: operands before the operator, the test
before its condition, a body between its head and its end. -/
def read (frames : List (Option String)) : Tree → List Reading
  | word _ => []
  | group items =>
    if head items ∈ ["block","loop"] then
      ⟨head items,((given items).drop 1).map .tree⟩ :: readAll .operand (label? (given items) :: frames) items
        ++ [⟨"end",[]⟩]
    else if head items = "if" then
      readAll .operand frames items ++ ⟨"if",(given items).map .tree⟩ :: readAll .branch (none :: frames) items
        ++ [⟨"end",[]⟩]
    else if head items = "then" then readAll .operand frames items
    else if head items = "else" then ⟨"else",[]⟩ :: readAll .operand frames items
    else
      readAll .operand frames items
        ++ [⟨head items,(given items).map (if isBranch (head items) then target frames else .tree)⟩]

def readAll (role : Role) (frames : List (Option String)) : List Tree → List Reading
  | [] => []
  | item :: items => (if item.role = role then item.read frames else []) ++ readAll role frames items

end

end Tree

/-- The instruction set: the names of the codes of one byte. -/
def opcodes : List (UInt8 × String) :=
  [(0x00, "unreachable"),(0x02, "block"),(0x03, "loop"),(0x04, "if"),(0x05, "else"),(0x0b, "end"),(0x0c, "br"),
    (0x0d, "br_if"),(0x0e, "br_table"),(0x0f, "return"),(0x10, "call"),(0x1a, "drop"),(0x20, "local.get"),
    (0x21, "local.set"),(0x22, "local.tee"),(0x23, "global.get"),(0x41, "i32.const"),(0x42, "i64.const"),
    (0x43, "f32.const"),(0x44, "f64.const"),(0x45, "i32.eqz"),(0x46, "i32.eq"),(0x47, "i32.ne"),(0x48, "i32.lt_s"),
    (0x49, "i32.lt_u"),(0x4a, "i32.gt_s"),(0x4b, "i32.gt_u"),(0x4c, "i32.le_s"),(0x4d, "i32.le_u"),
    (0x4e, "i32.ge_s"),(0x4f, "i32.ge_u"),(0x50, "i64.eqz"),(0x51, "i64.eq"),(0x52, "i64.ne"),(0x53, "i64.lt_s"),
    (0x54, "i64.lt_u"),(0x55, "i64.gt_s"),(0x56, "i64.gt_u"),(0x57, "i64.le_s"),(0x58, "i64.le_u"),
    (0x59, "i64.ge_s"),(0x5a, "i64.ge_u"),(0x5b, "f32.eq"),(0x5c, "f32.ne"),(0x5d, "f32.lt"),(0x5e, "f32.gt"),
    (0x5f, "f32.le"),(0x60, "f32.ge"),(0x61, "f64.eq"),(0x62, "f64.ne"),(0x63, "f64.lt"),(0x64, "f64.gt"),
    (0x65, "f64.le"),(0x66, "f64.ge"),(0x6a, "i32.add"),(0x6b, "i32.sub"),(0x6c, "i32.mul"),(0x6d, "i32.div_s"),
    (0x6e, "i32.div_u"),(0x6f, "i32.rem_s"),(0x70, "i32.rem_u"),(0x71, "i32.and"),(0x72, "i32.or"),
    (0x7c, "i64.add"),(0x7d, "i64.sub"),(0x7e, "i64.mul"),(0x7f, "i64.div_s"),(0x80, "i64.div_u"),
    (0x81, "i64.rem_s"),(0x82, "i64.rem_u"),(0x92, "f32.add"),(0x93, "f32.sub"),(0x94, "f32.mul"),(0x95, "f32.div"),
    (0xa0, "f64.add"),(0xa1, "f64.sub"),(0xa2, "f64.mul"),(0xa3, "f64.div")]

/-- The names of the codes after the byte of the garbage-collection proposal. -/
def gcOpcodes : List (UInt8 × String) :=
  [(0x00, "struct.new"),(0x02, "struct.get"),(0x07, "array.new_default"),(0x08, "array.new_fixed"),
    (0x0b, "array.get"),(0x0e, "array.set"),(0x0f, "array.len"),(0x17, "ref.cast")]

/-- The name of the instruction that bytes begin with. -/
def mnemonicOf : Bytes → String
  | 0xfb :: code :: _ => (gcOpcodes.lookup code).getD ""
  | code :: _ => (opcodes.lookup code).getD ""
  | [] => ""

/-- The printed name of what an index designates, or the index when there is nothing. -/
def designated (name? : Option String) (index : Nat) : Tree := .word ((name?.map printedName).getD (toString index))

namespace Module

variable (m : Module)

def typeAt (index : Nat) : Tree := designated (m.types[index]?.map TypeDef.name) index

def refTree (index : Nat) : Tree := .group [.word "ref",.word "null",m.typeAt index]

def typeTree : ValueType → Tree
  | .i32 => .word "i32"
  | .i64 => .word "i64"
  | .f32 => .word "f32"
  | .f64 => .word "f64"
  | .ref index => m.refTree index

def resultTree (result : Option ValueType) : List Tree :=
  result.toList.map fun type => .group [.word "result",m.typeTree type]

end Module

/-- What is emitted next to the code of an instruction. -/
def FlatInstr.immediates (m : Module) : FlatInstr → List Immediate
  | i32Const value => [.tree (.word (toString value.toInt))]
  | i64Const value => [.tree (.word (toString value.toInt))]
  | f32Const value => [.tree (.word value.text)]
  | f64Const value => [.tree (.word value.text)]
  | localGet index | localSet index => [.tree (.word (toString index))]
  | globalGet index => [.tree (designated (m.globals[index]?.map Global.name) index)]
  | call function => [.tree (designated (m.binaryFuncs[function]?.map Func.name) function)]
  | block result | cond result => (m.resultTree result).map .tree
  | br depth | brIf depth => [.frame depth]
  | brTable depths default => depths.map .frame ++ [.frame default]
  | structNew type | arrayNewDefault type | arrayGet type | arraySet type => [.tree (m.typeAt type)]
  | structGet type number | arrayNewFixed type number => [.tree (m.typeAt type),.tree (.word (toString number))]
  | refCast type => [.tree (m.refTree type)]
  | binary .. | eqz _ | loop | otherwise | close | ret | drop | unreachable | arrayLen => []

/-- An emitted instruction as a reader of the binary sees it. -/
def FlatInstr.reading (m : Module) (i : FlatInstr) : Reading := ⟨mnemonicOf i.bytes,i.immediates m⟩

variable {m : Module} {frames : Frames} {i : Instr} {operands : List Instr} {last : FlatInstr}

private theorem isWord_of_designated {name? : Option String} (h : designated name? index = .word text) :
    IsWord text := by
  cases name? <;> cases h
  · exact isWord_nat index
  · exact isWord_printedName _

private theorem Module.typeAt_eq (index : Nat) : m.typeAt index = .word (m.typeName index) := by
  cases h : m.types[index]? <;> simp [typeAt,designated,typeName,h]

private theorem Module.globalAt_eq (index : Nat) :
    designated (m.globals[index]?.map Global.name) index = .word (m.globalName index) := by
  cases h : m.globals[index]? <;> simp [designated,globalName,h]

/-- The number a function is called by designates the function. -/
private theorem Module.funcAt_eq {function : Nat} (h : m.binaryIndices.toArray[function]? = some number) :
    designated (m.binaryFuncs[number]?.map Func.name) number = .word (m.funcName function) := by
  have hlt : function < m.funcs.size := by
    obtain ⟨hlt,_⟩ := Array.getElem?_eq_some_iff.mp h
    simpa [length_binaryIndices] using hlt
  obtain ⟨n,hn,hf⟩ := Module.binaryFuncs_get (Array.getElem?_eq_getElem hlt)
  rw [h] at hn
  cases hn
  simp [designated,funcName,hf,Array.getElem?_eq_getElem hlt]

private theorem spells_typeName (index : Nat) : Spells (m.typeName index) [m.typeAt index] :=
  m.typeAt_eq index ▸ .word (isWord_of_designated (m.typeAt_eq index))

private theorem spells_ref (index : Nat) : SpellsOut ("(ref null " ++ m.typeName index ++ ")") [m.refTree index] := by
  have h : Spells ("null " ++ m.typeName index) _ := (spells_typeName index).after "null" rfl (by decide)
  have h : SpellsOut ("(ref " ++ ("null " ++ m.typeName index) ++ ")") _ := h.opened "ref" rfl (by decide)
  exact h

private theorem spells_result (result : Option ValueType) (h : Spells a s) :
    Spells (a ++ m.resultText result) (s ++ m.resultTree result) := by
  cases result with
  | none => simpa [Module.resultText,Module.resultTree] using h
  | some type =>
    have htype : Spells (m.valueType type) [m.typeTree type] := by
      cases type with
      | ref index => exact (spells_ref index).spells
      | _ =>
        rw [Module.valueType]
        exact .word (by decide)
    have hresult : SpellsOut ("(result " ++ m.valueType type ++ ")") _ := htype.opened "result" rfl (by decide)
    have h := (h.blank.append hresult).spells
    rw [String.append_assoc,← @String.append_assoc " ",← @String.append_assoc " "] at h
    exact h

def linesText (lines : List String) : String := String.join (lines.map (· ++ "\n"))

private theorem linesText_append (l k : List String) :
    linesText (l ++ k) = linesText l ++ linesText k := by simp [linesText]

private theorem spells_line (level : Nat) (h : Spells a s) : SpellsOut (linesText [atLevel level a]) s := by
  have h := ((SpellsOut.blanks (2 * level)).before h).line
  simpa [linesText,atLevel] using h

/-- A head over its children, whichever way it is laid out. -/
private theorem spells_folded {head : String} {childless : Bool} {children : List String} (hh : Spells head s)
    (hc : SpellsOut (linesText children) t) (hn : childless = true → children = []) :
    SpellsOut (linesText (folded level head childless children)) [.group (s ++ t)] := by
  cases childless with
  | true =>
    rw [hn rfl] at hc
    have ht : t = [] := by simpa using (hc.trees).symm.trans SpellsOut.nil.trees
    rw [ht,append_nil]
    exact spells_line level hh.group.spells
  | false =>
    have h := ((hh.line.append hc).before (SpellsOut.blanks (2 * level)).spells).group.spells.line
    have h := (SpellsOut.blanks (2 * level)).append h
    simpa [folded,linesText,atLevel,String.append_assoc] using h

def Frames.labels (frames : Frames) : List (Option String) := frames.map (Option.map labelText)

private theorem target_label {depth : Nat} (h : Frames.depth frames label = .ok depth) :
    Tree.target frames.labels (.word (labelText label)) = .frame depth := by
  have hsame : ((· == some (labelText label)) ∘ Option.map labelText) = (· == some label) := by
    funext frame
    cases frame <;> simp [labelText_inj]
  rw [Frames.depth] at h
  rw [Tree.target,Frames.labels,findIdx?_map,hsame]
  cases hd : List.findIdx? (· == some label) frames with
  | none =>
    rw [hd] at h
    cases h
  | some index =>
    rw [hd] at h
    cases h
    rfl

private theorem target_labels {targets : List LabelId} {depths : List Nat}
    (h : Frames.depths frames targets = .ok depths) :
    targets.map (Tree.target frames.labels ∘ .word ∘ labelText) = depths.map .frame := by
  induction targets generalizing depths with
  | nil =>
    cases h
    rfl
  | cons label targets ih =>
    obtain ⟨depth,hd,h⟩ := except_bind_ok.mp h
    obtain ⟨rest,hr,h⟩ := except_bind_ok.mp h
    cases h
    rw [map_cons,map_cons,ih hr]
    exact congrArg (· :: _) (target_label hd)

private theorem spells_labels (targets : List LabelId) :
    Spells (" ".intercalate (targets.map labelText)) (targets.map (.word ∘ labelText)) := by
  induction targets with
  | nil => exact SpellsOut.nil.spells
  | cons label targets ih =>
    cases targets with
    | nil => exact .word (isWord_labelText label)
    | cons next targets =>
      rw [map_cons,map_cons,String.intercalate_cons_cons]
      exact (Spells.word (isWord_labelText label)).blank.before ih

def keywords : List String := ["block","loop","if","then","else","result","ref"]

def IsOperator (op : String) (branch : Bool) : Prop := IsWord op ∧ op ∉ keywords ∧ Tree.isBranch op = branch

instance (op : String) (branch : Bool) : Decidable (IsOperator op branch) := inferInstanceAs (Decidable (_ ∧ _ ∧ _))

/-- The instruction is written as this head over its operands. -/
def Instr.Heads (m : Module) (head : String) (i : Instr) (operands : List Instr) : Prop :=
  ∀ level, i.lines m level = folded level head operands.isEmpty (allLines m (level + 1) operands)

/-- The instruction is written as a head over its operands, and the head says what is emitted after them. -/
def Says (m : Module) (frames : Frames) (i : Instr) (operands : List Instr) (last : FlatInstr) : Prop :=
  ∃ head op branch trees, i.Heads m head operands ∧ Spells head (.word op :: trees) ∧ mnemonicOf last.bytes = op ∧
    IsOperator op branch ∧ (∀ t ∈ trees, t.role = .immediate) ∧
    trees.map (if branch then Tree.target frames.labels else .tree) = last.immediates m

/-- An instruction with nothing next to its name. -/
private theorem Says.bare (op : String) (hl : i.Heads m op operands) (hop : mnemonicOf last.bytes = op)
    (hk : IsOperator op false) (hi : last.immediates m = []) : Says m frames i operands last :=
  ⟨op,op,false,[],hl,.word hk.1,hop,hk,by simp,hi.symm⟩

/-- An instruction with a word next to its name. -/
private theorem Says.word (op : String) (htext : text = op ++ " ") (hl : i.Heads m (text ++ arg) operands)
    (harg : IsWord arg) (hop : mnemonicOf last.bytes = op) (hk : IsOperator op false)
    (hi : last.immediates m = [.tree (.word arg)]) : Says m frames i operands last :=
  ⟨_,op,false,_,hl,(Spells.word harg).after op htext hk.1,hop,hk,by simp [Tree.role],hi.symm⟩

/-- The same without operands, which is written on one line. -/
private theorem Says.leaf (op : String) (htext : text = "(" ++ (op ++ " "))
    (hl : ∀ level, i.lines m level = [atLevel level (text ++ arg ++ ")")]) (harg : IsWord arg)
    (hop : mnemonicOf last.bytes = op) (hk : IsOperator op false)
    (hi : last.immediates m = [.tree (.word arg)]) : Says m frames i [] last := by
  refine .word op rfl (fun level => ?_) harg hop hk hi
  rw [hl,htext,@String.append_assoc "("]
  rfl

private theorem Says.typed (op : String) (htext : text = op ++ " ")
    (hl : i.Heads m (text ++ m.typeName index) operands) (hop : mnemonicOf last.bytes = op)
    (hk : IsOperator op false) (hi : last.immediates m = [.tree (m.typeAt index)]) : Says m frames i operands last :=
  .word op htext hl (isWord_of_designated (m.typeAt_eq index)) hop hk (m.typeAt_eq index ▸ hi)

/-- An instruction with a type and a number next to its name. -/
private theorem Says.numbered (op : String) (htext : text = op ++ " ")
    (hl : i.Heads m (text ++ m.typeName index ++ (" " ++ toString number)) operands)
    (hop : mnemonicOf last.bytes = op) (hk : IsOperator op false)
    (hi : last.immediates m = [.tree (m.typeAt index),.tree (.word (toString number))]) :
    Says m frames i operands last := by
  refine ⟨_,op,false,[m.typeAt index,.word (toString number)],hl,?_,hop,hk,?_,hi.symm⟩
  · rw [← String.append_assoc]
    exact ((spells_typeName index).after op htext hk.1).blank.before (.word (isWord_nat number))
  · simp [Module.typeAt_eq,Tree.role]

/-- A branch with its labels next to its name. -/
private theorem Says.branch {labels : List LabelId} {head : String} (op : String)
    (hl : i.Heads m head operands) (hs : Spells head (.word op :: labels.map (.word ∘ labelText)))
    (hop : mnemonicOf last.bytes = op) (hk : IsOperator op true)
    (hi : labels.map (Tree.target frames.labels ∘ .word ∘ labelText) = last.immediates m) :
    Says m frames i operands last := by
  refine ⟨head,op,true,_,hl,hs,hop,hk,?_,?_⟩
  · intro t ht
    obtain ⟨label,_,rfl⟩ := mem_map.mp ht
    rfl
  · rw [← hi,map_map]
    rfl

private theorem mnemonicOf_binary {op : BinOp} {type : NumType} (h : op.isDefinedFor type = true) :
    mnemonicOf (binary op type).bytes = op.mnemonic type ∧ IsOperator (op.mnemonic type) false := by
  cases op <;> cases type <;> first | exact absurd h (by decide) | decide

private theorem allLines_one (level : Nat) :
    allLines m level [i] = i.lines m level := by rw [allLines,allLines,append_nil]

/-- What an operator is written with names what is emitted after its operands. -/
private theorem says_operator (h : i.operator? m.binaryIndices.toArray frames = some (operands, .ok last)) :
    Says m frames i operands last := by
  cases i with
  | i32Const value =>
    cases h
    exact .leaf "i32.const" rfl (fun _ => rfl) (isWord_int _) rfl (by decide) rfl
  | i64Const value =>
    cases h
    exact .leaf "i64.const" rfl (fun _ => rfl) (isWord_int _) rfl (by decide) rfl
  | f32Const value =>
    cases h
    exact .leaf "f32.const" rfl (fun _ => rfl) (isWord_float _ _) rfl (by decide) rfl
  | f64Const value =>
    cases h
    exact .leaf "f64.const" rfl (fun _ => rfl) (isWord_float _ _) rfl (by decide) rfl
  | localGet index =>
    cases h
    exact .leaf "local.get" rfl (fun _ => rfl) (isWord_nat _) rfl (by decide) rfl
  | globalGet index =>
    cases h
    have hname := m.globalAt_eq index
    exact .leaf "global.get" rfl (fun _ => rfl) (isWord_of_designated hname) rfl (by decide) (by rw [immediates,hname])
  | localSet index value =>
    cases h
    exact .word "local.set" rfl (fun _ => by rw [allLines_one]; rfl) (isWord_nat index) rfl (by decide) rfl
  | binary op type left right =>
    obtain ⟨rfl,ho⟩ := Prod.mk.inj (Option.some.inj h)
    split at ho
    · cases ho
      rename_i hdefined
      obtain ⟨hop,hk⟩ := mnemonicOf_binary hdefined
      exact .bare _ (fun _ => by rw [allLines,allLines_one]; rfl) hop hk rfl
    · cases ho
  | eqz type value =>
    obtain ⟨rfl,ho⟩ := Prod.mk.inj (Option.some.inj h)
    cases type <;> cases ho
    · exact .bare "i32.eqz" (fun _ => by rw [allLines_one]; rfl) rfl (by decide) rfl
    · exact .bare "i64.eqz" (fun _ => by rw [allLines_one]; rfl) rfl (by decide) rfl
  | call function args =>
    obtain ⟨rfl,ho⟩ := Prod.mk.inj (Option.some.inj h)
    split at ho
    · cases ho
      rename_i number hnumber
      have hname := Module.funcAt_eq hnumber
      exact .word "call" rfl (fun _ => rfl) (isWord_of_designated hname) rfl (by decide) (by rw [immediates,hname])
    · cases ho
  | br label value =>
    obtain ⟨rfl,ho⟩ := Prod.mk.inj (Option.some.inj h)
    obtain ⟨depth,hd,h⟩ := except_bind_ok.mp ho
    cases h
    refine .branch "br" (fun _ => ?_) ((spells_labels [label]).after "br" rfl (by decide)) rfl (by decide)
      (congrArg (· :: []) (target_label hd))
    cases value with
    | none => rfl
    | some value => exact (congrArg (folded _ _ false) (allLines_one _)).symm
  | brIf label test =>
    obtain ⟨rfl,ho⟩ := Prod.mk.inj (Option.some.inj h)
    obtain ⟨depth,hd,h⟩ := except_bind_ok.mp ho
    cases h
    exact .branch "br_if" (fun _ => by rw [allLines_one]; rfl) ((spells_labels [label]).after "br_if" rfl (by decide)) rfl
      (by decide) (congrArg (· :: []) (target_label hd))
  | brTable targets default index =>
    obtain ⟨rfl,ho⟩ := Prod.mk.inj (Option.some.inj h)
    obtain ⟨depths,hds,h⟩ := except_bind_ok.mp ho
    obtain ⟨depth,hd,h⟩ := except_bind_ok.mp h
    cases h
    have hs : Spells ("br_table " ++ " ".intercalate (targets.map labelText) ++ " " ++ labelText default)
        (.word "br_table" :: (targets ++ [default]).map (.word ∘ labelText)) := by
      rw [map_append]
      exact ((spells_labels targets).after "br_table" rfl (by decide)).blank.before (.word (isWord_labelText default))
    refine .branch "br_table" (fun _ => by rw [allLines_one]; rfl) hs rfl (by decide) ?_
    rw [map_append,target_labels hds]
    exact congrArg (_ ++ [·]) (target_label hd)
  | ret value =>
    cases h
    refine .bare "return" (fun _ => ?_) rfl (by decide) rfl
    cases value with
    | none => rfl
    | some value => exact (congrArg (folded _ _ false) (allLines_one _)).symm
  | drop value =>
    cases h
    exact .bare "drop" (fun _ => by rw [allLines_one]; rfl) rfl (by decide) rfl
  | unreachable =>
    cases h
    exact .bare "unreachable" (fun _ => rfl) rfl (by decide) rfl
  | structNew type fields =>
    cases h
    exact .typed "struct.new" rfl (fun _ => rfl) rfl (by decide) rfl
  | structGet type field object =>
    cases h
    exact .numbered "struct.get" rfl (fun _ => by rw [allLines_one]; rfl) rfl (by decide) rfl
  | refCast type value =>
    cases h
    have hs : Spells ("ref.cast " ++ ("(ref null " ++ m.typeName type ++ ")")) _ :=
      (spells_ref type).spells.after "ref.cast" rfl (by decide)
    exact ⟨_,_,false,_,fun _ => by rw [allLines_one]; rfl,hs,rfl,by decide,
      by simp [Module.refTree,Tree.role,Tree.head],rfl⟩
  | arrayNewFixed type values =>
    cases h
    exact .numbered "array.new_fixed" rfl (fun _ => rfl) rfl (by decide) rfl
  | arrayNewDefault type length =>
    cases h
    exact .typed "array.new_default" rfl (fun _ => by rw [allLines_one]; rfl) rfl (by decide) rfl
  | arrayGet type array index =>
    cases h
    exact .typed "array.get" rfl (fun _ => by rw [allLines,allLines_one]; rfl) rfl (by decide) rfl
  | arraySet type array index value =>
    cases h
    exact .typed "array.set" rfl (fun _ => by rw [allLines,allLines,allLines_one,← append_assoc]; rfl) rfl (by decide) rfl
  | arrayLen array =>
    cases h
    exact .bare "array.len" (fun _ => by rw [allLines_one]; rfl) rfl (by decide) rfl
  | block | loop | cond | seq => cases h

namespace Tree

variable {role : Role} {open_ : List (Option String)}

private theorem readAll_append : readAll role open_ (s ++ t) = readAll role open_ s ++ readAll role open_ t := by
  induction s with
  | nil => rfl
  | cons item s ih => rw [cons_append,readAll,readAll,ih,append_assoc]

/-- Items of another role are passed over. -/
private theorem readAll_other {other : Role} (h : ∀ item ∈ s, item.role = other) (hne : other ≠ role) :
    readAll role open_ s = [] := by
  induction s with
  | nil => rfl
  | cons item s ih =>
    rw [readAll,ih fun next hnext => h next (by simp [hnext]),h item (by simp),if_neg hne]
    rfl

private theorem readAll_eq_flatMap (h : ∀ item ∈ s, item.role = role) :
    readAll role open_ s = s.flatMap (read open_) := by
  induction s with
  | nil => rfl
  | cons item s ih =>
    rw [readAll,if_pos (h item (by simp)),ih fun next hnext => h next (by simp [hnext]),flatMap_cons]

private theorem readAll_one {item : Tree} (h : item.role = role) : readAll role open_ [item] = item.read open_ := by
  rw [readAll,readAll,if_pos h,append_nil]

/-- What stands before the operands of a group is passed over. -/
private theorem readAll_items (hs : ∀ item ∈ s, item.role = .immediate) (hr : role ≠ .immediate) :
    readAll role open_ (word op :: s ++ t) = readAll role open_ t := by
  have hhead : ∀ item ∈ word op :: s, item.role = .immediate := forall_mem_cons.mpr ⟨rfl,hs⟩
  rw [readAll_append,readAll_other hhead hr.symm,nil_append]

/-- A group with its head, what stands before its operands, and the operands or branches. -/
private theorem read_group (hs : ∀ item ∈ s, item.role = .immediate) (ht : ∀ item ∈ t, item.role ≠ .immediate) :
    (group (word op :: s ++ t)).read open_ =
      if op ∈ ["block","loop"] then
        ⟨op,(s.drop 1).map .tree⟩ :: readAll .operand (label? s :: open_) t ++ [⟨"end",[]⟩]
      else if op = "if" then
        readAll .operand open_ t ++ ⟨"if",s.map .tree⟩ :: readAll .branch (none :: open_) t ++ [⟨"end",[]⟩]
      else if op = "then" then readAll .operand open_ t
      else if op = "else" then ⟨"else",[]⟩ :: readAll .operand open_ t
      else readAll .operand open_ t ++ [⟨op,s.map (if isBranch op then target open_ else .tree)⟩] := by
  have hgiven : given (word op :: s ++ t) = s := by
    have hs : s.filter (·.role = .immediate) = s := filter_eq_self.mpr (by simpa using hs)
    have ht : t.filter (·.role = .immediate) = [] := filter_eq_nil_iff.mpr (by simpa using ht)
    simp [given,hs,ht]
  have hoperands : ∀ open_, readAll .operand open_ (word op :: s ++ t) = readAll .operand open_ t :=
    fun _ => readAll_items hs (by decide)
  have hbranches : ∀ open_, readAll .branch open_ (word op :: s ++ t) = readAll .branch open_ t :=
    fun _ => readAll_items hs (by decide)
  rw [read,hgiven]
  simp only [hoperands,hbranches]
  rfl

end Tree

/-- Lines that, at any level, read in evaluation order as this code. -/
def Prints (m : Module) (role : Role) (frames : Frames) (lines : Nat → List String) (code : List FlatInstr) : Prop :=
  ∃ trees, (∀ level, SpellsOut (linesText (lines level)) trees) ∧ (∀ t ∈ trees, t.role = role) ∧
    Tree.readAll role frames.labels trees = code.map (reading m)

theorem Prints.append {role : Role} {l k : Nat → List String} {c d : List FlatInstr} (hl : Prints m role frames l c)
    (hk : Prints m role frames k d) : Prints m role frames (fun level => l level ++ k level) (c ++ d) := by
  obtain ⟨s,hs,hsr,hsc⟩ := hl
  obtain ⟨t,ht,htr,htc⟩ := hk
  refine ⟨s ++ t,fun level => ?_,fun tree htree => (mem_append.mp htree).elim (hsr tree) (htr tree),?_⟩
  · rw [linesText_append]
    exact (hs level).append (ht level)
  · rw [Tree.readAll_append,hsc,htc,map_append]

variable {code : List FlatInstr}

private theorem allLines_of_isEmpty (h : is.isEmpty = true) : allLines m level is = [] := by
  rw [isEmpty_iff.mp h,allLines]

/-- Operands, then the operator. -/
private theorem Says.prints (h : Says m frames i operands last)
    (ho : Prints m .operand frames (allLines m · operands) code) :
    Prints m .operand frames (i.lines m) (code ++ [last]) := by
  obtain ⟨head,op,branch,s,hl,hs,hop,⟨_,hk,rfl⟩,hr,hi⟩ := h
  obtain ⟨t,ht,htr,htc⟩ := ho
  simp only [keywords,mem_cons,not_mem_nil,or_false,not_or] at hk
  have hrole : (Tree.group (.word op :: s ++ t)).role = .operand := by simp [Tree.role,Tree.head,hk]
  refine ⟨_,fun level => ?_,forall_mem_singleton.mpr hrole,?_⟩
  · dsimp only
    rw [hl level]
    exact spells_folded hs (ht _) allLines_of_isEmpty
  · rw [Tree.readAll_one hrole,Tree.read_group hr fun item hitem => by simp [htr item hitem],htc]
    simp [hk,reading,hop,← hi]

/-- A body between the head of its frame and its end. -/
private theorem prints_frame {body : List Instr} {head : String} {first : FlatInstr}
    (hs : Spells head (.word op :: .word (labelText label) :: s)) (hop : op ∈ ["block","loop"])
    (hr : ∀ item ∈ s, item.role = .immediate) (hfirst : first.reading m = ⟨op,s.map .tree⟩)
    (hbody : Prints m .operand (some label :: frames) (allLines m · body) code) :
    Prints m .operand frames (fun level => folded level head body.isEmpty (allLines m (level + 1) body)) (first :: code ++ [.close]) := by
  obtain ⟨t,ht,htr,htc⟩ := hbody
  have hr : ∀ item ∈ .word (labelText label) :: s, item.role = .immediate := by simpa using ⟨rfl,hr⟩
  have hrole : (Tree.group (.word op :: (.word (labelText label) :: s) ++ t)).role = .operand := by
    simp only [mem_cons,not_mem_nil,or_false] at hop
    rcases hop with rfl | rfl <;> rfl
  refine ⟨_,fun level => spells_folded hs (ht _) allLines_of_isEmpty,forall_mem_singleton.mpr hrole,?_⟩
  rw [Tree.readAll_one hrole,Tree.read_group hr fun item hitem => by simp [htr item hitem],if_pos hop,
    map_append,map_cons,hfirst,← htc]
  rfl

private theorem role_resultTree (result : Option ValueType) : ∀ item ∈ m.resultTree result, item.role = .immediate := by
  cases result <;> simp [Module.resultTree,Tree.role,Tree.head]

private theorem prints_then {yes : List Instr} (h : Prints m .operand frames (allLines m · yes) code) :
    Prints m .branch frames (fun level => folded level "then" yes.isEmpty (allLines m (level + 1) yes)) code := by
  obtain ⟨t,ht,htr,htc⟩ := h
  have hrole : (Tree.group (.word "then" :: [] ++ t)).role = .branch := rfl
  refine ⟨_,fun level => spells_folded (.word (by decide)) (ht _) allLines_of_isEmpty,forall_mem_singleton.mpr hrole,?_⟩
  rw [Tree.readAll_one hrole,Tree.read_group (by simp) fun item hitem => by simp [htr item hitem],htc]
  rfl

private theorem prints_else {no : List Instr} (h : Prints m .operand frames (allLines m · no) code) :
    Prints m .branch frames (fun level => folded level "else" false (allLines m (level + 1) no)) (.otherwise :: code) := by
  obtain ⟨t,ht,htr,htc⟩ := h
  have hrole : (Tree.group (.word "else" :: [] ++ t)).role = .branch := rfl
  refine ⟨_,fun level => spells_folded (.word (by decide)) (ht _) (by simp),forall_mem_singleton.mpr hrole,?_⟩
  rw [Tree.readAll_one hrole,Tree.read_group (by simp) fun item hitem => by simp [htr item hitem],htc]
  rfl

/-- The test, then the branches up to the end. -/
private theorem prints_cond (result : Option ValueType) {test branches : Nat → List String} {tested : List FlatInstr}
    (ht : Prints m .operand frames test tested) (hb : Prints m .branch (none :: frames) branches code) :
    Prints m .operand frames (fun level => folded level ("if" ++ m.resultText result) false
      (test (level + 1) ++ branches (level + 1))) (tested ++ .cond result :: code ++ [.close]) := by
  obtain ⟨s,hs,hsr,hsc⟩ := ht
  obtain ⟨t,ht,htr,htc⟩ := hb
  have hrole : (Tree.group (.word "if" :: m.resultTree result ++ (s ++ t))).role = .operand := rfl
  refine ⟨_,fun level => ?_,forall_mem_singleton.mpr hrole,?_⟩
  · refine spells_folded (spells_result result (.word (by decide))) ?_ (by simp)
    rw [linesText_append]
    exact (hs _).append (ht _)
  · have hroles : ∀ item ∈ s ++ t, item.role ≠ .immediate := by
      intro item hitem
      rcases mem_append.mp hitem with h | h
      · simp [hsr item h]
      · simp [htr item h]
    have hbefore : Tree.readAll .operand frames.labels t = [] := Tree.readAll_other htr (by decide)
    have hafter : Tree.readAll .branch (none :: frames.labels) s = [] := Tree.readAll_other hsr (by decide)
    rw [Tree.readAll_one hrole,Tree.read_group (role_resultTree result) hroles,if_neg (by decide),if_pos rfl,
      Tree.readAll_append,Tree.readAll_append,hbefore,hafter,hsc,append_nil,nil_append,map_append,
      map_append,map_cons,← htc]
    rfl

/-- Read in evaluation order, the lines of instructions are their stack code. -/
private theorem prints_flattenAll (h : flattenAll m.binaryIndices.toArray frames is = .ok code) :
    Prints m .operand frames (allLines m · is) code := by
  refine (flatten_induction (P := fun frames i code => Prints m .operand frames (i.lines m) code)
    (Q := fun frames is code => Prints m .operand frames (allLines m · is) code) (fun _ => ⟨[],fun _ => .nil,by simp,rfl⟩)
    .append (fun hi h => (says_operator hi).prints h) (fun h => ?_) (fun h => ?_) (fun h => h) (@fun _ result _ _ _ _ _ _ ht hy hn => ?_)).2 h
  · exact prints_frame (spells_result _ ((Spells.word (isWord_labelText _)).after "block" rfl (by decide)))
      (by decide) (role_resultTree _) rfl h
  · exact prints_frame ((Spells.word (isWord_labelText _)).after "loop" rfl (by decide)) (by decide) (by simp) rfl h
  · split
    · rename_i hno
      have h := prints_cond result ht (prints_then hy)
      simpa only [Instr.lines,if_pos hno,append_nil] using h
    · rename_i hno
      have h := prints_cond result ht ((prints_then hy).append (prints_else hn))
      simpa only [Instr.lines,if_neg hno,append_assoc,cons_append] using h

/-- The text of a function's instructions: what stands between its header with its locals and the end of the function. -/
def Module.instructionText (m : Module) (f : Func) : String := linesText (allLines m 2 f.body)

/-- Where the text of a function's instructions stands. -/
private theorem Module.wat_eq {f : Func} (hf : f ∈ m.funcs) (hdefined : f.host? = none) : ∃ before locals after,
    (∀ line ∈ locals, ∃ types, line = atLevel 2 ("(local " ++ types ++ ")")) ∧
      m.wat = before ++ linesText (atLevel 1 (m.funcHeader f) :: locals) ++ m.instructionText f
        ++ linesText [atLevel 1 ")"] ++ after := by
  obtain ⟨locals,hlocals,hlines⟩ : ∃ locals, (∀ line ∈ locals, ∃ types, line = atLevel 2 ("(local " ++ types ++ ")")) ∧
      m.funcLines f = atLevel 1 (m.funcHeader f) :: locals ++ allLines m 2 f.body ++ [atLevel 1 ")"] := by
    rw [Module.funcLines]
    split
    · exact ⟨[],by simp,rfl⟩
    · exact ⟨_,forall_mem_singleton.mpr ⟨_,rfl⟩,rfl⟩
  have hprinted : f ∈ m.printedFuncs :=
    mem_append_right _ (mem_filter.mpr ⟨Array.mem_toList_iff.mpr hf,by simp [hdefined]⟩)
  obtain ⟨fs,gs,hfs⟩ := append_of_mem hprinted
  refine ⟨linesText ("(module" :: m.typeLines ++ m.globals.toList.flatMap m.globalLines ++ fs.flatMap m.funcLines),locals,
    linesText (gs.flatMap m.funcLines ++ [")"]),hlocals,?_⟩
  rw [Module.instructionText,← linesText_append,← linesText_append,← linesText_append,← linesText_append]
  change linesText m.lines = _
  rw [Module.lines,hfs,flatMap_append,flatMap_cons,hlines]
  simp only [append_assoc,cons_append]

/-- The code of a defined function stands in the binary. -/
theorem Module.flatBody_of_encode {bytes : Bytes} (h : m.encode = .ok bytes) {f : Func} (hf : f ∈ m.funcs)
    (hdefined : f.host? = none) : ∃ code, m.flatBody f = .ok code ∧ code.flatMap FlatInstr.bytes ++ [0x0b] <:+: bytes := by
  obtain ⟨globals,_,h⟩ := except_bind_ok.mp h
  obtain ⟨entries,hentries,h⟩ := except_bind_ok.mp h
  cases h
  have hmem : f ∈ m.funcs.toList.filter (·.host?.isNone) :=
    mem_filter.mpr ⟨Array.mem_toList_iff.mpr hf,by simp [hdefined]⟩
  obtain ⟨entry,hmem,hentry⟩ := mem_map.mp (mapM_ok.mp hentries ▸ mem_map_of_mem hmem)
  obtain ⟨code,hcode,hentry⟩ := except_bind_ok.mp hentry.symm
  cases hentry
  have hlast : code.flatMap bytes ++ [0x0b] <:+: entries.flatten := by
    refine List.IsInfix.trans ?_ (infix_of_mem_flatten hmem)
    rw [append_assoc (vector _)]
    exact ((suffix_append _ _).trans (suffix_append _ _)).isInfix
  exact ⟨code,hcode,hlast.trans (((suffix_append _ _).trans (suffix_append _ _)).trans (suffix_append _ _)).isInfix⟩

/-- The text and the binary describe the same code: read in evaluation order, the folded instructions of a function are
the instructions that are emitted for it. -/
theorem Module.text_describes_binary {bytes : Bytes} (h : m.encode = .ok bytes) {f : Func} (hf : f ∈ m.funcs)
    (hdefined : f.host? = none) :
    (∃ before locals after, (∀ line ∈ locals, ∃ types, line = atLevel 2 ("(local " ++ types ++ ")")) ∧
      m.wat = before ++ linesText (atLevel 1 (m.funcHeader f) :: locals) ++ m.instructionText f
        ++ linesText [atLevel 1 ")"] ++ after) ∧
    ∃ code, (m.flatBody f = .ok code ∧ code.flatMap FlatInstr.bytes ++ [0x0b] <:+: bytes) ∧
      (treesOf (m.instructionText f)).flatMap (Tree.read []) = code.map (FlatInstr.reading m) := by
  obtain ⟨code,hcode,hbytes⟩ := Module.flatBody_of_encode h hf hdefined
  refine ⟨Module.wat_eq hf hdefined,code,⟨hcode,hbytes⟩,?_⟩
  obtain ⟨trees,hs,hr,hread⟩ := prints_flattenAll hcode
  rw [Module.instructionText,(hs 2).trees,← Tree.readAll_eq_flatMap hr]
  exact hread

private def countdown : Func where
  name := "count down"
  params := [.i32]
  result := some .i32
  body :=
    [.block ⟨1⟩ none [.loop ⟨2⟩ [.brIf ⟨1⟩ (.eqz .i32 (.localGet 0)),
      .localSet 0 (.binary .sub .i32 (.localGet 0) (.i32Const 1)),.br ⟨2⟩ none]],
      .cond (some .i32) (.localGet 0) [.call 1 [.i32Const (-1)]] [.localGet 0]]

private def counting : Module where
  funcs := #[countdown,{ name := "log", params := [.i32], result := some .i32, host? := some ⟨"env","log"⟩ }]

theorem Module.text_describes_binary_sample : ∃ bytes code, counting.encode = .ok bytes ∧ countdown ∈ counting.funcs ∧
    counting.flatBody countdown = .ok code ∧ code.length = 19 ∧
    (treesOf (counting.instructionText countdown)).flatMap (Tree.read []) = code.map (reading counting) := by
  obtain ⟨bytes,h⟩ : Succeeds counting.encode := .of_isOk (by decide +kernel)
  have hcode : (counting.flatBody countdown).toOption.map List.length = some 19 := by decide +kernel
  have hmem : countdown ∈ counting.funcs := by simp [counting]
  obtain ⟨_,code,⟨hflat,_⟩,hread⟩ := Module.text_describes_binary h hmem rfl
  rw [hflat] at hcode
  exact ⟨bytes,code,h,hmem,hflat,Option.some.inj hcode,hread⟩

end FormCompiler.Wasm
