import FormCompiler.Proofs.Results
import FormCompiler.Proofs.Wasm.Numbering

/-! The stack code of an instruction, case by case: the code of its operands and one instruction at the end, unless it
opens a frame. Code that names frames that are open and functions that are declared has a stack code. -/

namespace FormCompiler

open List

namespace Wasm

variable {last : Except Diagnostic FlatInstr} {operands is : List Instr} {indices : Array Nat} {frames : Frames}

/-- The operands of an instruction that opens no frame, and what comes after their code. -/
def Instr.operator? (indices : Array Nat) (frames : Frames) : Instr → Option (List Instr × Except Diagnostic FlatInstr)
  | .i32Const value => some ([], .ok (.i32Const value))
  | .i64Const value => some ([], .ok (.i64Const value))
  | .f32Const value => some ([], .ok (.f32Const value))
  | .f64Const value => some ([], .ok (.f64Const value))
  | .localGet index => some ([], .ok (.localGet index))
  | .localSet index value => some ([value], .ok (.localSet index))
  | .globalGet index => some ([], .ok (.globalGet index))
  | .binary op type left right =>
    some ([left,right], if op.isDefinedFor type then .ok (.binary op type)
      else .error (.rule .builtin (.undefinedOperator op.name type.title)))
  | .eqz type value =>
    some ([value], if type.isFloat then .error (.rule .builtin (.undefinedEqz type.title)) else .ok (.eqz type))
  | .call function args =>
    some (args, match indices[function]? with
      | some index => .ok (.call index)
      | none => .error (.rule .builtin (.undeclaredFunction function)))
  | .br label value => some (value.toList, do return .br (← frames.depth label))
  | .brIf label test => some ([test], do return .brIf (← frames.depth label))
  | .brTable targets default index =>
    some ([index], do return .brTable (← frames.depths targets) (← frames.depth default))
  | .ret value => some (value.toList, .ok .ret)
  | .drop value => some ([value], .ok .drop)
  | .unreachable => some ([], .ok .unreachable)
  | .structNew type fields => some (fields, .ok (.structNew type))
  | .structGet type field object => some ([object], .ok (.structGet type field))
  | .refCast type value => some ([value], .ok (.refCast type))
  | .arrayNewFixed type values => some (values, .ok (.arrayNewFixed type values.length))
  | .arrayNewDefault type length => some ([length], .ok (.arrayNewDefault type))
  | .arrayGet type array index => some ([array,index], .ok (.arrayGet type))
  | .arraySet type array index value => some ([array,index,value], .ok (.arraySet type))
  | .arrayLen array => some ([array], .ok .arrayLen)
  | .block .. | .loop .. | .cond .. | .seq .. => none

variable {i : Instr}

private theorem ok_bind {ε α β : Type} (a : α) (f : α → Except ε β) : (Except.ok a >>= f) = f a := rfl

/-- Operands come first, then the operator. -/
theorem Instr.flatten_operator (h : i.operator? indices frames = some (operands, last)) :
    i.flatten indices frames = do return (← flattenAll indices frames operands) ++ [← last] := by
  cases i with
  | br label value | ret value =>
    cases value <;> cases h <;>
      simp only [Instr.flatten,flattenAll,Option.toList,bind_assoc,pure_bind,ok_bind,append_nil,nil_append] <;>
      rfl
  | binary op type left right =>
    cases h
    simp only [Instr.flatten,flattenAll,bind_assoc,pure_bind,ok_bind,append_nil,append_assoc]
    split <;> rfl
  | eqz type value =>
    cases h
    simp only [Instr.flatten,flattenAll,bind_assoc,pure_bind,ok_bind,append_nil]
    split <;> rfl
  | call function args =>
    cases h
    cases hf : indices[function]? <;> simp only [Instr.flatten,hf] <;> rfl
  | block | loop | cond | seq => cases h
  | i32Const | i64Const | f32Const | f64Const | localGet | globalGet | unreachable =>
    cases h
    rfl
  | _ =>
    cases h
    simp only [Instr.flatten,flattenAll,bind_assoc,pure_bind,ok_bind,append_nil,append_assoc]

/-- The instruction opens no frame, and these are its operands. -/
def Instr.Takes (i : Instr) (operands : List Instr) : Prop :=
  ∀ indices frames, ∃ last, i.operator? indices frames = some (operands, last)

section Parts

variable {P : Instr → Prop} (operator : ∀ {i operands}, i.Takes operands → (∀ j ∈ operands, P j) → P i)
  (block : ∀ {label result body}, (∀ j ∈ body, P j) → P (.block label result body))
  (loop : ∀ {label body}, (∀ j ∈ body, P j) → P (.loop label body)) (seq : ∀ {body}, (∀ j ∈ body, P j) → P (.seq body))
  (cond : ∀ {result test yes no}, P test → (∀ j ∈ yes, P j) → (∀ j ∈ no, P j) → P (.cond result test yes no))
include operator block loop seq cond

/-- Induction over instructions: what holds of one if it holds of its parts. -/
theorem Instr.induction : ∀ i, P i
  | .block _ _ body => block fun j _ => Instr.induction j
  | .loop _ body => loop fun j _ => Instr.induction j
  | .seq body => seq fun j _ => Instr.induction j
  | .cond _ test yes no =>
    cond (Instr.induction test) (fun j _ => Instr.induction j) fun j _ => Instr.induction j
  | .i32Const _ | .i64Const _ | .f32Const _ | .f64Const _ | .localGet _ | .globalGet _ | .unreachable | .br _ none
  | .ret none => operator (fun _ _ => ⟨_,rfl⟩) (by simp)
  | .localSet _ value | .eqz _ value | .br _ (some value) | .brIf _ value | .brTable _ _ value | .ret (some value)
  | .drop value | .structGet _ _ value | .refCast _ value | .arrayNewDefault _ value | .arrayLen value =>
    operator (fun _ _ => ⟨_,rfl⟩) (by simpa using Instr.induction value)
  | .binary _ _ a b | .arrayGet _ a b =>
    operator (fun _ _ => ⟨_,rfl⟩) (by simpa using ⟨Instr.induction a,Instr.induction b⟩)
  | .arraySet _ a b d =>
    operator (fun _ _ => ⟨_,rfl⟩) (by simpa using ⟨Instr.induction a,Instr.induction b,Instr.induction d⟩)
  | .call _ parts | .structNew _ parts | .arrayNewFixed _ parts =>
    operator (fun _ _ => ⟨_,rfl⟩) fun j _ => Instr.induction j

end Parts

section Induction

variable {P : Frames → Instr → List FlatInstr → Prop} {Q : Frames → List Instr → List FlatInstr → Prop}
  (nil : ∀ frames, Q frames [] [])
  (cons : ∀ {frames i is code codes}, P frames i code → Q frames is codes → Q frames (i :: is) (code ++ codes))

include nil cons

private theorem flattenAll_each {codes : List FlatInstr}
    (hi : ∀ i ∈ is, ∀ code, i.flatten indices frames = .ok code → P frames i code)
    (h : flattenAll indices frames is = .ok codes) : Q frames is codes := by
  induction is generalizing codes with
  | nil =>
    cases h
    exact nil frames
  | cons i is ih =>
    obtain ⟨c,hc,h⟩ := except_bind_ok.mp h
    obtain ⟨d,hd,h⟩ := except_bind_ok.mp h
    cases h
    exact cons (hi i (by simp) c hc) (ih (fun j hj => hi j (by simp [hj])) hd)

/-- Induction over stack code: what holds of the code of instructions if it holds of that of their parts. -/
theorem flatten_induction
    (operator : ∀ {frames i operands code last}, i.operator? indices frames = some (operands, .ok last) →
      Q frames operands code → P frames i (code ++ [last]))
    (block : ∀ {frames label result body code}, Q (some label :: frames) body code →
      P frames (.block label result body) (.block result :: code ++ [.close]))
    (loop : ∀ {frames label body code}, Q (some label :: frames) body code →
      P frames (.loop label body) (.loop :: code ++ [.close]))
    (seq : ∀ {frames body code}, Q frames body code → P frames (.seq body) code)
    (cond : ∀ {frames result test yes no tested taken other}, P frames test tested → Q (none :: frames) yes taken →
      Q (none :: frames) no other → P frames (.cond result test yes no)
        (tested ++ .cond result :: taken ++ (if no.isEmpty then [] else .otherwise :: other) ++ [.close])) :
    (∀ {frames i code}, i.flatten indices frames = .ok code → P frames i code) ∧
      ∀ {frames is code}, flattenAll indices frames is = .ok code → Q frames is code := by
  have heach : ∀ i frames code, i.flatten indices frames = .ok code → P frames i code := by
    have hrow : ∀ {is frames code}, (∀ j ∈ is, ∀ frames code, j.flatten indices frames = .ok code → P frames j code) →
        flattenAll indices frames is = .ok code → Q frames is code := fun ih =>
      flattenAll_each nil cons fun j hj => ih j hj _
    refine Instr.induction ?_ ?_ ?_ ?_ ?_
    · intro i operands ho ih frames code h
      obtain ⟨last,ho⟩ := ho indices frames
      rw [Instr.flatten_operator ho] at h
      obtain ⟨c,hc,h⟩ := except_bind_ok.mp h
      obtain ⟨last,rfl,h⟩ := except_bind_ok.mp h
      cases h
      exact operator ho (hrow ih hc)
    · intro label result body ih frames code h
      obtain ⟨c,hc,h⟩ := except_bind_ok.mp h
      cases h
      exact block (hrow ih hc)
    · intro label body ih frames code h
      obtain ⟨c,hc,h⟩ := except_bind_ok.mp h
      cases h
      exact loop (hrow ih hc)
    · exact fun ih frames code h => seq (hrow ih h)
    · intro result test yes no htest hyes hno frames code h
      obtain ⟨tested,ht,h⟩ := except_bind_ok.mp h
      obtain ⟨taken,hy,h⟩ := except_bind_ok.mp h
      split at h
      · rename_i hempty
        cases h
        cases isEmpty_iff.mp hempty
        exact cond (htest _ _ ht) (hrow hyes hy) (nil _)
      · rename_i hempty
        obtain ⟨other,hother,h⟩ := except_bind_ok.mp h
        cases h
        have h : P frames (.cond result test yes no) _ := cond (htest _ _ ht) (hrow hyes hy) (hrow hno hother)
        simpa only [if_neg hempty] using h
  exact ⟨heach _ _ _,flattenAll_each nil cons fun i _ code => heach i _ code⟩

end Induction

/-! ### Code that refers to what is there -/

@[simp] def Instr.parts : Instr → List Instr
  | .localSet _ value | .eqz _ value | .br _ (some value) | .brIf _ value | .brTable _ _ value | .ret (some value)
  | .drop value | .structGet _ _ value | .refCast _ value | .arrayNewDefault _ value | .arrayLen value => [value]
  | .binary _ _ left right | .arrayGet _ left right => [left,right]
  | .arraySet _ array index value => [array,index,value]
  | .call _ parts | .structNew _ parts | .arrayNewFixed _ parts | .block _ _ parts | .loop _ parts | .seq parts => parts
  | .cond _ test yes no => test :: (yes ++ no)
  | _ => []

/-- The label of the frame that an instruction puts around its parts. -/
@[simp] def Instr.frameLabel : Instr → List LabelId
  | .block label _ _ | .loop label _ => [label]
  | _ => []

/-- Whether what an instruction refers to is there, its parts apart: its labels among these, its function among `n`, its
operator in the instruction set. -/
def Instr.isGrounded (n : Nat) (labels : List LabelId) : Instr → Bool
  | .br label _ | .brIf label _ => label ∈ labels
  | .brTable targets label _ => label ∈ labels ∧ ∀ target ∈ targets, target ∈ labels
  | .call function _ => function < n
  | .binary op type _ _ => op.isDefinedFor type
  | .eqz type _ => !type.isFloat
  | _ => true

/-- All branches in the instruction go to frames around them, down from frames of these labels, all calls to one of `n`
functions, and all operators are in the instruction set. -/
inductive Instr.Closed (n : Nat) : List LabelId → Instr → Prop
  | mk {labels i} : i.isGrounded n labels = true → (∀ j ∈ i.parts, Closed n (i.frameLabel ++ labels) j) →
      Closed n labels i

variable {n : Nat} {label : LabelId} {labels more : List LabelId}

theorem Frames.depth_succeeds (h : some label ∈ frames) : Succeeds (Frames.depth frames label) := by
  unfold Frames.depth
  split
  · exact ⟨_,rfl⟩
  · rename_i hn
    exact absurd (findIdx?_eq_none_iff.mp hn _ h) (by simp)

theorem Frames.depths_succeed {targets : List LabelId} (h : ∀ label ∈ targets, some label ∈ frames) :
    Succeeds (Frames.depths frames targets) := by
  induction targets with
  | nil => exact .pure []
  | cons label targets ih =>
    exact (Frames.depth_succeeds (h label (by simp))).bind fun _ => (ih fun l hl => h l (by simp [hl])).map

theorem flattenAll_succeeds (h : ∀ i ∈ is, Succeeds (i.flatten indices frames)) :
    Succeeds (flattenAll indices frames is) := by
  induction is with
  | nil =>
    exact ⟨[],rfl⟩
  | cons i is ih =>
    exact (h i (by simp)).bind fun _ => (ih fun j hj => h j (by simp [hj])).map

/-- What comes after the operands is there. -/
private theorem Instr.operator_of_isGrounded (hg : i.isGrounded n labels = true) (hn : n ≤ indices.size)
    (hl : ∀ label ∈ labels, some label ∈ frames)
    (h : i.operator? indices frames = some (operands, last)) : i.parts = operands ∧ i.frameLabel = [] ∧ Succeeds last := by
  cases i with
  | br label value =>
    have hdepth := Frames.depth_succeeds (hl label (of_decide_eq_true hg))
    cases value <;> cases h <;> exact ⟨rfl,rfl,hdepth.map⟩
  | brIf label test =>
    cases h
    exact ⟨rfl,rfl,(Frames.depth_succeeds (hl label (of_decide_eq_true hg))).map⟩
  | brTable targets label index =>
    cases h
    obtain ⟨hlabel,htargets⟩ := of_decide_eq_true hg
    exact ⟨rfl,rfl,(Frames.depths_succeed fun l ht => hl l (htargets l ht)).bind fun _ =>
      (Frames.depth_succeeds (hl label hlabel)).map⟩
  | call function args =>
    cases h
    rw [Array.getElem?_eq_getElem (Nat.lt_of_lt_of_le (of_decide_eq_true hg) hn)]
    exact ⟨rfl,rfl,_,rfl⟩
  | binary op type left right =>
    cases h
    rw [if_pos (show op.isDefinedFor type = true from hg)]
    exact ⟨rfl,rfl,_,rfl⟩
  | eqz type value =>
    cases h
    rw [if_neg (by simpa [isGrounded] using hg)]
    exact ⟨rfl,rfl,_,rfl⟩
  | ret value => cases value <;> cases h <;> exact ⟨rfl,rfl,_,rfl⟩
  | _ =>
    cases h
    try exact ⟨rfl,rfl,_,rfl⟩

namespace Instr.Closed

variable {result : Option ValueType}

/-- Frames may be added. -/
theorem mono (h : i.Closed n labels) (hl : ∀ label ∈ labels, label ∈ more) : i.Closed n more := by
  induction h generalizing more with
  | @mk labels i hg _ ih =>
    refine .mk ?_ fun j hj => ih j hj fun l hl' => ?_
    · cases i <;> simp_all [isGrounded]
    · exact (mem_append.mp hl').elim (fun h => mem_append_left _ h) fun h => mem_append_right _ (hl l h)

/-- Code that leaves no frame can stand anywhere. -/
theorem widen (h : i.Closed n []) : i.Closed n labels := h.mono (by simp)

theorem binary {op : BinOp} {type : NumType} {left right : Instr} (hop : op.isDefinedFor type = true)
    (hl : left.Closed n labels) (hr : right.Closed n labels) : (Instr.binary op type left right).Closed n labels :=
  .mk hop (by simp [hl,hr])

theorem cond {no : List Instr} (ht : i.Closed n labels) (hy : ∀ i ∈ is, i.Closed n labels)
    (hno : ∀ i ∈ no, i.Closed n labels) : (Instr.cond result i is no).Closed n labels :=
  .mk rfl (forall_mem_cons.mpr ⟨ht,forall_mem_append.mpr ⟨hy,hno⟩⟩)

theorem block (h : ∀ i ∈ is, i.Closed n (label :: labels)) : (Instr.block label result is).Closed n labels := .mk rfl h

theorem loop (h : ∀ i ∈ is, i.Closed n (label :: labels)) : (Instr.loop label is).Closed n labels := .mk rfl h

theorem seq (h : ∀ i ∈ is, i.Closed n labels) : (Instr.seq is).Closed n labels := .mk rfl h

/-- Such an instruction has stack code wherever there are so many functions and frames of these labels. -/
theorem succeeds (h : i.Closed n labels) (hn : n ≤ indices.size) (hl : ∀ label ∈ labels, some label ∈ frames) :
    Succeeds (i.flatten indices frames) := by
  induction h generalizing frames with
  | @mk labels i hg _ ih =>
  have hall : ∀ {is frames}, (∀ j ∈ is, j ∈ i.parts) → (∀ label ∈ i.frameLabel ++ labels, some label ∈ frames) →
      Succeeds (flattenAll indices frames is) := fun his hf => flattenAll_succeeds fun j hj => ih j (his j hj) hf
  have hinner : ∀ {name}, ∀ label ∈ labels, some label ∈ name :: frames := fun l hl' => mem_cons_of_mem _ (hl l hl')
  cases ho : i.operator? indices frames with
  | some x =>
    obtain ⟨operands,last⟩ := x
    obtain ⟨hparts,hframe,hlast⟩ := operator_of_isGrounded hg hn hl ho
    rw [Instr.flatten_operator ho]
    exact (hall (hparts ▸ fun _ => id) (by rwa [hframe])).bind fun _ => hlast.map
  | none =>
    cases i with
    | block label _ body | loop label body =>
      exact (hall (fun _ => id) (forall_mem_cons.mpr ⟨mem_cons_self,hinner⟩)).map
    | seq body =>
      exact hall (fun _ => id) hl
    | cond result test yes no =>
      refine (ih test (by simp) hl).bind fun _ => (hall (fun j hj => by simp [hj]) hinner).bind fun _ => ?_
      split
      · exact .pure _
      · exact (hall (fun j hj => by simp [hj]) hinner).bind fun _ => .pure _
    | _ => cases ho

end Instr.Closed

/-- A module has a binary form if its initialisers and bodies have stack code. -/
theorem Module.encode_succeeds {m : Module} (hf : ∀ f ∈ m.funcs, ∀ i ∈ f.body, i.Closed m.funcs.size [])
    (hg : ∀ g ∈ m.globals, g.init.Closed m.funcs.size []) : Succeeds m.encode := by
  have hsize : m.funcs.size ≤ m.binaryIndices.toArray.size := by simp [Module.length_binaryIndices]
  refine (Succeeds.mapM fun g hmem => ?_).bind fun _ => (Succeeds.mapM fun f hmem => ?_).bind fun _ => .pure _
  · exact ((hg g (Array.mem_toList_iff.mp hmem)).succeeds hsize (by simp)).map
  · have hmem : f ∈ m.funcs := Array.mem_toList_iff.mp (mem_filter.mp hmem).1
    exact (flattenAll_succeeds fun i hi => (hf f hmem i hi).succeeds hsize (by simp)).bind fun _ => .pure _

end Wasm

end FormCompiler
