import FormCompiler.Proofs.Wasm.Flattening
import FormCompiler.Proofs.Wasm.Typing

/-! Validation of stack code, instruction by instruction. It is stricter than it need be: a branch leaves
no value behind, and nothing follows it. Code whose folded form has types is valid. -/

namespace FormCompiler.Wasm

open FlatInstr List

variable {result : Option ValueType} {stack founds wanteds : List ValueType} {t : ValueType} {labels : Frames}
  {m : Module} {depth : Nat} {i : FlatInstr} {e : Ending}

def Module.binaryFuncs (m : Module) : List Func :=
  m.funcs.toList.filter (·.host?.isSome) ++ m.funcs.toList.filter (·.host?.isNone)

/-- A block, loop, branch of a conditional or function that is not closed yet. -/
structure OpenFrame where
  /-- What a branch to it carries. -/
  carries : Option ValueType
  /-- What it ends with. -/
  result : Option ValueType
  /-- Whether it is the first branch of a conditional. -/
  isFirst : Bool := false
  /-- The types of the values in it, last first. -/
  stack : List ValueType := []
  /-- Whether its end cannot be reached. -/
  isDead : Bool := false
  deriving DecidableEq, Inhabited

namespace OpenFrame

def isComplete (m : Module) (frame : OpenFrame) : Bool :=
  frame.isDead || allFit m frame.stack frame.result.toList

def leave (frame : OpenFrame) : OpenFrame := { frame with stack := [], isDead := true }

end OpenFrame

/-- Takes operands off the stack, the last one first. -/
def pop (m : Module) : List ValueType → List ValueType → Option (List ValueType)
  | [], stack => some stack
  | wanted :: wanteds, found :: stack => if found.fits m wanted then pop m wanteds stack else none
  | _ :: _, [] => none

/-- Operands and result of instructions for which they are fixed. -/
def FlatInstr.effect? (c : Context) : FlatInstr → Option (List ValueType × Option ValueType)
  | .i32Const _ => some ([], some .i32)
  | .i64Const _ => some ([], some .i64)
  | .f32Const _ => some ([], some .f32)
  | .f64Const _ => some ([], some .f64)
  | .localGet index => do return ([], some (← c.locals[index]?))
  | .localSet index => do return ([← c.locals[index]?], none)
  | .globalGet index => do return ([], some (← c.module.globals[index]?).type)
  | .binary op type =>
    if op.isDefinedFor type then
      some ([type.valueType,type.valueType], some (op.resultType type))
    else none
  | .eqz type => if type.isFloat then none else some ([type.valueType], some .i32)
  | .call function => do
    let f ← c.module.binaryFuncs[function]?
    return (f.params, f.result)
  | .structNew type => do
    let d ← c.module.struct? type
    return (d.fields.map (·.type), some (.ref type))
  | .structGet type field => do
    let d ← c.module.struct? type
    return ([.ref type], some (← d.fields[field]?).type)
  | .arrayNewFixed type length => do
    let d ← c.module.array? type
    return (List.replicate length d.element, some (.ref type))
  | .arrayNewDefault type => do
    let _ ← c.module.array? type
    return ([.i32], some (.ref type))
  | .arrayGet type => do
    let d ← c.module.array? type
    return ([.ref type,.i32], some d.element)
  | .arraySet type => do
    let d ← c.module.array? type
    if d.mutable then return ([.ref type,.i32,d.element], none) else none
  | _ => none

/-- Whether a branch to the frame at a depth takes all values with it. `outer` are the frames around the
one that holds the branch and `stack` is what that one holds. -/
def branches (m : Module) (frame : OpenFrame) (outer : List OpenFrame) (stack : List ValueType) (depth : Nat) : Bool :=
  match (frame :: outer)[depth]? with
  | some target =>
    allFit m stack target.carries.toList && (outer.take depth).all (·.stack.isEmpty)
  | none => false

def carriedTo (frames : List OpenFrame) (depth : Nat) : Option (Option ValueType) :=
  (frames[depth]?).map (·.carries)

def FlatInstr.step (c : Context) (i : FlatInstr) (frame : OpenFrame) (outer : List OpenFrame) :
    Option (List OpenFrame) :=
  match i with
  | .otherwise =>
    if frame.isFirst && frame.isComplete c.module then
      some ({ frame with isFirst := false, stack := [], isDead := false } :: outer)
    else none
  | .close =>
    if frame.isComplete c.module && (!frame.isFirst || frame.result = none) then
      match outer with
      | around :: rest => some ({ around with stack := frame.result.toList ++ around.stack } :: rest)
      | [] => none
    else none
  | i =>
    if frame.isDead then none
    else
      match i with
      | .block result =>
        if result.all (·.isKnown c.module) then some (⟨result,result,false,[],false⟩ :: frame :: outer) else none
      | .loop => some (⟨none,none,false,[],false⟩ :: frame :: outer)
      | .cond result => do
        let stack ← pop c.module [.i32] frame.stack
        if result.all (·.isKnown c.module) then some (⟨result,result,true,[],false⟩ :: { frame with stack } :: outer)
        else none
      | .br depth =>
        if branches c.module frame outer frame.stack depth then some (frame.leave :: outer) else none
      | .brIf depth => do
        let stack ← pop c.module [.i32] frame.stack
        if branches c.module frame outer stack depth then some ({ frame with stack } :: outer) else none
      | .brTable depths default => do
        let stack ← pop c.module [.i32] frame.stack
        -- all targets are branched to with the same values
        if (default :: depths).all fun depth => branches c.module frame outer stack depth
            && carriedTo (frame :: outer) depth = carriedTo (frame :: outer) default then
          some (frame.leave :: outer)
        else none
      | .ret =>
        if branches c.module frame outer frame.stack outer.length then some (frame.leave :: outer)
        else none
      | .unreachable => some (frame.leave :: outer)
      | .drop =>
        match frame.stack with
        | _ :: stack => some ({ frame with stack } :: outer)
        | [] => none
      | .refCast type =>
        match frame.stack with
        | .ref _ :: stack =>
          if type < c.module.types.size then some ({ frame with stack := .ref type :: stack } :: outer)
          else none
        | _ => none
      | .arrayLen =>
        match frame.stack with
        | .ref type :: stack =>
          if (c.module.array? type).isSome then some ({ frame with stack := .i32 :: stack } :: outer)
          else none
        | _ => none
      | i => do
        let (operands, result) ← i.effect? c
        let stack ← pop c.module operands.reverse frame.stack
        return { frame with stack := result.toList ++ stack } :: outer

def validate (c : Context) : List FlatInstr → List OpenFrame → Option (List OpenFrame)
  | [], frames => some frames
  | _ :: _, [] => none
  | i :: is, frame :: outer => do validate c is (← i.step c frame outer)

/-! ### Lemmas on validation -/

variable {c : Context} {frame top : OpenFrame} {outer : List OpenFrame}

private theorem validate_append (is js : List FlatInstr) (frames : List OpenFrame) :
    validate c (is ++ js) frames = (validate c is frames).bind (validate c js) := by
  induction is generalizing frames with
  | nil => simp [validate]
  | cons i is ih =>
    cases frames with
    | nil => simp [validate]
    | cons frame outer =>
      simp only [cons_append,validate]
      cases i.step c frame outer with
      | none => rfl
      | some frames => simpa using ih frames

private theorem validate_one (i : FlatInstr) : validate c [i] (frame :: outer) = i.step c frame outer := by
  simp only [validate]
  cases i.step c frame outer <;> rfl

private theorem pop_allFit (h : allFit m founds wanteds = true) : pop m wanteds (founds ++ stack) = some stack := by
  induction founds generalizing wanteds with
  | nil => cases wanteds <;> simp_all [allFit,pop]
  | cons found founds ih =>
    cases wanteds with
    | nil => simp [allFit] at h
    | cons wanted wanteds =>
      simp only [allFit,Bool.and_eq_true] at h
      simp only [cons_append,pop,h.1,if_true]
      exact ih h.2

private theorem allFit_append {a b a' b' : List ValueType} (h : allFit m a b = true)
    (h' : allFit m a' b' = true) : allFit m (a ++ a') (b ++ b') = true := by
  induction a generalizing b with
  | nil => cases b <;> simp_all [allFit]
  | cons x a ih =>
    cases b with
    | nil => simp [allFit] at h
    | cons y b =>
      simp only [allFit,Bool.and_eq_true] at h
      simp [allFit,h.1,ih h.2]

private theorem allFit_reverse (h : allFit m founds wanteds = true) :
    allFit m founds.reverse wanteds.reverse = true := by
  induction founds generalizing wanteds with
  | nil => cases wanteds <;> simp_all [allFit]
  | cons found founds ih =>
    cases wanteds with
    | nil => simp [allFit] at h
    | cons wanted wanteds =>
      simp only [allFit,Bool.and_eq_true] at h
      simp only [reverse_cons]
      exact allFit_append (ih h.2) (by simp [allFit,h.1])

/-- An instruction with a fixed effect on a stack that holds its operands. -/
private theorem step_effect {operands : List ValueType} (he : i.effect? c = some (operands, result))
    (hfit : allFit c.module founds operands = true) (halive : frame.isDead = false)
    (hstack : frame.stack = founds.reverse ++ stack) :
    i.step c frame outer = some ({ frame with stack := result.toList ++ stack } :: outer) := by
  have hpop : pop c.module operands.reverse frame.stack = some stack := by
    rw [hstack]
    exact pop_allFit (allFit_reverse hfit)
  cases i <;> first
    | (simp only [effect?] at he; cases he; done)
    | (simp only [step,halive]; simp [he,hpop])

def OpenFrame.after (frame : OpenFrame) : Ending → OpenFrame
  | .next value => { frame with stack := value.toList ++ frame.stack }
  | .never => frame.leave

/-- The exits of folded code and the frames around its flat form agree. Where there are exits, no value
waits below. -/
structure Agrees (x : Exits) (labels : Frames) (frame : OpenFrame) (outer : List OpenFrame) : Prop where
  alive : frame.isDead = false
  bare : x ≠ {} → frame.stack = []
  labels : ∀ label carried, x.labels.lookup label = some carried →
    ∃ depth, labels.findIdx? (· == some label) = some depth ∧
      carriedTo (frame :: outer) depth = some carried ∧ (outer.take depth).all (·.stack.isEmpty) = true
  result : ∀ result, x.result = some result →
    carriedTo (frame :: outer) outer.length = some result ∧ outer.all (·.stack.isEmpty) = true

namespace Agrees

variable {label : LabelId} {x : Exits} {carried : Option ValueType}

/-- Operands see no exits. -/
theorem operand (h : Agrees x labels frame outer) : Agrees {} labels frame outer :=
  ⟨h.alive,fun hx => absurd rfl hx,fun _ _ hl => (nomatch hl),fun _ hr => (nomatch hr)⟩

theorem push (h : Agrees {} labels frame outer) (stack : List ValueType) :
    Agrees {} labels { frame with stack } outer :=
  ⟨h.alive,fun hx => absurd rfl hx,fun _ _ hl => (nomatch hl),fun _ hr => (nomatch hr)⟩

section

variable (h : Agrees x labels frame outer)
include h

/-- A label is found past one more frame, unless that one has it. -/
private theorem outward
    (hl : x.labels.lookup label = some carried) {name : Option LabelId} (hn : name ≠ some label) (inner : OpenFrame) :
    ∃ depth, (name :: labels).findIdx? (· == some label) = some depth ∧
      carriedTo (inner :: frame :: outer) depth = some carried ∧
      ((frame :: outer).take depth).all (·.stack.isEmpty) = true := by
  obtain ⟨depth,hd,hc,he⟩ := h.labels label carried hl
  have hs : frame.stack = [] := h.bare (by rintro rfl; cases hl)
  exact ⟨depth + 1,by simp [findIdx?_cons,hn,hd],hc,by simp [hs,he]⟩

private theorem outermost (hr : x.result = some result)
    (inner : OpenFrame) : carriedTo (inner :: frame :: outer) (frame :: outer).length = some result ∧
      (frame :: outer).all (·.stack.isEmpty) = true := by
  obtain ⟨hc,he⟩ := h.result result hr
  have hs : frame.stack = [] := h.bare (by rintro rfl; cases hr)
  exact ⟨hc,by simp [hs,he]⟩

/-- Going into a frame without a name of its own. -/
theorem enter (result : Option ValueType) (isFirst : Bool) :
    Agrees x (none :: labels) ⟨result,result,isFirst,[],false⟩ (frame :: outer) where
  alive := rfl
  bare _ := rfl
  labels _ _ hl := h.outward hl (by simp) _
  result _ hr := h.outermost hr _

/-- Going into a frame that can be branched to. -/
theorem enterLabel (label : LabelId) (carried result : Option ValueType) :
    Agrees (x.add label carried) (some label :: labels) ⟨carried,result,false,[],false⟩ (frame :: outer) where
  alive := rfl
  bare _ := rfl
  labels l t hl := by
    simp only [Exits.add,lookup_cons] at hl
    by_cases he : l = label
    · subst he
      simp only [BEq.rfl,Option.some.injEq] at hl
      exact ⟨0,by simp [findIdx?_cons],by simp [carriedTo,hl],by simp⟩
    · simp only [beq_eq_false_iff_ne.mpr he] at hl
      exact h.outward hl (by simpa using Ne.symm he) _
  result _ hr := h.outermost hr _

end

/-- A branch from the frame `top`, the innermost one with other values in it. -/
private theorem branches_of_carriedTo (hc : carriedTo (frame :: outer) depth = some carried)
    (hfit : allFit m stack carried.toList = true) (htop : top.carries = frame.carries)
    (hempty : (outer.take depth).all (·.stack.isEmpty) = true) :
    Wasm.branches m top outer stack depth = true ∧ carriedTo (top :: outer) depth = some carried := by
  have hc' : carriedTo (top :: outer) depth = some carried := by
    cases depth <;> simpa [carriedTo,htop] using hc
  refine ⟨?_,hc'⟩
  simp only [carriedTo,Option.map_eq_some_iff] at hc'
  obtain ⟨target,ht,rfl⟩ := hc'
  simp [Wasm.branches,ht,hfit,hempty]

theorem branches (h : Agrees x labels frame outer) (hl : x.labels.lookup label = some carried)
    (hfit : allFit m stack carried.toList = true) (htop : top.carries = frame.carries) :
    ∃ depth, labels.depth label = .ok depth ∧ Wasm.branches m top outer stack depth = true ∧
      carriedTo (top :: outer) depth = some carried := by
  obtain ⟨depth,hd,hc,hempty⟩ := h.labels label carried hl
  exact ⟨depth,by simp [Frames.depth,hd],branches_of_carriedTo hc hfit htop hempty⟩

/-- Leaving the function from there. -/
theorem returns (h : Agrees x labels frame outer) (hr : x.result = some result)
    (hfit : allFit m stack result.toList = true)
    (htop : top.carries = frame.carries) : Wasm.branches m top outer stack outer.length = true := by
  obtain ⟨hc,hempty⟩ := h.result result hr
  exact (branches_of_carriedTo hc hfit htop (by rwa [take_length])).1

end Agrees

private theorem resultFits_iff {found wanted : Option ValueType} :
    resultFits m found wanted = allFit m found.toList wanted.toList := by
  cases found <;> cases wanted <;> simp [resultFits,allFit]

private theorem isComplete_after (hs : frame.stack = []) (halive : frame.isDead = false) :
    (frame.after e).isComplete m = e.fits m frame.result := by
  cases e with
  | next value => simp [OpenFrame.after,OpenFrame.isComplete,halive,hs,Ending.fits,resultFits_iff]
  | never => simp [OpenFrame.after,OpenFrame.isComplete,OpenFrame.leave,Ending.fits]

/-- The flat form of folded code takes frames to frames. -/
private def Valid (c : Context) (flat : Except Diagnostic (List FlatInstr)) (frames after : List OpenFrame) : Prop :=
  ∃ code, flat = .ok code ∧ validate c code frames = some after

private theorem validate_then {code : List FlatInstr} {frames after : List OpenFrame}
    (hcode : validate c code frames = some (frame :: outer)) (hi : i.step c frame outer = some after) :
    validate c (code ++ [i]) frames = some after := by
  rw [validate_append,hcode]
  exact (validate_one i).trans hi

/-! ### The numbers of functions -/

theorem Module.binaryFuncs_eq : m.binaryFuncs = m.arranged.map (·.2) := by
  rw [Module.binaryFuncs,← Module.map_numbered,filter_map,filter_map,← map_append]
  rfl

/-- Each function stands at its number. -/
theorem Module.binaryFuncs_get {index : Nat} {g : Func} (hg : m.funcs[index]? = some g) :
    ∃ number, m.binaryIndices.toArray[index]? = some number ∧ m.binaryFuncs[number]? = some g := by
  have hlt : index < m.binaryIndices.length := by
    rw [Module.length_binaryIndices]
    exact (Array.getElem?_eq_some_iff.mp hg).1
  have hn := getElem?_eq_getElem hlt
  refine ⟨_,by rw [getElem?_toArray]; exact hn,?_⟩
  rw [Module.binaryFuncs_eq,getElem?_map,Module.arranged_get hg hn]
  rfl

/-! ### Folded code with types is valid -/

variable {x : Exits}

private theorem depths_ok {targets : List LabelId} (m : Module)
    (h : Agrees x labels frame outer) (hall : ∀ label ∈ targets, x.labels.lookup label = some none)
    (htop : top.carries = frame.carries) : ∃ depths, labels.depths targets = .ok depths ∧
      ∀ depth ∈ depths, branches m top outer [] depth = true ∧ carriedTo (top :: outer) depth = some none := by
  induction targets with
  | nil => exact ⟨[],rfl,by simp⟩
  | cons label targets ih =>
    obtain ⟨depths,hds,hrest⟩ := ih fun l hl => hall l (.tail _ hl)
    obtain ⟨depth,hdepth,hb⟩ := h.branches (hall label (.head _)) (show allFit m [] [] = true from rfl) htop
    refine ⟨depth :: depths,by simp only [Frames.depths,hdepth,hds]; rfl,?_⟩
    intro d hd
    rcases mem_cons.mp hd with rfl | hd
    · exact hb
    · exact hrest d hd

private theorem validate_both {a b : List FlatInstr} {frames middle after : List OpenFrame}
    (ha : validate c a frames = some middle) (hb : validate c b middle = some after) :
    validate c (a ++ b) frames = some after := by
  rw [validate_append,ha]
  exact hb

private theorem allFit_replicate (h : ∀ found ∈ founds, found.fits m t = true) :
    allFit m founds (List.replicate founds.length t) = true := by
  induction founds with
  | nil => rfl
  | cons found founds ih =>
    simp only [length_cons,replicate_succ,allFit,Bool.and_eq_true]
    exact ⟨h found (.head _),ih fun t ht => h t (.tail _ ht)⟩

/-- Closing a frame whose code ends with its result. -/
private theorem step_closing {inner : OpenFrame} (hm : c.module = m) (hs : inner.stack = [])
    (halive : inner.isDead = false) (hfirst : inner.isFirst = false ∨ inner.result = none)
    (he : e.fits m inner.result = true) : close.step c (inner.after e) (frame :: outer) =
      some (frame.after (.next inner.result) :: outer) := by
  subst hm
  have hdone : (inner.after e).isComplete c.module = true := (isComplete_after hs halive).trans he
  have hresult : (inner.after e).result = inner.result := by cases e <;> rfl
  have hisFirst : (inner.after e).isFirst = inner.isFirst := by cases e <;> rfl
  simp only [step,hdone,hresult,hisFirst]
  rcases hfirst with h | h <;> simp [h,OpenFrame.after]

private theorem step_cond (halive : frame.isDead = false) (hknown : result.all (·.isKnown c.module) = true) :
    (cond result).step c (frame.after (.next (some .i32))) outer =
      some (⟨result,result,true,[],false⟩ :: frame :: outer) := by
  obtain ⟨_,_,_,_,isDead⟩ := frame
  cases (show isDead = false from halive)
  exact if_pos hknown

private theorem step_brIf (halive : frame.isDead = false) (hs : frame.stack = [])
    (hb : branches c.module (frame.after (.next (some .i32))) outer [] depth = true) :
    (brIf depth).step c (frame.after (.next (some .i32))) outer = some (frame :: outer) := by
  obtain ⟨_,_,_,stack,isDead⟩ := frame
  cases (show isDead = false from halive)
  cases (show stack = [] from hs)
  exact if_pos hb

private theorem step_brTable {depths : List Nat} {default : Nat} (halive : frame.isDead = false) (hs : frame.stack = [])
    (hall : ∀ depth ∈ default :: depths, branches c.module (frame.after (.next (some .i32))) outer [] depth = true ∧
        carriedTo (frame.after (.next (some .i32)) :: outer) depth = some none) :
    (brTable depths default).step c (frame.after (.next (some .i32))) outer = some (frame.leave :: outer) := by
  obtain ⟨_,_,_,stack,isDead⟩ := frame
  cases (show isDead = false from halive)
  cases (show stack = [] from hs)
  refine if_pos (all_eq_true.mpr fun depth hd => ?_)
  have hsame := (hall depth hd).2.trans (hall default (.head _)).2.symm
  exact Bool.and_eq_true_iff.mpr ⟨(hall depth hd).1,decide_eq_true hsame⟩

/-- What comes after the operands takes their values and goes on as the types say. -/
private def Operates (c : Context) (operator : Option (List Instr × Except Diagnostic FlatInstr)) (frame : OpenFrame)
    (outer : List OpenFrame) (e : Ending) : Prop :=
  ∃ operands founds last, operator = some (operands, .ok last) ∧ operands? c operands = some founds ∧
    last.step c { frame with stack := founds.reverse ++ frame.stack } outer = some (frame.after e :: outer)

private theorem Operates.of_effect {operator : Option (List Instr × Except Diagnostic FlatInstr)}
    {operands : List Instr} (hi : operator = some (operands, .ok i))
    (ha : Agrees x labels frame outer) (ho : operands? c operands = some founds)
    (he : i.effect? c = some (wanteds, result)) (hfit : allFit c.module founds wanteds = true) :
    Operates c operator frame outer (.next result) :=
  ⟨operands,founds,i,hi,ho,step_effect he hfit ha.alive rfl⟩

private theorem operands?_one {j : Instr} (h : j.Gives c t) : operands? c [j] = some [t] :=
  operands?_cons.mpr ⟨t,h,[],rfl,rfl⟩

private theorem operates {j : Instr} {operands : List Instr} (ht : j.Takes operands) (h : j.ending? c x = some e)
    (ha : Agrees x labels frame outer) :
    Operates c (j.operator? c.module.binaryIndices.toArray labels) frame outer e := by
  cases j with
  | block | loop | cond | seq =>
    obtain ⟨_,ht⟩ := ht #[] []
    cases ht
  | i32Const | i64Const | f32Const | f64Const =>
    simp only [Instr.ending?,Option.some.injEq] at h
    subst h
    exact .of_effect rfl ha rfl rfl rfl
  | localGet index =>
    obtain ⟨t,ht,rfl⟩ := ending?_localGet.mp h
    exact .of_effect rfl ha rfl (by simp [effect?,ht]; rfl) rfl
  | globalGet index =>
    obtain ⟨g,hg,rfl⟩ := ending?_globalGet.mp h
    exact .of_effect rfl ha rfl (by simp [effect?,hg]; rfl) rfl
  | localSet index value =>
    obtain ⟨wanted,hw,found,hv,hfit,rfl⟩ := ending?_localSet.mp h
    exact .of_effect rfl ha (operands?_one hv) (by simp [effect?,hw]; rfl) (by simp [allFit,hfit])
  | binary op type left right =>
    obtain ⟨hop,hl,hr,rfl⟩ := ending?_binary.mp h
    exact .of_effect (by rw [Instr.operator?,if_pos hop]) ha (operands?_cons.mpr ⟨_,hl,_,operands?_one hr,rfl⟩)
      (by simp [effect?,hop]; rfl) (by simp [allFit,ValueType.fits_refl])
  | eqz type value =>
    obtain ⟨hfloat,hv,rfl⟩ := ending?_eqz.mp h
    exact .of_effect (by simp [Instr.operator?,hfloat]; rfl) ha (operands?_one hv)
      (by simp [effect?,hfloat]; rfl) (by simp [allFit,ValueType.fits_refl])
  | call function args =>
    obtain ⟨f,hf,founds,hargs,hfit,rfl⟩ := ending?_call.mp h
    obtain ⟨number,hn,hnf⟩ := Module.binaryFuncs_get hf
    exact .of_effect (by rw [Instr.operator?,hn]) ha hargs (by simp [effect?,hnf]) hfit
  | br label value =>
    obtain ⟨carried,founds,hl,ho,hfit,rfl⟩ : ∃ carried founds, x.labels.lookup label = some carried ∧
        operands? c value.toList = some founds ∧ allFit c.module founds.reverse carried.toList = true ∧ e = .never := by
      cases value with
      | none =>
        obtain ⟨hl,rfl⟩ := ending?_br_none.mp h
        exact ⟨none,[],hl,rfl,rfl,rfl⟩
      | some value =>
        obtain ⟨wanted,hl,found,hv,hfit,rfl⟩ := ending?_br_some.mp h
        exact ⟨some wanted,[found],hl,operands?_one hv,by simp [allFit,hfit],rfl⟩
    have hs : frame.stack = [] := ha.bare (by rintro rfl; cases hl)
    have htop : { frame with stack := founds.reverse ++ frame.stack }.carries = frame.carries := rfl
    obtain ⟨depth,hd,hb,_⟩ := ha.branches hl hfit htop
    refine ⟨_,founds,.br depth,by rw [Instr.operator?,hd]; rfl,ho,?_⟩
    simpa [step,ha.alive,hs,OpenFrame.after,OpenFrame.leave] using hb
  | brIf label test =>
    obtain ⟨ht,hl,rfl⟩ := ending?_brIf.mp h
    have hs : frame.stack = [] := ha.bare (by rintro rfl; cases hl)
    have htop : (frame.after (.next (some .i32))).carries = frame.carries := rfl
    obtain ⟨depth,hd,hb,_⟩ := ha.branches hl (show allFit c.module [] [] = true from rfl) htop
    exact ⟨_,[.i32],.brIf depth,by rw [Instr.operator?,hd]; rfl,operands?_one ht,step_brIf ha.alive hs hb⟩
  | brTable targets default index =>
    obtain ⟨hi,hall,hl,rfl⟩ := ending?_brTable.mp h
    have hs : frame.stack = [] := ha.bare (by rintro rfl; cases hl)
    have htop : (frame.after (.next (some .i32))).carries = frame.carries := rfl
    obtain ⟨depths,hds,hbs⟩ := depths_ok c.module ha hall htop
    obtain ⟨depth,hd,hb⟩ := ha.branches hl (show allFit c.module [] [] = true from rfl) htop
    refine ⟨_,[.i32],.brTable depths depth,by rw [Instr.operator?,hds,hd]; rfl,operands?_one hi,
      step_brTable ha.alive hs fun d hd' => ?_⟩
    rcases mem_cons.mp hd' with rfl | hd'
    · exact hb
    · exact hbs d hd'
  | ret value =>
    obtain ⟨result,founds,hr,ho,hfit,rfl⟩ : ∃ result founds, x.result = some result ∧
        operands? c value.toList = some founds ∧ allFit c.module founds.reverse result.toList = true ∧ e = .never := by
      cases value with
      | none =>
        obtain ⟨hr,rfl⟩ := ending?_ret_none.mp h
        exact ⟨none,[],hr,rfl,rfl,rfl⟩
      | some value =>
        obtain ⟨wanted,hr,found,hv,hfit,rfl⟩ := ending?_ret_some.mp h
        exact ⟨some wanted,[found],hr,operands?_one hv,by simp [allFit,hfit],rfl⟩
    have hs : frame.stack = [] := ha.bare (by rintro rfl; cases hr)
    have htop : { frame with stack := founds.reverse ++ frame.stack }.carries = frame.carries := rfl
    have hb := ha.returns hr hfit htop
    refine ⟨_,founds,.ret,rfl,ho,?_⟩
    simpa [step,ha.alive,hs,OpenFrame.after,OpenFrame.leave] using hb
  | drop value =>
    obtain ⟨t,hv,rfl⟩ := ending?_drop.mp h
    exact ⟨_,[t],.drop,rfl,operands?_one hv,by simp [step,OpenFrame.after,ha.alive]⟩
  | unreachable =>
    simp only [Instr.ending?,Option.some.injEq] at h
    subst h
    exact ⟨_,[],.unreachable,rfl,rfl,by simp [step,ha.alive]; rfl⟩
  | structNew type fields =>
    obtain ⟨d,hd,founds,hfields,hfit,rfl⟩ := ending?_structNew.mp h
    exact .of_effect rfl ha hfields (by simp [effect?,hd]) hfit
  | structGet type field object =>
    obtain ⟨d,hd,f,hf,found,hv,hfit,rfl⟩ := ending?_structGet.mp h
    exact .of_effect rfl ha (operands?_one hv) (by simp [effect?,hd,hf]; rfl) (by simp [allFit,hfit])
  | refCast type value =>
    obtain ⟨found,hv,hlt,rfl⟩ := ending?_refCast.mp h
    exact ⟨_,[.ref found],.refCast type,rfl,operands?_one hv,by simp [step,OpenFrame.after,ha.alive,hlt]⟩
  | arrayNewFixed type values =>
    obtain ⟨d,hd,founds,hvalues,hfit,rfl⟩ := ending?_arrayNewFixed.mp h
    exact .of_effect rfl ha hvalues (by simp [effect?,hd]) (operands?_length hvalues ▸ allFit_replicate hfit)
  | arrayNewDefault type length =>
    obtain ⟨d,hd,hv,rfl⟩ := ending?_arrayNewDefault.mp h
    exact .of_effect rfl ha (operands?_one hv) (by simp [effect?,hd]; rfl) rfl
  | arrayGet type array index =>
    obtain ⟨d,hd,⟨found,harray,hfit⟩,hindex,rfl⟩ := ending?_arrayGet.mp h
    exact .of_effect rfl ha (operands?_cons.mpr ⟨_,harray,_,operands?_one hindex,rfl⟩)
      (by simp [effect?,hd]; rfl) (by simp [allFit,hfit,ValueType.fits_refl])
  | arraySet type array index value =>
    obtain ⟨d,hd,hmut,⟨found,harray,hfit⟩,hindex,⟨t,hv,hfitv⟩,rfl⟩ := ending?_arraySet.mp h
    have hrest := operands?_cons.mpr ⟨_,hindex,_,operands?_one hv,rfl⟩
    exact .of_effect rfl ha (operands?_cons.mpr ⟨_,harray,_,hrest,rfl⟩)
      (by simp [effect?,hd,hmut]; rfl) (by simp [allFit,hfit,hfitv,ValueType.fits_refl])
  | arrayLen array =>
    obtain ⟨found,d,hv,hd,rfl⟩ := ending?_arrayLen.mp h
    exact ⟨_,[.ref found],.arrayLen,rfl,operands?_one hv,by simp [step,OpenFrame.after,ha.alive,hd]⟩

private def Checks (c : Context) (j : Instr) : Prop :=
  ∀ ⦃x e labels frame outer⦄, j.ending? c x = some e → Agrees x labels frame outer →
    Valid c (j.flatten c.module.binaryIndices.toArray labels) (frame :: outer) (frame.after e :: outer)

variable {is : List Instr}

private theorem checks_all (hc : ∀ j ∈ is, Checks c j) (h : endings? c x is = some e)
    (ha : Agrees x labels frame outer) :
    Valid c (flattenAll c.module.binaryIndices.toArray labels is) (frame :: outer) (frame.after e :: outer) := by
  induction is with
  | nil =>
    cases h
    exact ⟨[],rfl,rfl⟩
  | cons j is ih =>
    rcases endings?_cons.mp h with ⟨rfl,hj⟩ | ⟨_,hj,his⟩
    · obtain ⟨code,hcode,hv⟩ := hc j (.head _) hj ha
      exact ⟨code ++ [],by rw [flattenAll,hcode]; rfl,by rwa [append_nil]⟩
    · obtain ⟨code,hcode,hv⟩ := hc j (.head _) hj ha
      obtain ⟨rest,hrest,hvs⟩ := ih (fun k hk => hc k (.tail _ hk)) his
      exact ⟨code ++ rest,by rw [flattenAll,hcode,hrest]; rfl,validate_both hv hvs⟩

/-- The flat form of operands leaves their values. -/
private theorem checks_operands (hc : ∀ j ∈ is, Checks c j) (h : operands? c is = some founds)
    (ha : Agrees {} labels frame outer) : Valid c (flattenAll c.module.binaryIndices.toArray labels is) (frame :: outer)
      ({ frame with stack := founds.reverse ++ frame.stack } :: outer) := by
  induction is generalizing founds frame with
  | nil =>
    cases h
    exact ⟨[],rfl,rfl⟩
  | cons j is ih =>
    obtain ⟨t,hj,rest,his,rfl⟩ := operands?_cons.mp h
    obtain ⟨code,hcode,hv⟩ := hc j (.head _) hj ha
    obtain ⟨codes,hcodes,hvs⟩ := ih (fun k hk => hc k (.tail _ hk)) his (ha.push _)
    refine ⟨code ++ codes,by rw [flattenAll,hcode,hcodes]; rfl,validate_both hv ?_⟩
    rw [reverse_cons,append_assoc]
    exact hvs

private theorem checks_cond {test : Instr} {yes no : List Instr} (hct : Checks c test) (hcy : ∀ j ∈ yes, Checks c j)
    (hcn : ∀ j ∈ no, Checks c j) : Checks c (.cond result test yes no) := by
  intro x e labels frame outer h ha
  obtain ⟨htest,⟨ey,hyes,hfity⟩,⟨en,hno,hfitn⟩,hknown,rfl⟩ := ending?_cond.mp h
  obtain ⟨t,ht,hcodet⟩ := hct htest ha.operand
  obtain ⟨y,hy,hcodey⟩ := checks_all hcy hyes (ha.enter result true)
  have hopen : validate c (t ++ [.cond result]) (frame :: outer) =
      some (⟨result,result,true,[],false⟩ :: frame :: outer) :=
    validate_then hcodet (step_cond ha.alive hknown)
  have hfirst := validate_both hopen hcodey
  by_cases hempty : no = []
  · subst hempty
    cases hno
    have hresult : result = none := by cases result <;> simp_all [Ending.fits,resultFits]
    refine ⟨t ++ .cond result :: y ++ [] ++ [.close],by rw [Instr.flatten,ht,hy]; rfl,?_⟩
    simpa using validate_then hfirst (step_closing rfl rfl rfl (.inr hresult) hfity)
  · obtain ⟨n,hn,hcoden⟩ := checks_all hcn hno (ha.enter result false)
    have halt : otherwise.step c (OpenFrame.after ⟨result,result,true,[],false⟩ ey)
        (frame :: outer) = some (⟨result,result,false,[],false⟩ :: frame :: outer) := by
      have hdone : (OpenFrame.after ⟨result,result,true,[],false⟩ ey).isComplete c.module = true :=
        (isComplete_after rfl rfl).trans hfity
      simp only [step,hdone]
      cases ey <;> rfl
    refine ⟨t ++ .cond result :: y ++ (.otherwise :: n) ++ [.close],?_,?_⟩
    · rw [Instr.flatten,ht,hy,hn]
      simp [hempty]
      rfl
    · have hboth := validate_both (validate_then hfirst halt) hcoden
      simpa using validate_then hboth (step_closing rfl rfl rfl (.inl rfl) hfitn)

private theorem checks (c : Context) : ∀ j, Checks c j := by
  refine Instr.induction ?_ ?_ ?_ ?_ checks_cond
  · intro j operands ht ih x e labels frame outer h ha
    obtain ⟨_,founds,last,ho,hfounds,hstep⟩ := operates ht h ha
    obtain ⟨_,ht⟩ := ht c.module.binaryIndices.toArray labels
    cases ho.symm.trans ht
    obtain ⟨code,hcode,hv⟩ := checks_operands ih hfounds ha.operand
    exact ⟨code ++ [last],by rw [Instr.flatten_operator ho,hcode]; rfl,validate_then hv hstep⟩
  · intro label result body ih x e labels frame outer h ha
    obtain ⟨⟨e',hbody,hfit⟩,hknown,rfl⟩ := ending?_block.mp h
    obtain ⟨code,hcode,hv⟩ := checks_all ih hbody (ha.enterLabel label result result)
    refine ⟨.block result :: code ++ [.close],by rw [Instr.flatten,hcode]; rfl,?_⟩
    refine validate_then (validate_both (a := [_]) ?_ hv) (step_closing rfl rfl rfl (.inl rfl) hfit)
    rw [validate_one,step]
    simp [ha.alive,hknown]
  · intro label body ih x e labels frame outer h ha
    obtain ⟨⟨e',hbody,hfit⟩,rfl⟩ := ending?_loop.mp h
    obtain ⟨code,hcode,hv⟩ := checks_all ih hbody (ha.enterLabel label none none)
    refine ⟨.loop :: code ++ [.close],by rw [Instr.flatten,hcode]; rfl,?_⟩
    refine validate_then (validate_both (a := [_]) ?_ hv) (step_closing rfl rfl rfl (.inl rfl) hfit)
    simp [validate_one,step,ha.alive]
  · intro body ih x e labels frame outer h ha
    exact checks_all ih h ha

/-! ### Modules -/

/-- A struct continues the fields of its supertype, which has a smaller number. -/
def StructDef.isValid (m : Module) (index : Nat) (d : StructDef) : Bool :=
  d.fields.all (·.type.isKnown m) &&
    match d.supertype with
    | none => true
    | some sup =>
      sup < index &&
        match m.struct? sup with
        | some e => e.fields.isPrefixOf d.fields
        | none => false

def TypeDef.isValid (m : Module) (index : Nat) : TypeDef → Bool
  | .struct d => d.isValid m index
  | .array d => d.element.isKnown m

/-- Stack code that starts with nothing and ends with a result. -/
def isValidCode (c : Context) (result : Option ValueType) (code : List FlatInstr) : Bool :=
  match validate c code [⟨result,result,false,[],false⟩] with
  | some [frame] => frame.isComplete c.module
  | _ => false

/-- The code that stands in the binary for a function gives its result. Functions of the host have none. -/
def Func.isValid (m : Module) (f : Func) : Bool :=
  (f.params ++ f.result.toList).all (·.isKnown m) && (f.host?.isSome || f.locals.all (·.isKnown m) &&
      match m.flatBody f with
      | .ok code => isValidCode ⟨m,f.params ++ f.locals⟩ f.result code
      | .error _ => false)

def Global.isValid (m : Module) (g : Global) : Bool :=
  g.type.isKnown m &&
    match m.flatGlobal g with
    | .ok code => isValidCode ⟨m,[]⟩ (some g.type) code
    | .error _ => false

def Module.isValid (m : Module) : Bool :=
  (m.types.toList.zipIdx.all fun (d, index) => d.isValid m index) &&
    m.globals.toList.all (·.isValid m) && m.funcs.toList.all (·.isValid m)

theorem Func.typed_of_endings? {f : Func} (hf : e.fits m f.result = true)
    (h : endings? ⟨m,f.params ++ f.locals⟩ { result := some f.result } f.body = some e) :
    f.typed m = true := by
  unfold Func.typed
  rw [h]
  exact hf

/-- The types of a function are types of the module and its body gives its result. -/
structure Func.WellTyped (m : Module) (f : Func) : Prop where
  signature : ∀ t ∈ f.params ++ f.result.toList, t.isKnown m = true
  locals : f.host? = none → ∀ t ∈ f.locals, t.isKnown m = true
  body : f.host? = none → f.typed m = true

/-- A body with types gives valid code. -/
theorem Func.WellTyped.isValid {f : Func} (h : f.WellTyped m) : f.isValid m = true := by
  simp only [Func.isValid,Bool.and_eq_true,all_eq_true]
  refine ⟨h.signature,?_⟩
  cases hhost : f.host? with
  | some source => rfl
  | none =>
    have hlocals := h.locals hhost
    have ht := h.body hhost
    simp only [Option.isSome_none,Bool.false_or,Bool.and_eq_true,all_eq_true]
    refine ⟨hlocals,?_⟩
    unfold Func.typed at ht
    cases he : endings? ⟨m,f.params ++ f.locals⟩ { result := some f.result } f.body with
    | none => simp [he] at ht
    | some e =>
      simp only [he] at ht
      have ha : Agrees { result := some f.result } [] ⟨f.result,f.result,false,[],false⟩ [] :=
        ⟨rfl,fun _ => rfl,by simp,fun r hr => by cases hr; simp [carriedTo]⟩
      obtain ⟨code,hc,hcode⟩ := checks_all (fun j _ => checks _ j) he ha
      rw [Module.flatBody,hc]
      simp only [isValidCode,hcode]
      exact (isComplete_after rfl rfl).trans ht

theorem Global.isValid_of_typed {g : Global} (hknown : g.type.isKnown m = true)
    (htyped : g.init.Gives ⟨m,[]⟩ g.type) : g.isValid m = true := by
  have ha : Agrees {} [] ⟨some g.type,some g.type,false,[],false⟩ [] :=
    ⟨rfl,fun _ => rfl,fun _ _ hl => (nomatch hl),fun _ hr => (nomatch hr)⟩
  obtain ⟨code,hc,hcode⟩ := checks _ _ htyped ha
  simp only [Global.isValid,hknown,Module.flatGlobal,hc,isValidCode,hcode,Bool.true_and]
  refine (isComplete_after rfl rfl).trans ?_
  exact ValueType.fits_refl m g.type

end FormCompiler.Wasm
