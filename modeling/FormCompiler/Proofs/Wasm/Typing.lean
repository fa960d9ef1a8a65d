import FormCompiler.Proofs.Wasm.Subtyping
import FormCompiler.Wasm.Flat

/-! Types of folded code. The operands of an instruction are checked on their own, so that no branch leaves
them; branches stand between whole instructions. -/

namespace FormCompiler.Wasm

open Instr

/-- How code ends: it goes on with a value or none, or it never gets there. -/
inductive Ending where
  | next (value : Option ValueType)
  | never
  deriving DecidableEq, Inhabited

namespace Ending

/-- The value an operand leaves. -/
def value? : Ending → Option ValueType
  | next value => value
  | never => none

/-- Whether code that ends so can stand where a result is expected. -/
def fits (m : Module) (result : Option ValueType) : Ending → Bool
  | next value => resultFits m value result
  | never => true

end Ending

/-- Where code can leave to: labels with what a branch to them carries, and the end of the function with
its result. -/
structure Exits where
  labels : List (LabelId × Option ValueType) := []
  result : Option (Option ValueType) := none
  deriving DecidableEq, Inhabited

namespace Exits

def add (x : Exits) (label : LabelId) (carried : Option ValueType) : Exits :=
  { x with labels := (label, carried) :: x.labels }

/-- Whether a branch that carries nothing can go to the label. -/
def accepts (x : Exits) (label : LabelId) : Bool := x.labels.lookup label = some none

end Exits

/-- What code refers to. -/
structure Context where
  module : Module
  locals : List ValueType

variable {e : Ending} {x : Exits} {c : Context} {is : List Instr}

def NumType.valueType : NumType → ValueType
  | .i32 => .i32
  | .i64 => .i64
  | .f32 => .f32
  | .f64 => .f64

def BinOp.resultType (op : BinOp) (type : NumType) : ValueType :=
  if op.isComparison then .i32 else type.valueType

mutual

/-- How an instruction ends, if its operands have the types it expects. -/
def Instr.ending? (c : Context) (x : Exits) : Instr → Option Ending
  | .i32Const _ => some (.next (some .i32))
  | .i64Const _ => some (.next (some .i64))
  | .f32Const _ => some (.next (some .f32))
  | .f64Const _ => some (.next (some .f64))
  | .localGet index => do return .next (some (← c.locals[index]?))
  | .localSet index value => do
    let wanted ← c.locals[index]?
    let found ← (value.ending? c {}).bind Ending.value?
    if found.fits c.module wanted then some (.next none) else none
  | .globalGet index => do return .next (some (← c.module.globals[index]?).type)
  | .binary op type left right => do
    let left ← (left.ending? c {}).bind Ending.value?
    let right ← (right.ending? c {}).bind Ending.value?
    if op.isDefinedFor type && left = type.valueType && right = type.valueType then
      some (.next (some (op.resultType type)))
    else none
  | .eqz type value => do
    let found ← (value.ending? c {}).bind Ending.value?
    if !type.isFloat && found = type.valueType then some (.next (some .i32)) else none
  | .call function args => do
    let f ← c.module.funcs[function]?
    let founds ← operands? c args
    if allFit c.module founds f.params then some (.next f.result) else none
  | .block label result body => do
    let ending ← endings? c (x.add label result) body
    if ending.fits c.module result && result.all (·.isKnown c.module) then some (.next result) else none
  | .loop label body => do
    let ending ← endings? c (x.add label none) body
    if ending.fits c.module none then some (.next none) else none
  | .cond result test yes no => do
    let found ← (test.ending? c {}).bind Ending.value?
    let yes ← endings? c x yes
    let no ← endings? c x no
    if found = .i32 && yes.fits c.module result && no.fits c.module result && result.all (·.isKnown c.module) then
      some (.next result)
    else none
  | .br label none => if x.accepts label then some .never else none
  | .br label (some value) => do
    let wanted ← (x.labels.lookup label).join
    let found ← (value.ending? c {}).bind Ending.value?
    if found.fits c.module wanted then some .never else none
  | .brIf label test => do
    let found ← (test.ending? c {}).bind Ending.value?
    if found = .i32 && x.accepts label then some (.next none) else none
  | .brTable targets default index => do
    let found ← (index.ending? c {}).bind Ending.value?
    if found = .i32 && targets.all x.accepts && x.accepts default then some .never else none
  | .ret none => if x.result = some none then some .never else none
  | .ret (some value) => do
    let wanted ← x.result.join
    let found ← (value.ending? c {}).bind Ending.value?
    if found.fits c.module wanted then some .never else none
  | .drop value => do
    let _ ← (value.ending? c {}).bind Ending.value?
    return .next none
  | .seq body => endings? c x body
  | .unreachable => some .never
  | .structNew type fields => do
    let d ← c.module.struct? type
    let founds ← operands? c fields
    if allFit c.module founds (d.fields.map (·.type)) then some (.next (some (.ref type))) else none
  | .structGet type field object => do
    let d ← c.module.struct? type
    let f ← d.fields[field]?
    let found ← (object.ending? c {}).bind Ending.value?
    if found.fits c.module (.ref type) then some (.next (some f.type)) else none
  | .refCast type value => do
    let found ← (value.ending? c {}).bind Ending.value?
    match found with
    | .ref _ => if type < c.module.types.size then some (.next (some (.ref type))) else none
    | _ => none
  | .arrayNewFixed type values => do
    let d ← c.module.array? type
    let founds ← operands? c values
    if founds.all (·.fits c.module d.element) then some (.next (some (.ref type))) else none
  | .arrayNewDefault type length => do
    let _ ← c.module.array? type
    let found ← (length.ending? c {}).bind Ending.value?
    if found = .i32 then some (.next (some (.ref type))) else none
  | .arrayGet type array index => do
    let d ← c.module.array? type
    let array ← (array.ending? c {}).bind Ending.value?
    let index ← (index.ending? c {}).bind Ending.value?
    if array.fits c.module (.ref type) && index = .i32 then some (.next (some d.element)) else none
  | .arraySet type array index value => do
    let d ← c.module.array? type
    let array ← (array.ending? c {}).bind Ending.value?
    let index ← (index.ending? c {}).bind Ending.value?
    let value ← (value.ending? c {}).bind Ending.value?
    if d.mutable && array.fits c.module (.ref type) && index = .i32
        && value.fits c.module d.element then some (.next none)
    else none
  | .arrayLen array => do
    let found ← (array.ending? c {}).bind Ending.value?
    match found with
    | .ref type => if (c.module.array? type).isSome then some (.next (some .i32)) else none
    | _ => none

/-- How instructions one after another end. Only the last one leaves a value. -/
def endings? (c : Context) (x : Exits) : List Instr → Option Ending
  | [] => some (.next none)
  | i :: is => do
    let ending ← i.ending? c x
    if is.isEmpty then some ending
    else if ending = .next none then endings? c x is else none

def operands? (c : Context) : List Instr → Option (List ValueType)
  | [] => some []
  | i :: is => do
    let found ← (i.ending? c {}).bind Ending.value?
    return found :: (← operands? c is)

end

theorem endings?_cons {i : Instr} : endings? c x (i :: is) = some e ↔ is = [] ∧ i.ending? c x = some e ∨
      is ≠ [] ∧ i.ending? c x = some (.next none) ∧ endings? c x is = some e := by
  rw [endings?]
  cases i.ending? c x with
  | none => simp
  | some ending =>
    cases is with
    | nil => simp
    | cons j js => simp

structure Exits.Le (x y : Exits) : Prop where
  labels : ∀ label carried, x.labels.lookup label = some carried → y.labels.lookup label = some carried
  result : ∀ result, x.result = some result → y.result = some result

namespace Exits.Le

variable {y : Exits}

theorem add (h : x.Le y) (label : LabelId) (carried : Option ValueType) :
    (x.add label carried).Le (y.add label carried) where
  labels l t hl := by
    simp only [Exits.add,List.lookup_cons] at hl ⊢
    split at hl
    · exact hl
    · exact h.labels l t hl
  result := h.result

theorem empty (x : Exits) : Exits.Le {} x := ⟨fun _ _ h => (nomatch h),fun _ h => (nomatch h)⟩

end Exits.Le

theorem Ending.value?_eq_some {t : ValueType} : e.value? = some t ↔ e = .next (some t) := by
  cases e <;> simp [Ending.value?]

abbrev Instr.Gives (c : Context) (i : Instr) (t : ValueType) : Prop := i.ending? c {} = some (.next (some t))

/-! ### One rule for each instruction -/

section Rules

variable {result : Option ValueType} {ts : List ValueType} {body : List Instr} {num : NumType}
  {test value index array : Instr} {label : LabelId} {type : Nat}

attribute [local simp] ending? Option.bind_eq_some_iff Option.join_eq_some_iff Ending.value?_eq_some Exits.accepts

theorem ending?_localGet {index : Nat} : (localGet index).ending? c x = some e ↔
      ∃ t, c.locals[index]? = some t ∧ e = .next (some t) := by
  simp [@eq_comm _ e]

theorem ending?_localSet {index : Nat} :
    (localSet index value).ending? c x = some e ↔ ∃ wanted, c.locals[index]? = some wanted ∧
      ∃ found, value.Gives c found ∧ found.fits c.module wanted = true ∧ e = .next none := by
  simp [@eq_comm _ e]

theorem ending?_globalGet {index : Nat} : (globalGet index).ending? c x = some e ↔
      ∃ g, c.module.globals[index]? = some g ∧ e = .next (some g.type) := by
  simp [@eq_comm _ e]

theorem ending?_binary {op : BinOp} {left right : Instr} :
    (binary op num left right).ending? c x = some e ↔ op.isDefinedFor num = true ∧
      left.Gives c num.valueType ∧ right.Gives c num.valueType ∧ e = .next (some (op.resultType num)) := by
  simp [@eq_comm _ e]
  grind

theorem ending?_eqz : (eqz num value).ending? c x = some e ↔ num.isFloat = false ∧ value.Gives c num.valueType ∧
      e = .next (some .i32) := by
  simp [@eq_comm _ e]
  grind

theorem ending?_call {function : Nat} {args : List Instr} :
    (call function args).ending? c x = some e ↔ ∃ f, c.module.funcs[function]? = some f ∧
      ∃ founds, operands? c args = some founds ∧ allFit c.module founds f.params = true ∧
      e = .next f.result := by
  simp [@eq_comm _ e]

theorem ending?_block : (block label result body).ending? c x = some e ↔
      (∃ e', endings? c (x.add label result) body = some e' ∧ e'.fits c.module result = true) ∧
      result.all (·.isKnown c.module) = true ∧ e = .next result := by
  simp [@eq_comm _ e]
  grind

theorem ending?_loop : (loop label body).ending? c x = some e ↔
      (∃ e', endings? c (x.add label none) body = some e' ∧ e'.fits c.module none = true) ∧
      e = .next none := by
  simp [@eq_comm _ e]
  grind

theorem ending?_cond {yes no : List Instr} : (cond result test yes no).ending? c x = some e ↔ test.Gives c .i32 ∧
      (∃ e', endings? c x yes = some e' ∧ e'.fits c.module result = true) ∧
      (∃ e', endings? c x no = some e' ∧ e'.fits c.module result = true) ∧
      result.all (·.isKnown c.module) = true ∧ e = .next result := by
  simp [@eq_comm _ e]
  grind

theorem ending?_br_none : (br label none).ending? c x = some e ↔ x.labels.lookup label = some none ∧ e = .never := by
  simp [@eq_comm _ e]

theorem ending?_br_some : (br label (some value)).ending? c x = some e ↔
      ∃ wanted, x.labels.lookup label = some (some wanted) ∧
      ∃ found, value.Gives c found ∧ found.fits c.module wanted = true ∧ e = .never := by
  simp [@eq_comm _ e]

theorem ending?_brIf : (brIf label test).ending? c x = some e ↔ test.Gives c .i32 ∧
      x.labels.lookup label = some none ∧ e = .next none := by
  simp only [ending?,Option.bind_eq_bind,Option.bind_eq_some_iff,Ending.value?_eq_some,Exits.accepts]
  grind

theorem ending?_brTable {targets : List LabelId} {default : LabelId} :
    (brTable targets default index).ending? c x = some e ↔ index.Gives c .i32 ∧
      (∀ target ∈ targets, x.labels.lookup target = some none) ∧
      x.labels.lookup default = some none ∧ e = .never := by
  simp [@eq_comm _ e]
  grind

theorem ending?_ret_none : (ret none).ending? c x = some e ↔ x.result = some none ∧ e = .never := by
  simp [@eq_comm _ e]

theorem ending?_ret_some : (ret (some value)).ending? c x = some e ↔ ∃ wanted, x.result = some (some wanted) ∧
      ∃ found, value.Gives c found ∧ found.fits c.module wanted = true ∧ e = .never := by
  simp [@eq_comm _ e]

theorem ending?_drop : (drop value).ending? c x = some e ↔ ∃ t, value.Gives c t ∧ e = .next none := by
  simp [@eq_comm _ e]

theorem ending?_structNew {fields : List Instr} :
    (structNew type fields).ending? c x = some e ↔ ∃ d, c.module.struct? type = some d ∧
      ∃ founds, operands? c fields = some founds ∧
        allFit c.module founds (d.fields.map (·.type)) = true ∧ e = .next (some (.ref type)) := by
  simp [@eq_comm _ e]

theorem ending?_structGet {field : Nat} {object : Instr} :
    (structGet type field object).ending? c x = some e ↔ ∃ d, c.module.struct? type = some d ∧
      ∃ f, d.fields[field]? = some f ∧ ∃ found, object.Gives c found ∧
        found.fits c.module (.ref type) = true ∧ e = .next (some f.type) := by
  simp [@eq_comm _ e]

theorem ending?_refCast : (refCast type value).ending? c x = some e ↔ ∃ found, value.Gives c (.ref found) ∧
      type < c.module.types.size ∧ e = .next (some (.ref type)) := by
  simp [@eq_comm _ e]
  grind

theorem ending?_arrayNewFixed {values : List Instr} :
    (arrayNewFixed type values).ending? c x = some e ↔ ∃ d, c.module.array? type = some d ∧
      ∃ founds, operands? c values = some founds ∧ (∀ t ∈ founds, t.fits c.module d.element = true) ∧
        e = .next (some (.ref type)) := by
  simp [@eq_comm _ e]

theorem ending?_arrayNewDefault {length : Instr} :
    (arrayNewDefault type length).ending? c x = some e ↔ ∃ d, c.module.array? type = some d ∧
      length.Gives c .i32 ∧ e = .next (some (.ref type)) := by
  simp only [ending?,Option.bind_eq_bind,Option.bind_eq_some_iff,Ending.value?_eq_some]
  grind

theorem ending?_arrayGet : (arrayGet type array index).ending? c x = some e ↔ ∃ d, c.module.array? type = some d ∧
      (∃ found, array.Gives c found ∧ found.fits c.module (.ref type) = true) ∧ index.Gives c .i32 ∧
      e = .next (some d.element) := by
  simp [@eq_comm _ e]
  grind

theorem ending?_arraySet : (arraySet type array index value).ending? c x = some e ↔ ∃ d, c.module.array? type = some d ∧
      d.mutable = true ∧ (∃ found, array.Gives c found ∧ found.fits c.module (.ref type) = true) ∧
      index.Gives c .i32 ∧ (∃ found, value.Gives c found ∧ found.fits c.module d.element = true) ∧
      e = .next none := by
  simp [@eq_comm _ e]
  grind

theorem ending?_arrayLen : (arrayLen array).ending? c x = some e ↔ ∃ found d, array.Gives c (.ref found) ∧
      c.module.array? found = some d ∧ e = .next (some .i32) := by
  simp only [ending?,Option.bind_eq_bind,Option.bind_eq_some_iff,Ending.value?_eq_some]
  constructor
  · rintro ⟨found,⟨_,hf,rfl⟩,h⟩
    cases found with
    | ref type =>
      obtain ⟨hs,h⟩ := Option.ite_none_right_eq_some.mp h
      obtain ⟨d,hd⟩ := Option.isSome_iff_exists.mp hs
      exact ⟨type,d,hf,hd,(Option.some.inj h).symm⟩
    | _ => cases h
  · rintro ⟨type,d,hf,hd,rfl⟩
    exact ⟨_,⟨_,hf,rfl⟩,by simp [hd]⟩

mutual

/-- Code that needs few exits can stand where there are more. -/
theorem Instr.ending?_mono : ∀ {i : Instr} {x y : Exits} {e : Ending}, x.Le y →
    i.ending? c x = some e → i.ending? c y = some e
  | .block label result body, x, y, e, hle, h => by
    obtain ⟨⟨e',hb,hfit⟩,he⟩ := ending?_block.mp h
    exact ending?_block.mpr ⟨⟨e',endings?_mono (hle.add label result) hb,hfit⟩,he⟩
  | .loop label body, x, y, e, hle, h => by
    obtain ⟨⟨e',hb,hfit⟩,he⟩ := ending?_loop.mp h
    exact ending?_loop.mpr ⟨⟨e',endings?_mono (hle.add label none) hb,hfit⟩,he⟩
  | .cond result test yes no, x, y, e, hle, h => by
    obtain ⟨ht,⟨ey,hy,hfy⟩,⟨en,hn,hfn⟩,he⟩ := ending?_cond.mp h
    exact ending?_cond.mpr ⟨ht,⟨ey,endings?_mono hle hy,hfy⟩,⟨en,endings?_mono hle hn,hfn⟩,he⟩
  | .seq body, x, y, e, hle, h => by
    exact endings?_mono hle h
  | .br label none, x, y, e, hle, h => ending?_br_none.mpr ((ending?_br_none.mp h).imp_left (hle.labels label none))
  | .br label (some value), x, y, e, hle, h => by
    obtain ⟨wanted,hl,h⟩ := ending?_br_some.mp h
    exact ending?_br_some.mpr ⟨wanted,hle.labels label _ hl,h⟩
  | .brIf label test, x, y, e, hle, h => by
    obtain ⟨ht,hl,he⟩ := ending?_brIf.mp h
    exact ending?_brIf.mpr ⟨ht,hle.labels label none hl,he⟩
  | .brTable targets default index, x, y, e, hle, h => by
    obtain ⟨hi,ht,hd,he⟩ := ending?_brTable.mp h
    exact ending?_brTable.mpr ⟨hi,fun l hl => hle.labels l none (ht l hl),hle.labels default none hd,he⟩
  | .ret none, x, y, e, hle, h => ending?_ret_none.mpr ((ending?_ret_none.mp h).imp_left (hle.result none))
  | .ret (some value), x, y, e, hle, h => by
    obtain ⟨wanted,hr,h⟩ := ending?_ret_some.mp h
    exact ending?_ret_some.mpr ⟨wanted,hle.result _ hr,h⟩
  | .i32Const _, _, _, _, _, h | .i64Const _, _, _, _, _, h | .f32Const _, _, _, _, _, h
  | .f64Const _, _, _, _, _, h | .localGet _, _, _, _, _, h | .localSet _ _, _, _, _, _, h
  | .globalGet _, _, _, _, _, h | .binary _ _ _ _, _, _, _, _, h | .eqz _ _, _, _, _, _, h
  | .call _ _, _, _, _, _, h | .drop _, _, _, _, _, h | .unreachable, _, _, _, _, h
  | .structNew _ _, _, _, _, _, h | .structGet _ _ _, _, _, _, _, h | .refCast _ _, _, _, _, _, h
  | .arrayNewFixed _ _, _, _, _, _, h | .arrayNewDefault _ _, _, _, _, _, h
  | .arrayGet _ _ _, _, _, _, _, h | .arraySet _ _ _ _, _, _, _, _, h | .arrayLen _, _, _, _, _, h => by
    exact h

theorem endings?_mono : ∀ {is : List Instr} {x y : Exits} {e : Ending}, x.Le y →
    endings? c x is = some e → endings? c y is = some e
  | [], _, _, _, _, h => h
  | i :: is, x, y, e, hle, h => by
    rw [endings?_cons] at h ⊢
    rcases h with ⟨hlast,hi⟩ | ⟨hmore,hi,his⟩
    · exact .inl ⟨hlast,Instr.ending?_mono hle hi⟩
    · exact .inr ⟨hmore,Instr.ending?_mono hle hi,endings?_mono hle his⟩

end

theorem operands?_cons {i : Instr} :
    operands? c (i :: is) = some ts ↔ ∃ t, i.Gives c t ∧ ∃ rest, operands? c is = some rest ∧ ts = t :: rest := by
  simp [operands?,Option.bind_eq_some_iff,Ending.value?_eq_some,@eq_comm _ ts]

theorem operands?_length (h : operands? c is = some ts) : ts.length = is.length := by
  induction is generalizing ts with
  | nil =>
    cases h
    rfl
  | cons i is ih =>
    obtain ⟨t,_,rest,hrest,rfl⟩ := operands?_cons.mp h
    simp [ih hrest]

end Rules

def Func.typed (m : Module) (f : Func) : Bool :=
  match endings? ⟨m,f.params ++ f.locals⟩ { result := some f.result } f.body with
  | some ending => ending.fits m f.result
  | none => false

end FormCompiler.Wasm
