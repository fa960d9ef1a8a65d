import FormCompiler.Wasm.Machine

/-! How the machine runs instructions, one equation for each way an operand or a body can end. -/

namespace FormCompiler.Wasm

open Instr

variable {env : Surroundings} {args : List Value} {store : Store} {e : Stop} {label : LabelId} {s t : Activation}

namespace Exec

variable {target : LabelId} {value : Option Value} {elements : Array Value} {address type rounds : Nat} {o : HeapObject}
  {α β : Type}

theorem bind_run (x : Exec α) (f : α → Exec β) (s : Activation) : (x >>= f) s = match x s with
      | .ok a t => f a t
      | .error e t => .error e t := by
  show EStateM.bind x f s = _
  unfold EStateM.bind
  cases x s <;> rfl

theorem bind_ok {x : Exec α} {f : α → Exec β} {a : α} (h : x s = .ok a t) : (x >>= f) s = f a t := by
  rw [bind_run,h]

theorem bind_error {x : Exec α} {f : α → Exec β} (h : x s = .error e t) : (x >>= f) s = .error e t := by
  rw [bind_run,h]

@[simp] theorem pure_run (a : α) (s : Activation) : (pure a : Exec α) s = .ok a s := rfl

@[simp] theorem get_run (s : Activation) : (get : Exec Activation) s = .ok s s := rfl

@[simp] theorem modify_run (f : Activation → Activation) (s : Activation) :
    (modify f : Exec PUnit) s = .ok ⟨⟩ (f s) := rfl

@[simp] theorem give_run (value : Value) (s : Activation) : give value s = .ok (.next (some value)) s := rfl

@[simp] theorem heap_run (s : Activation) : heap s = .ok s.store.heap s := rfl

@[simp] theorem index_i32 (value : Int32) (s : Activation) : index (.i32 value) s = .ok value s := rfl

theorem object_some (h : s.store.heap[address]? = some o) : object (.ref (some address)) s = .ok (address, o) s := by
  show (heap >>= fun heap => _) s = _
  rw [bind_ok (heap_run s)]
  simp [h]

theorem call_run {function : Nat} (h : env.invoke function args s.store = .ok value store) :
    call env function args s = .ok (.next value) { s with store } := by
  rw [call,h]

theorem call_error {function : Nat} {stop : Stop} (h : env.invoke function args s.store = .error stop store) :
    call env function args s = .error stop { s with store } := by
  rw [call,h]

theorem getLocal_run {index : Nat} {value : Value} (h : s.locals[index]? = some value) :
    getLocal index s = .ok (.next (some value)) s := by
  unfold getLocal
  rw [bind_ok (get_run s)]
  simp [h]

theorem setLocal_run {index : Nat} {value : Value} (h : index < s.locals.size) :
    setLocal index value s = .ok (.next none) { s with locals := s.locals.setIfInBounds index value } := by
  unfold setLocal
  rw [bind_ok (get_run s),if_pos h]
  rfl

theorem elements_run (h : s.store.heap[address]? = some (.array type elements)) :
    Exec.elements address s = .ok elements s := by
  unfold Exec.elements
  rw [bind_ok (heap_run s)]
  simp [h]

theorem place_run {index : Int32} {length : Nat} :
    place index length s = if 0 ≤ index.toInt ∧ index.toInt < length then .ok index.toInt.toNat s
      else .error (.trap (.outOfBounds index length)) s := by
  unfold place
  split <;> rfl

theorem getElement_run {index : Int32} (h : s.store.heap[address]? = some (.array type elements)) :
    getElement address index s = if 0 ≤ index.toInt ∧ index.toInt < elements.size then
        .ok (.next (some (elements.getD index.toInt.toNat default))) s
      else .error (.trap (.outOfBounds index elements.size)) s := by
  unfold getElement
  rw [bind_ok (elements_run h)]
  by_cases hi : 0 ≤ index.toInt ∧ index.toInt < elements.size
  · rw [bind_ok (by rw [place_run,if_pos hi]),if_pos hi]
    have hlt : index.toInt.toNat < elements.size := by omega
    rw [Array.getElem?_eq_getElem hlt,Array.getD_eq_getD_getElem?,Array.getElem?_eq_getElem hlt]
    rfl
  · rw [bind_error (by rw [place_run,if_neg hi]),if_neg hi]

theorem modify_eq_setIfInBounds {heap : Heap} {change : HeapObject → HeapObject} (h : heap[address]? = some o) :
    heap.modify address change = heap.setIfInBounds address (change o) := by
  apply Array.ext_getElem?
  intro k
  rw [Array.getElem?_modify,Array.getElem?_setIfInBounds]
  by_cases hk : address = k
  · obtain ⟨hlt,hget⟩ := Array.getElem?_eq_some_iff.mp h
    simp [← hk,hlt,hget]
  · simp [hk]

theorem setElement_run {index : Int32} {value : Value} (h : s.store.heap[address]? = some (.array type elements)) :
    setElement address index value s = if 0 ≤ index.toInt ∧ index.toInt < elements.size then
        .ok (.next none) ⟨s.locals,s.store.heap.setIfInBounds address
          (.array type (elements.setIfInBounds index.toInt.toNat value)),s.store.log,s.store.memory⟩
      else .error (.trap (.outOfBounds index elements.size)) s := by
  have hsize : writableSize address s = .ok elements.size s := by
    unfold writableSize
    rw [bind_ok (heap_run s)]
    simp [h]
  unfold setElement
  rw [bind_ok hsize]
  by_cases hi : 0 ≤ index.toInt ∧ index.toInt < elements.size
  · rw [bind_ok (by rw [place_run,if_pos hi]),if_pos hi]
    exact congrArg (fun heap => EStateM.Result.ok (Flow.next none) (⟨s.locals,heap,s.store.log,s.store.memory⟩ : Activation))
      (modify_eq_setIfInBounds h)
  · rw [bind_error (by rw [place_run,if_neg hi]),if_neg hi]

theorem arrayLength_run (h : s.store.heap[address]? = some (.array type elements)) :
    arrayLength address s = if elements.size < 0x80000000 then .ok (.next (some (.i32 (Int32.ofNat elements.size)))) s
      else .error (.trap .integerOverflow) s := by
  unfold arrayLength
  rw [bind_ok (elements_run h)]
  split <;> rfl

theorem cast_run {m : Module} (h : s.store.heap[address]? = some o) :
    cast m type (.ref (some address)) s = if m.isSubtype o.type type then .ok (.next (some (.ref (some address)))) s
      else .error (.trap (.castFailure type)) s := by
  show (heap >>= fun heap => _) s = _
  rw [bind_ok (heap_run s)]
  simp only [h]
  split <;> rfl

/-! Operands -/

variable {run : Exec Flow} {use : Value → Exec Flow}

theorem operand_next {value : Value} (h : run s = .ok (.next (some value)) t) : operand run use s = use value t := by
  unfold operand
  rw [bind_ok h]

theorem operand_error (h : run s = .error e t) : operand run use s = .error e t := by
  unfold operand
  rw [bind_error h]

theorem block_next (h : run s = .ok (.next value) t) : block label run s = .ok (.next value) t := by
  unfold block
  rw [bind_ok h]
  rfl

theorem block_error (h : run s = .error e t) : block label run s = .error e t := by
  unfold block
  rw [bind_error h]

theorem block_branch (h : run s = .ok (.branch label value) t) : block label run s = .ok (.next value) t := by
  unfold block
  rw [bind_ok h]
  simp

theorem block_pass (hne : target ≠ label) (h : run s = .ok (.branch target value) t) :
    block label run s = .ok (.branch target value) t := by
  unfold block
  rw [bind_ok h]
  simp [hne]

theorem block_leave (h : run s = .ok (.leave value) t) : block label run s = .ok (.leave value) t := by
  unfold block
  rw [bind_ok h]
  rfl

theorem block_congr {other : Exec Flow} (h : run s = other t) : block label run s = block label other t := by
  unfold block
  rw [bind_run,bind_run,h]

theorem iterate_again (h : run s = .ok (.branch label value) t) :
    iterate label run (rounds + 1) s = iterate label run rounds t := by
  rw [iterate,bind_ok h]
  simp

theorem iterate_pass (hne : target ≠ label) (h : run s = .ok (.branch target value) t) :
    iterate label run (rounds + 1) s = .ok (.branch target value) t := by
  rw [iterate,bind_ok h]
  simp [hne]

theorem iterate_leave (h : run s = .ok (.leave value) t) : iterate label run (rounds + 1) s = .ok (.leave value) t := by
  rw [iterate,bind_ok h]
  rfl

end Exec

open Exec

variable {u : Activation} {i : Instr} {is : List Instr} {last value : Option Value}

/-! Instructions one after another -/

theorem runAll_next (h : i.run env s = .ok (.next value) t) : runAll env last (i :: is) s = runAll env value is t := by
  rw [runAll,bind_ok h]

theorem runAll_error (h : i.run env s = .error e t) : runAll env last (i :: is) s = .error e t := by
  rw [runAll,bind_error h]

theorem runAll_branch (h : i.run env s = .ok (.branch label value) t) :
    runAll env last (i :: is) s = .ok (.branch label value) t := by
  rw [runAll,bind_ok h]
  rfl

theorem runAll_leave (h : i.run env s = .ok (.leave value) t) : runAll env last (i :: is) s = .ok (.leave value) t := by
  rw [runAll,bind_ok h]
  rfl

theorem runOperands_next {value : Value} {use : List Value → Exec Flow} (h : i.run env s = .ok (.next (some value)) t) :
    runOperands env (i :: is) use s = runOperands env is (fun values => use (value :: values)) t := by
  rw [runOperands,operand_next h]

theorem runOperands_error {use : List Value → Exec Flow} (h : i.run env s = .error e t) :
    runOperands env (i :: is) use s = .error e t := by
  rw [runOperands,operand_error h]

/-! Single instructions -/

theorem run_localGet {index : Nat} {value : Value} (h : s.locals[index]? = some value) :
    (localGet index).run env s = .ok (.next (some value)) s := by
  rw [run,getLocal_run h]

theorem run_localSet {index : Nat} {value : Value} (h : i.run env s = .ok (.next (some value)) t)
    (hi : index < t.locals.size) : (localSet index i).run env s =
      .ok (.next none) { t with locals := t.locals.setIfInBounds index value } := by
  rw [run,operand_next h,setLocal_run hi]

theorem run_binary {op : BinOp} {type : NumType} {left right : Instr} {a b : Value}
    (hl : left.run env s = .ok (.next (some a)) t) (hr : right.run env t = .ok (.next (some b)) u) :
    (binary op type left right).run env s = match op.apply type u.store.heap a b with
      | .ok value => .ok (.next (some value)) u
      | .error cause => .error (.trap cause) u := by
  rw [run,operand_next hl,operand_next hr,bind_ok (heap_run u),bind_run]
  cases op.apply type u.store.heap a b <;> rfl

theorem run_arrayLen {array : Instr} {address type : Nat} {elements : Array Value}
    (h : array.run env s = .ok (.next (some (.ref (some address)))) t)
    (ha : t.store.heap[address]? = some (.array type elements)) (hsize : elements.size < 0x80000000) :
    (arrayLen array).run env s = .ok (.next (some (.i32 (Int32.ofNat elements.size)))) t := by
  rw [run,operand_next h,bind_ok (object_some ha)]
  show arrayLength address t = _
  rw [arrayLength_run ha,if_pos hsize]

theorem run_brIf {label : LabelId} {value : Int32} (h : i.run env s = .ok (.next (some (.i32 value))) t) :
    (brIf label i).run env s = .ok (if value ≠ 0 then .branch label none else .next none) t := by
  rw [run,operand_next h,bind_ok (index_i32 value t)]
  split <;> rfl

theorem run_cond {result : Option ValueType} {value : Int32} {yes no : List Instr}
    (h : i.run env s = .ok (.next (some (.i32 value))) t) :
    (cond result i yes no).run env s = if value ≠ 0 then runAll env none yes t else runAll env none no t := by
  rw [run,operand_next h,bind_ok (index_i32 value t)]
  split <;> rfl

/-! Calls -/

/-- The store that a call leaves, even if it fails. -/
def leftBy {α : Type} : EStateM.Result Stop Store α → Store
  | .ok _ store | .error _ store => store

namespace Instance

variable {enter : Func → List Value → Between (Option Value)} {source : ImportName} {i : Instance} {depth n : Nat}
  {f : Func}

theorem dispatch_defined (hf : i.module.funcs[n]? = some f)
    (ha : args.length = f.params.length) (hh : f.host? = none) : i.dispatch enter n args store = enter f args store := by
  simp [dispatch,hf,ha,hh]

theorem dispatch_host
    (hf : i.module.funcs[n]? = some f) (ha : args.length = f.params.length) (hh : f.host? = some source) :
    i.dispatch enter n args store = i.callHost source args store := by
  simp [dispatch,hf,ha,hh]

theorem callHost_none (hh : i.hosts source = none) :
    i.callHost source args store = .error (.trap (.unknownImport source)) store := by
  rw [callHost,hh]
  rfl

/-- Hosts find the call noted. -/
theorem callHost_some {host : List Value → Between (Option Value)} (hh : i.hosts source = some host) :
    i.callHost source args store = host args { store with log := store.log.push ⟨source,args⟩ } := by
  rw [callHost,hh]
  rfl

def surroundings (i : Instance) (invoke : Nat → List Value → Between (Option Value)) : Surroundings :=
  ⟨i.module,i.globals,i.rounds,invoke⟩

def entry (f : Func) (args : List Value) (store : Store) : Activation :=
  ⟨(args ++ f.locals.map Value.zero).toArray,store⟩

theorem runBody_run (invoke : Nat → List Value → Between (Option Value)) (f : Func) (args : List Value) (store : Store) :
    i.runBody invoke f args store = match runAll (i.surroundings invoke) none f.body (entry f args store) with
      | .error stop s => .error stop s.store
      | .ok (.branch label _) s => .error (.trap (.malformed (.escapedBranch label f.name))) s.store
      | .ok (.next value) s | .ok (.leave value) s => .ok (if f.result.isSome then value else none) s.store := rfl

end Instance

end FormCompiler.Wasm
