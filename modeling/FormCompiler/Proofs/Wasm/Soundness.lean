import FormCompiler.Proofs.Wasm.Running
import FormCompiler.Proofs.Wasm.Typing
import Mathlib.Data.List.Forall2

/-! Folded code with types runs without a fault of its own: operands, locals, objects and results have the types they
should, whatever calls, hosts and traps there are on the way. Casts may fail. -/

namespace FormCompiler.Wasm

open List Exec

variable {result t : Option ValueType} {v : Option Value} {args : List Value} {o : HeapObject} {store : Store}
  {e : Ending} {f : Func}

/-- A value is of a type. References are null or point to an object of a subtype. -/
def Value.HasType (m : Module) (heap : Heap) (v : Value) : ValueType → Prop
  | .i32 => ∃ n, v = .i32 n
  | .i64 => ∃ n, v = .i64 n
  | .f32 => ∃ n, v = .f32 n
  | .f64 => ∃ n, v = .f64 n
  | .ref type => v = .ref none ∨
      ∃ address o, v = .ref (some address) ∧ heap[address]? = some o ∧ m.isSubtype o.type type = true

def resultTyped (m : Module) (heap : Heap) : Option Value → Option ValueType → Prop
  | some value, some type => value.HasType m heap type
  | none, none => True
  | _, _ => False

/-- The inside of an object has the types its own type says. -/
def HeapObject.Typed (m : Module) (heap : Heap) : HeapObject → Prop
  | .struct type fields => ∃ d, m.struct? type = some d ∧
      List.Forall₂ (fun (v : Value) (f : FieldDef) => v.HasType m heap f.type) fields.toList d.fields
  | .array type elements => ∃ d, m.array? type = some d ∧ ∀ v ∈ elements.toList, v.HasType m heap d.element

/-- Objects stay and keep their types. -/
def Heap.Le (heap later : Heap) : Prop :=
  ∀ (address : Nat) (o : HeapObject), heap[address]? = some o → ∃ o', later[address]? = some o' ∧ o'.type = o.type

namespace Heap.Le

theorem refl (heap : Heap) : heap.Le heap := fun _ o h => ⟨o,h,rfl⟩

theorem trans {a b d : Heap} (h : a.Le b) (k : b.Le d) : a.Le d := by
  intro address o ho
  obtain ⟨o',ho',ht⟩ := h address o ho
  obtain ⟨o'',ho'',ht'⟩ := k address o' ho'
  exact ⟨o'',ho'',ht'.trans ht⟩

private theorem push (heap : Heap) (o : HeapObject) : heap.Le (heap.push o) := by
  intro address o' ho
  obtain ⟨hlt,_⟩ := Array.getElem?_eq_some_iff.mp ho
  exact ⟨o',by rw [Array.getElem?_push,if_neg (by omega),ho],rfl⟩

end Heap.Le

variable {m : Module} {heap later : Heap}

theorem Value.HasType.mono {v : Value} {t : ValueType} (h : v.HasType m heap t) (hle : heap.Le later) :
    v.HasType m later t := by
  cases t with
  | ref type =>
    rcases h with hn | ⟨address,o,rfl,ho,hs⟩
    · exact .inl hn
    · obtain ⟨o',ho',ht⟩ := hle address o ho
      exact .inr ⟨address,o',rfl,ho',ht ▸ hs⟩
  | _ => exact h

theorem Value.HasType.fits {v : Value} {t t' : ValueType} (hm : m.Layered) (h : v.HasType m heap t)
    (hf : t.fits m t' = true) : v.HasType m heap t' := by
  cases t with
  | ref a =>
    cases t' with
    | ref b =>
      rcases h with hn | ⟨address,o,rfl,ho,hs⟩
      · exact .inl hn
      · exact .inr ⟨address,o,rfl,ho,Module.isSubtype_trans hm hs hf⟩
    | _ => cases hf
  | _ =>
    have he := of_decide_eq_true hf
    exact he ▸ h

private theorem resultTyped.fits {t' : Option ValueType} (hm : m.Layered) (h : resultTyped m heap v t)
    (hf : resultFits m t t' = true) : resultTyped m heap v t' := by
  cases v <;> cases t <;> cases t' <;> first | exact Value.HasType.fits hm h hf | exact h.elim | trivial

def Flow.Typed (m : Module) (heap : Heap) (x : Exits) (e : Ending) : Flow → Prop
  | .next value => ∃ t, e = .next t ∧ resultTyped m heap value t
  | .branch label value => ∃ t, x.labels.lookup label = some t ∧ resultTyped m heap value t
  | .leave value => ∃ t, x.result = some t ∧ resultTyped m heap value t

private theorem Flow.Typed.fits {x : Exits} {flow : Flow} (hm : m.Layered)
    (h : flow.Typed m heap x e) (hf : e.fits m result = true) : flow.Typed m heap x (.next result) := by
  cases flow with
  | next value =>
    obtain ⟨t,rfl,hv⟩ := h
    exact ⟨result,rfl,hv.fits hm hf⟩
  | branch label value => exact h
  | leave value => exact h

private theorem Value.hasType_zero (m : Module) (heap : Heap) (t : ValueType) : (Value.zero t).HasType m heap t := by
  cases t <;> first | exact .inl rfl | exact ⟨_,rfl⟩

private theorem resultTyped.kept (h : resultTyped m heap v t) :
    resultTyped m heap (if t.isSome then v else none) t := by
  cases t with
  | none => exact trivial
  | some t => exact h

theorem HeapObject.Typed.mono (h : o.Typed m heap) (hle : heap.Le later) : o.Typed m later := by
  cases o with
  | struct type fields =>
    obtain ⟨d,hd,hf⟩ := h
    exact ⟨d,hd,hf.imp fun _ _ hv => hv.mono hle⟩
  | array type elements =>
    obtain ⟨d,hd,he⟩ := h
    exact ⟨d,hd,fun v hv => (he v hv).mono hle⟩

/-- All objects and globals have their types, and so has what the host keeps. -/
structure StoreTyped (m : Module) (globals : Array Value) (store : Store) : Prop where
  objects : ∀ (address : Nat) o, store.heap[address]? = some o → o.Typed m store.heap
  globals : ∀ (index : Nat) g, m.globals[index]? = some g →
    ∃ v, globals[index]? = some v ∧ v.HasType m store.heap g.type
  memory : ∀ entry ∈ store.memory, entry.2.HasType m store.heap entry.1

/-- All that an activation works on has its types. -/
structure Proper (c : Context) (globals : Array Value) (s : Activation) : Prop extends
    StoreTyped c.module globals s.store where
  locals : ∀ (index : Nat) t, c.locals[index]? = some t →
    ∃ v, s.locals[index]? = some v ∧ v.HasType c.module s.store.heap t

def Stop.Safe (stop : Stop) : Prop := ∀ fault, stop ≠ .trap (.malformed fault)

section Rules

variable {Q : Flow → Activation → Prop} {env : Surroundings} {values : List Value} {ts : List ValueType}
  {label : LabelId} {num : NumType} {e' : Ending} {op : BinOp} (c : Context) (globals : Array Value) {run : Exec Flow}

/-- A run from `s` that ends well ends with `Q`, and no run goes wrong. -/
def Holds {α : Type} (s : Activation) (Q : α → Activation → Prop) : EStateM.Result Stop Activation α → Prop
  | .ok a t => Proper c globals t ∧ s.store.heap.Le t.store.heap ∧ Q a t
  | .error stop t => StoreTyped c.module globals t.store ∧ s.store.heap.Le t.store.heap ∧ stop.Safe

abbrev Runs (x : Exits) (e : Ending) (s : Activation) : EStateM.Result Stop Activation Flow → Prop :=
  Holds c globals s fun flow t => flow.Typed c.module t.store.heap x e

def Sound (x : Exits) (e : Ending) (run : Exec Flow) : Prop := ∀ s, Proper c globals s → Runs c globals x e s (run s)

variable {c globals} {α β : Type} {s t : Activation} {x : Exits}

theorem Holds.pure {a : α} {Q : α → Activation → Prop} (hs : Proper c globals s) (h : Q a s) :
    Holds c globals s Q (.ok a s) := ⟨hs,.refl _,h⟩

private theorem Holds.trap {cause : Trap} {Q : α → Activation → Prop} (hs : Proper c globals s)
    (h : ∀ fault, cause ≠ .malformed fault) : Holds c globals s Q (.error (.trap cause) s) :=
  ⟨hs.toStoreTyped,.refl _,fun fault he => h fault (Stop.trap.inj he)⟩

theorem Holds.bind {run : Exec α} {f : α → Exec β} {Q : α → Activation → Prop} {R : β → Activation → Prop}
    (h : Holds c globals s Q (run s))
    (hf : ∀ a t, Proper c globals t → s.store.heap.Le t.store.heap → Q a t → Holds c globals t R (f a t)) :
    Holds c globals s R ((run >>= f) s) := by
  rw [bind_run]
  cases hr : run s with
  | error stop t =>
    rw [hr] at h
    exact h
  | ok a t =>
    rw [hr] at h
    obtain ⟨ht,hle,hq⟩ := h
    have hfa := hf a t ht hle hq
    simp only
    cases hfr : f a t with
    | ok | error =>
      rw [hfr] at hfa
      exact ⟨hfa.1,hle.trans hfa.2.1,hfa.2.2⟩

theorem Holds.imp {Q R : α → Activation → Prop} {r : EStateM.Result Stop Activation α} (h : Holds c globals s Q r)
    (hi : ∀ a t, Proper c globals t → s.store.heap.Le t.store.heap → Q a t → R a t) : Holds c globals s R r := by
  cases r with
  | ok a t => exact ⟨h.1,h.2.1,hi a t h.1 h.2.1 h.2.2⟩
  | error stop t => exact h

/-- Operands are run first and leave a value. -/
theorem Sound.operand {type : ValueType} {use : Value → Exec Flow}
    (h : Sound c globals {} (.next (some type)) run) (hs : Proper c globals s)
    (huse : ∀ v t, Proper c globals t → s.store.heap.Le t.store.heap → v.HasType c.module t.store.heap type →
      Holds c globals t Q (use v t)) : Holds c globals s Q (Exec.operand run use s) := by
  refine (h s hs).bind fun flow t ht hle hflow => ?_
  cases flow with
  | next value =>
    obtain ⟨t',he,hv⟩ := hflow
    cases he
    cases value with
    | none => exact hv.elim
    | some v => exact huse v t ht hle hv
  | branch label value => cases hflow.choose_spec.1
  | leave value => cases hflow.choose_spec.1

/-! ### What single instructions do -/

section Primitives

variable {d : ArrayDef} {v : Value} {type address index : Nat} (hs : Proper c globals s)
include hs

/-- A change of the heap that keeps types and leaves typed objects. -/
theorem Proper.change (hle : s.store.heap.Le later)
    (hobjects : ∀ (address : Nat) o, later[address]? = some o → o.Typed c.module later) :
    Proper c globals { s with store := { s.store with heap := later } } where
  objects := hobjects
  globals index g hg := by
    obtain ⟨v,hv,ht⟩ := hs.globals index g hg
    exact ⟨v,hv,ht.mono hle⟩
  memory entry he := (hs.memory entry he).mono hle
  locals index t ht := by
    obtain ⟨v,hv,ht⟩ := hs.locals index t ht
    exact ⟨v,hv,ht.mono hle⟩

private theorem Proper.push (ho : o.Typed c.module s.store.heap) :
    Proper c globals { s with store := { s.store with heap := s.store.heap.push o } } := by
  have hle := Heap.Le.push s.store.heap o
  refine hs.change hle fun address o' ho' => ?_
  rw [Array.getElem?_push] at ho'
  split at ho'
  · cases ho'
    exact ho.mono hle
  · exact (hs.objects address o' ho').mono hle

theorem Proper.setLocal {type : ValueType} (ht : c.locals[index]? = some type)
    (hv : v.HasType c.module s.store.heap type) :
    Proper c globals { s with locals := s.locals.setIfInBounds index v } where
  toStoreTyped := hs.toStoreTyped
  locals k t hk := by
    obtain ⟨w,hw,hwt⟩ := hs.locals k t hk
    by_cases he : index = k
    · subst he
      cases ht.symm.trans hk
      exact ⟨v,by simp [(Array.getElem?_eq_some_iff.mp hw).1],hv⟩
    · exact ⟨w,by simp [he,hw],hwt⟩

/-- A reference is null or points to an object with its types. -/
theorem Proper.object (hv : v.HasType c.module s.store.heap (.ref type)) :
    Exec.object v s = .error (.trap .nullReference) s ∨ ∃ address o, v = .ref (some address) ∧
      s.store.heap[address]? = some o ∧ c.module.isSubtype o.type type = true ∧ o.Typed c.module s.store.heap ∧
      Exec.object v s = .ok (address, o) s := by
  rcases hv with rfl | ⟨address,o,rfl,ho,hsub⟩
  · exact .inl rfl
  · exact .inr ⟨address,o,rfl,ho,hsub,hs.objects address o ho,object_some ho⟩

variable (x)

private theorem holds_give {type : ValueType} (hv : v.HasType c.module s.store.heap type) :
    Runs c globals x (.next (some type)) s (Exec.give v s) :=
  .pure hs ⟨some type,rfl,hv⟩

private theorem holds_getLocal {type : ValueType} (ht : c.locals[index]? = some type) :
    Runs c globals x (.next (some type)) s (Exec.getLocal index s) := by
  obtain ⟨v,hv,hvt⟩ := hs.locals index type ht
  rw [getLocal_run hv]
  exact .pure hs ⟨some type,rfl,hvt⟩

private theorem holds_setLocal {type : ValueType} (ht : c.locals[index]? = some type)
    (hv : v.HasType c.module s.store.heap type) : Runs c globals x (.next none) s (Exec.setLocal index v s) := by
  obtain ⟨w,hw,_⟩ := hs.locals index type ht
  rw [setLocal_run (Array.getElem?_eq_some_iff.mp hw).1]
  exact ⟨hs.setLocal ht hv,.refl _,none,rfl,trivial⟩

private theorem holds_allocate (ho : o.Typed c.module s.store.heap) (ht : o.type = type) :
    Runs c globals x (.next (some (.ref type))) s (Exec.allocate o s) := by
  refine ⟨hs.push ho,.push _ _,some (.ref type),rfl,.inr ⟨s.store.heap.size,o,rfl,by simp,?_⟩⟩
  rw [ht]
  exact Module.isSubtype_refl _ _

theorem holds_getField {field : Nat} {d : StructDef} {f : FieldDef} (hm : c.module.Layered)
    (hd : c.module.struct? type = some d) (hf : d.fields[field]? = some f)
    (hv : v.HasType c.module s.store.heap (.ref type)) :
    Runs c globals x (.next (some f.type)) s (Exec.getField field v s) := by
  rcases hs.object hv with hnull | ⟨address,o,rfl,ho,hsub,hot,hrun⟩
  · rw [Exec.getField,bind_error hnull]
    exact .trap hs fun _ h => nomatch h
  · rw [Exec.getField,bind_ok hrun]
    obtain ⟨e,he, hprefix⟩ := Module.fields_of_isSubtype hm hsub hd
    cases o with
    | array type' elements =>
      obtain ⟨d',hd',_⟩ := hot
      exact absurd hd' (Module.array?_ne_struct? he)
    | struct type' fields =>
      obtain ⟨d',hd',hfields⟩ := hot
      cases he.symm.trans hd'
      obtain ⟨rest,hrest⟩ := hprefix
      have hfield : e.fields[field]? = some f := by
        rw [← hrest,List.getElem?_append_left (List.getElem?_eq_some_iff.mp hf).1,hf]
      obtain ⟨hlt,hget⟩ := List.getElem?_eq_some_iff.mp hfield
      have hlt' : field < fields.toList.length := hfields.length_eq ▸ hlt
      have hvt := (List.forall₂_iff_get.mp hfields).2 field hlt' hlt
      have hfield : fields[field]? = some fields.toList[field] := by
        rw [← Array.getElem?_toList,getElem?_eq_getElem hlt']
      simp only [hfield]
      refine .pure hs ⟨some f.type,rfl,?_⟩
      rw [← hget]
      exact hvt

omit hs in
/-- An array of a type has the elements of the type. -/
theorem array_of_typed (hm : c.module.Layered) (hd : c.module.array? type = some d)
    (hsub : c.module.isSubtype o.type type = true) (ho : o.Typed c.module s.store.heap) :
    ∃ elements, o = .array type elements ∧ ∀ v ∈ elements.toList, v.HasType c.module s.store.heap d.element := by
  have he := Module.eq_of_isSubtype_array hm hsub hd
  cases o with
  | struct type' fields =>
    obtain ⟨d',hd',_⟩ := ho
    cases he
    exact absurd hd (Module.array?_ne_struct? hd')
  | array type' elements =>
    obtain ⟨d',hd',helements⟩ := ho
    cases he
    cases hd.symm.trans hd'
    exact ⟨elements,rfl,helements⟩

/-- The array at an address of an array type. -/
theorem Proper.array (hm : c.module.Layered) (hd : c.module.array? type = some d)
    (hv : (Value.ref (some address)).HasType c.module s.store.heap (.ref type)) :
    ∃ elements, s.store.heap[address]? = some (.array type elements) ∧
      ∀ v ∈ elements.toList, v.HasType c.module s.store.heap d.element := by
  rcases hv with hn | ⟨_,o,he,ho,hsub⟩
  · cases hn
  · cases he
    obtain ⟨elements,rfl,helements⟩ := array_of_typed hm hd hsub (hs.objects address o ho)
    exact ⟨elements,ho,helements⟩

private theorem holds_getElement {index : Int32} (hm : c.module.Layered) (hd : c.module.array? type = some d)
    (hv : (Value.ref (some address)).HasType c.module s.store.heap (.ref type)) :
    Runs c globals x (.next (some d.element)) s (Exec.getElement address index s) := by
  obtain ⟨elements,ha,helements⟩ := hs.array hm hd hv
  rw [getElement_run ha]
  split
  · have hlt : index.toInt.toNat < elements.size := by omega
    refine .pure hs ⟨some d.element,rfl,helements _ ?_⟩
    rw [Array.getD_eq_getD_getElem?,Array.getElem?_eq_getElem hlt]
    simp
  · exact .trap hs fun _ h => nomatch h

private theorem holds_setElement {index : Int32} (hm : c.module.Layered) (hd : c.module.array? type = some d)
    (ha : (Value.ref (some address)).HasType c.module s.store.heap (.ref type))
    (hv : v.HasType c.module s.store.heap d.element) :
    Runs c globals x (.next none) s (Exec.setElement address index v s) := by
  obtain ⟨elements,ha,helements⟩ := hs.array hm hd ha
  rw [setElement_run ha]
  split
  · have hle : s.store.heap.Le (s.store.heap.setIfInBounds address
        (.array type (elements.setIfInBounds index.toInt.toNat v))) := by
      intro k o ho
      by_cases hk : address = k
      · subst hk
        cases ha.symm.trans ho
        exact ⟨.array type (elements.setIfInBounds index.toInt.toNat v),by simp [(Array.getElem?_eq_some_iff.mp ha).1],rfl⟩
      · exact ⟨o,by simp [hk,ho],rfl⟩
    refine ⟨hs.change hle fun k o ho => ?_,hle,none,rfl,trivial⟩
    rw [Array.getElem?_setIfInBounds] at ho
    split at ho
    · obtain ⟨_,he⟩ := Option.ite_none_right_eq_some.mp ho
      cases he
      refine ⟨d,hd,fun w hw => Value.HasType.mono ?_ hle⟩
      rw [Array.toList_setIfInBounds] at hw
      rcases mem_or_eq_of_mem_set hw with hw | rfl
      · exact helements w hw
      · exact hv
    · exact (hs.objects k o ho).mono hle
  · exact .trap hs fun _ h => nomatch h

private theorem holds_cast {found : Nat} (hv : v.HasType c.module s.store.heap (.ref found)) :
    Runs c globals x (.next (some (.ref type))) s (Exec.cast c.module type v s) := by
  rcases hv with rfl | ⟨address,o,rfl,ho,_⟩
  · exact .pure hs ⟨_,rfl,.inl rfl⟩
  · rw [cast_run ho]
    split
    · rename_i hsub
      exact .pure hs ⟨_,rfl,.inr ⟨address,o,rfl,ho,hsub⟩⟩
    · exact .trap hs fun _ h => nomatch h

private theorem holds_newDefault {length : Int32} (hd : c.module.array? type = some d) :
    Runs c globals x (.next (some (.ref type))) s (Exec.newDefault c.module type length s) := by
  unfold Exec.newDefault
  by_cases hl : length.toInt < 0
  · rw [if_pos hl]
    exact .trap hs fun _ h => nomatch h
  · rw [if_neg hl,hd]
    refine holds_allocate x hs ⟨d,hd,fun v hv => ?_⟩ rfl
    rw [eq_of_mem_replicate hv]
    exact Value.hasType_zero _ _ _

private theorem holds_arrayLength (hm : c.module.Layered) (hd : c.module.array? type = some d)
    (hv : (Value.ref (some address)).HasType c.module s.store.heap (.ref type)) :
    Runs c globals x (.next (some .i32)) s (Exec.arrayLength address s) := by
  obtain ⟨elements,ha,_⟩ := hs.array hm hd hv
  rw [arrayLength_run ha]
  split
  · exact .pure hs ⟨_,rfl,_,rfl⟩
  · exact .trap hs fun _ h => nomatch h

private theorem holds_isZero (hf : num.isFloat = false) (hv : v.HasType c.module s.store.heap num.valueType) :
    Runs c globals x (.next (some .i32)) s (Exec.isZero v s) := by
  cases num with
  | i32 | i64 =>
    obtain ⟨n,rfl⟩ := hv
    exact .pure hs ⟨_,rfl,_,rfl⟩
  | f32 | f64 => cases hf

end Primitives

/-! ### All of folded code -/

def Answered (m : Module) (globals : Array Value) (store : Store) (result : Option ValueType) :
    EStateM.Result Stop Store (Option Value) → Prop
  | .ok value next => StoreTyped m globals next ∧ store.heap.Le next.heap ∧ resultTyped m next.heap value result
  | .error stop next => StoreTyped m globals next ∧ store.heap.Le next.heap ∧ stop.Safe

abbrev AllTyped (m : Module) (heap : Heap) (values : List Value) (types : List ValueType) : Prop :=
  List.Forall₂ (fun v t => v.HasType m heap t) values types

def InvokeSound (m : Module) (globals : Array Value) (invoke : Nat → List Value → Between (Option Value)) : Prop :=
  ∀ (function : Nat) (f : Func) (args : List Value) (store : Store), m.funcs[function]? = some f →
    StoreTyped m globals store → AllTyped m store.heap args f.params →
    Answered m globals store f.result (invoke function args store)

private theorem StoreTyped.proper (hs : Proper c globals s) (h : StoreTyped c.module globals store)
    (hle : s.store.heap.Le store.heap) : Proper c globals { s with store } where
  toStoreTyped := h
  locals index t ht := by
    obtain ⟨v,hv,hvt⟩ := hs.locals index t ht
    exact ⟨v,hv,hvt.mono hle⟩

private theorem holds_call {function : Nat} {f : Func}
    (hinvoke : InvokeSound c.module globals env.invoke) (hf : c.module.funcs[function]? = some f)
    (hs : Proper c globals s) (hargs : AllTyped c.module s.store.heap args f.params) :
    Runs c globals x (.next f.result) s (Exec.call env function args s) := by
  have h := hinvoke function f args s.store hf hs.toStoreTyped hargs
  unfold Exec.call
  cases hr : env.invoke function args s.store with
  | ok value next =>
    rw [hr] at h
    exact ⟨StoreTyped.proper hs h.1 h.2.1,h.2.1,_,rfl,h.2.2⟩
  | error stop next =>
    rw [hr] at h
    exact h

def Computed (m : Module) (heap : Heap) (type : ValueType) : Except Trap Value → Prop
  | .ok v => v.HasType m heap type
  | .error cause => ∀ fault, cause ≠ .malformed fault

private theorem integerOp_computed {most : Int} {wrap : Int → Value}
    (hw : ∀ n, (wrap n).HasType m heap num.valueType) (op : BinOp) (a b : Int) :
    Computed m heap (op.resultType num) (integerOp op most wrap a b) := by
  cases op with
  | div =>
    simp only [integerOp]
    split
    · exact fun _ h => nomatch h
    · split
      · exact fun _ h => nomatch h
      · exact hw _
  | rem =>
    simp only [integerOp]
    split
    · exact fun _ h => nomatch h
    · exact hw _
  | add | sub | mul | and | or => exact hw _
  | eq | ne | lt | gt | le | ge => exact ⟨_,rfl⟩

private theorem floatOp_computed {wrap : α → Value} (ops : FloatOps α)
    (hw : ∀ n, (wrap n).HasType m heap num.valueType) (hf : num.isFloat = true)
    (hop : op.isDefinedFor num = true) (a b : α) : Computed m heap (op.resultType num) (ops.apply op wrap a b) := by
  cases op with
  | add | sub | mul | div => exact hw _
  | eq | ne | lt | gt | le | ge => exact ⟨_,rfl⟩
  | rem | and | or => cases num <;> first | cases hf; done | cases hop

private theorem BinOp.apply_computed {a b : Value} (hop : op.isDefinedFor num = true)
    (ha : a.HasType m heap num.valueType) (hb : b.HasType m heap num.valueType) (heap' : Heap) :
    Computed m heap (op.resultType num) (op.apply num heap' a b) := by
  cases num with
  | i32 | i64 =>
    obtain ⟨a,rfl⟩ := ha
    obtain ⟨b,rfl⟩ := hb
    simp only [BinOp.apply]
    refine integerOp_computed ?_ op _ _
    exact fun n => ⟨_,rfl⟩
  | f32 | f64 =>
    obtain ⟨a,rfl⟩ := ha
    obtain ⟨b,rfl⟩ := hb
    refine floatOp_computed _ ?_ rfl hop a b
    exact fun n => ⟨_,rfl⟩

private theorem sound_block
    (hm : c.module.Layered) (hfit : e'.fits c.module result = true) (h : Sound c globals (x.add label result) e' run) :
    Sound c globals x (.next result) (Exec.block label run) := by
  intro s hs
  refine (h s hs).bind fun flow t ht hle hflow => ?_
  cases flow with
  | next value =>
    obtain ⟨type,rfl,hv⟩ := hflow
    exact .pure ht ⟨result,rfl,hv.fits hm hfit⟩
  | branch target value =>
    obtain ⟨type,hl,hv⟩ := hflow
    by_cases he : target = label
    · subst he
      simp only [Exits.add,lookup_cons,BEq.rfl,Option.some.injEq] at hl
      subst hl
      simp only [if_true]
      exact .pure ht ⟨result,rfl,hv⟩
    · simp only [Exits.add,lookup_cons,beq_eq_false_iff_ne.mpr he] at hl
      simp only [he,if_false]
      exact .pure ht ⟨type,hl,hv⟩
  | leave value => exact .pure ht hflow

private theorem sound_iterate (hm : c.module.Layered)
    (hfit : e'.fits c.module none = true) (h : Sound c globals (x.add label none) e' run) :
    ∀ rounds, Sound c globals x (.next none) (Exec.iterate label run rounds)
  | 0, s, hs => ⟨hs.toStoreTyped,.refl _,fun _ h => nomatch h⟩
  | rounds + 1, s, hs => by
    refine (h s hs).bind fun flow t ht hle hflow => ?_
    cases flow with
    | next value =>
      obtain ⟨type,rfl,hv⟩ := hflow
      exact .pure ht ⟨none,rfl,hv.fits hm hfit⟩
    | branch target value =>
      obtain ⟨type,hl,hv⟩ := hflow
      by_cases he : target = label
      · simp only [he,if_true]
        exact sound_iterate hm hfit h rounds t ht
      · simp only [Exits.add,lookup_cons,beq_eq_false_iff_ne.mpr he] at hl
        simp only [he,if_false]
        exact .pure ht ⟨type,hl,hv⟩
    | leave value => exact .pure ht hflow

/-- An operand that is a number. -/
theorem Sound.index {use : Int32 → Exec Flow} (h : Sound c globals {} (.next (some .i32)) run) (hs : Proper c globals s)
    (huse : ∀ n t, Proper c globals t → s.store.heap.Le t.store.heap → Holds c globals t Q (use n t)) :
    Holds c globals s Q (Exec.operand run (fun v => Exec.index v >>= use) s) := by
  refine h.operand hs fun v t ht hle hv => ?_
  obtain ⟨n,rfl⟩ := hv
  exact huse n t ht hle

/-- An operand that points to an object. -/
theorem Sound.object {type : Nat} {found : ValueType} {use : Nat × HeapObject → Exec Flow}
    (hm : c.module.Layered) (h : Sound c globals {} (.next (some found)) run)
    (hfit : found.fits c.module (.ref type) = true) (hs : Proper c globals s)
    (huse : ∀ address o t, Proper c globals t → (Value.ref (some address)).HasType c.module t.store.heap (.ref type) →
      Holds c globals t Q (use (address, o) t)) :
    Holds c globals s Q (Exec.operand run (fun v => Exec.object v >>= use) s) := by
  refine h.operand hs fun v t ht _ hv => ?_
  rcases ht.object (hv.fits hm hfit) with hnull | ⟨address,o,rfl,_,_,_,hrun⟩
  · rw [bind_error hnull]
    exact .trap ht fun _ h => nomatch h
  · rw [bind_ok hrun]
    exact huse address o t ht (hv.fits hm hfit)

def OperandsSound (c : Context) (globals : Array Value) (env : Surroundings) (is : List Instr) (ts : List ValueType) : Prop :=
  ∀ (s : Activation) (use : List Value → Exec Flow) (Q : Flow → Activation → Prop), Proper c globals s →
    (∀ values t, Proper c globals t → s.store.heap.Le t.store.heap →
      AllTyped c.module t.store.heap values ts → Holds c globals t Q (use values t)) →
    Holds c globals s Q (runOperands env is use s)

private theorem allFit_typed {ts' : List ValueType} (hm : m.Layered)
    (h : AllTyped m heap values ts) (hfit : allFit m ts ts' = true) : AllTyped m heap values ts' := by
  induction h generalizing ts' with
  | nil => cases ts' <;> simp_all [allFit]
  | cons hv _ ih =>
    cases ts' with
    | nil => simp [allFit] at hfit
    | cons t' ts' =>
      simp only [allFit,Bool.and_eq_true] at hfit
      exact .cons (hv.fits hm hfit.1) (ih hfit.2)

private theorem each_typed {t' : ValueType} (hm : m.Layered)
    (h : AllTyped m heap values ts) (hfit : ∀ t ∈ ts, t.fits m t' = true) : ∀ v ∈ values, v.HasType m heap t' := by
  induction h with
  | nil => simp
  | cons hv _ ih =>
    rintro w (_ | ⟨_,hw⟩)
    · exact hv.fits hm (hfit _ (.head _))
    · exact ih (fun t ht => hfit t (.tail _ ht)) w hw

/-- Surroundings for code of the context. -/
structure Surroundings.Suits (env : Surroundings) (c : Context) (globals : Array Value) : Prop where
  layered : c.module.Layered
  invoke : InvokeSound c.module globals env.invoke
  module : env.module = c.module
  globals : env.globals = globals

mutual

/-- Code with types ends as its types say. -/
theorem sound_run (hc : env.Suits c globals) :
    ∀ {i : Instr} {x : Exits} {e : Ending}, i.ending? c x = some e → Sound c globals x e (i.run env)
  | .i32Const value, x, e, h | .i64Const value, x, e, h | .f32Const value, x, e, h | .f64Const value, x, e, h => by
    cases h
    exact fun s hs => holds_give x hs ⟨_,rfl⟩
  | .localGet index, x, e, h => by
    obtain ⟨type,ht,rfl⟩ := ending?_localGet.mp h
    exact fun s hs => holds_getLocal x hs ht
  | .localSet index value, x, e, h => by
    obtain ⟨wanted,hw,found,hv,hfit,rfl⟩ := ending?_localSet.mp h
    exact fun s hs => (sound_run hc hv).operand hs fun v t ht _ hvt => holds_setLocal x ht hw (hvt.fits hc.layered hfit)
  | .globalGet index, x, e, h => by
    obtain ⟨g,hg,rfl⟩ := ending?_globalGet.mp h
    intro s hs
    obtain ⟨v,hv,hvt⟩ := hs.globals index g hg
    rw [Instr.run,hc.globals,hv]
    exact holds_give x hs hvt
  | .binary op type left right, x, e, h => by
    obtain ⟨hop,hl,hr,rfl⟩ := ending?_binary.mp h
    refine fun s hs => (sound_run hc hl).operand hs fun a t ht _ ha => ?_
    refine (sound_run hc hr).operand ht fun b u hu hle hb => ?_
    have happlied := BinOp.apply_computed hop (ha.mono hle) hb u.store.heap
    rw [bind_ok (heap_run u)]
    cases happly : op.apply type u.store.heap a b with
    | ok v =>
      rw [happly] at happlied
      exact holds_give x hu happlied
    | error cause =>
      rw [happly] at happlied
      exact .trap hu happlied
  | .eqz type value, x, e, h => by
    obtain ⟨hfloat,hv,rfl⟩ := ending?_eqz.mp h
    exact fun s hs => (sound_run hc hv).operand hs fun v t ht _ hvt => holds_isZero x ht hfloat hvt
  | .call function args, x, e, h => by
    obtain ⟨f,hf,founds,hargs,hfit,rfl⟩ := ending?_call.mp h
    exact fun s hs => sound_operands hc hargs s _ _ hs fun values t ht _ hvs =>
      holds_call hc.invoke hf ht (allFit_typed hc.layered hvs hfit)
  | .block label result body, x, e, h => by
    obtain ⟨⟨e',hbody,hfit⟩,_,rfl⟩ := ending?_block.mp h
    exact sound_block hc.layered hfit (sound_runAll hc hbody)
  | .loop label body, x, e, h => by
    obtain ⟨⟨e',hbody,hfit⟩,rfl⟩ := ending?_loop.mp h
    exact sound_iterate hc.layered hfit (sound_runAll hc hbody) _
  | .cond result test yes no, x, e, h => by
    obtain ⟨htest,⟨ey,hyes,hfity⟩,⟨en,hno,hfitn⟩,_,rfl⟩ := ending?_cond.mp h
    refine fun s hs => (sound_run hc htest).index hs fun n t ht _ => ?_
    split
    · exact (sound_runAll hc hyes t ht).imp fun flow u _ _ hflow => hflow.fits hc.layered hfity
    · exact (sound_runAll hc hno t ht).imp fun flow u _ _ hflow => hflow.fits hc.layered hfitn
  | .br label none, x, e, h => by
    obtain ⟨hl,rfl⟩ := ending?_br_none.mp h
    exact fun s hs => .pure hs ⟨none,hl,trivial⟩
  | .br label (some value), x, e, h => by
    obtain ⟨wanted,hl,found,hv,hfit,rfl⟩ := ending?_br_some.mp h
    exact fun s hs => (sound_run hc hv).operand hs fun v t ht _ hvt =>
      .pure ht ⟨some wanted,hl,hvt.fits hc.layered hfit⟩
  | .brIf label test, x, e, h => by
    obtain ⟨hv,hl,rfl⟩ := ending?_brIf.mp h
    refine fun s hs => (sound_run hc hv).index hs fun n t ht _ => ?_
    split
    · exact .pure ht ⟨none,hl,trivial⟩
    · exact .pure ht ⟨none,rfl,trivial⟩
  | .brTable targets default index, x, e, h => by
    obtain ⟨hv,htargets,hl,rfl⟩ := ending?_brTable.mp h
    refine fun s hs => (sound_run hc hv).index hs fun n t ht _ => ?_
    refine .pure ht ⟨none,?_,trivial⟩
    unfold Exec.target
    split
    · exact hl
    · cases hk : targets[n.toInt.toNat]? with
      | none => exact hl
      | some label => exact htargets label (mem_of_getElem? hk)
  | .ret none, x, e, h => by
    obtain ⟨hr,rfl⟩ := ending?_ret_none.mp h
    exact fun s hs => .pure hs ⟨none,hr,trivial⟩
  | .ret (some value), x, e, h => by
    obtain ⟨wanted,hr,found,hv,hfit,rfl⟩ := ending?_ret_some.mp h
    exact fun s hs => (sound_run hc hv).operand hs fun v t ht _ hvt =>
      .pure ht ⟨some wanted,hr,hvt.fits hc.layered hfit⟩
  | .drop value, x, e, h => by
    obtain ⟨found,hv,rfl⟩ := ending?_drop.mp h
    refine fun s hs => (sound_run hc hv s hs).bind fun flow t ht _ hflow => ?_
    cases flow with
    | next value => exact .pure ht ⟨none,rfl,trivial⟩
    | branch label value => cases hflow.choose_spec.1
    | leave value => cases hflow.choose_spec.1
  | .seq body, x, e, h => by
    exact sound_runAll hc h
  | .unreachable, x, e, h => by
    exact fun s hs => .trap hs fun _ h => nomatch h
  | .structNew type fields, x, e, h => by
    obtain ⟨d,hd,founds,hv,hfit,rfl⟩ := ending?_structNew.mp h
    refine fun s hs => sound_operands hc hv s _ _ hs fun values t ht _ hvs => ?_
    refine holds_allocate x ht ⟨d,hd,?_⟩ rfl
    exact forall₂_map_right_iff.mp (allFit_typed hc.layered hvs hfit)
  | .structGet type field object, x, e, h => by
    obtain ⟨d,hd,f,hf,found,hv,hfit,rfl⟩ := ending?_structGet.mp h
    exact fun s hs => (sound_run hc hv).operand hs fun v t ht _ hvt =>
      holds_getField x ht hc.layered hd hf (hvt.fits hc.layered hfit)
  | .refCast type value, x, e, h => by
    obtain ⟨found,hv,_,rfl⟩ := ending?_refCast.mp h
    rw [Instr.run,hc.module]
    exact fun s hs => (sound_run hc hv).operand hs fun v t ht _ hvt => holds_cast x ht hvt
  | .arrayNewFixed type values, x, e, h => by
    obtain ⟨d,hd,founds,hv,hfit,rfl⟩ := ending?_arrayNewFixed.mp h
    refine fun s hs => sound_operands hc hv s _ _ hs fun values t ht _ hvs => ?_
    exact holds_allocate x ht ⟨d,hd,each_typed hc.layered hvs hfit⟩ rfl
  | .arrayNewDefault type length, x, e, h => by
    obtain ⟨d,hd,hv,rfl⟩ := ending?_arrayNewDefault.mp h
    rw [Instr.run,hc.module]
    refine fun s hs => (sound_run hc hv).index hs fun n t ht _ => ?_
    exact holds_newDefault x ht hd
  | .arrayGet type array index, x, e, h => by
    obtain ⟨d,hd,⟨found,ha,hfit⟩,hi,rfl⟩ := ending?_arrayGet.mp h
    refine fun s hs => (sound_run hc ha).object hc.layered hfit hs fun address o t ht hvt => ?_
    refine (sound_run hc hi).index ht fun n u hu hle => ?_
    exact holds_getElement x hu hc.layered hd (hvt.mono hle)
  | .arraySet type array index value, x, e, h => by
    obtain ⟨d,hd,_,⟨found,ha,hfit⟩,hi,⟨stored,hv,hfitv⟩,rfl⟩ := ending?_arraySet.mp h
    refine fun s hs => (sound_run hc ha).object hc.layered hfit hs fun address o t ht hvt => ?_
    refine (sound_run hc hi).index ht fun n u hu hle => ?_
    refine (sound_run hc hv).operand hu fun y r hr hle' hy => ?_
    exact holds_setElement x hr hc.layered hd (hvt.mono (hle.trans hle')) (hy.fits hc.layered hfitv)
  | .arrayLen array, x, e, h => by
    obtain ⟨found,d,hv,hd,rfl⟩ := ending?_arrayLen.mp h
    exact fun s hs => (sound_run hc hv).object hc.layered (ValueType.fits_refl _ _) hs fun address o t ht hvt =>
      holds_arrayLength x ht hc.layered hd hvt

/-- The same for instructions one after another. -/
theorem sound_runAll (hc : env.Suits c globals) :
    ∀ {is : List Instr} {x : Exits} {e : Ending}, endings? c x is = some e → Sound c globals x e (runAll env none is)
  | [], x, e, h => by
    cases h
    exact fun s hs => .pure hs ⟨none,rfl,trivial⟩
  | i :: is, x, e, h => by
    intro s hs
    rcases endings?_cons.mp h with ⟨rfl,hi⟩ | ⟨_,hi,his⟩
    · refine (sound_run hc hi s hs).bind fun flow t ht _ hflow => ?_
      cases flow with
      | next value => exact .pure ht hflow
      | branch label value => exact .pure ht hflow
      | leave value => exact .pure ht hflow
    · refine (sound_run hc hi s hs).bind fun flow t ht _ hflow => ?_
      cases flow with
      | next value =>
        obtain ⟨type,he,hv⟩ := hflow
        cases he
        cases value with
        | none => exact sound_runAll hc his t ht
        | some v => exact hv.elim
      | branch label value => exact .pure ht hflow
      | leave value => exact .pure ht hflow

private theorem sound_operands (hc : env.Suits c globals) :
    ∀ {is : List Instr} {ts : List ValueType}, operands? c is = some ts → OperandsSound c globals env is ts
  | [], ts, h => by
    cases h
    exact fun s use Q hs huse => huse [] s hs (.refl _) .nil
  | i :: is, ts, h => by
    obtain ⟨t,hi,rest,his,rfl⟩ := operands?_cons.mp h
    intro s use Q hs huse
    refine (sound_run hc hi).operand hs fun v t ht hle hv => ?_
    refine sound_operands hc his t _ Q ht fun values u hu hle' hvs => ?_
    exact huse (v :: values) u hu (hle.trans hle') (.cons (hv.mono hle') hvs)

end

end Rules

/-! ### Calls -/

/-- Functions of the host give values of the types they should, leave a store with its types, and report no fault of
the code. -/
def Instance.HostsTyped (i : Instance) : Prop :=
  ∀ source host, i.hosts source = some host → ∀ f ∈ i.module.funcs.toList, f.host? = some source →
    ∀ args store, StoreTyped i.module i.globals store → AllTyped i.module store.heap args f.params →
      Answered i.module i.globals store f.result (host args store)

variable {i : Instance}

theorem StoreTyped.noted {log : Array HostCall} (h : StoreTyped i.module i.globals store) :
    StoreTyped i.module i.globals { store with log } :=
  ⟨h.objects,h.globals,h.memory⟩

private theorem callHost_sound (hhosts : i.HostsTyped) {source : ImportName} (hf : f ∈ i.module.funcs.toList)
    (hh : f.host? = some source) (hs : StoreTyped i.module i.globals store)
    (hargs : AllTyped i.module store.heap args f.params) :
    Answered i.module i.globals store f.result (i.callHost source args store) := by
  cases hhost : i.hosts source with
  | none =>
    rw [Instance.callHost_none hhost]
    exact ⟨hs,.refl _,fun _ h => nomatch h⟩
  | some host =>
    rw [Instance.callHost_some hhost]
    exact hhosts source host hhost f hf hh args _ hs.noted hargs

/-- A body starts with its arguments and with noughts. -/
theorem proper_entry (hs : StoreTyped i.module i.globals store) (hargs : AllTyped i.module store.heap args f.params) :
    Proper ⟨i.module,f.params ++ f.locals⟩ i.globals (Instance.entry f args store) := by
  refine ⟨hs,fun index t ht => ?_⟩
  have hlocals : AllTyped i.module store.heap (args ++ f.locals.map Value.zero) (f.params ++ f.locals) :=
    rel_append hargs (forall₂_map_left_iff.mpr (forall₂_same.mpr fun t _ => Value.hasType_zero _ _ t))
  obtain ⟨hlt,rfl⟩ := List.getElem?_eq_some_iff.mp ht
  have hlt' := hlocals.length_eq.symm ▸ hlt
  exact ⟨_,by simp [Instance.entry,getElem?_eq_getElem hlt'],(forall₂_iff_get.mp hlocals).2 index hlt' hlt⟩

private theorem runBody_sound (hm : i.module.Layered) {invoke : Nat → List Value → Between (Option Value)}
    (hinvoke : InvokeSound i.module i.globals invoke) (hf : f.typed i.module = true)
    (hs : StoreTyped i.module i.globals store) (hargs : AllTyped i.module store.heap args f.params) :
    Answered i.module i.globals store f.result (i.runBody invoke f args store) := by
  unfold Func.typed at hf
  split at hf
  · rename_i e he
    let c : Context := ⟨i.module,f.params ++ f.locals⟩
    have hsuits : (i.surroundings invoke).Suits c i.globals := ⟨hm,hinvoke,rfl,rfl⟩
    have h := sound_runAll hsuits he _ (proper_entry hs hargs)
    rw [Instance.runBody_run]
    cases hrun : runAll (i.surroundings invoke) none f.body (Instance.entry f args store) with
    | error stop t =>
      rw [hrun] at h
      exact h
    | ok flow t =>
      rw [hrun] at h
      obtain ⟨ht,hle,hflow⟩ := h
      cases flow with
      | branch label value => cases hflow.choose_spec.1
      | next value =>
        obtain ⟨type,rfl,hv⟩ := hflow
        exact ⟨ht.toStoreTyped,hle,(hv.fits hm hf).kept⟩
      | leave value =>
        obtain ⟨type,hr,hv⟩ := hflow
        cases hr
        exact ⟨ht.toStoreTyped,hle,hv.kept⟩
  · cases hf

/-- No call goes wrong. -/
theorem callWithin_sound (hm : i.module.Layered) (hhosts : i.HostsTyped)
    (htyped : ∀ f ∈ i.module.funcs.toList, f.host? = none → f.typed i.module = true) :
    ∀ depth, InvokeSound i.module i.globals (i.callWithin depth) := by
  have hdispatch : ∀ enter : Func → List Value → Between (Option Value),
      (∀ f ∈ i.module.funcs.toList, f.host? = none → ∀ args store, StoreTyped i.module i.globals store →
        AllTyped i.module store.heap args f.params →
        Answered i.module i.globals store f.result (enter f args store)) →
      InvokeSound i.module i.globals (i.dispatch enter) := by
    intro enter henter function f args store hf hs hargs
    have hmem : f ∈ i.module.funcs.toList := by
      rw [← Array.getElem?_toList] at hf
      exact mem_of_getElem? hf
    cases hh : f.host? with
    | none =>
      rw [Instance.dispatch_defined hf hargs.length_eq hh]
      exact henter f hmem hh args store hs hargs
    | some source =>
      rw [Instance.dispatch_host hf hargs.length_eq hh]
      exact callHost_sound hhosts hmem hh hs hargs
  intro depth
  induction depth with
  | zero => exact hdispatch _ fun f _ _ args store hs _ => ⟨hs,.refl _,fun _ h => nomatch h⟩
  | succ depth ih => exact hdispatch _ fun f hf hh args store hs hargs => runBody_sound hm ih (htyped f hf hh) hs hargs

end FormCompiler.Wasm
