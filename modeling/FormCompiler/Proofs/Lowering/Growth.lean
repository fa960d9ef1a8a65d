import FormCompiler.Proofs.Lowering.Outcome
import FormCompiler.Proofs.Resolution.Tables
import FormCompiler.Proofs.Wasm.Subtyping
import Mathlib.Data.List.Forall2

/-! How the emission grows. Types, functions and labels are added and stay; the entry of a function that
waits for its body is the only one that changes later. What is read off the emission while code is made
therefore still holds when all is done. -/

namespace FormCompiler

open List Array

open Wasm (Func LabelId Module ValueType)

variable {d : FunctionDef} {p : Program} {s t : Emission} {f : Func} {stored : ValueType} {τ : Ty}

namespace Emission

variable {type : ValueType}

/-- How values of a type are represented; nothing for types without values. -/
def stored? (s : Emission) : Ty → Option ValueType
  | .prim .i32 | .prim .bool => some .i32
  | .prim .i64 => some .i64
  | .prim .f32 => some .f32
  | .prim .f64 => some .f64
  | .prim .void | .never => none
  | .object id => (s.structs.lookup id).map .ref
  | .array element => do
    let stored ← s.stored? element
    return .ref (← s.module.types.findIdx? (Module.isArrayOf stored true))

/-- Parameters and result of a function are represented as the function's entry says. -/
structure Signs (s : Emission) (d : FunctionDef) (f : Func) : Prop where
  params : List.Forall₂ (fun τ t => s.stored? τ = some t) d.paramTypes f.params
  result : f.result = s.stored? (d.returnType.getD .void)
  value : f.result.isSome = (d.returnType.getD .void).hasValue
  host : f.host? = match d.body with
    | .host module name => some ⟨module,name⟩
    | _ => none

def extendsFunc (ids : Nat) (exit top : LabelId) : Func :=
  { name := "__extends", params := [.i32,.ref ids], result := some .i32, locals := [.i32],
    body := Lower.extendsBody ids exit top }

/-- What is true at every point of code generation. -/
structure Consistent (p : Program) (s : Emission) : Prop where
  structs : ∀ id n, s.structs.lookup id = some n → n < s.module.types.size
  arrays : ∀ (i : Nat) d, s.module.types[i]? = some (.array d) → d.element.isKnown s.module = true
  entry : ∀ id n, s.funcs.lookup id = some n →
    ∃ d f, p.entities.kind id = .function d ∧ s.module.funcs[n]? = some f ∧ s.Signs d f
  unshared : ∀ id id' n, s.funcs.lookup id = some n → s.funcs.lookup id' = some n → id = id'
  queue : s.queue.Nodup
  known : ∀ id ∈ s.queue, ∃ n, s.funcs.lookup id = some n
  tester : ∀ n, s.extendsFunction = some n → (∀ id, s.funcs.lookup id ≠ some n) ∧
    ∃ ids exit top, s.idsArray = some ids ∧ exit ≠ top ∧ s.module.funcs[n]? = some (extendsFunc ids exit top)

/-- What stays from one point to a later one. -/
structure Later (s t : Emission) : Prop where
  structs : t.structs = s.structs
  chains : t.chains = s.chains
  idsArray : t.idsArray = s.idsArray
  globals : t.module.globals = s.module.globals
  labels : s.module.labels ≤ t.module.labels
  types : ∀ (i : Nat) d, s.module.types[i]? = some d → t.module.types[i]? = some d
  arrays : ∀ (i : Nat) d, t.module.types[i]? = some (.struct d) → s.module.types[i]? = some (.struct d)
  funcs : ∀ id n, s.funcs.lookup id = some n → t.funcs.lookup id = some n
  fresh : ∀ id n, t.funcs.lookup id = some n → s.funcs.lookup id = some n ∨ s.module.funcs.size ≤ n
  entries : ∀ (n : Nat) f, s.module.funcs[n]? = some f → ∃ g, t.module.funcs[n]? = some g ∧
    g.params = f.params ∧ g.result = f.result ∧ g.host? = f.host?
  helpers : ∀ (n : Nat) f, s.module.funcs[n]? = some f → (∀ id, s.funcs.lookup id ≠ some n) →
    t.module.funcs[n]? = some f

/-- What code generation inside a body does. No entry changes, and new functions of the program wait for
their bodies unless the host has them. -/
structure Grows (p : Program) (s t : Emission) : Prop extends Later s t where
  kept : ∀ (n : Nat) f, s.module.funcs[n]? = some f → t.module.funcs[n]? = some f
  unnamed : ∀ (n : Nat) f, t.module.funcs[n]? = some f → s.module.funcs[n]? = some f ∨ f.exportName = none
  waiting : ∀ id ∈ s.queue, id ∈ t.queue
  joined : ∀ id ∈ t.queue, id ∈ s.queue ∨ s.funcs.lookup id = none
  added : ∀ id n, t.funcs.lookup id = some n → s.funcs.lookup id = some n ∨ id ∈ t.queue ∨
    ∃ d module name, p.entities.kind id = .function d ∧ d.body = .host module name
  consistent : s.Consistent p → t.Consistent p

variable {u : Emission} {τ : Ty}

private theorem le_size {α : Type} {xs ys : Array α} (h : ∀ (i : Nat) a, xs[i]? = some a → ∃ b, ys[i]? = some b) :
    xs.size ≤ ys.size := by
  apply Nat.le_of_not_lt
  intro hi
  obtain ⟨b,hb⟩ := h ys.size _ (getElem?_eq_getElem hi)
  simp at hb

private theorem unnamed_push {xs : Array Func} {g : Func} {n : Nat} (hf : f.exportName = none)
    (h : (xs.push f)[n]? = some g) : xs[n]? = some g ∨ g.exportName = none := by
  rw [getElem?_push] at h
  split at h
  · exact .inr (Option.some.inj h ▸ hf)
  · exact .inl h

theorem getElem?_push_of_some {α : Type} {xs : Array α} {i : Nat} {a b : α} (h : xs[i]? = some a) :
    (xs.push b)[i]? = some a := by
  obtain ⟨hi,_⟩ := Array.getElem?_eq_some_iff.mp h
  rw [Array.getElem?_push,if_neg (by omega),h]

private theorem findIdx?_of_types {m n : Module} {f : Wasm.TypeDef → Bool} {i : Nat}
    (h : ∀ (j : Nat) d, m.types[j]? = some d → ∃ e, n.types[j]? = some e ∧ f e = f d)
    (hi : m.types.findIdx? f = some i) : n.types.findIdx? f = some i := by
  obtain ⟨hlt,hf,hbefore⟩ := findIdx?_eq_some_iff_getElem.mp hi
  have hget : ∀ j (hj : j < m.types.size), ∃ hj' : j < n.types.size, f n.types[j] = f m.types[j] := by
    intro j hj
    obtain ⟨e,he,hfe⟩ := h j _ (Array.getElem?_eq_getElem hj)
    obtain ⟨hj',rfl⟩ := Array.getElem?_eq_some_iff.mp he
    exact ⟨hj',hfe⟩
  obtain ⟨hlt',he⟩ := hget i hlt
  refine findIdx?_eq_some_iff_getElem.mpr ⟨hlt',he ▸ hf,fun j hj => ?_⟩
  obtain ⟨_,he'⟩ := hget j (by omega)
  exact he' ▸ hbefore j hj

/-- A representation depends on the structs of objects and on which types are arrays of what. -/
theorem stored?_of_types (hs : t.structs = s.structs)
    (ht : ∀ (i : Nat) d, s.module.types[i]? = some d → ∃ e, t.module.types[i]? = some e ∧
      ∀ element, Module.isArrayOf element true e = Module.isArrayOf element true d)
    (h : s.stored? τ = some stored) : t.stored? τ = some stored := by
  induction τ generalizing stored with
  | prim prim => cases prim <;> exact h
  | object id =>
    simp only [Emission.stored?] at h ⊢
    rwa [hs]
  | array element ih =>
    simp only [Emission.stored?,Option.bind_eq_bind,Option.bind_eq_some_iff] at h ⊢
    obtain ⟨inner,hi,index,hx,hr⟩ := h
    refine ⟨inner,ih hi,index,findIdx?_of_types (fun j d hd => ?_) hx,hr⟩
    obtain ⟨e,he,hsame⟩ := ht j d hd
    exact ⟨e,he,hsame inner⟩
  | never => exact h

namespace Later

theorem refl (s : Emission) : s.Later s where
  structs := rfl
  chains := rfl
  idsArray := rfl
  globals := rfl
  labels := Nat.le_refl _
  types _ _ h := h
  arrays _ _ h := h
  funcs _ _ h := h
  fresh _ _ h := .inl h
  entries _ f h := ⟨f,h,rfl,rfl,rfl⟩
  helpers _ _ h _ := h

theorem types_le (h : s.Later t) : s.module.types.size ≤ t.module.types.size :=
  le_size fun i d hd => ⟨d,h.types i d hd⟩

theorem isKnown (h : s.Later t) (hk : type.isKnown s.module = true) : type.isKnown t.module = true := by
  cases type with
  | ref n =>
    simp only [ValueType.isKnown,decide_eq_true_eq] at hk ⊢
    exact Nat.lt_of_lt_of_le hk h.types_le
  | _ => rfl

theorem size_le (h : s.Later t) : s.module.funcs.size ≤ t.module.funcs.size :=
  le_size fun i f hf => (h.entries i f hf).imp fun _ hg => hg.1

theorem trans (h : s.Later t) (k : t.Later u) : s.Later u where
  structs := k.structs.trans h.structs
  chains := k.chains.trans h.chains
  idsArray := k.idsArray.trans h.idsArray
  globals := k.globals.trans h.globals
  labels := Nat.le_trans h.labels k.labels
  types i d hd := k.types i d (h.types i d hd)
  arrays i d hd := h.arrays i d (k.arrays i d hd)
  funcs id n hn := k.funcs id n (h.funcs id n hn)
  fresh id n hn := by
    rcases k.fresh id n hn with hn | hn
    · exact h.fresh id n hn
    · exact .inr (Nat.le_trans h.size_le hn)
  entries n f hf := by
    obtain ⟨g,hg,h1,h2,h3⟩ := h.entries n f hf
    obtain ⟨g',hg',k1,k2,k3⟩ := k.entries n g hg
    exact ⟨g',hg',k1.trans h1,k2.trans h2,k3.trans h3⟩
  helpers n f hf hn := by
    refine k.helpers n f (h.helpers n f hf hn) fun id hid => ?_
    rcases h.fresh id n hid with hs | hs
    · exact hn id hs
    · exact absurd (Array.getElem?_eq_none hs) (by simp [hf])

/-- A representation stays. -/
theorem stored? (h : s.Later t) (hs : s.stored? τ = some stored) : t.stored? τ = some stored :=
  stored?_of_types h.structs (fun i d hd => ⟨d,h.types i d hd,fun _ => rfl⟩) hs

end Later

theorem stored?_of_no_value (s : Emission) (h : τ.hasValue = false) : s.stored? τ = none := by
  cases τ with
  | prim prim => cases prim <;> simp_all [Ty.hasValue,Emission.stored?]
  | never => rfl
  | _ => simp [Ty.hasValue] at h

/-- So does what was found out about a type, with or without values. -/
theorem Later.stored?_eq (h : s.Later t) (hs : (s.stored? τ).isSome = τ.hasValue) : t.stored? τ = s.stored? τ := by
  cases hv : s.stored? τ with
  | some stored => exact h.stored? hv
  | none =>
    rw [hv] at hs
    exact t.stored?_of_no_value hs.symm

namespace Signs

variable {f : Func}

theorem later (hs : s.Signs d f) (h : s.Later t) : t.Signs d f where
  params := hs.params.imp fun _ _ => h.stored?
  result := by
    rw [h.stored?_eq (by rw [← hs.result,hs.value])]
    exact hs.result
  value := hs.value
  host := hs.host

/-- Only the signature of the entry matters. -/
theorem congr {g : Func} (hs : s.Signs d f) (hp : g.params = f.params) (hr : g.result = f.result)
    (hh : g.host? = f.host?) : s.Signs d g where
  params := hp ▸ hs.params
  result := hr.trans hs.result
  value := hr ▸ hs.value
  host := hh.trans hs.host

end Signs

namespace Grows

theorem refl (p : Program) (s : Emission) : s.Grows p s where
  toLater := .refl s
  kept _ _ h := h
  unnamed _ _ h := .inl h
  waiting _ h := h
  joined _ h := .inl h
  added _ _ h := .inl h
  consistent h := h

theorem trans (h : s.Grows p t) (k : t.Grows p u) : s.Grows p u where
  toLater := h.toLater.trans k.toLater
  kept n f hf := k.kept n f (h.kept n f hf)
  unnamed n f hf := (k.unnamed n f hf).elim (h.unnamed n f) .inr
  waiting id hid := k.waiting id (h.waiting id hid)
  joined id hid := by
    rcases k.joined id hid with hq | hn
    · exact h.joined id hq
    · refine .inr (Option.eq_none_iff_forall_ne_some.mpr fun n hs => ?_)
      rw [h.funcs id n hs] at hn
      cases hn
  added id n hn := by
    rcases k.added id n hn with hn | hq
    · exact (h.added id n hn).imp_right (Or.imp_left (k.waiting id))
    · exact .inr hq
  consistent hs := k.consistent (h.consistent hs)

end Grows

structure Quiet (p : Program) (s t : Emission) : Prop extends Grows p s t where
  frame : t.frame = s.frame
  same : t.funcs = s.funcs
  queue : t.queue = s.queue
  defined : t.module.funcs = s.module.funcs
  tester : t.extendsFunction = s.extendsFunction

theorem Quiet.refl (p : Program) (s : Emission) : s.Quiet p s := ⟨.refl p s,rfl,rfl,rfl,rfl,rfl⟩

theorem Quiet.trans (h : s.Quiet p t) (k : t.Quiet p u) : s.Quiet p u :=
  ⟨h.toGrows.trans k.toGrows,k.frame.trans h.frame,k.same.trans h.same,k.queue.trans h.queue,
    k.defined.trans h.defined,k.tester.trans h.tester⟩

/-- What represents values is there. -/
theorem Consistent.stored?_known (hc : s.Consistent p) (h : s.stored? τ = some type) :
    type.isKnown s.module = true := by
  cases τ with
  | prim prim => cases prim <;> cases h <;> rfl
  | object id =>
    simp only [stored?,Option.map_eq_some_iff] at h
    obtain ⟨n,hn,rfl⟩ := h
    exact decide_eq_true (hc.structs id n hn)
  | array element =>
    simp only [stored?,Option.bind_eq_bind,Option.bind_eq_some_iff] at h
    obtain ⟨inner,_,n,hn,hr⟩ := h
    cases hr
    exact decide_eq_true (findIdx?_eq_some_iff_getElem.mp hn).1
  | never => cases h

/-- Growth that leaves the functions alone. The elements of new arrays are there. -/
theorem Grows.of_later (h : s.Later t) (ha : s.Consistent p → ∀ (i : Nat) d, t.module.types[i]? = some (.array d) →
      s.module.types[i]? = some (.array d) ∨ d.element.isKnown s.module = true) (hf : t.funcs = s.funcs) (hm : t.module.funcs = s.module.funcs)
    (hq : t.queue = s.queue) (he : t.extendsFunction = s.extendsFunction) : s.Grows p t where
  toLater := h
  kept _ _ hg := hm ▸ hg
  unnamed _ _ hg := .inl (hm ▸ hg)
  waiting _ hid := hq ▸ hid
  joined _ hid := .inl (hq ▸ hid)
  added _ _ hn := .inl (hf ▸ hn)
  consistent hc := by
    constructor
    · intro id n hn
      rw [h.structs] at hn
      exact Nat.lt_of_lt_of_le (hc.structs id n hn) h.types_le
    · intro i d hd
      rcases ha hc i d hd with hd | hd
      · exact h.isKnown (hc.arrays i d hd)
      · exact h.isKnown hd
    · intro id n hn
      rw [hf] at hn
      obtain ⟨d,f,hk,hg,hs⟩ := hc.entry id n hn
      exact ⟨d,f,hk,hm ▸ hg,hs.later h⟩
    · rw [hf]
      exact hc.unshared
    · rw [hq]
      exact hc.queue
    · rw [hq,hf]
      exact hc.known
    · rw [he,hf,hm,h.idsArray]
      exact hc.tester

/-- A function of the module's own, which no function of the program stands for. -/
theorem Grows.of_push (hs : t.structs = s.structs) (hch : t.chains = s.chains)
    (hids : t.idsArray = s.idsArray) (hgl : t.module.globals = s.module.globals)
    (hl : s.module.labels ≤ t.module.labels) (hty : t.module.types = s.module.types)
    (hf : t.funcs = s.funcs) (hm : t.module.funcs = s.module.funcs.push f) (hx : f.exportName = none)
    (hq : t.queue = s.queue)
    (he : t.extendsFunction = s.extendsFunction ∨ t.extendsFunction = some s.module.funcs.size ∧
      ∃ ids exit top, s.idsArray = some ids ∧ exit ≠ top ∧ f = extendsFunc ids exit top) :
    s.Grows p t := by
  have hkept : ∀ (n : Nat) g, s.module.funcs[n]? = some g → t.module.funcs[n]? = some g := by
    intro n g hg
    rw [hm]
    exact getElem?_push_of_some hg
  have hlater : s.Later t :=
    { structs := hs, chains := hch, idsArray := hids, globals := hgl, labels := hl
      types := fun _ _ h => hty ▸ h
      arrays := fun _ _ h => hty ▸ h
      funcs := fun _ _ h => hf ▸ h
      fresh := fun _ _ h => .inl (hf ▸ h)
      entries := fun n g hg => ⟨g,hkept n g hg,rfl,rfl,rfl⟩
      helpers := fun n g hg _ => hkept n g hg }
  refine ⟨hlater,hkept,fun n g hg => unnamed_push hx (hm ▸ hg),fun _ h => hq ▸ h,fun _ h => .inl (hq ▸ h),fun _ _ h => .inl (hf ▸ h),fun hc => ?_⟩
  constructor
  · rw [hs,hty]
    exact hc.structs
  · intro i d hd
    rw [hty] at hd
    exact hlater.isKnown (hc.arrays i d hd)
  · intro id n hn
    rw [hf] at hn
    obtain ⟨d,g,hk,hg,hsig⟩ := hc.entry id n hn
    exact ⟨d,g,hk,hkept n g hg,hsig.later hlater⟩
  · rw [hf]
    exact hc.unshared
  · rw [hq]
    exact hc.queue
  · rw [hq,hf]
    exact hc.known
  · intro n hn
    rw [hf,hids]
    rcases he with he | ⟨he,ids,exit,top,hi,hne,rfl⟩
    · rw [he] at hn
      obtain ⟨hno,ids,exit,top,hi,hne,hg⟩ := hc.tester n hn
      exact ⟨hno,ids,exit,top,hi,hne,hkept n _ hg⟩
    · rw [he] at hn
      cases hn
      refine ⟨fun id hid => ?_,ids,exit,top,hi,hne,by rw [hm]; simp⟩
      obtain ⟨d,g,_,hg,_⟩ := hc.entry id _ hid
      simp at hg

end Emission

namespace Lower

open Emission

variable {fault : SemanticFault} {object id : EntityId} {n : Nat}

@[simp] theorem structIndex_ok : structIndex object p s = .ok (n, t) ↔ s.structs.lookup object = some n ∧ s = t := by
  unfold structIndex
  simp only [bind_ok,get_ok]
  constructor
  · rintro ⟨_,_,⟨rfl,rfl⟩,h⟩
    cases hl : s.structs.lookup object with
    | some index => simpa [hl] using h
    | none => simp [hl,bind_ok] at h
  · rintro ⟨hl,rfl⟩
    exact ⟨s,s,⟨rfl,rfl⟩,by simp [hl]⟩

@[simp] theorem chainGlobal_ok : chainGlobal object p s = .ok (n, t) ↔ s.chains.lookup object = some n ∧ s = t := by
  unfold chainGlobal
  simp only [bind_ok,get_ok]
  constructor
  · rintro ⟨_,_,⟨rfl,rfl⟩,h⟩
    cases hl : s.chains.lookup object with
    | some index => simpa [hl] using h
    | none => simp [hl,bind_ok] at h
  · rintro ⟨hl,rfl⟩
    exact ⟨s,s,⟨rfl,rfl⟩,by simp [hl]⟩

@[simp] theorem idsArray_ok : idsArray p s = .ok (n, t) ↔ s.idsArray = some n ∧ s = t := by
  unfold idsArray
  simp only [bind_ok,get_ok]
  constructor
  · rintro ⟨_,_,⟨rfl,rfl⟩,h⟩
    cases hl : s.idsArray with
    | some index => simpa [hl] using h
    | none => simp [hl] at h
  · rintro ⟨hl,rfl⟩
    exact ⟨s,s,⟨rfl,rfl⟩,by simp [hl]⟩

theorem freshLabel_ok {label : LabelId} (h : freshLabel p s = .ok (label, t)) :
    s.Quiet p t ∧ s.module.labels < label.index ∧ label.index ≤ t.module.labels := by
  obtain ⟨rfl,rfl⟩ := modifyModule_ok.mp h
  refine ⟨⟨.of_later { Later.refl s with labels := Nat.le_succ _ } (fun _ _ _ h => .inl h) rfl rfl rfl rfl,
    rfl,rfl,rfl,rfl,rfl⟩,Nat.lt_succ_self _,Nat.le_refl _⟩

private theorem arrayOf_ok {element : Option ValueType} (h : arrayOf element p s = .ok (n, t))
    (he : s.Consistent p → ∀ e, element = some e → e.isKnown s.module = true) :
    s.Quiet p t ∧ ∃ e, element = some e ∧ t.module.types.findIdx? (Module.isArrayOf e true) = some n := by
  cases element with
  | none => simp [arrayOf] at h
  | some e =>
    rw [arrayOf] at h
    obtain ⟨hn,rfl⟩ := modifyModule_ok.mp h
    simp only [Module.arrayType] at hn ⊢
    cases hi : s.module.types.findIdx? (Module.isArrayOf e true) with
    | some index =>
      simp only [hi] at hn ⊢
      subst hn
      exact ⟨.refl p s,e,rfl,hi⟩
    | none =>
      subst hn
      have hpush : ∀ (i : Nat) d, (s.module.types.push (.array ⟨s!"array_{s.module.types.size}",e,true⟩))[i]?
          = some d → s.module.types[i]? = some d ∨ d = .array ⟨s!"array_{s.module.types.size}",e,true⟩ := by
        intro i d hd
        rw [getElem?_push] at hd
        split at hd
        · exact .inr (Option.some.inj hd).symm
        · exact .inl hd
      have hlater : s.Later { s with module := { s.module with
          types := s.module.types.push (.array ⟨s!"array_{s.module.types.size}",e,true⟩) } } :=
        { Later.refl s with
          types := fun _ _ h => getElem?_push_of_some h
          arrays := fun i d hd => (hpush i _ hd).elim (fun h => h) fun h => (nomatch h) }
      refine ⟨⟨.of_later hlater (fun hc i d hd => (hpush i _ hd).imp_right fun hd => ?_) rfl rfl rfl rfl,
        rfl,rfl,rfl,rfl,rfl⟩,e,rfl,?_⟩
      · cases hd
        exact he hc e rfl
      rw [findIdx?_push,hi]
      simp [Module.isArrayOf]

/-- What asking for a representation gives. -/
theorem valueType_ok {result : Option ValueType} (h : valueType τ p s = .ok (result, t)) :
    s.Quiet p t ∧ result = t.stored? τ ∧ result.isSome = τ.hasValue := by
  induction τ generalizing result t with
  | prim prim =>
    cases prim
    all_goals
      cases h
      exact ⟨.refl p s,rfl,rfl⟩
  | never =>
    cases h
    exact ⟨.refl p s,rfl,rfl⟩
  | object id =>
    obtain ⟨n,u,h1,h2⟩ := bind_ok.mp h
    obtain ⟨hl,rfl⟩ := structIndex_ok.mp h1
    cases h2
    exact ⟨.refl p s,by simp [stored?,hl],rfl⟩
  | array element ih =>
    obtain ⟨inner,u,h1,h2⟩ := bind_ok.mp h
    obtain ⟨n,h3,rfl⟩ := bind_pure_ok.mp h2
    obtain ⟨q1,hr,_⟩ := ih h1
    obtain ⟨q2,e,rfl,hn⟩ := arrayOf_ok h3 fun hc e he => hc.stored?_known (hr.symm.trans he)
    refine ⟨q1.trans q2,?_,rfl⟩
    simp [stored?,q2.stored? hr.symm,hn]

theorem storedType_ok (h : storedType τ fault p s = .ok (stored, t)) : s.Quiet p t ∧ t.stored? τ = some stored := by
  obtain ⟨result,u,h1,h2⟩ := bind_ok.mp h
  obtain ⟨q,hr,_⟩ := valueType_ok h1
  cases result with
  | none => simp at h2
  | some found =>
    cases h2
    exact ⟨q,hr.symm⟩

theorem storedTypes_ok {τs : List Ty} {stored : List ValueType} (h : storedTypes fault τs p s = .ok (stored, t)) :
    s.Quiet p t ∧ List.Forall₂ (fun τ found => t.stored? τ = some found) τs stored := by
  induction τs generalizing s stored with
  | nil =>
    obtain ⟨rfl,rfl⟩ := pure_ok.mp h
    exact ⟨.refl p s,.nil⟩
  | cons τ τs ih =>
    obtain ⟨first,u,h1,h2⟩ := bind_ok.mp h
    obtain ⟨rest,h3,rfl⟩ := bind_pure_ok.mp h2
    obtain ⟨q1,hf⟩ := storedType_ok h1
    obtain ⟨q2,hr⟩ := ih h3
    exact ⟨q1.trans q2,.cons (q2.stored? hf) hr⟩

theorem arrayIndex_ok {element : Ty} (h : arrayIndex element p s = .ok (n, t)) :
    s.Quiet p t ∧ t.stored? (.array element) = some (.ref n) := by
  have hv : valueType (.array element) p s = .ok (some (.ref n), t) := by
    obtain ⟨inner,u,h1,h2⟩ := bind_ok.mp h
    exact bind_ok.mpr ⟨inner,u,h1,bind_ok.mpr ⟨n,t,h2,pure_ok.mpr ⟨rfl,rfl⟩⟩⟩
  obtain ⟨q,hr,_⟩ := valueType_ok hv
  exact ⟨q,hr.symm⟩

/-- A function of the program that is asked for the first time. -/
private theorem declared (hk : p.entities.kind id = .function d)
    (hid : s.funcs.lookup id = none) (hsig : s.Signs d f) (hx : f.exportName = none) {queue : List EntityId}
    (hq : queue = s.queue ++ [id] ∨ queue = s.queue ∧ ∃ module name, d.body = .host module name) (ht : t = { s with
      module := { s.module with funcs := s.module.funcs.push f }, queue := queue,
      funcs := (id, s.module.funcs.size) :: s.funcs }) : s.Grows p t := by
  subst ht
  have hlookup : ∀ {id' n}, ((id, s.module.funcs.size) :: s.funcs).lookup id' = some n →
      id' = id ∧ n = s.module.funcs.size ∨ id' ≠ id ∧ s.funcs.lookup id' = some n := by
    intro id' n hn
    rw [lookup_cons] at hn
    by_cases he : id' = id
    · subst he
      simp only [BEq.rfl,Option.some.injEq] at hn
      exact .inl ⟨rfl,hn.symm⟩
    · rw [beq_eq_false_iff_ne.mpr he] at hn
      exact .inr ⟨he,hn⟩
  have hfuncs : ∀ id' n, s.funcs.lookup id' = some n → ((id, s.module.funcs.size) :: s.funcs).lookup id' = some n := by
    intro id' n hn
    have he : id' ≠ id := by
      rintro rfl
      simp [hid] at hn
    rw [lookup_cons,beq_eq_false_iff_ne.mpr he]
    exact hn
  have hkept : ∀ (n : Nat) g, s.module.funcs[n]? = some g → (s.module.funcs.push f)[n]? = some g :=
    fun _ _ => getElem?_push_of_some
  have hlater : s.Later { s with
      module := { s.module with funcs := s.module.funcs.push f }, queue := queue,
      funcs := (id, s.module.funcs.size) :: s.funcs } :=
    { Later.refl s with
      funcs := hfuncs
      fresh := fun id' n hn => (hlookup hn).elim (fun h => .inr (Nat.le_of_eq h.2.symm)) fun h => .inl h.2
      entries := fun n g hg => ⟨g,hkept n g hg,rfl,rfl,rfl⟩
      helpers := fun n g hg _ => hkept n g hg }
  have hmem : ∀ id' ∈ queue, id' ∈ s.queue ∨ id' = id := by
    rcases hq with rfl | ⟨rfl,_⟩
    · simp
    · exact fun _ h => .inl h
  refine ⟨hlater,hkept,fun _ _ => unnamed_push hx,?_,?_,?_,fun hc => ⟨hc.structs,fun i d hd => hlater.isKnown (hc.arrays i d hd),
    ?_,?_,?_,?_,?_⟩⟩
  · rcases hq with rfl | ⟨rfl,_⟩
    · exact fun _ h => mem_append_left _ h
    · exact fun _ h => h
  · intro id' h
    rcases hmem id' h with h | rfl
    · exact .inl h
    · exact .inr hid
  · intro id' n hn
    rcases hlookup hn with ⟨rfl,_⟩ | ⟨_,hs⟩
    · refine .inr ?_
      rcases hq with rfl | ⟨_,m,name,hb⟩
      · exact .inl (mem_append_right _ (.head _))
      · exact .inr ⟨d,m,name,hk,hb⟩
    · exact .inl hs
  · intro id' n hn
    rcases hlookup hn with ⟨rfl,rfl⟩ | ⟨_,hs⟩
    · exact ⟨d,f,hk,by simp,hsig.later hlater⟩
    · obtain ⟨e,g,hk',hg,hsig'⟩ := hc.entry id' n hs
      exact ⟨e,g,hk',hkept n g hg,hsig'.later hlater⟩
  · have hsize : ∀ {id' : EntityId}, s.funcs.lookup id' ≠ some s.module.funcs.size := by
      intro id' hs
      obtain ⟨_,g,_,hg,_⟩ := hc.entry id' _ hs
      simp at hg
    intro a b n ha hb
    rcases hlookup ha with ⟨rfl,rfl⟩ | ⟨_,ha'⟩
    · rcases hlookup hb with ⟨rfl,_⟩ | ⟨_,hb'⟩
      · rfl
      · exact absurd hb' hsize
    · rcases hlookup hb with ⟨rfl,rfl⟩ | ⟨_,hb'⟩
      · exact absurd ha' hsize
      · exact hc.unshared a b n ha' hb'
  · rcases hq with rfl | ⟨rfl,_⟩
    · refine nodup_append.mpr ⟨hc.queue,List.pairwise_singleton _ _,?_⟩
      rintro a ha b hb rfl
      obtain ⟨n,hn⟩ := hc.known a ha
      rw [mem_singleton.mp hb,hid] at hn
      cases hn
    · exact hc.queue
  · intro id' hid'
    rcases hmem id' hid' with h | rfl
    · obtain ⟨n,hn⟩ := hc.known id' h
      exact ⟨n,hfuncs id' n hn⟩
    · exact ⟨s.module.funcs.size,lookup_cons_self⟩
  · intro n hn
    obtain ⟨hno,ids,exit,top,hi,hne,hg⟩ := hc.tester n hn
    refine ⟨fun id' hid' => ?_,ids,exit,top,hi,hne,hkept n _ hg⟩
    rcases hlookup hid' with ⟨rfl,rfl⟩ | ⟨_,hs⟩
    · simp at hg
    · exact hno id' hs

/-- What asking for a function leaves: its index, and no other function that was not there. A new one is empty. -/
structure Asked (s t : Emission) (id : EntityId) (n : Nat) : Prop where
  frame : t.frame = s.frame
  index : t.funcs.lookup id = some n
  others : ∀ f m, t.funcs.lookup f = some m → s.funcs.lookup f = some m ∨ f = id
  entries : ∀ (m : Nat) g, t.module.funcs[m]? = some g → s.module.funcs[m]? = some g ∨
    m = n ∧ g.locals = [] ∧ g.body = []
  tester : t.extendsFunction = s.extendsFunction
  counted : t.funcs = s.funcs ∧ t.module.funcs.size = s.module.funcs.size ∨ s.funcs.lookup id = none ∧
    t.funcs = (id, s.module.funcs.size) :: s.funcs ∧ t.module.funcs.size = s.module.funcs.size + 1

private theorem asked_of_push {v : Emission} (q : s.Quiet p v) (hid : s.funcs.lookup id = none)
    (hf : t.frame = v.frame) (hl : t.funcs = (id, v.module.funcs.size) :: v.funcs)
    (hm : t.module.funcs = v.module.funcs.push f) (hb : f.locals = [] ∧ f.body = [])
    (he : t.extendsFunction = v.extendsFunction) : Asked s t id v.module.funcs.size where
  frame := hf.trans q.frame
  index := hl ▸ lookup_cons_self
  others g m hg := by
    rw [hl,lookup_cons] at hg
    split at hg
    · rename_i he
      exact .inr (beq_iff_eq.mp he)
    · exact .inl (q.same ▸ hg)
  entries m g hg := by
    rw [hm,getElem?_push] at hg
    split at hg
    · exact .inr ⟨‹_›,Option.some.inj hg ▸ hb⟩
    · exact .inl (q.defined ▸ hg)
  tester := he.trans q.tester
  counted := .inr ⟨hid,by rw [hl,q.same,q.defined],by simp [hm,q.defined]⟩

/-- Asking for a function declares it if need be. -/
theorem functionIndex_ok (h : functionIndex id p s = .ok (n, t)) : s.Grows p t ∧ Asked s t id n := by
  have h2 := get_bind_ok.mp h
  cases hl : s.funcs.lookup id with
  | some index =>
    simp only [hl] at h2
    cases h2
    exact ⟨.refl p s,rfl,hl,fun _ _ h => .inl h,fun _ _ h => .inl h,rfl,.inl ⟨rfl,rfl⟩⟩
  | none =>
    simp only [hl] at h2
    have h4 := read_bind_ok.mp h2
    cases hk : p.entities.function? id with
    | none => simp [hk] at h4
    | some d =>
      simp only [hk] at h4
      obtain ⟨params,u,h5,h6⟩ := bind_ok.mp h4
      obtain ⟨result,v,h7,h8⟩ := bind_ok.mp h6
      obtain ⟨_,_,h9,h10⟩ := bind_ok.mp h8
      obtain ⟨rfl,rfl⟩ := displayName_ok.mp h9
      obtain ⟨q1,hparams⟩ := storedTypes_ok h5
      obtain ⟨q2,hresult,hvalue⟩ := valueType_ok h7
      have hk' := EntityTable.function?_eq_some.mp hk
      have hv : v.funcs.lookup id = none := by rw [(q1.trans q2).same,hl]
      have hparams' := hparams.imp fun _ _ => q2.stored?
      have waits : (do
          let index ← modifyModule (·.declareFunc s!"{p.entities.displayName id}_{id.index}" params result)
          modify fun s => { s with queue := s.queue ++ [id] }
          let index ← pure index
          modify fun s => { s with funcs := (id, index) :: s.funcs }
          return index : Lower Nat) p v = .ok (n, t) →
          (none = match d.body with
            | .host module name => some (⟨module,name⟩ : Wasm.ImportName)
            | _ => none) →
          s.Grows p t ∧ Asked s t id n := by
        intro hrun hhost
        have h12 := modifyModule_bind_ok.mp hrun
        have h14 := modify_bind_ok.mp h12
        obtain ⟨_,w,h15,h16⟩ := bind_ok.mp h14
        cases h15
        have h18 := modify_bind_ok.mp h16
        cases h18
        exact ⟨(q1.trans q2).toGrows.trans (declared hk' hv ⟨hparams',hresult,hvalue,hhost⟩ rfl (.inl rfl) rfl),
          asked_of_push (q1.trans q2) hl rfl rfl rfl ⟨rfl,rfl⟩ rfl⟩
      cases hb : d.body with
      | host module source =>
        simp only [hb] at h10
        have h12 := modifyModule_bind_ok.mp h10
        have h14 := modify_bind_ok.mp h12
        cases h14
        exact ⟨(q1.trans q2).toGrows.trans (declared hk' hv ⟨hparams',hresult,hvalue,by simp [hb]⟩ rfl
          (.inr ⟨rfl,module,source,hb⟩) rfl),asked_of_push (q1.trans q2) hl rfl rfl rfl ⟨rfl,rfl⟩ rfl⟩
      | expr | intrinsic =>
        rw [hb] at h10
        exact waits h10 (by rw [hb])

end Lower

end FormCompiler
