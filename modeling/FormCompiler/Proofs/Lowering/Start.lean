import FormCompiler.Proofs.Lowering.Whole
import FormCompiler.Proofs.Wasm.Soundness

/-! A module that is ready to run: its heap holds the ancestors of each object, and its globals refer to
them. -/

namespace FormCompiler

open Wasm Exec List

namespace Lower

def chainHeap (objects : List (EntityId × List EntityId)) : Heap :=
  (objects.map fun x => HeapObject.array 0 (x.2.map fun ancestor => Value.i32 (runtimeId ancestor)).toArray).toArray

def firstRefs (count : Nat) : Array Value := ((List.range count).map fun k => Value.ref (some k)).toArray

private theorem runOperands_constants {env : Surroundings} {s : Activation} (ids : List EntityId)
    (use : List Value → Exec Flow) :
    runOperands env (ids.map fun i => .i32Const (runtimeId i)) use s = use (ids.map fun i => .i32 (runtimeId i)) s := by
  induction ids generalizing use with
  | nil => rw [map_nil,runOperands]; rfl
  | cons i ids ih =>
    have hi : (Instr.i32Const (runtimeId i)).run env s = .ok (.next (some (.i32 (runtimeId i)))) s := rfl
    rw [map_cons,runOperands_next hi,ih]
    rfl

private theorem addGlobal_chain (p : Program) (m : Module) (objects : List (EntityId × List EntityId))
    (x : EntityId × List EntityId) :
    Instance.addGlobal { module := m, globals := firstRefs objects.length } (chainGlobalOf p 0 x)
        { heap := chainHeap objects } =
      .ok { module := m, globals := firstRefs (objects ++ [x]).length } { heap := chainHeap (objects ++ [x]) } := by
  unfold Instance.addGlobal chainGlobalOf
  simp only [Instr.run,runOperands_constants]
  simp [allocate,Exec.bind_run,chainHeap,firstRefs,range_succ]

/-- Computing the globals of a module whose globals are arrays of ancestors. -/
private theorem foldlM_addGlobal (p : Program) (m : Module) (done rest : List (EntityId × List EntityId)) :
    (rest.map (chainGlobalOf p 0)).foldlM Instance.addGlobal { module := m, globals := firstRefs done.length }
        { heap := chainHeap done } =
      .ok { module := m, globals := firstRefs (done ++ rest).length } { heap := chainHeap (done ++ rest) } := by
  induction rest generalizing done with
  | nil => simp; rfl
  | cons x rest ih =>
    show EStateM.bind _ _ _ = _
    simp only [EStateM.bind,addGlobal_chain]
    simpa using ih (done ++ [x])

def structured (p : Program) (E : Emission) : List (EntityId × List EntityId) :=
  if E.idsArray.isSome then objectsInOrder p else []

variable {p : Program} {E : Emission} {object : EntityId} {n : Nat}

theorem Populated.structured_eq (h : Populated p E) : structured p E = objectsInOrder p := by
  simp [structured,h.idsArray]

theorem Objects.globals_eq (h : Objects p E) : E.module.globals.toList = (structured p E).map (chainGlobalOf p 0) := by
  rcases h with h | h
  · rw [h.structured_eq,h.globals]
  · simp [structured,h.idsArray,h.globals]

/-- A module becomes ready to run. -/
theorem Objects.ofModule (h : Objects p E) : Instance.ofModule E.module {} =
    .ok { module := E.module, globals := firstRefs (structured p E).length } { heap := chainHeap (structured p E) } := by
  unfold Instance.ofModule
  rw [h.globals_eq]
  exact foldlM_addGlobal p E.module [] (structured p E)

@[simp] theorem size_chainHeap (objects : List (EntityId × List EntityId)) :
    (chainHeap objects).size = objects.length := by
  simp [chainHeap]

/-- What a machine starts with are arrays of numbers that no code can write to. -/
theorem Objects.reserved_type (h : Objects p E) {address : Nat} {o : HeapObject}
    (ho : (chainHeap (structured p E))[address]? = some o) :
    E.module.types[o.type]? = some (.array ⟨"array_0",.i32,false⟩) := by
  rcases h with hO | hO
  · have htype : o.type = 0 := by
      simp only [chainHeap,getElem?_toArray,getElem?_map,Option.map_eq_some_iff] at ho
      obtain ⟨_,_,rfl⟩ := ho
      rfl
    rw [htype]
    exact hO.ids
  · simp [structured,hO.idsArray,chainHeap] at ho

/-- The ancestors that a machine starts with have their types. -/
theorem Objects.storeTyped (h : Objects p E) :
    StoreTyped E.module (firstRefs (structured p E).length) { heap := chainHeap (structured p E) } where
  objects address o ho := by
    have htype := h.reserved_type ho
    simp only [chainHeap,getElem?_toArray,getElem?_map,Option.map_eq_some_iff] at ho
    obtain ⟨x,_,rfl⟩ := ho
    have harray : E.module.array? 0 = some ⟨"array_0",.i32,false⟩ := by
      unfold Wasm.Module.array?
      rw [show E.module.types[0]? = _ from htype]
    refine ⟨_,harray,fun v hv => ?_⟩
    simp only [mem_map] at hv
    obtain ⟨ancestor,_,rfl⟩ := hv
    exact ⟨_,rfl⟩
  globals index g hg := by
    rw [← Array.getElem?_toList,h.globals_eq,List.getElem?_map] at hg
    obtain ⟨x,hx,rfl⟩ := Option.map_eq_some_iff.mp hg
    have hlt := (List.getElem?_eq_some_iff.mp hx).1
    have hheap : (chainHeap (structured p E))[index]? =
        some (.array 0 (x.2.map fun ancestor => Value.i32 (runtimeId ancestor)).toArray) := by
      simp [chainHeap,hx]
    exact ⟨.ref (some index),by simp [firstRefs,hlt],.inr ⟨index,_,rfl,hheap,Wasm.Module.isSubtype_refl _ _⟩⟩
  memory _ := nofun

/-- The global of an object refers to its ancestors. -/
theorem Populated.global (h : Populated p E) (hn : E.chains.lookup object = some n) :
    (firstRefs (structured p E).length)[n]? = some (.ref (some n)) ∧
      ∃ chain, (objectsInOrder p)[n]? = some (object, chain) ∧
        (chainHeap (structured p E))[n]? = some (.array 0 ((chain.map runtimeId).map Value.i32).toArray) := by
  obtain ⟨chain,hc⟩ := (h.chains object n).mp hn
  obtain ⟨hlt,_⟩ := List.getElem?_eq_some_iff.mp hc
  rw [h.structured_eq]
  refine ⟨by simp [firstRefs,hlt],chain,hc,?_⟩
  simp [chainHeap,hc]

end Lower

end FormCompiler
