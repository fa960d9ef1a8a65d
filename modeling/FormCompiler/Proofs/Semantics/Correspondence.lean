import FormCompiler.Proofs.Lowering.AncestorTest
import FormCompiler.Proofs.Wasm.Refilling

/-! How evaluation and the machine correspond: addresses are the same, a cell is what the machine has there, and both
end alike. The machine keeps the ancestors of objects in cells that evaluation leaves alone. -/

namespace FormCompiler

open Array

open Wasm (Activation AllTyped Exec Flow Func HeapObject Instance Instr Module Stop Store StoreTyped Trap Value ValueType)
open Lower

namespace Semantics

variable {address : Nat} {values : Array Value} {store : Store} {element : Ty} {h : State}

/-! ### Ends -/

def Halt.stop? : Halt → Option Stop
  | trap cause => some (.trap cause)
  | exhausted => some (.trap .callStackExhausted)
  | unfinished => some .unfinished
  | stuck => none

/-- A match on values without an arm for all other cases, in the body of a function that is reached. -/
def PartialMatch (p : Program) (exports : List (String × EntityId)) : Prop :=
  ∃ f d node m, p.Reached exports f ∧ p.entities.kind f = .function d ∧ d.Covers node ∧
    (p.exprs.get node).shape = .select m ∧ m.isTypeGuard = false ∧ m.default = none

/-- How a halt can come about. -/
inductive Halt.Arises (p : Program) (exports : List (String × EntityId)) (hosts : Wasm.Hosts) : Halt → Prop
  | exhausted : Arises p exports hosts .exhausted
  | unfinished : Arises p exports hosts .unfinished
  | reported {source host args store stop after halt} : hosts source = some host → host args store = .error stop after →
      halt.stop? = some stop → Arises p exports hosts halt
  | noCase : PartialMatch p exports → Arises p exports hosts (.trap .unreachable)
  | operation {cause} : cause ≠ .unreachable → (∀ type, cause ≠ .castFailure type) →
      (∀ fault, cause ≠ .malformed fault) → Arises p exports hosts (.trap cause)

/-! ### States -/

/-- What the machine has at an address for a cell. -/
inductive CellOf (p : Program) (E : Emission) (address : Nat) : Cell → HeapObject → Prop
  | reserved {o} : (chainHeap (structured p E))[address]? = some o → CellOf p E address .reserved o
  | object {type struct chain} {fields : List Value} : E.structs.lookup type = some struct →
      E.chains.lookup type = some chain →
      CellOf p E address (.object type fields) (.struct struct (.ref (some chain) :: fields).toArray)
  | array {element n} {values : Array Value} : E.stored? (.array element) = some (.ref n) →
      CellOf p E address (.array element values) (.array n values)

/-- The machine's objects are those of the program, address by address, and the host was asked the same and keeps the
same. -/
structure Mirrors (p : Program) (E : Emission) (w : World) (store : Store) : Prop where
  log : store.log = w.log
  memory : store.memory = w.memory
  size : store.heap.size = w.cells.size
  cells : ∀ (address : Nat) cell o, w.cells[address]? = some cell → store.heap[address]? = some o →
    CellOf p E address cell o
  ancestors : ∀ (address : Nat) o, (chainHeap (structured p E))[address]? = some o → w.cells[address]? = some .reserved

namespace Mirrors

variable {p : Program} {E : Emission} {w : World} {o : HeapObject}

theorem cell (h : Mirrors p E w store) (ho : store.heap[address]? = some o) :
    ∃ cell, w.cells[address]? = some cell ∧ CellOf p E address cell o := by
  have hlt := (Array.getElem?_eq_some_iff.mp ho).1
  rw [h.size] at hlt
  exact ⟨_,Array.getElem?_eq_getElem hlt,h.cells address _ o (Array.getElem?_eq_getElem hlt) ho⟩

/-- The ancestors stay. -/
theorem ancestor (h : Mirrors p E w store) (ho : (chainHeap (structured p E))[address]? = some o) :
    store.heap[address]? = some o := by
  have hc := h.ancestors address o ho
  have hlt := (Array.getElem?_eq_some_iff.mp hc).1
  rw [← h.size] at hlt
  have hcell := h.cells address _ _ hc (getElem?_eq_getElem hlt)
  cases hcell with
  | reserved hr =>
    rw [getElem?_eq_getElem hlt,← hr,ho]

theorem push (h : Mirrors p E w store) {cell : Cell} (hc : CellOf p E w.cells.size cell o) :
    Mirrors p E { w with cells := w.cells.push cell } { store with heap := store.heap.push o } where
  log := h.log
  memory := h.memory
  size := by simp [h.size]
  cells address c o' hcell ho := by
    rw [getElem?_push] at hcell ho
    rw [h.size] at ho
    split at hcell
    · rename_i he
      rw [if_pos he] at ho
      cases hcell
      cases ho
      exact he ▸ hc
    · rename_i he
      rw [if_neg he] at ho
      exact h.cells address c o' hcell ho
  ancestors address o' ho := by
    have hcell := h.ancestors address o' ho
    have hlt := (Array.getElem?_eq_some_iff.mp hcell).1
    rw [Array.getElem?_push,if_neg (by omega),hcell]

/-- Writing to an array. -/
theorem set (h : Mirrors p E w store) {n : Nat} {later : Array Value}
    (hc : w.cells[address]? = some (.array element values)) (hn : E.stored? (.array element) = some (.ref n)) :
    Mirrors p E { w with cells := w.cells.setIfInBounds address (.array element later) }
      { store with heap := store.heap.setIfInBounds address (.array n later) } where
  log := h.log
  memory := h.memory
  size := by simp [h.size]
  cells k c o' hcell ho := by
    rw [getElem?_setIfInBounds] at hcell ho
    split at hcell
    · rename_i he
      subst he
      simp only [h.size] at ho
      split at hcell
      · rename_i hlt
        cases hcell
        simp only [if_true,if_pos hlt,Option.some.injEq] at ho
        subst ho
        exact .array hn
      · cases hcell
    · rename_i he
      rw [if_neg he] at ho
      exact h.cells k c o' hcell ho
  ancestors k o' ho := by
    have hcell := h.ancestors k o' ho
    rw [getElem?_setIfInBounds]
    split
    · rename_i he
      subst he
      rw [hc] at hcell
      cases hcell
    · exact hcell

/-- What the machine has is determined by what the program has. -/
theorem unique {store' : Store} (h : Mirrors p E w store) (h' : Mirrors p E w store') : store = store' := by
  have hheap : store.heap = store'.heap := by
    refine Array.ext (h.size.trans h'.size.symm) fun k hk hk' => ?_
    obtain ⟨cell,hc,hcell⟩ := h.cell (getElem?_eq_getElem hk)
    have hcell' := h'.cells k cell _ hc (getElem?_eq_getElem hk')
    generalize store.heap[k] = o at hcell
    generalize store'.heap[k] = o' at hcell'
    cases hcell with
    | reserved ho =>
      cases hcell' with
      | reserved ho' => exact Option.some.inj (ho.symm.trans ho')
    | object hs hg =>
      cases hcell' with
      | object hs' hg' =>
        cases hs.symm.trans hs'
        cases hg.symm.trans hg'
        rfl
    | array hn =>
      cases hcell' with
      | array hn' =>
        cases hn.symm.trans hn'
        rfl
  have hlog := h.log.trans h'.log.symm
  have hmemory := h.memory.trans h'.memory.symm
  cases store
  cases store'
  simp_all

end Mirrors

def World.initial (p : Program) (E : Emission) : World := { cells := Array.replicate (structured p E).length .reserved }

theorem mirrors_initial (p : Program) (E : Emission) :
    Mirrors p E (World.initial p E) { heap := chainHeap (structured p E) } where
  log := rfl
  memory := rfl
  size := by simp [World.initial]
  cells address cell o hc ho := by
    simp only [World.initial,getElem?_replicate] at hc
    split at hc
    · cases hc
      exact .reserved ho
    · cases hc
  ancestors address o ho := by
    have hlt := (Array.getElem?_eq_some_iff.mp ho).1
    rw [size_chainHeap] at hlt
    simp [World.initial,hlt]

/-- The activation has the values of the variables where they live, and all with their types. -/
structure Linked (p : Program) (E : Emission) (i : Instance) (L : Layout) (h : State) (s : Activation) : Prop where
  mirrors : Mirrors p E h.world s.store
  vars : ∀ v n, L.vars.lookup v = some n → s.locals[n]? = some (h.vars v)
  proper : Wasm.Proper ⟨i.module,L.slots⟩ i.globals s

/-! ### Runs -/

theorem bind_run {ε σ α β : Type} (x : EStateM ε σ α) (f : α → EStateM ε σ β) (h : σ) : (x >>= f) h = match x h with
      | .ok a h' => f a h'
      | .error e h' => .error e h' := by
  show EStateM.bind x f h = _
  unfold EStateM.bind
  cases x h <;> rfl

theorem Eval.follow_some {cell : Cell} (hc : h.world.cells[address]? = some cell) :
    Eval.follow (.ref (some address)) h = .ok (address, cell) h := by
  have hget : (get : Eval State) h = .ok h h := rfl
  rw [Eval.follow,bind_run,hget]
  simp only [hc]
  rfl

theorem Eval.elements_run (hc : h.world.cells[address]? = some (.array element values)) :
    Eval.elements address h = .ok (element, values) h := by
  have hget : (get : Eval State) h = .ok h h := rfl
  rw [Eval.elements,bind_run,hget]
  simp only [hc]
  rfl

theorem Eval.place_run {index : Int32} {length : Nat} :
    Eval.place index length h = if 0 ≤ index.toInt ∧ index.toInt < length then .ok index.toInt.toNat h
      else .error (.trap (.outOfBounds index length)) h := by
  unfold Eval.place
  split <;> rfl

section Tied

variable {σ τ α β γ δ : Type} (R : Halt → σ → τ → Prop) {y : EStateM.Result Stop τ β}

/-- Two runs that end alike: with results that `P` relates, or with a halt that the machine reports. -/
def Tied (P : α → σ → β → τ → Prop) : EStateM.Result Halt σ α → EStateM.Result Stop τ β → Prop
  | .ok a h, .ok b s => P a h b s
  | .error halt h, .error stop s => halt.stop? = some stop ∧ R halt h s
  | _, _ => False

variable {R} {P : α → σ → β → τ → Prop} {Q : γ → σ → δ → τ → Prop} {h : σ} {s : τ}

theorem Tied.bind {x : EStateM Halt σ α} {f : α → EStateM Halt σ γ} {y : EStateM Stop τ β}
    {g : β → EStateM Stop τ δ} (hx : Tied R P (x h) (y s))
    (hf : ∀ a h' b s', P a h' b s' → Tied R Q (f a h') (g b s')) : Tied R Q ((x >>= f) h) ((y >>= g) s) := by
  rw [bind_run,bind_run]
  cases hxr : x h with
  | ok a h' =>
    cases hyr : y s with
    | ok b s' =>
      rw [hxr,hyr] at hx
      exact hf a h' b s' hx
    | error stop s' =>
      rw [hxr,hyr] at hx
      exact hx.elim
  | error halt h' =>
    cases hyr : y s with
    | ok b s' =>
      rw [hxr,hyr] at hx
      exact hx.elim
    | error stop s' =>
      rw [hxr,hyr] at hx
      exact hx

/-- Both halt, or both give a result. -/
theorem Tied.elim {x : EStateM.Result Halt σ α} (hx : Tied R P x y) :
    (∃ halt h' stop s', x = .error halt h' ∧ y = .error stop s' ∧ halt.stop? = some stop ∧ R halt h' s') ∨
      ∃ a h' b s', x = .ok a h' ∧ y = .ok b s' ∧ P a h' b s' := by
  cases x with
  | ok a h' =>
    cases y with
    | ok b s' => exact .inr ⟨a,h',b,s',rfl,rfl,hx⟩
    | error stop s' => exact False.elim hx
  | error halt h' =>
    cases y with
    | ok b s' => exact False.elim hx
    | error stop s' => exact .inl ⟨halt,h',stop,s',rfl,rfl,hx⟩

theorem Tied.of_ok {a : α} (hx : Tied R P (.ok a h) y) : ∃ b s, y = .ok b s ∧ P a h b s := by
  cases y with
  | ok b s => exact ⟨b,s,rfl,hx⟩
  | error stop s => exact False.elim hx

theorem Tied.of_error {halt : Halt} (hx : Tied R P (.error halt h) y) :
    ∃ stop s, y = .error stop s ∧ halt.stop? = some stop ∧ R halt h s := by
  cases y with
  | ok b s => exact False.elim hx
  | error stop s => exact ⟨stop,s,rfl,hx⟩

end Tied

/-! ### Hosts -/

/-- The machine gives the value that evaluation gives, and their objects stay the same. -/
abbrev Gives (p : Program) (E : Emission) (v : Option Value) (w : World) (v' : Option Value) (store : Store) : Prop :=
  v' = v ∧ Mirrors p E w store

/-- Hosts let the machine's objects be those of a program: what they build has the ancestors of its type, and the
ancestors stay. -/
def HostsMirrored (p : Program) (E : Emission) (i : Instance) : Prop :=
  ∀ source host, i.hosts source = some host → ∀ f ∈ i.module.funcs.toList, f.host? = some source →
    ∀ args w store, Mirrors p E w store → StoreTyped i.module i.globals store →
      AllTyped i.module store.heap args f.params → ∃ w', Mirrors p E w' (Wasm.leftBy (host args store))

/-- The hosts of an evaluation do to cells what those of the machine do to objects. -/
def HostsAgree (p : Program) (E : Emission) (i : Instance) (asks : Hosts) : Prop :=
  ∀ source, (asks source).isSome = (i.hosts source).isSome ∧ ∀ ask host, asks source = some ask →
    i.hosts source = some host → ∀ f ∈ i.module.funcs.toList, f.host? = some source →
    ∀ args w store, Mirrors p E w store → StoreTyped i.module i.globals store →
      AllTyped i.module store.heap args f.params →
      Tied (fun _ => Mirrors p E) (Gives p E) (ask args w) (host args store)

def Halt.ofStop : Stop → Halt
  | .trap cause => .trap cause
  | .unfinished => .unfinished

section

open Classical

variable {i : Instance} (p : Program) (E : Emission)

/-- A world for a store, if there is one. -/
noncomputable def worldOf (store : Store) : World :=
  if h : ∃ w, Mirrors p E w store then h.choose else {}

/-- What a host does to cells, by what it does to the objects there. -/
noncomputable def askBy (host : List Value → Wasm.Between (Option Value)) (args : List Value) : Between (Option Value) :=
  fun w =>
    if h : ∃ store, Mirrors p E w store then
      match host args h.choose with
      | .ok v store => .ok v (worldOf p E store)
      | .error stop store => .error (.ofStop stop) (worldOf p E store)
    else .error .stuck w

variable {p E}

theorem mirrors_worldOf {w : World} (h : Mirrors p E w store) : Mirrors p E (worldOf p E store) store := by
  have hex : ∃ w, Mirrors p E w store := ⟨w,h⟩
  rw [worldOf,dif_pos hex]
  exact hex.choose_spec

theorem HostsAgree.mirrored {hosts : Hosts} (h : HostsAgree p E i hosts) : HostsMirrored p E i := by
  intro source host hhost f hf hh args w store hm hs hargs
  obtain ⟨hsome,hagree⟩ := h source
  obtain ⟨ask,hask⟩ : ∃ ask, hosts source = some ask := by simpa [hhost,Option.isSome_iff_exists] using hsome
  rcases (hagree ask host hask hhost f hf hh args w store hm hs hargs).elim with
    ⟨_,w',_,_,_,hr,_,hm'⟩ | ⟨_,w',_,_,_,hr,_,hm'⟩
  · exact ⟨w',hr ▸ hm'⟩
  · exact ⟨w',hr ▸ hm'⟩

/-- Where the hosts of a machine leave objects of the program, there are hosts for evaluation that do the same. -/
theorem HostsMirrored.exists_hosts (h : HostsMirrored p E i) : ∃ hosts, HostsAgree p E i hosts := by
  refine ⟨fun source => (i.hosts source).map (askBy p E),fun source => ⟨Option.isSome_map,?_⟩⟩
  intro ask host hask hhost f hf hh args w store hm hs hargs
  simp only [hhost,Option.map_some] at hask
  cases hask
  obtain ⟨w',hleft⟩ := h source host hhost f hf hh args w store hm hs hargs
  have hex : ∃ store, Mirrors p E w store := ⟨store,hm⟩
  rw [askBy,dif_pos hex,hex.choose_spec.unique hm]
  cases hr : host args store with
  | ok v after =>
    rw [hr] at hleft
    exact ⟨rfl,mirrors_worldOf hleft⟩
  | error stop after =>
    rw [hr] at hleft
    exact ⟨by cases stop <;> rfl,mirrors_worldOf hleft⟩

end

end Semantics

end FormCompiler
