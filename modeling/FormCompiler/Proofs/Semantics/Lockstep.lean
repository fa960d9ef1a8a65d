import FormCompiler.Proofs.Semantics.Correspondence

/-! The code of a program runs as the program is evaluated, step for step. One induction follows the nodes of a body,
another the nesting of calls; what a node does is shown for any evaluation and any code of its parts that agree. -/

namespace FormCompiler

open Wasm (Activation AllTyped Exec Flow Func HeapObject Instance Instr LabelId Module NumType Proper Sound StoreTyped
  Stop Store Surroundings Trap Value ValueType refill refillAll resultTyped runAll runOperands)
open Lower
open List (Forall₂)

namespace Semantics

variable {exports : List (String × EntityId)} {filler code : Instr} {E : Emission} {i : Instance} {p : Program}
  {v : Value} {L : Layout} {address n struct : Nat}

/-- A machine with the code of a program. Where no test of a match on types fires, `filler` stands. -/
structure Ready (p : Program) (exports : List (String × EntityId)) (E : Emission) (filler : Instr) (i : Instance) :
    Prop where
  resolved : p.WellResolved
  exportsOk : p.ExportsOk exports
  lowered : Lowered p exports E
  dead : filler.Dead
  module : i.module = E.module.refill filler
  globals : i.globals = firstRefs (structured p E).length
  entities : p.entities.size < 0x80000000
  exprs : p.exprs.size ≤ 0x80000000
  rounds : p.entities.size < i.rounds
  hosts : i.HostsTyped

namespace Ready

variable (hR : Ready p exports E filler i)
include hR

theorem layered : i.module.Layered := by
  rw [hR.module]
  exact (hR.lowered.objects.layered hR.resolved.inv).refill

private theorem struct? (n : Nat) : i.module.struct? n = E.module.struct? n := by
  rw [hR.module]
  rfl

private theorem array? (n : Nat) : i.module.array? n = E.module.array? n := by
  rw [hR.module]
  rfl

theorem isSubtype (a b : Nat) : i.module.isSubtype a b = E.module.isSubtype a b := by
  rw [hR.module,Module.isSubtype_refill]

private theorem fits (a b : ValueType) : a.fits i.module b = a.fits E.module b := by
  rw [hR.module,ValueType.fits_refill]

theorem func (n : Nat) : i.module.funcs[n]? = E.module.funcs[n]?.map (·.refill filler) := by
  rw [hR.module,Module.getElem?_funcs_refill]

theorem ending? {x : Wasm.Exits} {e : Wasm.Ending}
    (h : code.ending? (contextOf E L) x = some e) : (refill filler code).ending? ⟨i.module,L.slots⟩ x = some e := by
  rw [hR.module,Wasm.ending?_refill hR.dead]
  exact h

/-- Every call keeps the types. -/
theorem invoke_sound (levels : Nat) : Wasm.InvokeSound i.module i.globals (i.callWithin levels) := by
  refine Wasm.callWithin_sound hR.layered hR.hosts (fun f hf hh => ?_) levels
  rw [hR.module] at hf ⊢
  simp only [Module.refill,Array.toList_map,List.mem_map] at hf
  obtain ⟨g,hg,rfl⟩ := hf
  obtain ⟨n,hn⟩ := List.mem_iff_getElem?.mp hg
  rw [Func.typed_refill hR.dead]
  exact (hR.lowered.func_wellTyped hR.resolved hR.exportsOk (Array.getElem?_toList ▸ hn)).body hh

end Ready

/-! ### References -/

section References

variable (hR : Ready p exports E filler i) {w : World} {store : Store}
include hR

/-- Reserved cells are arrays of numbers that no code can write to. -/
theorem reserved_type {o : HeapObject} (ho : (chainHeap (structured p E))[address]? = some o) :
    i.module.types[o.type]? = some (.array ⟨"array_0",.i32,false⟩) := by
  rw [hR.module]
  exact hR.lowered.objects.reserved_type ho

/-- A reference to an object is null or leads to one of a type below. -/
theorem object_cell (hm : Mirrors p E w store) {C : EntityId}
    (hs : E.structs.lookup C = some struct) (hv : v.HasType i.module store.heap (.ref struct)) :
    v = .ref none ∨ ∃ address T fields sub chain, v = .ref (some address) ∧
      w.cells[address]? = some (.object T fields) ∧
      store.heap[address]? = some (.struct sub (.ref (some chain) :: fields).toArray) ∧
      E.structs.lookup T = some sub ∧ E.chains.lookup T = some chain ∧ p.entities.Extends T C := by
  rcases hv with rfl | ⟨address,o,rfl,ho,hsub⟩
  · exact .inl rfl
  refine .inr ?_
  have hO := hR.lowered.objects.populated hs
  obtain ⟨name,fields,hstruct,_⟩ := hO.struct? hs
  rw [← hR.struct?] at hstruct
  obtain ⟨d,hd,_⟩ := Module.fields_of_isSubtype hR.layered hsub hstruct
  obtain ⟨cell,hc,hcell⟩ := hm.cell ho
  cases hcell with
  | reserved hr =>
    have hids := reserved_type hR hr
    simp [Module.struct?,hids] at hd
  | array hn =>
    obtain ⟨_,_,_,harray⟩ := array?_of_stored? hn
    rw [← hR.array?] at harray
    exact absurd harray (Module.array?_ne_struct? hd)
  | @object T sub chain fields hT hchain =>
    rw [hR.isSubtype] at hsub
    exact ⟨address,T,fields,sub,chain,rfl,hc,ho,hT,hchain,(hO.isSubtype_iff hR.resolved.inv hT hs).mp hsub⟩

/-- A reference to an array is null or leads to one. -/
theorem array_cell (hm : Mirrors p E w store) {τ : Ty}
    (hn : E.stored? (.array τ) = some (.ref n)) (hv : v.HasType i.module store.heap (.ref n)) :
    v = .ref none ∨ ∃ address element values, v = .ref (some address) ∧
      w.cells[address]? = some (.array element values) ∧ store.heap[address]? = some (.array n values) ∧
      E.stored? (.array element) = some (.ref n) := by
  rcases hv with rfl | ⟨address,o,rfl,ho,hsub⟩
  · exact .inl rfl
  refine .inr ?_
  obtain ⟨name,inner,_,harray⟩ := array?_of_stored? hn
  rw [← hR.array?] at harray
  have htype := Module.eq_of_isSubtype_array hR.layered hsub harray
  obtain ⟨cell,hc,hcell⟩ := hm.cell ho
  cases hcell with
  | reserved hr =>
    have hids := reserved_type hR hr
    simp [Module.array?,← htype,hids] at harray
  | @object T sub chain fields hT hchain =>
    obtain ⟨_,_,hstruct,_⟩ := (hR.lowered.objects.populated hT).struct? hT
    rw [← hR.struct?] at hstruct
    cases htype
    exact absurd harray (Module.array?_ne_struct? hstruct)
  | @array element n' values hn' =>
    cases htype
    exact ⟨address,element,values,rfl,hc,ho,hn'⟩

end References

/-- How an evaluation in an activation can end early. -/
def Ends (p : Program) (exports : List (String × EntityId)) (E : Emission) (i : Instance) (halt : Halt) (h : State)
    (s : Activation) : Prop :=
  Mirrors p E h.world s.store ∧ halt.Arises p exports i.hosts

def Answers (p : Program) (exports : List (String × EntityId)) (E : Emission) (i : Instance) (halt : Halt) (w : World)
    (store : Store) : Prop :=
  Mirrors p E w store ∧ halt.Arises p exports i.hosts

structure Lands (p : Program) (E : Emission) (i : Instance) (L : Layout) (s : Activation) (type : Option ValueType)
    (value : Option Value) (h' : State) (flow : Flow) (s' : Activation) : Prop where
  flow : flow = .next value
  linked : Linked p E i L h' s'
  later : s.store.heap.Le s'.store.heap
  typed : resultTyped i.module s'.store.heap value type

structure Meets (p : Program) (E : Emission) (L : Layout) (value : Option Value) (h' : State) (flow : Flow)
    (s' : Activation) : Prop where
  flow : flow = .next value
  mirrors : Mirrors p E h'.world s'.store
  vars : ∀ v n, L.vars.lookup v = some n → s'.locals[n]? = some (h'.vars v)

section Nodes

variable {use : List Value → Exec Flow} {given : List (String × ExprId)} {s : Activation} {callee object var : EntityId}
  {τs : List Ty} {body id test : ExprId} {exit top : LabelId} {codes : List Instr} {t : Instr} {type : ValueType}
  {α : Type} {τ σ : Ty} {ids : List ExprId} {slot : Nat} {Q : α → State → Flow → Activation → Prop}

/-- Types come from the code. -/
theorem Tied.typed {x : EStateM.Result Halt State (Option Value)} {run : Exec Flow}
    {type : Option ValueType} (h : Tied (Ends p exports E i) (Meets p E L) x (run s))
    (hs : Proper ⟨i.module,L.slots⟩ i.globals s) (hsound : Sound ⟨i.module,L.slots⟩ i.globals {} (.next type) run) :
    Tied (Ends p exports E i) (Lands p E i L s type) x (run s) := by
  have hrun := hsound s hs
  rcases h.elim with ⟨halt,h',stop,s',rfl,hr,hend⟩ | ⟨value,h',flow,s',rfl,hr,rfl,hmirrors,hvars⟩
  · rw [hr]
    exact hend
  · rw [hr] at hrun ⊢
    obtain ⟨hproper,hle,t,he,hv⟩ := hrun
    cases he
    exact ⟨rfl,⟨hmirrors,hvars,hproper⟩,hle,hv⟩

/-- A halt on the way, where both are. -/
theorem Tied.halt {β : Type} {P : α → State → β → Activation → Prop} {halt : Halt} {stop : Stop} {h : State}
    (hl : Mirrors p E h.world s.store) (hstop : halt.stop? = some stop)
    (ha : halt.Arises p exports i.hosts) : Tied (Ends p exports E i) P (.error halt h) (.error stop s) := ⟨hstop,hl,ha⟩

variable {env : Surroundings} {part : ExprId → Instr → Prop} {ev : ExprId → Eval (Option Value)}

def Unshared (L : Layout) : Prop := ∀ v w n, L.vars.lookup v = some n → L.vars.lookup w = some n → v = w

def PartsAgree (p : Program) (exports : List (String × EntityId)) (E : Emission) (filler : Instr) (i : Instance)
    (L : Layout) (env : Surroundings) (part : ExprId → Instr → Prop) (ev : ExprId → Eval (Option Value)) : Prop :=
  ∀ {id code τ}, part id code → p.Typed id τ → ∀ {h s}, Linked p E i L h s →
    Tied (Ends p exports E i) (Lands p E i L s (E.stored? τ)) (ev id h) ((refill filler code).run env s)

variable (hR : Ready p exports E filler i) (hG : Grounds p E L) (hP : PartsLeave p E L part)
  (hA : PartsAgree p exports E filler i L env part ev) {h : State}
include hR hG hP hA

/-! ### Operands -/

omit hR hG hP in
/-- An operand of a type that has values. -/
theorem operand_tied_of_typed (hc : part id code) (ht : p.Typed id σ) (hs : E.stored? σ = some type)
    {k : Value → Eval α} {use : Value → Exec Flow}
    (hl : Linked p E i L h s) (hk : ∀ v h' s', Linked p E i L h' s' → s.store.heap.Le s'.store.heap →
      v.HasType i.module s'.store.heap type → Tied (Ends p exports E i) Q (k v h') (use v s')) :
    Tied (Ends p exports E i) Q ((operand ev id >>= k) h) (Exec.operand ((refill filler code).run env) use s) := by
  unfold operand Exec.operand
  rw [bind_assoc]
  refine Tied.bind (hA hc ht hl) fun v h' flow s' hlands => ?_
  obtain ⟨rfl,hlinked,hle,htyped⟩ := hlands
  rw [hs] at htyped
  cases v with
  | none => exact htyped.elim
  | some v => exact hk v h' s' hlinked hle htyped

/-- An operand that can stand where a type is expected. -/
theorem operand_tied (hc : part id code) (hf : p.Fits id τ) (hs : E.stored? τ = some type) {k : Value → Eval α}
    {use : Value → Exec Flow} (hl : Linked p E i L h s)
    (hk : ∀ v h' s', Linked p E i L h' s' → s.store.heap.Le s'.store.heap →
      v.HasType i.module s'.store.heap type → Tied (Ends p exports E i) Q (k v h') (use v s')) :
    Tied (Ends p exports E i) Q ((operand ev id >>= k) h) (Exec.operand ((refill filler code).run env) use s) := by
  obtain ⟨σ,hσ,hbelow⟩ := hf
  have hsome : (E.stored? σ).isSome = true := by
    rw [(hP hc hσ).value,Below.hasValue hbelow,hasValue_of_stored? hs]
  obtain ⟨found,hfound⟩ := Option.isSome_iff_exists.mp hsome
  have hfit : found.fits i.module type = true := by
    rw [hR.fits]
    exact hG.fits hbelow hfound hs
  exact operand_tied_of_typed hA hc hσ hfound hl fun v h' s' hl' hle hv => hk v h' s' hl' hle (hv.fits hR.layered hfit)

private theorem operands_tied {types : List ValueType} (hc : Forall₂ part ids codes)
    (hf : Forall₂ p.Fits ids τs) (hs : Forall₂ (fun τ type => E.stored? τ = some type) τs types)
    {k : List Value → Eval α}
    (hl : Linked p E i L h s) (hk : ∀ vs h' s', Linked p E i L h' s' → s.store.heap.Le s'.store.heap →
      AllTyped i.module s'.store.heap vs types → Tied (Ends p exports E i) Q (k vs h') (use vs s')) :
    Tied (Ends p exports E i) Q ((operands ev ids >>= k) h) (runOperands env (refillAll filler codes) use s) := by
  induction hc generalizing h s τs types k use with
  | nil =>
    cases hf
    cases hs
    exact hk [] h s hl (.refl _) .nil
  | @cons id code ids codes hc _ ih =>
    obtain _ | ⟨hf,hfs⟩ := hf
    obtain _ | ⟨hs,hss⟩ := hs
    rw [operands,refillAll,runOperands,bind_assoc]
    refine operand_tied hR hG hP hA hc hf hs hl fun v h₁ s₁ hl₁ hle₁ hv => ?_
    rw [bind_assoc]
    refine ih hfs hss hl₁ fun vs h₂ s₂ hl₂ hle₂ hvs => ?_
    exact hk (v :: vs) h₂ s₂ hl₂ (hle₁.trans hle₂) (.cons (hv.mono hle₂) hvs)

/-- A condition, an index or a length. -/
theorem int_tied (hc : part id code) (hf : p.Fits id τ) (hs : E.stored? τ = some .i32) {k : Int32 → Eval α}
    {use : Int32 → Exec Flow} (hl : Linked p E i L h s)
    (hk : ∀ n h' s', Linked p E i L h' s' → s.store.heap.Le s'.store.heap →
      Tied (Ends p exports E i) Q (k n h') (use n s')) :
    Tied (Ends p exports E i) Q ((operand ev id >>= fun v => Eval.int v >>= k) h)
      (Exec.operand ((refill filler code).run env) (fun v => Exec.index v >>= use) s) := by
  refine operand_tied hR hG hP hA hc hf hs hl fun v h' s' hl' hle hv => ?_
  obtain ⟨n,rfl⟩ := hv
  exact hk n h' s' hl' hle

/-! ### Sequences and branches -/

omit hR hG hP hA in
theorem refill_discarded (keep : Bool) (id : ExprId) (code : Instr) :
    refill filler (discarded p keep id code) = discarded p keep id (refill filler code) := by
  unfold discarded
  split
  · rw [refill]
  · rfl

omit hR hG hP hA in
theorem runAll_single (last : Option Value) (code : Instr) (s : Activation) :
    runAll env last [code] s = code.run env s := by
  rw [runAll,Exec.bind_run]
  cases code.run env s with
  | error stop t => rfl
  | ok flow t => cases flow <;> rfl

omit hR hG hP hA in
theorem isSome_of_resultTyped {m : Module} {heap : Wasm.Heap} {value : Option Value} {type : Option ValueType}
    (h : resultTyped m heap value type) : value.isSome = type.isSome := by
  cases value <;> cases type <;> first | rfl | exact h.elim

omit hR hG hP hA in
def Ended (result : Option ValueType) (r : EStateM.Result Stop Activation Flow) : Prop :=
  (∃ stop s, r = .error stop s) ∨ ∃ value s, r = .ok (.next value) s ∧ value.isSome = result.isSome

omit hR hG hP hA in
/-- What an arm leaves: its value is thrown away unless it is wanted. -/
def kept (keep : Bool) : EStateM.Result Stop Activation Flow → EStateM.Result Stop Activation Flow
  | .ok (.next value) s => .ok (.next (if keep then value else none)) s
  | result => result

omit hR hG hP hA in
/-- A value that is not wanted is gone. -/
theorem discarded_run (keep : Bool) (ht : p.Typed id σ) (hv : (E.stored? σ).isSome = σ.hasValue)
    (hr : Ended (E.stored? σ) (code.run env s)) :
    (discarded p keep id code).run env s = kept keep (code.run env s) := by
  unfold discarded
  rw [typeOf_eq ht,← hv]
  rcases hr with ⟨stop,t,hr⟩ | ⟨value,t,hr,hsome⟩
  · split
    · rw [Instr.run,Exec.bind_error hr,hr]
      rfl
    · rw [hr]
      rfl
  · rw [← hsome]
    cases keep with
    | true => simp [hr,kept]
    | false =>
      cases value with
      | none => simp [hr,kept]
      | some w =>
        simp only [Bool.not_false,Option.isSome_some,Bool.and_self,if_true]
        rw [Instr.run,Exec.bind_ok hr,hr]
        rfl

omit hR hG in
theorem discarded_tied (keep : Bool) (hc : part id code) (ht : p.Typed id σ) (hl : Linked p E i L h s) :
    Tied (Ends p exports E i) (fun v h' flow s' => flow = .next (if keep then v else none) ∧
        Lands p E i L s (E.stored? σ) v h' (.next v) s') (ev id h)
      ((discarded p keep id (refill filler code)).run env s) := by
  rcases (hA hc ht hl).elim with ⟨halt,h',stop,s',hx,hr,hend⟩ | ⟨v,h',flow,s',hx,hr,hlands⟩
  · rw [discarded_run keep ht (hP hc ht).value (.inl ⟨stop,s',hr⟩),hx,hr]
    exact hend
  · obtain ⟨rfl,hlands⟩ : flow = .next v ∧ _ := ⟨hlands.flow,hlands⟩
    rw [discarded_run keep ht (hP hc ht).value (.inr ⟨v,s',hr,isSome_of_resultTyped hlands.typed⟩),hx,hr]
    exact ⟨rfl,hlands⟩

omit hR hG in
theorem sequence_tied {last last' : Option Value} (hc : SequenceCode p part ids codes) (ht : p.SeqTyped σ ids τ)
    (hlast : ids = [] → last' = last) (hl : Linked p E i L h s) :
    Tied (Ends p exports E i) (Meets p E L) (sequence ev last ids h) (runAll env last' (refillAll filler codes) s) := by
  induction ids generalizing codes σ last last' h s with
  | nil =>
    cases hc
    exact ⟨congrArg Flow.next (hlast rfl),hl.mirrors,hl.vars⟩
  | cons id ids ih =>
    obtain ⟨code,rest,hpart,hrest,rfl⟩ := hc
    obtain ⟨ρ,hρ,hseq⟩ := ht
    rw [sequence,refillAll,refill_discarded,runAll]
    refine Tied.bind (discarded_tied hP hA ids.isEmpty hpart hρ hl) fun v h' flow s' hd => ?_
    obtain ⟨rfl,hlands⟩ := hd
    exact ih hrest hseq (fun he => by simp [he]) hlands.linked

omit hR hG in
/-- The expression in a branch. -/
theorem branch_tied (keep : Bool) (hc : part id code) (ht : p.Typed id σ) (hl : Linked p E i L h s) :
    Tied (Ends p exports E i) (Meets p E L) (branch ev keep id h)
      ((discarded p keep id (refill filler code)).run env s) := by
  have hrun : ((discarded p keep id (refill filler code)).run env >>= pure) s =
      (discarded p keep id (refill filler code)).run env s := by rw [bind_pure]
  rw [← hrun]
  refine Tied.bind (discarded_tied hP hA keep hc ht hl) fun v h' flow s' hd => ?_
  obtain ⟨rfl,hlands⟩ := hd
  exact ⟨rfl,hlands.linked.mirrors,hlands.linked.vars⟩

/-! ### Variables -/

omit hR hP hA in
/-- A variable gets a value of its type. -/
theorem Linked.setVar (hl : Linked p E i L h s) (hU : Unshared L)
    (hslot : L.vars.lookup var = some slot) (hvar : p.VarOf var τ) (hs : E.stored? τ = some type)
    (hv : v.HasType i.module s.store.heap type) :
    Exec.setLocal slot v s = .ok (.next none) { s with locals := s.locals.setIfInBounds slot v } ∧
      Linked p E i L { h with vars := fun other => if other = var then v else h.vars other }
        { s with locals := s.locals.setIfInBounds slot v } := by
  obtain ⟨type',hs',htype⟩ := hG.slot hslot hvar
  cases hs.symm.trans hs'
  have hlt := (Array.getElem?_eq_some_iff.mp (hl.vars var slot hslot)).1
  refine ⟨Exec.setLocal_run hlt,hl.mirrors,fun w n hw => ?_,hl.proper.setLocal htype hv⟩
  by_cases he : slot = n
  · subst he
    simp [hU w var slot hw hslot,hlt]
  · have hne : w ≠ var := fun hwv => he (Option.some.inj (hslot.symm.trans (hwv ▸ hw)))
    simp [he,hne,hl.vars w n hw]

omit hR hG hP hA in
/-- A local that is no variable's gets a value of its type. -/
theorem Linked.setSlot (hl : Linked p E i L h s) (hslot : L.slots[slot]? = some type)
    (hfree : ∀ w, L.vars.lookup w ≠ some slot) (hv : v.HasType i.module s.store.heap type) :
    Exec.setLocal slot v s = .ok (.next none) { s with locals := s.locals.setIfInBounds slot v } ∧
      Linked p E i L h { s with locals := s.locals.setIfInBounds slot v } ∧
      (s.locals.setIfInBounds slot v)[slot]? = some v := by
  obtain ⟨w,hw,_⟩ := hl.proper.locals slot type hslot
  have hlt := (Array.getElem?_eq_some_iff.mp hw).1
  refine ⟨Exec.setLocal_run hlt,⟨hl.mirrors,fun w n hw => ?_,hl.proper.setLocal hslot hv⟩,by simp [hlt]⟩
  have hne : slot ≠ n := fun he => hfree w (he ▸ hw)
  rw [Array.getElem?_setIfInBounds,if_neg hne,hl.vars w n hw]

theorem assign_tied (hU : Unshared L) {init : ExprId}
    (hc : part init code) (hslot : L.vars.lookup var = some slot) (hvar : p.VarOf var τ)
    (hf : p.Fits init τ) (hl : Linked p E i L h s) :
    Tied (Ends p exports E i) (Meets p E L) ((operand ev init >>= fun v => do Eval.assign var v; return none) h)
      ((refill filler (.localSet slot code)).run env s) := by
  obtain ⟨type,hs,_⟩ := hG.slot hslot hvar
  refine operand_tied hR hG hP hA hc hf hs hl fun v h' s' hl' _ hv => ?_
  obtain ⟨hrun,hset⟩ := hl'.setVar hG hU hslot hvar hs hv
  rw [hrun]
  exact ⟨rfl,hset.mirrors,hset.vars⟩

/-! ### Calls -/

omit hR hG hP hA in
def CallsAgree (p : Program) (exports : List (String × EntityId)) (E : Emission) (i : Instance) (hosts : Hosts)
    (levels : Nat) : Prop :=
  ∀ callee n f args w store, E.funcs.lookup callee = some n → i.module.funcs[n]? = some f → Mirrors p E w store →
    StoreTyped i.module i.globals store → AllTyped i.module store.heap args f.params →
    Tied (Answers p exports E i) (Gives p E)
      (callWithin p hosts i.rounds levels callee args w) (i.callWithin levels n args store)

omit hR hG hP hA in
/-- What bodies are evaluated with, when calls may nest `levels` deeper. -/
def sceneAt (p : Program) (i : Instance) (hosts : Hosts) (levels : Nat) : Scene :=
  ⟨p,i.rounds,levels ≠ 0,callWithin p hosts i.rounds levels⟩

omit hR hG hP hA in
def envAt (i : Instance) (levels : Nat) : Surroundings := i.surroundings (i.callWithin levels)

variable {hosts : Hosts} {levels : Nat}

omit hR hG hP hA in
private theorem invoke_tied (hC : CallsAgree p exports E i hosts levels) {f : Func} {args : List Value}
    (hn : E.funcs.lookup callee = some n) (hf : i.module.funcs[n]? = some f) (hl : Linked p E i L h s)
    (hargs : AllTyped i.module s.store.heap args f.params) :
    Tied (Ends p exports E i) (Meets p E L) (Eval.call (sceneAt p i hosts levels) callee args h)
      (Exec.call (envAt i levels) n args s) := by
  have hcall := hC callee n f args h.world s.store hn hf hl.mirrors hl.proper.toStoreTyped hargs
  have hscene : (sceneAt p i hosts levels).invoke = callWithin p hosts i.rounds levels := rfl
  unfold Eval.call
  rw [hscene]
  rcases hcall.elim with ⟨halt,w,stop,store,hh,hm,hend⟩ | ⟨v,w,v',store,hh,hm,rfl,hmirrors⟩
  · rw [hh,Exec.call_error hm]
    exact hend
  · rw [hh,Exec.call_run hm]
    exact ⟨rfl,hmirrors,hl.vars⟩

theorem call_tied (henv : env = envAt i levels) (hC : CallsAgree p exports E i hosts levels) {args : List ExprId}
    {d : FunctionDef} (hk : p.entities.kind callee = .function d)
    (hc : Forall₂ part args codes) (hn : E.funcs.lookup callee = some n)
    (hf : Forall₂ p.Fits args d.paramTypes) (hl : Linked p E i L h s) :
    Tied (Ends p exports E i) (Meets p E L) ((operands ev args >>= Eval.call (sceneAt p i hosts levels) callee) h)
      ((refill filler (.call n codes)).run env s) := by
  obtain ⟨d',f,hk',hfn,hsig⟩ := hR.lowered.consistent.entry callee n hn
  cases hk.symm.trans hk'
  have hfn' : i.module.funcs[n]? = some (f.refill filler) := by rw [hR.func,hfn]; rfl
  refine operands_tied hR hG hP hA hc hf hsig.params hl fun vs h' s' hl' _ hvs => ?_
  rw [henv]
  exact invoke_tied hC hn hfn' hl' hvs

/-! ### Operations -/

omit hR hG hP hA in
/-- Operators on values of their type do not look at the heap, and trap for a few reasons only. -/
theorem apply_eq {op : Wasm.BinOp} {num : NumType} {a b : Value} {heap : Wasm.Heap} {m : Module}
    (ha : a.HasType m heap num.valueType) (hb : b.HasType m heap num.valueType) (hop : op.isDefinedFor num = true) :
    op.apply num heap a b = op.apply num #[] a b ∧ ∀ cause, op.apply num #[] a b = .error cause →
      cause = .divisionByZero ∨ cause = .integerOverflow := by
  have hinteger : ∀ most wrap (x y : Int) cause, Wasm.integerOp op most wrap x y = .error cause →
      cause = .divisionByZero ∨ cause = .integerOverflow := by
    intro most wrap x y cause he
    cases op <;> simp only [Wasm.integerOp] at he <;> grind
  have hfloat : ∀ {α : Type} (ops : Wasm.FloatOps α) (wrap : α → Value) (x y : α) cause, num.isFloat = true →
      ops.apply op wrap x y = .error cause → cause = .divisionByZero ∨ cause = .integerOverflow := by
    intro α ops wrap x y cause hnum he
    cases op <;> cases num <;> first | (cases hop; done) | (cases hnum; done) | cases he
  cases num with
  | i32 | i64 =>
    obtain ⟨x,rfl⟩ := ha
    obtain ⟨y,rfl⟩ := hb
    refine ⟨rfl,fun cause he => ?_⟩
    simp only [Wasm.BinOp.apply] at he
    exact hinteger _ _ _ _ cause he
  | f32 | f64 =>
    obtain ⟨x,rfl⟩ := ha
    obtain ⟨y,rfl⟩ := hb
    refine ⟨rfl,fun cause he => ?_⟩
    exact hfloat _ _ _ _ cause rfl he

omit hR hG hP hA in
/-- What is stored at first. -/
theorem zero_stored (hs : E.stored? τ = some type) : Value.zero type = τ.zero := by
  cases τ with
  | prim prim => cases prim <;> cases hs <;> rfl
  | object id =>
    obtain ⟨n,_,rfl⟩ := Option.map_eq_some_iff.mp hs
    rfl
  | array element =>
    obtain ⟨n,hn⟩ := ref_of_array (Option.isSome_iff_exists.mpr ⟨type,hs⟩)
    cases hs.symm.trans hn
    rfl
  | never => cases hs

omit hR hG hP hA in
/-- A trap of an operation. -/
theorem Tied.trap {β : Type} {P : α → State → β → Activation → Prop} {cause : Trap} (hl : Linked p E i L h s)
    (h1 : cause ≠ .unreachable) (h2 : ∀ type, cause ≠ .castFailure type) (h3 : ∀ fault, cause ≠ .malformed fault) :
    Tied (Ends p exports E i) P (.error (.trap cause) h) (.error (.trap cause) s) :=
  .halt hl.mirrors rfl (.operation h1 h2 h3)

omit hG hP hA in
/-- The array a reference leads to. -/
theorem follow_array (hn : E.stored? (.array τ) = some (.ref n)) (hv : v.HasType i.module s.store.heap (.ref n))
    (hl : Linked p E i L h s) {k : Nat × Cell → Eval α} {use : Nat × HeapObject → Exec Flow}
    (hk : ∀ address cell o, v = .ref (some address) → Tied (Ends p exports E i) Q (k (address, cell) h) (use (address, o) s)) :
    Tied (Ends p exports E i) Q ((Eval.follow v >>= k) h) ((Exec.object v >>= use) s) := by
  rcases array_cell hR hl.mirrors hn hv with rfl | ⟨address,element,values,rfl,hcell,hheap,_⟩
  · exact .trap hl (by simp) (by simp) (by simp)
  · rw [bind_run,Eval.follow_some hcell,Exec.bind_ok (Exec.object_some hheap)]
    exact hk address _ _ rfl

omit hG hP hA in
/-- The elements of an array, whatever happened since the reference was followed. -/
theorem elements_array (hn : E.stored? (.array τ) = some (.ref n))
    (hv : (Value.ref (some address)).HasType i.module s.store.heap (.ref n)) (hl : Linked p E i L h s) :
    ∃ element values, h.world.cells[address]? = some (.array element values) ∧
      s.store.heap[address]? = some (.array n values) ∧ E.stored? (.array element) = some (.ref n) := by
  rcases array_cell hR hl.mirrors hn hv with he | ⟨address',element,values,he,hcell,hheap,hs⟩
  · cases he
  · cases he
    exact ⟨element,values,hcell,hheap,hs⟩

theorem operation_tied {element : Option Ty} {op : Intrinsic}
    (ht : Program.OperationTyped element op τs τ) (hc : Forall₂ part ids codes)
    (hf : Forall₂ p.Fits ids τs) (ho : OperationCode E element op codes code) (hl : Linked p E i L h s)
    (hmodule : env.module = i.module) :
    Tied (Ends p exports E i) (Meets p E L) (operation ev op element ids h) ((refill filler code).run env s) := by
  have hleaves := operation_leaves hG hP ht hc hf ho
  cases ht with
  | @binary operator operand type hmem hoperand htype =>
    obtain _ | ⟨hf1,_ | ⟨hf2,_ | _⟩⟩ := hf
    obtain _ | ⟨hc1,_ | ⟨hc2,_ | _⟩⟩ := hc
    cases ho
    have hs : E.stored? (.prim operand) = some type.valueType := by simp [stored?_prim,htype]
    have hop := (Wasm.ending?_binary.mp hleaves.ending).1
    refine operand_tied hR hG hP hA hc1 hf1 hs hl fun a h₁ s₁ hl₁ _ ha => ?_
    refine operand_tied hR hG hP hA hc2 hf2 hs hl₁ fun b h₂ s₂ hl₂ hle hb => ?_
    obtain ⟨heq,hcauses⟩ := apply_eq (ha.mono hle) hb hop
    rw [Exec.bind_ok (Exec.heap_run s₂),heq]
    cases hr : operator.op.apply type #[] a b with
    | ok v => exact ⟨rfl,hl₂.mirrors,hl₂.vars⟩
    | error cause =>
      rcases hcauses cause hr with rfl | rfl
      · exact .trap hl₂ (by simp) (by simp) (by simp)
      · exact .trap hl₂ (by simp) (by simp) (by simp)
  | not =>
    obtain _ | ⟨hf,_ | _⟩ := hf
    obtain _ | ⟨hc,_ | _⟩ := hc
    cases ho
    refine operand_tied hR hG hP hA hc hf (τ := .bool) rfl hl fun v h' s' hl' _ hv => ?_
    obtain ⟨n,rfl⟩ := hv
    exact ⟨rfl,hl'.mirrors,hl'.vars⟩
  | @newArray element hel =>
    obtain _ | ⟨hf,_ | _⟩ := hf
    obtain _ | ⟨hc,_ | _⟩ := hc
    cases ho with
    | @newArray _ n _ hel' hn =>
      cases hel.symm.trans hel'
      subst hel
      obtain ⟨name,inner,hinner,harray⟩ := array?_of_stored? hn
      rw [← hR.array?] at harray
      rw [operation,refill,Instr.run,hmodule]
      refine int_tied hR hG hP hA hc hf (τ := .i32) rfl hl fun length h' s' hl' _ => ?_
      have hzero : Value.zero inner = element.zero := zero_stored hinner
      rw [Exec.newDefault]
      by_cases hneg : length.toInt < 0
      · simp only [hneg,if_true]
        exact .trap hl' (by simp) (by simp) (by simp)
      · simp only [hneg,if_false,harray]
        refine ⟨?_,hl'.mirrors.push (hzero ▸ .array hn),hl'.vars⟩
        rw [hl'.mirrors.size]
  | @arrayGet element hel =>
    obtain _ | ⟨hf1,_ | ⟨hf2,_ | _⟩⟩ := hf
    obtain _ | ⟨hc1,_ | ⟨hc2,_ | _⟩⟩ := hc
    cases ho with
    | @arrayGet _ n _ _ hel' hn =>
      cases hel.symm.trans hel'
      refine operand_tied hR hG hP hA hc1 hf1 hn hl fun v h₁ s₁ hl₁ _ hv => ?_
      refine follow_array hR hn hv hl₁ fun address cell o hva => ?_
      subst hva
      refine int_tied hR hG hP hA hc2 hf2 (τ := .i32) rfl hl₁ fun index h₂ s₂ hl₂ hle => ?_
      obtain ⟨element',values,hcell,hheap,_⟩ := elements_array hR hn (hv.mono hle) hl₂
      rw [bind_run,Eval.elements_run hcell,Exec.getElement_run hheap]
      simp only
      rw [bind_run,Eval.place_run]
      by_cases hplace : 0 ≤ index.toInt ∧ index.toInt < values.size
      · rw [if_pos hplace,if_pos hplace]
        have hlt : index.toInt.toNat < values.size := by omega
        simp only [Array.getElem?_eq_getElem hlt,Array.getD_eq_getD_getElem?,Option.getD_some]
        exact ⟨rfl,hl₂.mirrors,hl₂.vars⟩
      · rw [if_neg hplace,if_neg hplace]
        exact .trap hl₂ (by simp) (by simp) (by simp)
  | @arraySet element hel =>
    obtain _ | ⟨hf1,_ | ⟨hf2,_ | ⟨hf3,_ | _⟩⟩⟩ := hf
    obtain _ | ⟨hc1,_ | ⟨hc2,_ | ⟨hc3,_ | _⟩⟩⟩ := hc
    cases ho with
    | @arraySet _ n _ _ _ hel' hn =>
      cases hel.symm.trans hel'
      obtain ⟨name,inner,hinner,harray⟩ := array?_of_stored? hn
      refine operand_tied hR hG hP hA hc1 hf1 hn hl fun v h₁ s₁ hl₁ _ hv => ?_
      refine follow_array hR hn hv hl₁ fun address cell o hva => ?_
      subst hva
      refine int_tied hR hG hP hA hc2 hf2 (τ := .i32) rfl hl₁ fun index h₂ s₂ hl₂ hle => ?_
      refine operand_tied hR hG hP hA hc3 hf3 hinner hl₂ fun value h₃ s₃ hl₃ hle' _ => ?_
      obtain ⟨element',values,hcell,hheap,hs⟩ := elements_array hR hn ((hv.mono hle).mono hle') hl₃
      rw [bind_run,Eval.elements_run hcell,Exec.setElement_run hheap]
      simp only
      rw [bind_run,Eval.place_run]
      by_cases hplace : 0 ≤ index.toInt ∧ index.toInt < values.size
      · rw [if_pos hplace,if_pos hplace]
        exact ⟨rfl,hl₃.mirrors.set hcell hs,hl₃.vars⟩
      · rw [if_neg hplace,if_neg hplace]
        exact .trap hl₃ (by simp) (by simp) (by simp)
  | @arrayLen element hel =>
    obtain _ | ⟨hf,_ | _⟩ := hf
    obtain _ | ⟨hc,_ | _⟩ := hc
    cases ho
    obtain ⟨n,hn⟩ := ref_of_array (leaves_of_fits hP hc hf (by simp)).value
    refine operand_tied hR hG hP hA hc hf hn hl fun v h' s' hl' _ hv => ?_
    refine follow_array hR hn hv hl' fun address cell o hva => ?_
    subst hva
    obtain ⟨element',values,hcell,hheap,_⟩ := elements_array hR hn hv hl'
    show Tied _ _ ((Eval.elements address >>= _) h') (Exec.arrayLength address s')
    rw [bind_run,Eval.elements_run hcell,Exec.arrayLength_run hheap]
    simp only
    by_cases hsize : values.size < 0x80000000
    · rw [if_pos hsize,if_pos hsize]
      exact ⟨rfl,hl'.mirrors,hl'.vars⟩
    · rw [if_neg hsize,if_neg hsize]
      exact .trap hl' (by simp) (by simp) (by simp)

/-! ### Objects -/

omit hR hG in
/-- The initialisers are run in the order of the layout. -/
theorem initialisers_tied {layout : List Field} {founds : List ValueType}
    (hc : Forall₂ (fun field code => ∃ value, given.lookup field.name = some value ∧ part value code) layout codes)
    (ht : ∀ x ∈ given, ∃ σ, p.Typed x.2 σ) (ho : Wasm.operands? (contextOf E L) codes = some founds)
    {k : List Value → Eval α} (hl : Linked p E i L h s)
    (hk : ∀ vs h' s', Linked p E i L h' s' → Tied (Ends p exports E i) Q (k vs h') (use vs s')) :
    Tied (Ends p exports E i) Q ((initialisers ev given layout >>= k) h)
      (runOperands env (refillAll filler codes) use s) := by
  induction hc generalizing h s founds k use with
  | nil => exact hk [] h s hl
  | @cons field code layout codes hfield _ ih =>
    obtain ⟨value,hlookup,hpart⟩ := hfield
    obtain ⟨type,hgives,rest,hrest,rfl⟩ := Wasm.operands?_cons.mp ho
    obtain ⟨σ,hσ⟩ := ht _ (mem_of_lookup hlookup)
    have hs : E.stored? σ = some type := by
      have he := (hP hpart hσ).ending.symm.trans hgives
      cases hs : E.stored? σ <;> rw [hs] at he <;> cases he
      rfl
    rw [initialisers,hlookup,refillAll,runOperands]
    simp only [bind_assoc]
    refine operand_tied_of_typed hA hpart hσ hs hl fun v h₁ s₁ hl₁ _ _ => ?_
    refine ih hrest hl₁ fun vs h₂ s₂ hl₂ => ?_
    exact hk (v :: vs) h₂ s₂ hl₂

theorem construct_tied {literal : ExprId} {chain : Nat} (hshape : (p.exprs.get literal).shape = .object given)
    (ht : p.CallTyped [literal] (.construct object) τ) (hchain : E.chains.lookup object = some chain)
    (hstruct : E.structs.lookup object = some struct)
    (hc : Forall₂ (fun field code => ∃ value, given.lookup field.name = some value ∧ part value code)
      (p.layout object) codes) (hl : Linked p E i L h s) (hglobals : env.globals = i.globals) :
    Tied (Ends p exports E i) (Meets p E L)
      ((initialisers ev given (p.layout object) >>= fun vs => Eval.alloc (.object object vs)) h)
      ((refill filler (.structNew struct (.globalGet chain :: codes))).run env s) := by
  have hleaves := construct_leaves hG hP hshape ht hchain hstruct hc
  obtain ⟨d,hd,founds,ho,_,_⟩ := Wasm.ending?_structNew.mp hleaves.ending
  obtain ⟨_,_,rest,hrest,rfl⟩ := Wasm.operands?_cons.mp ho
  have hgiven : ∀ x ∈ given, ∃ σ, p.Typed x.2 σ := by
    obtain _ | ⟨hshape',_,_,_,_,hgiven⟩ := ht
    cases hshape.symm.trans hshape'
    intro x hx
    obtain ⟨_,_,σ,hσ,_⟩ := hgiven x.1 x.2 hx
    exact ⟨σ,hσ⟩
  have hglobal : (Instr.globalGet chain).run env s = .ok (.next (some (.ref (some chain)))) s := by
    rw [Instr.run,hglobals,hR.globals,((hG.objects.populated hstruct).global hchain).1]
    rfl
  rw [refill,refillAll,Instr.run]
  rw [show refill filler (.globalGet chain) = .globalGet chain from rfl,Wasm.runOperands_next hglobal]
  refine initialisers_tied hP hA hc hgiven hrest hl fun vs h' s' hl' => ?_
  refine ⟨?_,hl'.mirrors.push (.object hstruct hchain),hl'.vars⟩
  rw [hl'.mirrors.size]

theorem field_tied {arg : ExprId} {index : Nat} (hc : part arg code)
    (ht : p.CallTyped [arg] (.field object index) τ) (hstruct : E.structs.lookup object = some struct)
    (hl : Linked p E i L h s) : Tied (Ends p exports E i) (Meets p E L)
      ((operand ev arg >>= fun v => Eval.follow v >>= fun x =>
        match x with
        | (_, .object _ fields) => do return some (← Eval.present fields[index]?)
        | _ => Eval.stuck) h)
      ((refill filler (.structGet struct (index + 1) code)).run env s) := by
  have hleaves := field_leaves hG hP hc ht hstruct
  obtain ⟨d,hd,f,hf,_⟩ := Wasm.ending?_structGet.mp hleaves.ending
  have htyped : p.Typed arg (.object object) := by
    obtain _ | _ | @⟨_,_,_,_,_,harg,_⟩ := ht
    exact harg
  have hstored : E.stored? (.object object) = some (.ref struct) := by simp [Emission.stored?,hstruct]
  refine operand_tied_of_typed hA hc htyped hstored hl fun v h' s' hl' _ hv => ?_
  rcases object_cell hR hl'.mirrors hstruct hv with rfl | ⟨address,T,fields,sub,chain,rfl,hcell,hheap,_⟩
  · exact .trap hl' (by simp) (by simp) (by simp)
  · have hget := Wasm.holds_getField {} hl'.proper hR.layered ((hR.struct? struct).trans hd) hf hv
    rw [bind_run,Eval.follow_some hcell,Exec.getField,Exec.bind_ok (Exec.object_some hheap)]
    rw [Exec.getField,Exec.bind_ok (Exec.object_some hheap)] at hget
    simp only [List.getElem?_toArray,List.getElem?_cons_succ] at hget ⊢
    cases hfield : fields[index]? with
    | some value => exact ⟨rfl,hl'.mirrors,hl'.vars⟩
    | none =>
      rw [hfield] at hget
      exact absurd rfl (hget.2.2 _)

/-! ### Conditions and loops -/

theorem cond_tied {yes : ExprId} {no : Option ExprId} {y : Instr} {n : List Instr} {result : Option ValueType}
    {keep : Bool} (ht : part test t) (hy : part yes y) (htest : p.Fits test .bool) (hyes : ∃ σ, p.Typed yes σ)
    (hno : ∀ id ∈ no, ∃ σ, p.Typed id σ) (hkeep : result.isSome = keep)
    (hn : Forall₂ (fun id code => ∃ inner, part id inner ∧ code = discarded p result.isSome id inner) no.toList n)
    (hl : Linked p E i L h s) : Tied (Ends p exports E i) (Meets p E L)
      ((operand ev test >>= fun v => Eval.int v >>= fun n =>
        if n ≠ 0 then branch ev keep yes else otherwise ev keep no) h)
      ((refill filler (.cond result t [discarded p result.isSome yes y] n)).run env s) := by
  subst hkeep
  refine int_tied hR hG hP hA ht htest (τ := .bool) rfl hl fun k h' s' hl' _ => ?_
  by_cases hk : k ≠ 0
  · rw [if_pos hk,if_pos hk,refillAll,refillAll,refill_discarded,runAll_single]
    obtain ⟨σ,hσ⟩ := hyes
    exact branch_tied hP hA _ hy hσ hl'
  · rw [if_neg hk,if_neg hk]
    cases no with
    | none =>
      cases hn
      exact ⟨rfl,hl'.mirrors,hl'.vars⟩
    | some id =>
      obtain _ | ⟨⟨inner,hinner,rfl⟩,_ | _⟩ := hn
      rw [refillAll,refillAll,refill_discarded,runAll_single]
      obtain ⟨σ,hσ⟩ := hno id rfl
      exact branch_tied hP hA _ hinner hσ hl'

omit hR hG hP hA in
def round (ev : ExprId → Eval (Option Value)) (test body : ExprId) : Eval Bool := do
  if (← Eval.int (← operand ev test)) ≠ 0 then
    let _ ← ev body
    return true
  else return false

omit hR hG hP hA in
private theorem loop_succ (test body : ExprId) (rounds : Nat) : loop ev test body (rounds + 1) =
    (round ev test body >>= fun again => if again then loop ev test body rounds else pure none) := by
  unfold round
  rw [loop]
  simp only [bind_assoc]
  congr 1
  funext v
  congr 1
  funext n
  split <;> simp

omit hR hG in
private theorem round_tied {b : Instr} (ht : part test t) (hb : part body b)
    (htest : p.Fits test .bool) (hbody : p.Typed body σ) (hl : Linked p E i L h s) :
    Tied (Ends p exports E i) (fun again h' flow s' => Linked p E i L h' s' ∧
        flow = .branch (if again then top else exit) none) (round ev test body h)
      (runAll env none [.brIf exit (.eqz .i32 (refill filler t)),discarded p false body (refill filler b),.br top none] s) := by
  obtain ⟨ρ,hρ,rfl | ⟨_,_,_,he,_⟩⟩ := htest
  swap
  · cases he
  rcases (hA ht hρ hl).elim with ⟨halt,h',stop,s',hx,hy,hend⟩ | ⟨v,h',flow,s',hx,hy,hlands⟩
  · have hround : round ev test body h = .error halt h' := by
      unfold round operand
      simp only [bind_run,hx]
    have hbrIf : (Instr.brIf exit (.eqz .i32 (refill filler t))).run env s = .error stop s' := by
      refine Exec.operand_error ?_
      exact Exec.operand_error hy
    rw [hround,Wasm.runAll_error hbrIf]
    exact hend
  · obtain ⟨rfl,hl',_,hv⟩ := hlands
    obtain ⟨n,rfl⟩ : ∃ n, v = some (.i32 n) := by
      cases v with
      | none => exact hv.elim
      | some v =>
        obtain ⟨n,rfl⟩ := hv
        exact ⟨n,rfl⟩
    have htaken : round ev test body h = (if n ≠ 0 then (ev body >>= fun _ => pure true) else pure false : Eval Bool) h' := by
      unfold round operand
      simp only [bind_run,hx]
      rfl
    have heqz : (Instr.eqz .i32 (refill filler t)).run env s = .ok (.next (some (.ofBool (n = 0)))) s' := by
      rw [Instr.run,Exec.operand_next hy]
      rfl
    rw [htaken]
    by_cases hn : n = 0
    · have hbrIf : (Instr.brIf exit (.eqz .i32 (refill filler t))).run env s = .ok (.branch exit none) s' := by
        rw [Wasm.run_brIf heqz]
        simp [hn]
      rw [Wasm.runAll_branch hbrIf,if_neg (by simpa using hn)]
      exact ⟨hl',rfl⟩
    · have hbrIf : (Instr.brIf exit (.eqz .i32 (refill filler t))).run env s = .ok (.next none) s' := by
        rw [Wasm.run_brIf heqz]
        simp [hn]
      rw [Wasm.runAll_next hbrIf,if_pos hn,runAll]
      refine Tied.bind (discarded_tied hP hA false hb hbody hl') fun v h₂ flow s₂ hd => ?_
      obtain ⟨rfl,hlands⟩ := hd
      exact ⟨hlands.linked,rfl⟩

omit hR hG in
theorem loop_tied {b : Instr} (ht : part test t) (hb : part body b)
    (hne : exit ≠ top) (htest : p.Fits test .bool) (hbody : p.Typed body σ) (hrounds : env.rounds = i.rounds)
    (hl : Linked p E i L h s) : Tied (Ends p exports E i) (Meets p E L) (loop ev test body i.rounds h)
      ((refill filler (.block exit none
        [.loop top [.brIf exit (.eqz .i32 t),discarded p false body b,.br top none]])).run env s) := by
  -- the rounds of both are counted down together
  have hiterate : ∀ rounds h s, Linked p E i L h s →
      Tied (Ends p exports E i) (fun v h' flow s' => v = none ∧ Linked p E i L h' s' ∧ flow = .branch exit none)
        (loop ev test body rounds h)
        (Exec.iterate top (runAll env none [.brIf exit (.eqz .i32 (refill filler t)),
          discarded p false body (refill filler b),.br top none]) rounds s) := by
    intro rounds
    induction rounds with
    | zero => exact fun h s hl => .halt hl.mirrors rfl .unfinished
    | succ rounds ih =>
      intro h s hl
      rw [loop_succ,Exec.iterate]
      refine Tied.bind (round_tied hP hA ht hb htest hbody hl) fun again h' flow s' hround => ?_
      obtain ⟨hl',rfl⟩ := hround
      cases again with
      | true =>
        simp only [if_true]
        exact ih h' s' hl'
      | false =>
        simp only [hne,if_false,Bool.false_eq_true]
        exact ⟨rfl,hl',rfl⟩
  have hcode : refill filler (.block exit none
      [.loop top [.brIf exit (.eqz .i32 t),discarded p false body b,.br top none]]) =
      .block exit none [.loop top [.brIf exit (.eqz .i32 (refill filler t)),
        discarded p false body (refill filler b),.br top none]] := by
    simp only [refill,refillAll,Wasm.refillEnd,refill_discarded]
  rw [hcode,Instr.run]
  rcases (hiterate i.rounds h s hl).elim with ⟨halt,h',stop,s',hx,hy,hend⟩ | ⟨v,h',flow,s',hx,hy,rfl,hl',rfl⟩
  · have hloop : (Instr.loop top [.brIf exit (.eqz .i32 (refill filler t)),discarded p false body (refill filler b),
        .br top none]).run env s = .error stop s' := by
      rw [Instr.run,hrounds,hy]
    rw [hx,Exec.block_error (Wasm.runAll_error hloop)]
    exact hend
  · have hloop : (Instr.loop top [.brIf exit (.eqz .i32 (refill filler t)),discarded p false body (refill filler b),
        .br top none]).run env s = .ok (.branch exit none) s' := by
      rw [Instr.run,hrounds,hy]
    rw [hx,Exec.block_branch (Wasm.runAll_branch hloop)]
    exact ⟨rfl,hl'.mirrors,hl'.vars⟩

end Nodes

end Semantics

end FormCompiler
