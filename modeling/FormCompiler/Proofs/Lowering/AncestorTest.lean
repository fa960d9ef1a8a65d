import FormCompiler.Proofs.Lowering.Start
import FormCompiler.Proofs.Lowering.Validity

/-! The function that looks for a number among ancestors does so, whatever the array. Run on the ancestors
of an object, it says what the struct of the object and the declarations of the program say. -/

namespace FormCompiler

open Wasm Exec Instr Program List

namespace Emission

section Search

variable {env : Surroundings} {ids a type k : Nat} {exit top : LabelId} {id : Int32} {chain : List Int32}
  {store : Store}

private def searchRound (ids : Nat) (exit top : LabelId) : List Instr :=
  [.brIf exit (.binary .ge .i32 (.localGet 2) (.arrayLen (.localGet 1))),
   .cond none (.binary .eq .i32 (.arrayGet ids (.localGet 1) (.localGet 2)) (.localGet 0))
    [.ret (some (.i32Const 1))] [],
   .localSet 2 (.binary .add .i32 (.localGet 2) (.i32Const 1)),
   .br top none]

private def searching (id : Int32) (a k : Nat) (store : Store) : Activation :=
  ⟨#[.i32 id,.ref (some a),.i32 (Int32.ofNat k)],store⟩

private theorem run_number : (localGet 0).run env (searching id a k store) =
    .ok (.next (some (.i32 id))) (searching id a k store) := run_localGet rfl

private theorem run_array : (localGet 1).run env (searching id a k store) =
    .ok (.next (some (.ref (some a)))) (searching id a k store) := run_localGet rfl

private theorem run_count : (localGet 2).run env (searching id a k store) =
    .ok (.next (some (.i32 (Int32.ofNat k)))) (searching id a k store) := run_localGet rfl

variable (env) (ids) (exit top) (id) (ha : store.heap[a]? = some (.array type (chain.map Value.i32).toArray))
  (hl : chain.length < 0x80000000)
include ha hl

private theorem run_limit (hk : k ≤ chain.length) :
    (brIf exit (.binary .ge .i32 (.localGet 2) (.arrayLen (.localGet 1)))).run env (searching id a k store) =
      .ok (if k = chain.length then .branch exit none else .next none) (searching id a k store) := by
  have hlength : (arrayLen (.localGet 1)).run env (searching id a k store) =
      .ok (.next (some (.i32 (Int32.ofNat chain.length)))) (searching id a k store) := by
    simpa using run_arrayLen run_array ha (by simpa using hl)
  have htest : (binary .ge .i32 (.localGet 2) (.arrayLen (.localGet 1))).run env (searching id a k store) =
      .ok (.next (some (.i32 (if k = chain.length then 1 else 0)))) (searching id a k store) := by
    rw [run_binary run_count hlength]
    simp only [BinOp.apply,integerOp,Int32.toInt_ofNat_of_lt hl,Int32.toInt_ofNat_of_lt (show k < 0x80000000 by omega),
      Value.ofBool,decide_eq_true_eq]
    by_cases he : k = chain.length
    · simp [he]
    · simp [he,show ¬ (chain.length : Int) ≤ k by omega]
  rw [run_brIf htest]
  by_cases he : k = chain.length <;> simp [he]

private theorem run_compare (hk : k < chain.length) :
    (binary .eq .i32 (.arrayGet ids (.localGet 1) (.localGet 2)) (.localGet 0)).run env (searching id a k store) =
      .ok (.next (some (.i32 (if chain[k] = id then 1 else 0)))) (searching id a k store) := by
  have hget : (arrayGet ids (.localGet 1) (.localGet 2)).run env (searching id a k store) =
      .ok (.next (some (.i32 chain[k]))) (searching id a k store) := by
    rw [run,operand_next run_array,bind_ok (object_some ha)]
    show operand _ _ _ = _
    have hk' : (Int32.ofNat k).toInt = k := Int32.toInt_ofNat_of_lt (by omega)
    rw [operand_next run_count,bind_ok (index_i32 _ _),getElement_run ha,hk',
      if_pos ⟨Int.natCast_nonneg k,by simpa using hk⟩]
    simp [Array.getD_eq_getD_getElem?,hk]
  rw [run_binary hget run_number]
  simp only [BinOp.apply,integerOp,Int32.toInt_inj,Value.ofBool,decide_eq_true_eq]

private theorem run_round (hk : k ≤ chain.length) :
    runAll env none (searchRound ids exit top) (searching id a k store) =
      if h : k < chain.length then
        if chain[k] = id then .ok (.leave (some (.i32 1))) (searching id a k store)
        else .ok (.branch top none) (searching id a (k + 1) store)
      else .ok (.branch exit none) (searching id a k store) := by
  by_cases hlt : k < chain.length
  · have hlimit := run_limit env exit id ha hl hk
    rw [if_neg (by omega)] at hlimit
    rw [searchRound,runAll_next hlimit,dif_pos hlt]
    have hcompare := run_compare env ids id ha hl hlt
    by_cases he : chain[k] = id
    · rw [if_pos he] at hcompare
      rw [if_pos he]
      refine runAll_leave ?_
      rw [run_cond hcompare,if_pos (by decide)]
      exact runAll_leave rfl
    · rw [if_neg he] at hcompare
      rw [if_neg he]
      have hskip : (cond none (.binary .eq .i32 (.arrayGet ids (.localGet 1) (.localGet 2)) (.localGet 0))
          [.ret (some (.i32Const 1))] []).run env (searching id a k store) =
            .ok (.next none) (searching id a k store) := by
        rw [run_cond hcompare,if_neg (by decide)]
        rfl
      have hadd : (binary .add .i32 (.localGet 2) (.i32Const 1)).run env (searching id a k store) =
          .ok (.next (some (.i32 (Int32.ofNat (k + 1))))) (searching id a k store) := by
        rw [run_binary run_count rfl]
        simp only [BinOp.apply,integerOp,Int32.toInt_ofNat_of_lt (show k < 0x80000000 by omega)]
        exact congrArg (fun n => EStateM.Result.ok (Flow.next (some (.i32 n))) _) Int32.ofInt_eq_ofNat
      rw [runAll_next hskip,runAll_next (run_localSet hadd (show 2 < 3 by decide))]
      exact runAll_branch rfl
  · have hlimit := run_limit env exit id ha hl hk
    rw [if_pos (by omega)] at hlimit
    rw [searchRound,runAll_branch hlimit,dif_neg hlt]

private theorem run_search (hne : exit ≠ top) {rounds : Nat} (hk : k ≤ chain.length) (hr : chain.length < rounds + k) :
    ∃ n, iterate top (runAll env none (searchRound ids exit top)) rounds (searching id a k store) =
      .ok (if id ∈ chain.drop k then .leave (some (.i32 1)) else .branch exit none) (searching id a n store) := by
  -- the rounds left are enough for the places left
  induction rounds generalizing k with
  | zero => omega
  | succ rounds ih =>
    have hround := run_round env ids exit top id ha hl hk
    by_cases hlt : k < chain.length
    · rw [dif_pos hlt] at hround
      have hmem : id ∈ chain.drop k ↔ chain[k] = id ∨ id ∈ chain.drop (k + 1) := by
        rw [drop_eq_getElem_cons hlt,mem_cons,eq_comm]
      by_cases he : chain[k] = id
      · rw [if_pos he] at hround
        exact ⟨k,by rw [iterate_leave hround,if_pos (hmem.mpr (.inl he))]⟩
      · rw [if_neg he] at hround
        obtain ⟨n,hn⟩ := ih (k := k + 1) hlt (by omega)
        exact ⟨n,by simp only [iterate_again hround,hn,hmem,he,false_or]⟩
    · rw [dif_neg hlt] at hround
      refine ⟨k,?_⟩
      rw [iterate_pass hne hround,if_neg (by simp [drop_eq_nil_of_le (Nat.le_of_not_lt hlt)])]

end Search

/-- Whether a number is in an array of numbers. Rounds as many as the array is long are enough, and one. -/
theorem call_extendsFunc {i : Instance} {n ids a type depth : Nat} {exit top : LabelId} {chain : List Int32}
    {store : Store} (hf : i.module.funcs[n]? = some (extendsFunc ids exit top)) (hne : exit ≠ top)
    (ha : store.heap[a]? = some (.array type (chain.map Value.i32).toArray)) (hl : chain.length < 0x80000000)
    (hr : chain.length < i.rounds) (id : Int32) :
    i.callWithin (depth + 1) n [.i32 id,.ref (some a)] store = .ok (some (.ofBool (decide (id ∈ chain)))) store := by
  let env := i.surroundings (i.callWithin depth)
  obtain ⟨k,hk⟩ := run_search env ids exit top id ha hl hne (Nat.zero_le _) hr
  have hloop : (loop top (searchRound ids exit top)).run env (searching id a 0 store) =
      .ok (if id ∈ chain then .leave (some (.i32 1)) else .branch exit none) (searching id a k store) := by
    exact hk
  have hblock : (block exit none [.loop top (searchRound ids exit top)]).run env (searching id a 0 store) =
      .ok (if id ∈ chain then .leave (some (.i32 1)) else .next none) (searching id a k store) := by
    by_cases hm : id ∈ chain
    · rw [if_pos hm] at hloop ⊢
      exact block_leave (runAll_leave hloop)
    · rw [if_neg hm] at hloop ⊢
      exact block_branch (runAll_branch hloop)
  have hbody : ∃ flow, (flow = .leave (some (.ofBool (decide (id ∈ chain)))) ∨
      flow = .next (some (.ofBool (decide (id ∈ chain))))) ∧
      runAll env none (extendsFunc ids exit top).body ⟨#[.i32 id,.ref (some a),.i32 0],store⟩ =
        .ok flow (searching id a k store) := by
    have hzero : (i32Const 0).run env ⟨#[.i32 id,.ref (some a),.i32 0],store⟩ =
        .ok (.next (some (.i32 0))) ⟨#[.i32 id,.ref (some a),.i32 0],store⟩ := rfl
    have hstart : (localSet 2 (.i32Const 0)).run env ⟨#[.i32 id,.ref (some a),.i32 0],store⟩ =
        .ok (.next none) (searching id a 0 store) := run_localSet hzero (show 2 < 3 by decide)
    by_cases hm : id ∈ chain
    · rw [if_pos hm] at hblock
      refine ⟨_,.inl rfl,?_⟩
      simp only [hm,decide_true]
      exact (runAll_next hstart).trans (runAll_leave hblock)
    · rw [if_neg hm] at hblock
      refine ⟨_,.inr rfl,?_⟩
      simp only [hm,decide_false]
      exact (runAll_next hstart).trans ((runAll_next hblock).trans rfl)
  obtain ⟨flow,hflow,hrun⟩ := hbody
  show i.dispatch (i.runBody (i.callWithin depth)) n _ store = _
  have hentry : Instance.entry (extendsFunc ids exit top) [.i32 id,.ref (some a)] store =
      ⟨#[.i32 id,.ref (some a),.i32 0],store⟩ := rfl
  rw [Instance.dispatch_defined hf rfl rfl,Instance.runBody_run,hentry,hrun]
  rcases hflow with rfl | rfl <;> rfl

end Emission

namespace Lower

variable {p : Program} {E : Emission} {T C : EntityId}

/-- Objects are told apart by their numbers. -/
theorem runtimeId_inj (hsize : p.entities.size ≤ 0x80000000) {a b : EntityId} (ha : a.index < p.entities.size)
    (hb : b.index < p.entities.size) (h : runtimeId a = runtimeId b) : a = b := by
  have hi : ((a.index : Int)) = b.index := by
    rw [← Int32.toInt_ofNat_of_lt (Nat.lt_of_lt_of_le ha hsize),← Int32.toInt_ofNat_of_lt (Nat.lt_of_lt_of_le hb hsize)]
    exact congrArg Int32.toInt h
  cases a
  cases b
  simp only [EntityId.mk.injEq]
  exact Int.ofNat_inj.mp hi

/-- The number of an object is among those of a chain exactly if the object is in it. -/
theorem mem_runtimeIds (hsize : p.entities.size ≤ 0x80000000) {chain : List EntityId}
    (hc : EntityTable.Chain p.entities T chain) (hC : C.index < p.entities.size) :
    runtimeId C ∈ chain.map runtimeId ↔ p.entities.Extends T C := by
  rw [← hc.mem_iff,mem_map]
  constructor
  · rintro ⟨x,hx,he⟩
    obtain ⟨_,hx'⟩ := hc.of_mem hx
    exact runtimeId_inj hsize hx'.lt_size hC he ▸ hx
  · exact fun h => ⟨C,h,rfl⟩

/-- An object that exists at run time. -/
theorem chain_of_concrete (hI : p.Inv) (h : T ∈ p.entities.concreteObjects.map (·.1)) :
    ∃ chain, EntityTable.Chain p.entities T chain := by
  obtain ⟨⟨_,d⟩,hm,rfl⟩ := mem_map.mp h
  obtain ⟨hk,_,hd⟩ := EntityTable.mem_concreteObjects.mp hm
  exact hI.founded.chain hk hd

theorem extends?_eq (hI : p.Inv) : (p.ancestry.extends? p.entities T C).1 = true ↔ p.entities.Extends T C := by
  rw [← (Ancestry.chain_spec hI.founded hI.memo T).2.1]
  simp [Ancestry.extends?,Ancestry.distance?,isSome_idxOf?]

/-- A program with objects of its own has a struct for each of its objects. -/
theorem Lowered.populated {exports : List (String × EntityId)} (h : Lowered p exports E) (hI : p.Inv)
    (huser : ∃ x ∈ p.entities.concreteObjects, x.1 ≠ objectId) : Populated p E := by
  rcases h.objects with hO | hO
  · exact hO
  · obtain ⟨x,hx,hne⟩ := huser
    obtain ⟨chain,hc⟩ := chain_of_concrete hI (mem_map_of_mem hx)
    exact absurd (hO.base _ ((mem_objectsInOrder hI).mpr hc)) hne

end Lower

/-- Three ways to tell whether one object extends another agree: the declared parents, the supertypes of
structs, and the search the code does at run time. The search starts from the heap that holds the
ancestors, whatever was added to it since, and takes a round for each of them. -/
theorem inheritance_agrees {library : List SourceFile} {file source : String} {exports : List (String × EntityId)}
    {p : Program} {E : Emission} {T C : EntityId} (h : checkSource library file source initial = .ok exports p)
    (hE : Lower.program exports p {} = .ok ((), E)) (hsize : p.entities.size < 0x80000000)
    (huser : ∃ x ∈ p.entities.concreteObjects, x.1 ≠ objectId)
    (hT : T ∈ p.entities.concreteObjects.map (·.1)) (hC : C ∈ p.entities.concreteObjects.map (·.1)) :
    ∃ sub sup global start store, E.structs.lookup T = some sub ∧ E.structs.lookup C = some sup ∧
      E.chains.lookup T = some global ∧ Instance.ofModule E.module {} = .ok start store ∧
      -- the struct of the one is below that of the other, and the walk to it ends
      (E.module.isSubtype sub sup = true ↔ (p.ancestry.extends? p.entities T C).1 = true) ∧
      (∀ steps, E.module.types.size ≤ steps → E.module.isSubtypeWithin sup steps sub = E.module.isSubtype sub sup) ∧
      -- the search finds the number of the one among the ancestors of the other
      (∀ test, E.extendsFunction = some test → ∀ (machine : Instance) (now : Store) (ancestors : Value),
        machine.module = E.module → machine.globals = start.globals → 0 < machine.depthLimit →
        p.entities.size < machine.rounds → (∀ (a : Nat) o, store.heap[a]? = some o → now.heap[a]? = some o) →
        machine.globals[global]? = some ancestors →
        machine.call test [.i32 (Lower.runtimeId C),ancestors] now =
          .ok (some (.i32 (if (p.ancestry.extends? p.entities T C).1 then 1 else 0))) now) ∧
      -- a cast that the search allows is done
      (∀ (s : Activation) (address : Nat) (fields : Array Value),
        s.store.heap[address]? = some (.struct sub fields) → (p.ancestry.extends? p.entities T C).1 = true →
        Exec.cast E.module sup (.ref (some address)) s = .ok (.next (some (.ref (some address)))) s) := by
  obtain ⟨hw,he⟩ := wellResolved_of_checkSource h
  have hlow := Lower.lowered_of_program hw he hE
  have hpop := hlow.populated hw.inv huser
  obtain ⟨chain,hchain⟩ := Lower.chain_of_concrete hw.inv hT
  obtain ⟨_,hchainC⟩ := Lower.chain_of_concrete hw.inv hC
  obtain ⟨sub,hsub⟩ := (hpop.lookup_iff hw.inv).mpr ⟨chain,hchain⟩
  obtain ⟨sup,hsup⟩ := (hpop.lookup_iff hw.inv).mpr ⟨_,hchainC⟩
  obtain ⟨global,hglobal⟩ := mem_iff_getElem?.mp ((Lower.mem_objectsInOrder hw.inv).mpr hchain)
  have hg := (hpop.chains T global).mpr ⟨chain,hglobal⟩
  obtain ⟨hvalue,chain',hchain',hheap⟩ := hpop.global hg
  cases hglobal.symm.trans hchain'
  have hext := Lower.extends?_eq (T := T) (C := C) hw.inv
  have hstruct := (hpop.isSubtype_iff hw.inv hsub hsup).trans hext.symm
  refine ⟨sub,sup,global,_,_,hsub,hsup,hg,hlow.objects.ofModule,hstruct,fun steps hs => ?_,?_,?_⟩
  · exact Module.isSubtypeWithin_eq (hpop.layered hw.inv) (hlow.consistent.structs T sub hsub) hs
  · intro test htest machine now ancestors hm hgl hdepth hrounds hkept hanc
    obtain ⟨_,ids,exit,top,_,hne,hf⟩ := hlow.consistent.tester test htest
    rw [hgl,hvalue] at hanc
    cases hanc
    obtain ⟨depth,hd⟩ : ∃ depth, machine.depthLimit = depth + 1 := ⟨machine.depthLimit - 1,by omega⟩
    have hlength := hchain.length_le_size
    unfold Instance.call
    rw [hd,Emission.call_extendsFunc (hm ▸ hf) hne (hkept _ _ hheap) (by rw [length_map]; omega)
      (by rw [length_map]; omega)]
    have hmem := (Lower.mem_runtimeIds (Nat.le_of_lt hsize) hchain hchainC.lt_size).trans hext.symm
    simp only [Value.ofBool,hmem,decide_eq_true_eq]
  · intro s address fields ha hx
    rw [Exec.cast_run ha]
    exact if_pos (hstruct.mpr hx)

private def sampleHierarchy : Bool :=
  okAnd (fun exports p =>
    match Lower.program exports p {}, p.entities.concreteObjects.map (·.1) with
    | .ok _, [_,a,b] =>
      a ≠ objectId && p.entities.size < 0x80000000 && (p.ancestry.extends? p.entities b a).1
    | _, _ => false) (checkSource [] "main.vast" sampleSource initial)

theorem inheritance_agrees_sample : ∃ exports p E a b sub sup,
    checkSource [] "main.vast" sampleSource initial = .ok exports p ∧
    Lower.program exports p {} = .ok ((), E) ∧ a ≠ objectId ∧
    (p.ancestry.extends? p.entities b a).1 = true ∧ E.structs.lookup b = some sub ∧ E.structs.lookup a = some sup ∧
    E.module.isSubtype sub sup = true := by
  have hcheck : sampleHierarchy = true := by decide +kernel
  obtain ⟨exports,p,h,hcheck⟩ := okAnd_iff.mp hcheck
  split at hcheck
  · rename_i E _ a b hE hlist
    simp only [Bool.and_eq_true,decide_eq_true_eq] at hcheck
    obtain ⟨⟨hne,hsize⟩,hext⟩ := hcheck
    have ha : a ∈ p.entities.concreteObjects.map (·.1) := by simp [hlist]
    have hb : b ∈ p.entities.concreteObjects.map (·.1) := by simp [hlist]
    obtain ⟨x,hx,rfl⟩ := mem_map.mp ha
    obtain ⟨sub,sup,_,_,_,hsub,hsup,_,_,hstruct,_⟩ := inheritance_agrees h hE hsize ⟨x,hx,hne⟩ hb ha
    exact ⟨exports,p,E.2,x.1,b,sub,sup,h,hE,hne,hext,hsub,hsup,hstruct.mpr hext⟩
  · cases hcheck

end FormCompiler
