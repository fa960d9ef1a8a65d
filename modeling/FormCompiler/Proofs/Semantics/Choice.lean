import FormCompiler.Proofs.Semantics.Lockstep

/-! Matches run as they are evaluated. The tests on types ask for the ancestors of the object, the function that
looks for a constant finds the first that is equal, and the branches lead to the arm that fires. -/

namespace FormCompiler

open List

open Wasm (Activation Exec Flow Func HeapObject Instance Instr LabelId Module NumType Proper Sound StoreTyped
  Stop Store Surroundings Trap Value ValueType refill refillAll resultTyped runAll runOperands)
open Lower Emission

namespace Semantics

variable {result : Option ValueType} {part : ExprId → Instr → Prop} {env : Surroundings} {arms : List (LabelId × Instr)}
  {s t : Activation} {exit : LabelId} {p : Program} {exports : List (String × EntityId)} {L : Layout}
  {operand levels n : Nat} {filler default code dispatch other : Instr} {i : Instance} {m : Match} {E : Emission}
  {inner rest : List Instr} {binding : Option EntityId} {v : Value} {literals : List Literal} {τ σ : Ty}
  {type : NumType} {body : ExprId} {stop : Stop} {keep : Bool} {stored : ValueType} {f : Func}

/-! ### Finding a constant -/

/-- The place of the first constant that is equal, from one, or nought. -/
def position (literals : List Literal) (v : Value) : Nat :=
  match literals.findIdx? (·.equals v) with
  | some k => k + 1
  | none => 0

section Finder

variable {store : Store} {heap : Wasm.Heap} {m : Module}

theorem run_literal (l : Literal) (s : Activation) : (literal l).run env s = .ok (.next (some l.value)) s := by
  cases l <;> rfl

private theorem equals_run {l : Literal} (hl : l.prim.numType? = some type) (hv : v.HasType m heap type.valueType) :
    Wasm.BinOp.apply .eq type store.heap v l.value = .ok (.ofBool (l.equals v)) := by
  cases l with
  | i32 n | i64 n | bool n =>
    cases hl
    obtain ⟨x,rfl⟩ := hv
    simp [Wasm.BinOp.apply,Wasm.integerOp,Literal.value,Literal.equals,Value.ofBool,Int32.toInt_inj,Int64.toInt_inj]
  | f32 n | f64 n =>
    cases hl
    obtain ⟨x,rfl⟩ := hv
    rfl

private theorem run_caseTests (hv : v.HasType m heap type.valueType)
    (hl : ∀ l ∈ literals, l.prim.numType? = some type) (index : Nat) :
    runAll env none (caseTests type index literals) ⟨#[v],store⟩ =
      match literals.findIdx? (·.equals v) with
      | some k => .ok (.leave (some (.i32 (Int32.ofNat (index + k))))) ⟨#[v],store⟩
      | none => .ok (.next (some (.i32 0))) ⟨#[v],store⟩ := by
  induction literals generalizing index with
  | nil => rfl
  | cons l ls ih =>
    have htest : (Instr.binary .eq type (.localGet 0) (literal l)).run env ⟨#[v],store⟩ =
        .ok (.next (some (.ofBool (l.equals v)))) ⟨#[v],store⟩ := by
      have hget : (Instr.localGet 0).run env ⟨#[v],store⟩ = .ok (.next (some v)) ⟨#[v],store⟩ := Wasm.run_localGet rfl
      rw [Wasm.run_binary hget (run_literal l _),equals_run (hl l (.head _)) hv]
    rw [caseTests,findIdx?_cons]
    by_cases he : l.equals v = true
    · have hcond : (Instr.cond none (.binary .eq type (.localGet 0) (literal l))
          [.ret (some (.i32Const (Int32.ofNat index)))] []).run env ⟨#[v],store⟩ =
          .ok (.leave (some (.i32 (Int32.ofNat index)))) ⟨#[v],store⟩ := by
        rw [Wasm.run_cond htest,if_pos (by simp [he])]
        exact Wasm.runAll_leave rfl
      rw [Wasm.runAll_leave hcond,if_pos he]
      rfl
    · have hcond : (Instr.cond none (.binary .eq type (.localGet 0) (literal l))
          [.ret (some (.i32Const (Int32.ofNat index)))] []).run env ⟨#[v],store⟩ =
          .ok (.next none) ⟨#[v],store⟩ := by
        rw [Wasm.run_cond htest,if_neg (by simp [he])]
        rfl
      rw [Wasm.runAll_next hcond,ih (fun l hl' => hl l (.tail _ hl')),if_neg he]
      cases ls.findIdx? (·.equals v) with
      | none => rfl
      | some k => simp only [Option.map_some,Nat.add_assoc,Nat.add_comm 1 k]

/-- The function finds the case of a match on values. -/
theorem call_finds {depth : Nat} (hf : i.module.funcs[n]? = some f) (hfinds : Finds type stored literals f)
    (hl : ∀ l ∈ literals, l.prim.numType? = some type) (hv : v.HasType m heap type.valueType) :
    i.callWithin (depth + 1) n [v] store = .ok (some (.i32 (Int32.ofNat (position literals v)))) store := by
  show i.dispatch (i.runBody (i.callWithin depth)) n _ store = _
  have hentry : Instance.entry f [v] store = ⟨#[v],store⟩ := by
    simp [Instance.entry,hfinds.locals]
  rw [Instance.dispatch_defined hf (by simp [hfinds.params]) hfinds.host,Instance.runBody_run,hentry,hfinds.body,
    run_caseTests hv hl,hfinds.result]
  unfold position
  cases literals.findIdx? (·.equals v) with
  | none => rfl
  | some k => simp [Nat.add_comm]

end Finder

/-! ### What is replaced -/

section Refill

theorem refill_literal (l : Literal) : refill filler (literal l) = literal l := by
  cases l <;> rfl

private theorem refillAll_caseTests (type : NumType) (index : Nat) (literals : List Literal) :
    refillAll filler (caseTests type index literals) = caseTests type index literals := by
  induction literals generalizing index with
  | nil => rfl
  | cons l ls ih => simp only [caseTests,refillAll,refill,refill_literal,ih]

private theorem Finds.refill (h : Finds type stored literals f) : Finds type stored literals (f.refill filler) :=
  ⟨h.params,h.result,h.locals,by rw [Func.refill,h.body,refillAll_caseTests],h.host⟩

private theorem refill_extendsFunc (ids : Nat) (exit top : LabelId) :
    (extendsFunc ids exit top).refill filler = extendsFunc ids exit top := by
  simp [Func.refill,extendsFunc,extendsBody,refillAll,refill,Wasm.refillEnd]

private theorem refill_exitWith (exit : LabelId) (code : Instr) (result : Option ValueType) :
    refill filler (exitWith exit code result) = exitWith exit (refill filler code) result := by
  cases result <;> simp only [exitWith,refill,refillAll]

private theorem refillAll_nest (hinner : Wasm.refillEnd filler (refillAll filler inner) = refillAll filler inner) :
    refillAll filler (nest exit result inner arms) =
      nest exit result (refillAll filler inner) (arms.map fun x => (x.1, refill filler x.2)) := by
  induction arms generalizing inner with
  | nil => rfl
  | cons arm arms ih =>
    rw [nest,map_cons,nest,ih]
    · simp only [refillAll,refill,refill_exitWith,hinner]
    · simp only [refillAll,refill,Wasm.refillEnd,Wasm.refillEnd_singleton]

private theorem refill_types (filler : Instr) (exit : LabelId) (result : Option ValueType) (cases : List Instr)
    (default : Instr) : ∃ final, refill filler (.block exit result (cases ++ [default])) =
        .block exit result (refillAll filler cases ++ [final]) ∧
      (refill filler default ≠ .unreachable → final = refill filler default) := by
  have happend : refillAll filler (cases ++ [default]) = refillAll filler cases ++ [refill filler default] := by
    simp [Wasm.refillAll_eq_map]
  obtain ⟨final,hfinal,hsame⟩ := Wasm.refillEnd_append filler (refillAll filler cases) (refill filler default)
  exact ⟨final,by rw [refill,happend,hfinal],hsame⟩

private theorem refillEnd_nest (hinner : Wasm.refillEnd filler inner = inner) :
    Wasm.refillEnd filler (nest exit result inner arms) = nest exit result inner arms := by
  induction arms generalizing inner with
  | nil => exact hinner
  | cons arm arms ih => exact ih (by simp only [Wasm.refillEnd,Wasm.refillEnd_singleton])

end Refill

/-! ### Branches -/

/-- The same end, on the way to a label. -/
def leaving (exit : LabelId) : EStateM.Result Stop Activation Flow → EStateM.Result Stop Activation Flow
  | .ok (.next value) s => .ok (.branch exit value) s
  | result => result

section Exits

variable {label : LabelId} {r : EStateM.Result Stop Activation Flow} (hr : Ended result r) {run : Exec Flow}

/-- After an arm, the match is left with its value. -/
theorem exit_run (exit : LabelId) (hr : Ended result (code.run env s)) :
    (exitWith exit code result).run env s = leaving exit (code.run env s) := by
  rcases hr with ⟨stop,t,hr⟩ | ⟨value,t,hr,hv⟩
  · rw [hr]
    cases result with
    | none => rw [exitWith,Instr.run,Wasm.runAll_error hr,leaving]; simp
    | some type => rw [exitWith,Instr.run,Exec.operand_error hr,leaving]; simp
  · rw [hr]
    cases result with
    | none =>
      cases value with
      | some w => cases hv
      | none => rw [exitWith,Instr.run,Wasm.runAll_next hr,Wasm.runAll_branch rfl,leaving]
    | some type =>
      cases value with
      | none => cases hv
      | some w =>
        rw [exitWith,Instr.run,Exec.operand_next hr,leaving]
        rfl

include hr

/-- A block ends as what is in it, if no branch leaves it. -/
theorem block_ended (hrun : run s = r) : Exec.block exit run s = r := by
  rcases hr with ⟨stop,t,rfl⟩ | ⟨value,t,rfl,_⟩
  · exact Exec.block_error hrun
  · exact Exec.block_next hrun

/-- The block around the arms ends as the arm that leaves it. -/
theorem block_leaving (hrun : run s = leaving exit r) : Exec.block exit run s = r := by
  rcases hr with ⟨stop,t,rfl⟩ | ⟨value,t,rfl,_⟩
  · exact Exec.block_error hrun
  · exact Exec.block_branch hrun

/-- What leaves for a label skips what comes after. -/
theorem runAll_leaving {last : Option Value} (hrun : code.run env s = leaving exit r) :
    runAll env last (code :: rest) s = leaving exit r := by
  rcases hr with ⟨stop,t,rfl⟩ | ⟨value,t,rfl,_⟩
  · exact Wasm.runAll_error hrun
  · exact Wasm.runAll_branch hrun

/-- It passes the blocks on the way. -/
theorem block_passing (hne : exit ≠ label) (hrun : run s = leaving exit r) :
    Exec.block label run s = leaving exit r := by
  rcases hr with ⟨stop,t,rfl⟩ | ⟨value,t,rfl,_⟩
  · exact Exec.block_error hrun
  · exact Exec.block_pass hne hrun

/-- What leaves the innermost code for elsewhere leaves all arms. -/
theorem nest_leaving {target : Option ValueType} (hne : label ∉ arms.map (·.1))
    (hinner : runAll env none inner s = leaving label r) :
    runAll env none (nest exit target inner arms) s = leaving label r := by
  induction arms generalizing inner with
  | nil => exact hinner
  | cons arm arms ih =>
    obtain ⟨hhead,htail⟩ : label ≠ arm.1 ∧ label ∉ arms.map (·.1) := by simpa using hne
    refine ih htail (runAll_leaving hr ?_)
    exact block_passing hr hhead hinner

omit hr

/-- A branch to the label of an arm comes to what the arm comes to. -/
theorem nest_enter {k : Nat} {body : Instr} (hnodup : (arms.map (·.1)).Nodup) (hexit : exit ∉ arms.map (·.1))
    (harm : arms[k]? = some (label, body)) (hinner : runAll env none inner s = .ok (.branch label none) t)
    (hr : Ended result (body.run env t)) :
    runAll env none (nest exit result inner arms) s = leaving exit (body.run env t) := by
  induction arms generalizing inner k with
  | nil => cases harm
  | cons arm arms ih =>
    obtain ⟨hhead,htail⟩ : exit ≠ arm.1 ∧ exit ∉ arms.map (·.1) := by simpa using hexit
    obtain ⟨hfresh,hnodup'⟩ := nodup_cons.mp hnodup
    cases k with
    | zero =>
      cases harm
      have hblock : (Instr.block label none inner).run env s = .ok (.next none) t := by
        exact Exec.block_branch hinner
      rw [nest]
      refine nest_leaving hr htail ?_
      rw [Wasm.runAll_next hblock,runAll_single,exit_run exit hr]
    | succ k =>
      have harm' : arms[k]? = some (label, body) := harm
      have hne : label ≠ arm.1 := by
        rintro rfl
        exact hfresh (mem_map.mpr ⟨_,mem_of_getElem? harm',rfl⟩)
      refine ih hnodup' htail harm' (Wasm.runAll_branch ?_)
      exact Exec.block_pass hne hinner

end Exits

def tableBlock (exit fallback : LabelId) (result : Option ValueType) (labels : List LabelId) (finder operand : Nat)
    (codes : List Instr) (default : Instr) : Instr :=
  .block exit result [.block fallback none (nest exit result
    [.brTable (fallback :: labels) fallback (.call finder [.localGet operand])] (labels.zip codes)),default]

section Table

variable {fallback : LabelId} {labels : List LabelId} {finder : Nat} {codes : List Instr}

private theorem refill_tableBlock (filler : Instr) :
    refill filler (tableBlock exit fallback result labels finder operand codes default) =
      tableBlock exit fallback result labels finder operand (codes.map (refill filler)) (refill filler default) := by
  have hinner : refillAll filler [.brTable (fallback :: labels) fallback (.call finder [.localGet operand])] =
      [.brTable (fallback :: labels) fallback (.call finder [.localGet operand])] := by
    simp only [refillAll,refill]
  simp only [tableBlock,refill,refillAll,Wasm.refillEnd,Wasm.refillEnd_singleton]
  rw [refillAll_nest (by rw [hinner,Wasm.refillEnd_singleton]),hinner,refillEnd_nest (Wasm.refillEnd_singleton _),
    zip_map_right]
  rfl

private theorem tableBlock_error (hfallback : fallback ∉ labels)
    (hcall : (Instr.call finder [.localGet operand]).run env s = .error stop t) :
    (tableBlock exit fallback result labels finder operand codes default).run env s = .error stop t := by
  have hne : fallback ∉ (labels.zip codes).map (·.1) := fun hm => by
    obtain ⟨x,hx,rfl⟩ := mem_map.mp hm
    exact hfallback (of_mem_zip hx).1
  refine Exec.block_error (Wasm.runAll_error ?_)
  refine Exec.block_error (nest_leaving (.inl ⟨stop,t,rfl⟩ : Ended none _) hne (Wasm.runAll_error ?_))
  rw [Instr.run,Exec.operand_error hcall]

private theorem position_lt (v : Value) (h : literals.length < 0x7fffffff) : position literals v < 0x80000000 := by
  unfold position
  cases hfound : literals.findIdx? (·.equals v) with
  | none => simp
  | some k =>
    obtain ⟨hlt,_⟩ := findIdx?_eq_some_iff_getElem.mp hfound
    simp only
    omega

/-- Where the table of branches leads. -/
private theorem target_position (hn : n < 0x80000000) :
    Exec.target (fallback :: labels) fallback (Int32.ofNat n) = (fallback :: labels)[n]?.getD fallback := by
  unfold Exec.target
  rw [Int32.toInt_ofNat_of_lt hn,if_neg (by omega),Int.toNat_natCast]

/-- A match on values ends as the arm of the first constant that is equal, or as the arm for all other cases. -/
theorem tableBlock_run (hcall : (Instr.call finder [.localGet operand]).run env s =
      .ok (.next (some (.i32 (Int32.ofNat (position literals v))))) s) (hnodup : (exit :: fallback :: labels).Nodup)
    (hlabels : labels.length = codes.length) (hliterals : literals.length = codes.length)
    (hcount : codes.length < 0x7fffffff) :
    (∀ k code, literals.findIdx? (·.equals v) = some k → codes[k]? = some code → Ended result (code.run env s) →
      (tableBlock exit fallback result labels finder operand codes default).run env s = code.run env s) ∧
    (literals.findIdx? (·.equals v) = none → Ended result (default.run env s) →
      (tableBlock exit fallback result labels finder operand codes default).run env s = default.run env s) := by
  obtain ⟨hexit,hrest⟩ := nodup_cons.mp hnodup
  obtain ⟨hfallback,hlabelsNodup⟩ := nodup_cons.mp hrest
  have hnames : (labels.zip codes).map (·.1) = labels := map_fst_zip (Nat.le_of_eq hlabels)
  have htable : runAll env none [.brTable (fallback :: labels) fallback (.call finder [.localGet operand])] s =
      .ok (.branch ((fallback :: labels)[position literals v]?.getD fallback) none) s := by
    refine Wasm.runAll_branch ?_
    rw [Instr.run,Exec.operand_next hcall,Exec.bind_ok (Exec.index_i32 _ _),
      target_position (position_lt v (hliterals ▸ hcount))]
    rfl
  refine ⟨fun k code hfound hcode hended => ?_,fun hfound hended => block_ended hended ?_⟩
  · have hk : k < labels.length := hlabels ▸ (List.getElem?_eq_some_iff.mp hcode).1
    have harm : (labels.zip codes)[k]? = some (labels[k], code) :=
      getElem?_zip_eq_some.mpr ⟨getElem?_eq_getElem hk,hcode⟩
    rw [position,hfound] at htable
    simp only [getElem?_cons_succ,getElem?_eq_getElem hk,Option.getD_some] at htable
    have hnest := nest_enter (by rw [hnames]; exact hlabelsNodup)
      (by rw [hnames]; exact fun hm => hexit (.tail _ hm)) harm htable hended
    refine block_leaving hended (runAll_leaving hended ?_)
    exact block_passing hended (fun he => hexit (he ▸ .head _)) hnest
  · rw [position,hfound] at htable
    have hblock : (Instr.block fallback none (nest exit result
        [.brTable (fallback :: labels) fallback (.call finder [.localGet operand])] (labels.zip codes))).run env s =
        .ok (.next none) s := by
      exact Exec.block_branch (nest_leaving (r := .ok (.next none) s) (.inr ⟨none,s,rfl,rfl⟩ : Ended none _)
        (by rw [hnames]; exact hfallback) htable)
    rw [Wasm.runAll_next hblock,runAll_single]

end Table

/-! ### Arms -/

def bound (L : Layout) (binding : Option EntityId) (v : Value) (s : Activation) : Activation :=
  match binding.bind (L.vars.lookup ·) with
  | some slot => { s with locals := s.locals.setIfInBounds slot v }
  | none => s

/-- A match whose operand gave `v`, with the state `s` after it, ends as one arm does: the first that fires, or else the
one for all other cases. The variable of the arm holds the value when the arm starts. -/
structure Chooses (env : Surroundings) (L : Layout) (m : Match) (keep : Bool) (bodies : List Instr) (other : Instr)
    (fires : Arm → Prop) (v : Value) (s : Activation) (result : EStateM.Result Stop Activation Flow) : Prop where
  first : ∀ (k : Nat) case body, m.arms[k]? = some case → bodies[k]? = some body → fires case →
    (∀ (j : Nat) earlier, j < k → m.arms[j]? = some earlier → ¬ fires earlier) →
    result = kept keep (body.run env (bound L case.binding v s)) ∧
      ∀ var, case.binding = some var → ∃ slot, L.vars.lookup var = some slot ∧
        (bound L case.binding v s).locals[slot]? = some v
  other : (∀ case ∈ m.arms, ¬ fires case) → m.default.isSome = true →
    result = kept keep (other.run env (bound L m.defaultBinding v s)) ∧
      ∀ var, m.defaultBinding = some var → ∃ slot, L.vars.lookup var = some slot ∧
        (bound L m.defaultBinding v s).locals[slot]? = some v
  none : (∀ case ∈ m.arms, ¬ fires case) → m.default = none → result = .error (.trap .unreachable) s

def PartsSound (p : Program) (E : Emission) (i : Instance) (L : Layout) (env : Surroundings) (filler : Instr)
    (part : ExprId → Instr → Prop) : Prop :=
  ∀ {id code τ}, part id code → p.Typed id τ →
    Sound ⟨i.module,L.slots⟩ i.globals {} (.next (E.stored? τ)) ((refill filler code).run env)

def Suits (p : Program) (E : Emission) (i : Instance) (heap : Wasm.Heap) (v : Value) (binding : Option EntityId) : Prop :=
  ∀ var, binding = some var → ∃ ρ type, p.VarOf var ρ ∧ E.stored? ρ = some type ∧ v.HasType i.module heap type

/-- The code of a match whose operand gave `v` chooses among the arms, if there is room for a call. -/
structure Dispatches (p : Program) (E : Emission) (i : Instance) (L : Layout) (m : Match) (keep : Bool) (bodies : List Instr)
    (other code : Instr) (fires : Arm → Bool) (v : Value) (levels : Nat) (s : Activation) : Prop where
  exhausted : levels = 0 → code.run (envAt i levels) s = .error (.trap .callStackExhausted) s
  suits : levels ≠ 0 → ∀ case ∈ m.arms, fires case = true → Suits p E i s.store.heap v case.binding
  chooses : levels ≠ 0 → Chooses (envAt i levels) L m keep bodies other (fun case => fires case = true) v s
    (code.run (envAt i levels) s)

/-- What the code of an arm does when the operand gave `v`: it sets the variable and runs the body. -/
structure ArmRuns (env : Surroundings) (L : Layout) (result : Option ValueType) (binding : Option EntityId) (v : Value)
    (s : Activation) (body code : Instr) : Prop where
  run : code.run env s = kept result.isSome (body.run env (bound L binding v s))
  ended : Ended result (code.run env s)
  holds : ∀ var, binding = some var → ∃ slot, L.vars.lookup var = some slot ∧
    (bound L binding v s).locals[slot]? = some v

def ArmAround (p : Program) (L : Layout) (keep : Bool) (setter : Instr) (binding : Option EntityId) (body : ExprId)
    (inner code : Instr) : Prop :=
  ∃ setting, SettingCode L setter binding setting ∧ code = .seq (setting ++ [discarded p keep body inner])

def CaseAround (p : Program) (E : Emission) (L : Layout) (tester base operand : Nat) (exit : LabelId)
    (result : Option ValueType) (case : Arm) (body code : Instr) : Prop :=
  ∃ object struct arm, case.patternType = some (.object object) ∧ E.structs.lookup object = some struct ∧
    ArmAround p L result.isSome (.refCast struct (.localGet operand)) case.binding case.body body arm ∧
    code = .cond none (.call tester [.i32Const (runtimeId object),.structGet base 0 (.localGet operand)])
      [exitWith exit arm result] []

structure ArmParts (part : ExprId → Instr → Prop) (m : Match) (bodies : List Instr) (other : Instr) : Prop where
  arms : List.Forall₂ (fun case => part case.body) m.arms bodies
  default : ∀ body, m.default = some body → part body other

private theorem forall₂_choose {α β γ : Type} {R : α → γ → Prop} {S : α → γ → β → Prop} {as : List α} {bs : List β}
    (h : List.Forall₂ (fun a b => ∃ c, R a c ∧ S a c b) as bs) : ∃ cs, List.Forall₂ R as cs ∧
      ∀ (k : Nat) a c b, as[k]? = some a → cs[k]? = some c → bs[k]? = some b → R a c ∧ S a c b := by
  induction h with
  | nil => exact ⟨[],.nil,fun k _ _ _ ha => by simp at ha⟩
  | @cons a b as bs hab _ ih =>
    obtain ⟨c,hr,hs⟩ := hab
    obtain ⟨cs,hrs,hss⟩ := ih
    refine ⟨c :: cs,.cons hr hrs,fun k a' c' b' ha hc hb => ?_⟩
    cases k with
    | zero =>
      cases ha
      cases hc
      cases hb
      exact ⟨hr,hs⟩
    | succ k => exact hss k a' c' b' ha hc hb

private theorem default_parts (h : DefaultCode p L part keep operand m default) :
    ∃ other, (∀ body, m.default = some body → part body other ∧
      ArmAround p L keep (.localGet operand) m.defaultBinding body other default) ∧
      (m.default = none → default = .unreachable) := by
  unfold DefaultCode at h
  cases hd : m.default with
  | none =>
    rw [hd] at h
    exact ⟨default,by simp,fun _ => h⟩
  | some body =>
    rw [hd] at h
    obtain ⟨setting,inner,hsetting,hinner,rfl⟩ := h
    refine ⟨inner,fun _ he => ?_,by simp⟩
    cases he
    exact ⟨hinner,setting,hsetting,rfl⟩

section Arms

variable (hG : Grounds p E L) (hP : PartsLeave p E L part) (hS : PartsSound p E i L env filler part) {id : ExprId}

include hS

/-- The code of a part stops or leaves a value of its type. -/
theorem part_run (hc : part id code) (ht : p.Typed id τ) (hs : Proper ⟨i.module,L.slots⟩ i.globals s) :
    (∃ stop t, (refill filler code).run env s = .error stop t) ∨ ∃ value t,
      (refill filler code).run env s = .ok (.next value) t ∧ Proper ⟨i.module,L.slots⟩ i.globals t ∧
      resultTyped i.module t.store.heap value (E.stored? τ) := by
  have hrun := hS hc ht s hs
  cases hr : (refill filler code).run env s with
  | error stop t => exact .inl ⟨stop,t,rfl⟩
  | ok flow t =>
    rw [hr] at hrun
    obtain ⟨hproper,_,hflow⟩ := hrun
    cases flow with
    | next value =>
      obtain ⟨_,he,hv⟩ := hflow
      cases he
      exact .inr ⟨value,t,rfl,hproper,hv⟩
    | branch label value => cases hflow.choose_spec.1
    | leave value => cases hflow.choose_spec.1

include hG hP

/-- The code of an arm sets its variable and runs its body. -/
theorem arm_runs {setter inner : Instr} (ha : ArmAround p L result.isSome setter binding body inner code)
    (hc : part body inner) (hf : p.Fits body τ) (hvalue : result.isSome = τ.hasValue)
    (hset : (refill filler setter).run env s = .ok (.next (some v)) s) (hbind : Suits p E i s.store.heap v binding)
    (hs : Proper ⟨i.module,L.slots⟩ i.globals s) :
    ArmRuns env L result binding v s (refill filler inner) (refill filler code) := by
  obtain ⟨setting,hsetting,rfl⟩ := ha
  obtain ⟨σ,hσ,hbelow⟩ := hf
  have hleaves := (hP hc hσ).value
  have hbody : ∀ {t}, Proper ⟨i.module,L.slots⟩ i.globals t →
      (discarded p result.isSome body (refill filler inner)).run env t =
        kept result.isSome ((refill filler inner).run env t) ∧
      Ended result ((discarded p result.isSome body (refill filler inner)).run env t) := by
    intro t ht
    rcases part_run hS hc hσ ht with ⟨stop,t',hr⟩ | ⟨value,t',hr,_,hv⟩
    · have hrun := discarded_run result.isSome hσ hleaves (.inl ⟨stop,t',hr⟩)
      exact ⟨hrun,.inl ⟨stop,t',by rw [hrun,hr]; rfl⟩⟩
    · have hsome := isSome_of_resultTyped hv
      have hrun := discarded_run result.isSome hσ hleaves (.inr ⟨value,t',hr,hsome⟩)
      refine ⟨hrun,.inr ⟨_,t',by rw [hrun,hr]; rfl,?_⟩⟩
      rw [hleaves,Below.hasValue hbelow,← hvalue] at hsome
      cases hresult : result.isSome <;> simp [hsome,hresult]
  cases binding with
  | none =>
    cases hsetting
    obtain ⟨hrun,hended⟩ := hbody hs
    have hcode : (refill filler (.seq ([] ++ [discarded p result.isSome body inner]))).run env s =
        (discarded p result.isSome body (refill filler inner)).run env s := by
      rw [refill,nil_append,refillAll,refillAll,refill_discarded,Instr.run,runAll_single]
    exact ⟨hcode.trans hrun,hcode ▸ hended,fun _ he => nomatch he⟩
  | some var =>
    obtain ⟨slot,hslot,rfl⟩ := hsetting
    obtain ⟨ρ,type,hvar,hstored,hv⟩ := hbind var rfl
    obtain ⟨type',hstored',htype⟩ := hG.slot hslot hvar
    cases hstored.symm.trans hstored'
    obtain ⟨w,hw,_⟩ := hs.locals slot type htype
    have hlt := (Array.getElem?_eq_some_iff.mp hw).1
    have hbound : bound L (some var) v s = { s with locals := s.locals.setIfInBounds slot v } := by
      simp [bound,hslot]
    obtain ⟨hrun,hended⟩ := hbody (hs.setLocal htype hv)
    have hcode : (refill filler (.seq ([.localSet slot setter] ++ [discarded p result.isSome body inner]))).run env s =
        (discarded p result.isSome body (refill filler inner)).run env
          { s with locals := s.locals.setIfInBounds slot v } := by
      rw [refill,singleton_append,refillAll,refillAll,refillAll,refill,refill_discarded,Instr.run,
        Wasm.runAll_next (Wasm.run_localSet hset hlt),runAll_single]
    refine ⟨hbound ▸ hcode.trans hrun,hcode ▸ hended,fun _ he => ?_⟩
    cases he
    exact ⟨slot,hslot,by simp [hbound,hlt]⟩

/-- The arm for all other cases. -/
theorem default_runs (hm : p.MatchTyped m σ τ) (hother : ∀ body, m.default = some body → part body other ∧
      ArmAround p L result.isSome (.localGet operand) m.defaultBinding body other default)
    (hvalue : result.isSome = τ.hasValue) (hbind : Suits p E i s.store.heap v m.defaultBinding)
    (hheld : s.locals[operand]? = some v) (hs : Proper ⟨i.module,L.slots⟩ i.globals s) (hd : m.default.isSome = true) :
    ArmRuns env L result m.defaultBinding v s (refill filler other) (refill filler default) := by
  obtain ⟨body,hbody⟩ := Option.isSome_iff_exists.mp hd
  obtain ⟨hpart,haround⟩ := hother body hbody
  exact arm_runs hG hP hS haround hpart (hm.default body hbody) hvalue (Wasm.run_localGet hheld) hbind hs

end Arms

/-! ### Values -/

def firesAt (v : Value) (case : Arm) : Bool :=
  match case.pattern with
  | .literal l => l.equals v
  | .type _ => false

private theorem findIdx?_arms {arms : List Arm} (v : Value) (hp : arms.map (·.pattern) = literals.map .literal) :
    arms.findIdx? (firesAt v) = literals.findIdx? (·.equals v) := by
  have hfires : firesAt v = (fun pattern : Pattern => match pattern with
    | .literal l => l.equals v
    | .type _ => false) ∘ (·.pattern) := rfl
  rw [hfires,← findIdx?_map,hp,findIdx?_map]
  rfl

section Values

variable (hG : Grounds p E L) (hP : PartsLeave p E L part)

include hG hP

/-- A match on values does what the arm of the first constant that is equal does, if there is room for a call. -/
theorem values_dispatch (hm : p.MatchTyped m σ τ) (hstored : E.stored? σ = some stored)
    (hvalue : result.isSome = τ.hasValue) (hguard : m.isTypeGuard = false) (hcount : m.arms.length < 0x7fffffff)
    (hd : DispatchCode p E L part m stored operand exit result dispatch) :
    ∃ bodies other, ArmParts part m bodies other ∧ ∀ {i : Instance} {filler : Instr} {levels : Nat},
      i.module = E.module.refill filler → PartsSound p E i L (envAt i levels) filler part →
      ∀ {v s}, Proper ⟨i.module,L.slots⟩ i.globals s → v.HasType i.module s.store.heap stored →
        s.locals[operand]? = some v →
        Dispatches p E i L m result.isSome (bodies.map (refill filler)) (refill filler other) (refill filler dispatch)
          (firesAt v) v levels s := by
  cases hd with
  | types hyes => cases hguard.symm.trans hyes
  | @values prim type literals finder f fallback labels codes default _ hprim hnum hp hf hfinds hnodup hlabels hcodes
      hdefault =>
    rw [typeOf_eq hm.operand] at hprim
    subst hprim
    obtain ⟨bodies,hbodies,haround⟩ := forall₂_choose (R := fun case => part case.body)
      (S := fun case => ArmAround p L result.isSome (.localGet operand) case.binding case.body)
      (hcodes.imp fun case code ⟨setting,inner,hsetting,hinner,hcode⟩ => ⟨inner,hinner,setting,hsetting,hcode⟩)
    obtain ⟨other,hother,hnone⟩ := default_parts hdefault
    refine ⟨bodies,other,⟨hbodies,fun body hb => (hother body hb).1⟩,?_⟩
    intro i filler levels hmodule hS v s hs hv hheld
    have hf' : i.module.funcs[finder]? = some (f.refill filler) := by
      rw [hmodule,Module.getElem?_funcs_refill,hf]
      rfl
    have hfinds' : Finds type stored literals (f.refill filler) := Finds.refill hfinds
    have hcall : (Instr.call finder [.localGet operand]).run (envAt i levels) s =
        Exec.call (envAt i levels) finder [v] s := by
      rw [Instr.run,Wasm.runOperands_next (Wasm.run_localGet hheld)]
      rfl
    have hcode : refill filler (.block exit result [.block fallback none (nest exit result
        [.brTable (fallback :: labels) fallback (.call finder [.localGet operand])] (labels.zip codes)),default]) =
        tableBlock exit fallback result labels finder operand (codes.map (refill filler)) (refill filler default) :=
      refill_tableBlock filler
    have harms : ∀ case ∈ m.arms, p.Fits case.body τ ∧ Suits p E i s.store.heap v case.binding := by
      intro case hmem
      obtain ⟨_,_,hbinding,hfits⟩ | ⟨hpattern,_⟩ := hm.arms case hmem
      · exact ⟨hfits,fun var hvar => ⟨_,stored,hbinding var hvar,hstored,hv⟩⟩
      · have hliteral : case.pattern ∈ literals.map Pattern.literal := hp ▸ mem_map_of_mem hmem
        rw [hpattern] at hliteral
        simp at hliteral
    rw [hcode]
    refine ⟨?_,fun _ case hmem _ => (harms case hmem).2,fun hlevels => ?_⟩
    · rintro rfl
      have hdispatch : i.callWithin 0 finder [v] s.store = .error (.trap .callStackExhausted) s.store := by
        show i.dispatch _ _ _ _ = _
        rw [Instance.dispatch_defined hf' (by simp [hfinds'.params]) hfinds'.host]
        rfl
      exact tableBlock_error (nodup_cons.mp (nodup_cons.mp hnodup).2).1 (by rw [hcall,Exec.call_error hdispatch])
    obtain ⟨levels,rfl⟩ := Nat.exists_eq_succ_of_ne_zero hlevels
    have hprims : ∀ l ∈ literals, l.prim.numType? = some type := fun l hl => by rw [literals_prim hm hp l hl,hnum]
    have htype : v.HasType i.module s.store.heap type.valueType := by
      rw [stored?_prim,hnum] at hstored
      cases hstored
      exact hv
    have hlength : literals.length = m.arms.length := by simpa using (congrArg List.length hp).symm
    have hlength' : (codes.map (refill filler)).length = m.arms.length := by rw [length_map,hcodes.length_eq]
    obtain ⟨hsome,hnone'⟩ := tableBlock_run (by rw [hcall,Exec.call_run (call_finds hf' hfinds' hprims htype)])
      hnodup (hlabels.trans hlength'.symm) (hlength.trans hlength'.symm) (hlength' ▸ hcount)
    have hno : (∀ case ∈ m.arms, ¬ firesAt v case = true) → literals.findIdx? (·.equals v) = none := by
      intro hno
      rw [← findIdx?_arms v hp,findIdx?_eq_none_iff]
      exact fun case hcase => by simpa using hno case hcase
    refine ⟨fun k case body hcase hbody hfires hbefore => ?_,fun hnot hd => ?_,fun hnot hd => ?_⟩
    · obtain ⟨hlt,hget⟩ := List.getElem?_eq_some_iff.mp hcase
      have hfound : literals.findIdx? (·.equals v) = some k := by
        rw [← findIdx?_arms v hp,List.findIdx?_eq_some_iff_getElem]
        exact ⟨hlt,hget ▸ hfires,fun j hj => hbefore j _ hj (getElem?_eq_getElem (Nat.lt_trans hj hlt))⟩
      rw [getElem?_map] at hbody
      obtain ⟨inner,hinner,rfl⟩ := Option.map_eq_some_iff.mp hbody
      have hcode : codes[k]? = some _ := getElem?_eq_getElem (hcodes.length_eq ▸ hlt)
      obtain ⟨hpart,hcode'⟩ := haround k case inner _ hcase hinner hcode
      obtain ⟨hfits,hbind⟩ := harms case (mem_of_getElem? hcase)
      have harm := arm_runs hG hP hS hcode' hpart hfits hvalue (Wasm.run_localGet hheld) hbind hs
      exact ⟨(hsome k _ hfound (by simp [hcode]) harm.ended).trans harm.run,harm.holds⟩
    · have harm := default_runs hG hP hS hm hother hvalue
        (fun var hvar => ⟨_,stored,hm.defaultBinding var hvar,hstored,hv⟩) hheld hs hd
      exact ⟨(hnone' (hno hnot) harm.ended).trans harm.run,harm.holds⟩
    · have hrun : (refill filler default).run (envAt i (levels + 1)) s = .error (.trap .unreachable) s := by
        rw [hnone hd]
        rfl
      rw [hnone' (hno hnot) (.inl ⟨_,_,hrun⟩),hrun]

end Values

/-! ### Types -/

/-- The object at hand: it lies at an address, and a local refers to it. -/
structure HoldsObject (E : Emission) (operand address : Nat) (T : EntityId) (h : State) (s : Activation) : Prop where
  slot : s.locals[operand]? = some (.ref (some address))
  cell : ∃ fields sub chain, h.world.cells[address]? = some (.object T fields) ∧
    s.store.heap[address]? = some (.struct sub (.ref (some chain) :: fields).toArray) ∧
    E.structs.lookup T = some sub ∧ E.chains.lookup T = some chain

def firesOn (p : Program) (T : EntityId) (case : Arm) : Bool :=
  match case.patternType with
  | some (.object ancestor) => p.extends? T ancestor
  | _ => false

/-- Instructions that do nothing can be left out before others. -/
theorem runAll_skip {before : List Instr}
    (h : ∀ code ∈ before, code.run env s = .ok (.next none) s) (last : Option Value) :
    ∃ last', runAll env last (before ++ rest) s = runAll env last' rest s := by
  induction before generalizing last with
  | nil => exact ⟨last,rfl⟩
  | cons code before ih =>
    obtain ⟨last',hrest⟩ := ih (fun other ho => h other (.tail _ ho)) none
    exact ⟨last',by rw [cons_append,Wasm.runAll_next (h code (.head _)),hrest]⟩

section Types

variable {struct base tester address ids : Nat} (hR : Ready p exports E filler i) (hG : Grounds p E L)
  (hP : PartsLeave p E L part) {h : State} {out top : LabelId} {T C : EntityId} {cases : List Instr}

include hR in
theorem Ready.parts_sound (hP : PartsLeave p E L part) (levels : Nat) : PartsSound p E i L (envAt i levels) filler part := by
  intro id code τ hc ht
  have hsuits : (envAt i levels).Suits ⟨i.module,L.slots⟩ i.globals := ⟨hR.layered,hR.invoke_sound levels,rfl,rfl⟩
  exact Wasm.sound_run hsuits (hR.ending? (hP hc ht).ending)

include hR in
/-- The test of an arm: a call of the function that looks among ancestors. -/
theorem test_run (levels base : Nat) (ho : HoldsObject E operand address T h s)
    (hl : Linked p E i L h s) (hne : out ≠ top) (htester : E.module.funcs[tester]? = some (extendsFunc ids out top))
    (hC : E.structs.lookup C = some struct) :
    (Instr.call tester [.i32Const (runtimeId C),.structGet base 0 (.localGet operand)]).run (envAt i levels) s =
      if levels = 0 then .error (.trap .callStackExhausted) s
      else .ok (.next (some (.ofBool (p.extends? T C)))) s := by
  obtain ⟨fields,sub,chain,_,hheap,hsub,hchain⟩ := ho.cell
  have hI := hR.resolved.inv
  have hO := hR.lowered.objects.populated hC
  have htester' : i.module.funcs[tester]? = some (extendsFunc ids out top) := by
    rw [hR.func,htester,Option.map_some,refill_extendsFunc]
  obtain ⟨_,ancestors,horder,hancestors⟩ := hO.global hchain
  have hchainT := (mem_objectsInOrder hI).mp (mem_of_getElem? horder)
  obtain ⟨_,hchainC⟩ := (hO.lookup_iff hI).mp ⟨struct,hC⟩
  have hget : (Instr.structGet base 0 (.localGet operand)).run (envAt i levels) s =
      .ok (.next (some (.ref (some chain)))) s := by
    rw [Instr.run,Exec.operand_next (Wasm.run_localGet ho.slot),Exec.getField,Exec.bind_ok (Exec.object_some hheap)]
    rfl
  have hcall : (Instr.call tester [.i32Const (runtimeId C),.structGet base 0 (.localGet operand)]).run (envAt i levels) s =
      Exec.call (envAt i levels) tester [.i32 (runtimeId C),.ref (some chain)] s := by
    have hnumber : (Instr.i32Const (runtimeId C)).run (envAt i levels) s = .ok (.next (some (.i32 (runtimeId C)))) s := rfl
    rw [Instr.run,Wasm.runOperands_next hnumber,Wasm.runOperands_next hget]
    rfl
  rw [hcall]
  cases levels with
  | zero =>
    have hrun : i.callWithin 0 tester [.i32 (runtimeId C),.ref (some chain)] s.store =
        .error (.trap .callStackExhausted) s.store := by
      show i.dispatch _ _ _ _ = _
      rw [Instance.dispatch_defined htester' rfl rfl]
      rfl
    rw [Exec.call_error hrun]
    rfl
  | succ levels =>
    have hlength := hchainT.length_le_size
    have hrounds := hR.rounds
    have hentities := hR.entities
    have hmem := (mem_runtimeIds (Nat.le_of_lt hentities) hchainT hchainC.lt_size).trans (extends?_eq hI).symm
    rw [Exec.call_run (call_extendsFunc htester' hne (hl.mirrors.ancestor hancestors)
      (by rw [length_map]; omega) (by rw [length_map]; omega) _),if_neg (by omega)]
    simp only [hmem,Bool.decide_eq_true,Program.extends?]

/-- If its first test stops, a match on types stops. -/
theorem types_error (hguard : m.isTypeGuard = true)
    (hcases : List.Forall₂ (TypeCaseCode p E L part tester base operand exit result) m.arms cases)
    (htest : ∀ object struct, E.structs.lookup object = some struct →
      (Instr.call tester [.i32Const (runtimeId object),.structGet base 0 (.localGet operand)]).run env s = .error stop t) :
    (refill filler (.block exit result (cases ++ [default]))).run env s = .error stop t := by
  obtain ⟨final,hfinal,_⟩ := refill_types filler exit result cases default
  rw [hfinal,Instr.run]
  cases harms : m.arms with
  | nil => simp [Match.isTypeGuard,harms] at hguard
  | cons case arms =>
    rw [harms] at hcases
    obtain _ | ⟨⟨object,struct,body,_,hstruct,_,rfl⟩,_⟩ := hcases
    simp only [refillAll,refill,cons_append]
    refine Exec.block_error (Wasm.runAll_error ?_)
    rw [Instr.run,Exec.operand_error (htest object struct hstruct)]

include hR hG hP

/-- A case of a match on types goes on unless its type is an ancestor; then it leaves the match as its arm ends. -/
theorem case_runs {case : Arm} {body : Instr} (hlevels : levels ≠ 0)
    (ho : HoldsObject E operand address T h s) (hl : Linked p E i L h s) (hne : out ≠ top)
    (htester : E.module.funcs[tester]? = some (extendsFunc ids out top)) (hvalue : result.isSome = τ.hasValue)
    (harm : p.ArmTyped (.object C) τ case) (hbody : part case.body body)
    (hcode : CaseAround p E L tester base operand exit result case body code) :
    (firesOn p T case = false → (refill filler code).run (envAt i levels) s = .ok (.next none) s) ∧
    (firesOn p T case = true → ∃ arm, Suits p E i s.store.heap (.ref (some address)) case.binding ∧
      ArmRuns (envAt i levels) L result case.binding (.ref (some address)) s (refill filler body) arm ∧
      (refill filler code).run (envAt i levels) s = leaving exit (arm.run (envAt i levels) s)) := by
  obtain ⟨object,struct,arm,hpattern,hstruct,haround,rfl⟩ := hcode
  obtain ⟨_,hprim,_⟩ | ⟨_,hpattern',hbinding,hfits,_⟩ := harm
  · cases hprim
  cases hpattern.symm.trans hpattern'
  have htest := test_run hR levels base ho hl hne htester hstruct
  rw [if_neg hlevels] at htest
  have hcond := @Wasm.run_cond (envAt i levels) s s _ none _ [exitWith exit (refill filler arm) result] [] htest
  have hrefill : refill filler (.cond none (.call tester [.i32Const (runtimeId object),
      .structGet base 0 (.localGet operand)]) [exitWith exit arm result] []) =
      .cond none (.call tester [.i32Const (runtimeId object),.structGet base 0 (.localGet operand)])
        [exitWith exit (refill filler arm) result] [] := by
    simp only [refill,refillAll,refill_exitWith]
  rw [hrefill,hcond,show firesOn p T case = p.extends? T object by simp only [firesOn,hpattern]]
  refine ⟨fun hext => ?_,fun hext => ?_⟩
  · rw [hext,if_neg (by decide)]
    rfl
  obtain ⟨fields,sub,chain,_,hheap,hsub,hchain⟩ := ho.cell
  have hsubtype : i.module.isSubtype sub struct = true := by
    rw [hR.isSubtype]
    exact ((hG.objects.populated hstruct).isSubtype_iff hR.resolved.inv hsub hstruct).mpr
      ((extends?_eq hR.resolved.inv).mp hext)
  have hset : (refill filler (.refCast struct (.localGet operand))).run (envAt i levels) s =
      .ok (.next (some (.ref (some address)))) s := by
    rw [show refill filler (.refCast struct (.localGet operand)) = .refCast struct (.localGet operand) by simp only [refill],
      Instr.run,Exec.operand_next (Wasm.run_localGet ho.slot)]
    exact (Exec.cast_run hheap).trans (if_pos hsubtype)
  have hbind : Suits p E i s.store.heap (.ref (some address)) case.binding := fun var hvar =>
    ⟨.object object,.ref struct,hbinding var hvar,by rw [stored?,hstruct]; rfl,.inr ⟨address,_,rfl,hheap,hsubtype⟩⟩
  have hruns := arm_runs hG hP (hR.parts_sound hP levels) haround hbody hfits hvalue hset hbind hl.proper
  refine ⟨_,hbind,hruns,?_⟩
  rw [hext,if_pos (by decide),runAll_single,exit_run exit hruns.ended]

omit hR in
/-- A match on types does what the arm of the first ancestor does, if there is room for a call. -/
theorem types_dispatch (hm : p.MatchTyped m (.object C) τ) (hC : E.structs.lookup C = some struct)
    (hvalue : result.isSome = τ.hasValue) (hguard : m.isTypeGuard = true)
    (hd : DispatchCode p E L part m (.ref struct) operand exit result dispatch) :
    ∃ bodies other, ArmParts part m bodies other ∧ ∀ {exports : List (String × EntityId)} {i : Instance}
      {filler : Instr} {levels : Nat}, Ready p exports E filler i → ∀ {h s address T}, Linked p E i L h s →
        HoldsObject E operand address T h s →
        (Value.ref (some address)).HasType i.module s.store.heap (.ref struct) →
        (m.default = none → ∃ arm ∈ m.arms, firesOn p T arm = true) →
        Dispatches p E i L m result.isSome (bodies.map (refill filler)) (refill filler other) (refill filler dispatch)
          (firesOn p T) (.ref (some address)) levels s := by
  cases hd with
  | values hno => cases hguard.symm.trans hno
  | @types tester ids out top base cases default _ hids hne htester hbase hcases hdefault =>
    obtain ⟨bodies,hbodies,haround⟩ := forall₂_choose (R := fun case => part case.body)
      (S := CaseAround p E L tester base operand exit result)
      (hcases.imp fun case code ⟨object,struct,arm,hpattern,hstruct,⟨setting,inner,hsetting,hinner,harm⟩,hcode⟩ =>
        ⟨inner,hinner,object,struct,arm,hpattern,hstruct,⟨setting,hsetting,harm⟩,hcode⟩)
    obtain ⟨other,hother,hnone⟩ := default_parts hdefault
    refine ⟨bodies,other,⟨hbodies,fun body hb => (hother body hb).1⟩,?_⟩
    intro exports i filler levels hR h s address T hl ho hv hcovered
    have hcount := hcases.length_eq
    have hcount' := hbodies.length_eq
    have hruns := fun (hlevels : levels ≠ 0) k (hk : k < m.arms.length) =>
      have ⟨hpart,hcode⟩ := haround k _ _ _ (getElem?_eq_getElem hk) (getElem?_eq_getElem (hcount' ▸ hk))
        (getElem?_eq_getElem (hcount ▸ hk))
      case_runs hR hG hP hlevels ho hl hne htester hvalue (hm.arms _ (getElem_mem hk)) hpart hcode
    refine ⟨fun hzero => types_error hguard hcases fun object struct' hstruct => ?_,fun hlevels case hcase hfires => ?_,
      fun hlevels => ?_⟩
    · rw [test_run hR levels base ho hl hne htester hstruct,if_pos hzero]
    · obtain ⟨k,hlt,rfl⟩ := getElem_of_mem hcase
      exact ((hruns hlevels k hlt).2 hfires).choose_spec.1
    -- the cases before an arm go on
    have hskip : ∀ k, (∀ (j : Nat) case, j < k → m.arms[j]? = some case → ¬ firesOn p T case = true) →
        ∀ code ∈ (cases.take k).map (refill filler), code.run (envAt i levels) s = .ok (.next none) s := by
      intro k hbefore _ hmem
      obtain ⟨code,hcode,rfl⟩ := mem_map.mp hmem
      obtain ⟨j,hj,rfl⟩ := mem_take_iff_getElem.mp hcode
      refine (hruns hlevels j (by omega)).1 ?_
      simpa using hbefore j _ (by omega) (getElem?_eq_getElem (by omega))
    obtain ⟨final,hfinal,hsame⟩ := refill_types filler exit result cases default
    rw [hfinal,Instr.run,Wasm.refillAll_eq_map]
    refine ⟨fun k case body hcase hbody hfires hbefore => ?_,fun hnot hd => ?_,fun hnot hd => ?_⟩
    · obtain ⟨hlt,rfl⟩ := List.getElem?_eq_some_iff.mp hcase
      simp only [List.getElem?_map,List.getElem?_eq_getElem (hcount' ▸ hlt),Option.map_some,Option.some.injEq] at hbody
      subst hbody
      obtain ⟨arm,_,harm,hrun⟩ := (hruns hlevels k hlt).2 hfires
      have hsplit : cases.map (refill filler) ++ [final] = (cases.take k).map (refill filler) ++
          refill filler cases[k] :: ((cases.drop (k + 1)).map (refill filler) ++ [final]) := by
        conv_lhs => rw [← take_append_drop k cases,drop_eq_getElem_cons (hcount ▸ hlt)]
        simp only [map_append,map_cons,append_assoc,cons_append]
      obtain ⟨last,hlast⟩ := runAll_skip (hskip k hbefore) none
      rw [hsplit,Exec.block_congr hlast,block_leaving harm.ended (runAll_leaving harm.ended hrun)]
      exact ⟨harm.run,harm.holds⟩
    · have harm := default_runs hG hP (hR.parts_sound hP levels) hm hother hvalue (fun var hvar =>
        ⟨_,_,hm.defaultBinding var hvar,by rw [stored?,hC]; rfl,hv⟩) ho.slot hl.proper hd
      have hseq : refill filler default ≠ .unreachable := by
        obtain ⟨body,hbody⟩ := Option.isSome_iff_exists.mp hd
        obtain ⟨_,_,_,rfl⟩ := hother body hbody
        simp [refill]
      obtain ⟨last,hlast⟩ := runAll_skip (hskip cases.length fun j case hj hcase =>
        hnot case (mem_of_getElem? hcase)) none
      rw [take_length] at hlast
      rw [hsame hseq,Exec.block_congr (hlast.trans (runAll_single _ _ _)),block_ended harm.ended rfl]
      exact ⟨harm.run,harm.holds⟩
    · obtain ⟨arm,ha,hfires⟩ := hcovered hd
      exact absurd hfires (hnot arm ha)

end Types

/-! ### Matches -/

section Choices

variable {hosts : Hosts} {ev : ExprId → Eval (Option Value)} (hG : Grounds p E L)
  (hA : PartsAgree p exports E filler i L (envAt i levels) part ev)
  (hU : Unshared L) {h : State}

include hG hA hU

/-- An arm runs as it is evaluated. -/
theorem arm_tied {inner : Instr} (hc : part body inner)
    (hf : p.Fits body τ) (hbind : Suits p E i s.store.heap v binding)
    (hslot : ∀ var, binding = some var → ∃ slot, L.vars.lookup var = some slot ∧ (bound L binding v s).locals[slot]? = some v)
    (hl : Linked p E i L h s) : Tied (Ends p exports E i) (Meets p E L) (arm ev keep v binding body h)
      (kept keep ((refill filler inner).run (envAt i levels) (bound L binding v s))) := by
  obtain ⟨σ,hσ,_⟩ := hf
  have hbranch : ∀ {h s}, Linked p E i L h s → Tied (Ends p exports E i) (Meets p E L) (branch ev keep body h)
      (kept keep ((refill filler inner).run (envAt i levels) s)) := by
    intro h s hl
    unfold branch
    rw [bind_run]
    rcases (hA hc hσ hl).elim with ⟨halt,h',stop,s',hx,hr,hend⟩ | ⟨value,h',flow,s',hx,hr,rfl,hl',_⟩
    · rw [hx,hr]
      exact hend
    · rw [hx,hr]
      exact ⟨rfl,hl'.mirrors,hl'.vars⟩
  cases binding with
  | none => exact hbranch hl
  | some var =>
    obtain ⟨slot,hslot,_⟩ := hslot var rfl
    obtain ⟨ρ,type,hvar,hs,hv⟩ := hbind var rfl
    have hbound : bound L (some var) v s = { s with locals := s.locals.setIfInBounds slot v } := by
      simp [bound,hslot]
    rw [hbound]
    exact hbranch (hl.setVar hG hU hslot hvar hs hv).2

/-- What chooses among the arms as evaluation does runs as it is evaluated. -/
theorem choose_tied {bodies : List Instr} {fires : Arm → Bool}
    (hm : p.MatchTyped m σ τ) (hparts : ArmParts part m bodies other)
    (hc : Dispatches p E i L m keep (bodies.map (refill filler)) (refill filler other) code fires v levels s)
    (hdefault : Suits p E i s.store.heap v m.defaultBinding)
    (hpartial : m.default = none → (∀ case ∈ m.arms, ¬ fires case = true) → PartialMatch p exports)
    (hl : Linked p E i L h s) : Tied (Ends p exports E i) (Meets p E L)
      (choose (sceneAt p i hosts levels) ev keep m v fires h) (code.run (envAt i levels) s) := by
  unfold choose
  by_cases hlevels : levels = 0
  · rw [hc.exhausted hlevels,if_neg (by simp [sceneAt,hlevels])]
    exact .halt hl.mirrors rfl .exhausted
  rw [if_pos (by simp [sceneAt,hlevels])]
  obtain ⟨hfirst,hother,hnone⟩ := hc.chooses hlevels
  cases hfind : m.arms.find? fires with
  | some case =>
    obtain ⟨hfires,k,hlt,rfl,hbefore⟩ := find?_eq_some_iff_getElem.mp hfind
    have hlt' : k < bodies.length := hparts.arms.length_eq ▸ hlt
    have hpart := (forall₂_iff_get.mp hparts.arms).2 k hlt hlt'
    obtain ⟨hr,hslot⟩ := hfirst k _ (refill filler bodies[k]) (List.getElem?_eq_getElem hlt) (by simp [hlt']) hfires
      fun j earlier hj he => by
        obtain ⟨_,rfl⟩ := List.getElem?_eq_some_iff.mp he
        simpa using hbefore j hj
    have hfits : p.Fits m.arms[k].body τ := by
      obtain ⟨_,_,_,hfits⟩ | ⟨_,_,_,hfits,_⟩ := hm.arms _ (getElem_mem hlt)
      · exact hfits
      · exact hfits
    rw [hr]
    exact arm_tied hG hA hU hpart hfits (hc.suits hlevels _ (getElem_mem hlt) hfires) hslot hl
  | none =>
    have hnot : ∀ case ∈ m.arms, ¬ fires case = true := find?_eq_none.mp hfind
    cases hd : m.default with
    | some body =>
      obtain ⟨hr,hslot⟩ := hother hnot (by simp [hd])
      rw [hr]
      exact arm_tied hG hA hU (hparts.default body hd) (hm.default body hd) hdefault hslot hl
    | none =>
      rw [hnone hnot hd]
      exact .halt hl.mirrors rfl (.noCase (hpartial hd hnot))

end Choices

end Semantics

end FormCompiler
