import FormCompiler.Proofs.Lowering.Start
import FormCompiler.Proofs.Wasm.Flattening

/-! Lowered code has a binary form: branches stay inside the frames they name, calls go to functions that were
declared, and operators are applied where the instruction set has them. Nothing but the shape of the code matters, so
this holds for every list of exports, whether or not the exported functions make sense. -/

namespace FormCompiler

open List

open Wasm (Func Instr LabelId NumType ValueType)

variable {type : Wasm.NumType} {id : EntityId} {p : Program}

/-- The operators that are provided are those of the instruction set. -/
theorem Operator.isDefinedFor_of_mem {operator : Operator} (ho : operator ∈ Operator.all) {operand : Prim}
    (hp : operand ∈ operator.operands) (ht : operand.numType? = some type) : operator.op.isDefinedFor type = true := by
  have h : ∀ operator ∈ Operator.all, ∀ operand ∈ operator.operands,
      operand.numType?.all (operator.op.isDefinedFor ·) = true := by decide
  simpa [ht] using h operator ho operand hp

private theorem Program.Inv.isDefinedFor (hI : p.Inv) {d : FunctionDef} {op : Wasm.BinOp}
    (hd : p.entities.function? id = some d) (hb : d.body = .intrinsic (.binary op type)) :
    op.isDefinedFor type = true := by
  have hok := hI.entities id
  rw [EntityTable.function?_eq_some.mp hd] at hok
  cases hok.intrinsic _ hb with
  | binary ho hp ht => exact Operator.isDefinedFor_of_mem ho hp ht
  | arrayTemplate h | arrayInstance h => cases h

namespace Lower

open Emission

variable {E s t : Emission} {L : Layout} {part : ExprId → Instr → Prop} {code : Instr} {n : Nat} {v : Unit}

/-! ### Code for nodes -/

/-- Code that refers to what the module has. -/
abbrev Closes (E : Emission) (labels : List LabelId) (i : Instr) : Prop := i.Closed E.module.funcs.size labels

private theorem forall_right {α : Type} {R : α → Instr → Prop} {P : Instr → Prop} {as : List α} {is : List Instr}
    (h : List.Forall₂ R as is) (hR : ∀ a i, R a i → P i) : ∀ i ∈ is, P i := by
  induction h with
  | nil => simp
  | cons hi _ ih => exact forall_mem_cons.mpr ⟨hR _ _ hi,ih⟩

namespace Closes

variable {labels : List LabelId} {exit : LabelId} {result : Option ValueType}

private theorem literal (value : Literal) : Closes E labels (literal value) := by
  cases value <;> exact .mk rfl nofun

private theorem localGet (index : Nat) : Closes E labels (.localGet index) := .mk rfl (by simp)

private theorem i32Const (value : Int32) : Closes E labels (.i32Const value) := .mk rfl (by simp)

private theorem discarded (keep : Bool) (id : ExprId) (h : Closes E labels code) :
    Closes E labels (discarded p keep id code) := by
  unfold Lower.discarded
  split
  · exact .mk rfl (by simpa using h)
  · exact h

private theorem exitWith (he : exit ∈ labels) (h : Closes E [] code) : Closes E labels (exitWith exit code result) := by
  have hcode : Closes E labels code := h.widen
  cases result with
  | some type => exact .mk (decide_eq_true he) (forall_mem_singleton.mpr hcode)
  | none => exact .seq (forall_mem_cons.mpr ⟨hcode,forall_mem_singleton.mpr (.mk (decide_eq_true he) nofun)⟩)

/-- Each arm stands behind the frame that leads to it. -/
theorem nest (he : exit ∈ labels) (arms : List (LabelId × Instr)) (harms : ∀ x ∈ arms, Closes E [] x.2) {inner : List Instr}
    (hinner : ∀ i ∈ inner, Closes E (arms.map (·.1) ++ labels) i) : ∀ i ∈ nest exit result inner arms, Closes E labels i := by
  induction arms generalizing inner with
  | nil => exact hinner
  | cons arm arms ih =>
    refine ih (fun x hx => harms x (.tail _ hx)) ?_
    simp only [forall_mem_cons,not_mem_nil,false_implies,implies_true,and_true]
    exact ⟨.block hinner,exitWith (by simp [he]) (harms arm (.head _))⟩

private theorem operation {element : Option Ty} {op : Intrinsic} {args : List Instr}
    (h : OperationCode E element op args code)
    (hargs : ∀ i ∈ args, Closes E [] i) (hop : ∀ operator type, op = .binary operator type → operator.isDefinedFor type = true) :
    Closes E [] code := by
  cases h with
  | binary => exact .binary (hop _ _ rfl) (hargs _ (by simp)) (hargs _ (by simp))
  | not => exact .mk rfl (by simpa using hargs)
  | _ => exact .mk rfl hargs

section Parts

variable {operand : Nat} {keep : Bool} (hpart : ∀ id code, part id code → Closes E [] code)

include hpart

private theorem sequence {ids : List ExprId} {codes : List Instr} (h : SequenceCode p part ids codes) :
    ∀ i ∈ codes, Closes E [] i := by
  induction ids generalizing codes with
  | nil => simp [show codes = [] from h]
  | cons id ids ih =>
    obtain ⟨code,rest,hc,hr,rfl⟩ := h
    exact forall_mem_cons.mpr ⟨discarded _ _ (hpart _ _ hc),ih hr⟩

private theorem arm {value : Instr} {binding : Option EntityId} {body : ExprId}
    (h : ArmCode p L part keep value binding body code) (hvalue : Closes E [] value) : Closes E [] code := by
  obtain ⟨setting,inner,hs,hb,rfl⟩ := h
  refine .seq (forall_mem_append.mpr ⟨?_,by simpa using discarded _ _ (hpart _ _ hb)⟩)
  cases binding with
  | none => simp [show setting = [] from hs]
  | some v =>
    obtain ⟨slot,_,rfl⟩ := hs
    simpa using .mk rfl (by simpa using hvalue)

private theorem default {m : Match} (h : DefaultCode p L part keep operand m code) : Closes E [] code := by
  unfold DefaultCode at h
  split at h
  · exact arm hpart h (localGet operand)
  · rw [h]
    exact .mk rfl (by simp)

private theorem dispatch {m : Match} {stored : ValueType}
    (h : DispatchCode p E L part m stored operand exit result code) : Closes E [] code := by
  have declared {index : Nat} {f : Func} (hf : E.module.funcs[index]? = some f) : index < E.module.funcs.size :=
    (Array.getElem?_eq_some_iff.mp hf).1
  have hvalue (labels : List LabelId) : Closes E labels (.localGet operand) := localGet operand
  cases h with
  | @types tester _ _ _ base cases default _ _ _ htester _ hcases hdefault =>
    refine .block (forall_mem_append.mpr ⟨forall_right hcases fun arm i harm => ?_,
      by simpa using (Closes.default hpart hdefault).widen⟩)
    obtain ⟨object,struct,body,_,_,hbody,rfl⟩ := harm
    have hcode := Closes.arm hpart hbody (.mk rfl (by simpa using hvalue []))
    refine .cond (.mk (decide_eq_true (declared htester)) ?_) (by simpa using exitWith (by simp) hcode) (by simp)
    simpa using ⟨i32Const _,.mk rfl (by simpa using hvalue _)⟩
  | @values _ _ _ finder _ fallback labels bodies default _ _ _ _ hfinder _ _ hlength hbodies hdefault =>
    have hzip : (labels.zip bodies).map (·.1) = labels := map_fst_zip (Nat.le_of_eq (hlength.trans hbodies.length_eq))
    have hchoice : Closes E ((labels.zip bodies).map (·.1) ++ [fallback,exit])
        (.brTable (fallback :: labels) fallback (.call finder [.localGet operand])) := by
      rw [hzip]
      exact .mk (by simp +contextual [Instr.isGrounded]) (by simpa using .mk (decide_eq_true (declared hfinder)) (by simpa using hvalue _))
    have harms : ∀ x ∈ labels.zip bodies, Closes E [] x.2 := fun x hx =>
      forall_right hbodies (fun _ _ h => Closes.arm hpart h (hvalue [])) x.2 (of_mem_zip hx).2
    refine .block ?_
    simp only [forall_mem_cons,not_mem_nil,false_implies,implies_true,and_true]
    exact ⟨.block (nest (by simp) _ harms (by simpa using hchoice)),(Closes.default hpart hdefault).widen⟩

/-- What holds of the code of its parts holds of the code of a node. -/
theorem node {τ : Ty} {shape : ExprShape} (h : NodeCode p E L part τ shape code) (hI : p.Inv) (hE : E.Consistent p) :
    Closes E [] code := by
  cases h with
  | literal l => exact literal l
  | name => exact localGet _
  | block hs => exact .seq (sequence hpart hs)
  | define hv | assign hv | field hv => exact .mk rfl (by simpa using hpart _ _ hv)
  | call _ _ hargs hf =>
    obtain ⟨_,_,_,hf,_⟩ := hE.entry _ _ hf
    exact .mk (decide_eq_true (Array.getElem?_eq_some_iff.mp hf).1) (forall_right hargs hpart)
  | @operation _ _ _ callee d op _ _ hk hop hargs hcode =>
    refine operation hcode (forall_right hargs hpart) fun operator type he => ?_
    have hb : d.body = .intrinsic (.binary operator type) := by
      unfold FunctionDef.intrinsic? at hop
      split at hop <;> simp_all
    exact hI.isDefinedFor (EntityTable.function?_eq_some.mpr hk) hb
  | construct _ _ _ hfields =>
    refine .mk rfl (forall_mem_cons.mpr ⟨.mk rfl (by simp), forall_right hfields ?_⟩)
    rintro _ _ ⟨_,_,hcode⟩
    exact hpart _ _ hcode
  | cond ht hy hr _ hno =>
    refine .cond (hpart _ _ ht) (by simpa using discarded _ _ (hpart _ _ hy)) (forall_right hno ?_)
    rintro _ _ ⟨_,hcode,rfl⟩
    exact discarded _ _ (hpart _ _ hcode)
  | @loop _ body t b exit top ht hb _ =>
    have htest : Closes E [top,exit] (.eqz .i32 t) := .mk rfl (by simpa using (hpart _ _ ht).widen)
    have hbody : Closes E [exit] (.loop top [.brIf exit (.eqz .i32 t),Lower.discarded p false body b,.br top none]) := by
      refine .loop ?_
      simp only [forall_mem_cons,not_mem_nil,false_implies,implies_true,and_true]
      exact ⟨.mk (by simp [Instr.isGrounded]) (by simpa using htest),(discarded _ _ (hpart _ _ hb)).widen,
        .mk (by simp [Instr.isGrounded]) nofun⟩
    exact .block (by simpa using hbody)
  | select _ hv _ _ hr _ hd =>
    refine .seq ?_
    simp only [forall_mem_cons,not_mem_nil,false_implies,implies_true,and_true]
    exact ⟨.mk rfl (by simpa using hpart _ _ hv),dispatch hpart hd⟩

end Parts

private theorem within (hI : p.Inv) (hE : E.Consistent p) {depth : Nat} {id : ExprId}
    (h : CodeWithin p E L depth id code) : Closes E [] code := by
  induction depth generalizing id code with
  | zero => exact h.elim
  | succ depth ih => exact node (fun _ _ => ih) h hI hE

/-! ### Functions of the module's own -/

private theorem caseTests (type : NumType) (literals : List Literal) (index : Nat) :
    ∀ i ∈ caseTests type index literals, Closes E [] i := by
  induction literals generalizing index with
  | nil => simpa [Lower.caseTests] using i32Const 0
  | cons l literals ih =>
    refine forall_mem_cons.mpr ⟨.cond (.binary (by cases type <;> rfl) (localGet 0) (literal l))
      ?_ (by simp),ih (index + 1)⟩
    simpa using .mk rfl (by simpa using i32Const _)

private theorem extendsBody (ids : Nat) (exit top : LabelId) : ∀ i ∈ extendsBody ids exit top, Closes E [] i := by
  have hget : ∀ index, Closes E [top,exit] (.localGet index) := fun index => localGet index
  have hlength : Closes E [top,exit] (.arrayLen (.localGet 1)) := .mk rfl (by simpa using hget 1)
  have hitem : Closes E [top,exit] (.arrayGet ids (.localGet 1) (.localGet 2)) :=
    .mk rfl (by simpa using ⟨hget 1,hget 2⟩)
  have hsum : Closes E [top,exit] (.localSet 2 (.binary .add .i32 (.localGet 2) (.i32Const 1))) :=
    .mk rfl (by simpa using .binary rfl (hget 2) (i32Const 1))
  have hfound : Closes E [top,exit] (.ret (some (.i32Const 1))) := .mk rfl (by simpa using i32Const 1)
  have hdone : Closes E [top,exit] (.binary .ge .i32 (.localGet 2) (.arrayLen (.localGet 1))) :=
    .binary rfl (hget 2) hlength
  have hbody : Closes E [exit] (.loop top [.brIf exit (.binary .ge .i32 (.localGet 2) (.arrayLen (.localGet 1))),
      .cond none (.binary .eq .i32 (.arrayGet ids (.localGet 1) (.localGet 2)) (.localGet 0))
        [.ret (some (.i32Const 1))] [],
      .localSet 2 (.binary .add .i32 (.localGet 2) (.i32Const 1)),.br top none]) := by
    refine .loop ?_
    simp only [forall_mem_cons,not_mem_nil,false_implies,implies_true,and_true]
    exact ⟨.mk (by simp [Instr.isGrounded]) (by simpa using hdone),
      .cond (.binary rfl hitem (hget 0)) (by simpa using hfound) (by simp),hsum,.mk (by simp [Instr.isGrounded]) nofun⟩
  simp only [Lower.extendsBody,forall_mem_cons,not_mem_nil,false_implies,implies_true,and_true]
  exact ⟨.mk rfl (by simpa using i32Const 0),.block (by simpa using hbody),i32Const 0⟩

/-- All that a finished module holds. -/
theorem made (hI : p.Inv) (hE : E.Consistent p) {body : List Instr} (h : Made p E body) : ∀ i ∈ body, Closes E [] i := by
  rcases h with rfl | ⟨ids,exit,top,rfl⟩ | ⟨type,literals,rfl⟩ | ⟨L,keep,root,code,hc,rfl⟩
  · simp
  · exact extendsBody ids exit top
  · exact caseTests type literals 1
  · simpa using discarded keep root (within hI hE hc)

end Closes

private theorem Objects.closes (h : Objects p E) : ∀ g ∈ E.module.globals, g.init.Closed n [] := by
  intro g hg
  rw [← Array.mem_toList_iff,h.globals_eq] at hg
  obtain ⟨x,_,rfl⟩ := mem_map.mp hg
  refine .mk rfl fun i hi => ?_
  obtain ⟨ancestor,_,rfl⟩ := mem_map.mp hi
  exact .mk rfl (by simp)

end Lower

/-- Lowered code always has a binary form: its branches go to frames around them, its calls to functions that are there,
and its operators are those of the instruction set. -/
theorem encode_ok_of_lowerProgram {p q : Program} (hp : p.Scanned) (hq : resolveProgram p = .ok () q)
    {exports : List (String × EntityId)} {m : Wasm.Module} (hm : lowerProgram q exports = .ok m) :
    (∃ bytes, m.encode = .ok bytes) ∧ ∀ f ∈ m.funcs, ∀ i ∈ f.body, i.Closed m.funcs.size [] := by
  have hw := ((hp.fresh.inv hp.hasBase).resolveProgram hp.fresh.idle (hp.fresh.arraysNamed hp.hasArrays) hq).2
  obtain ⟨_,E,hE,rfl⟩ := Lower.lowerProgram_ok hm
  obtain ⟨_,_,_,_,hdone,_⟩ := Lower.midway_of_program hw hE
  have hclosed : ∀ f ∈ E.module.funcs, ∀ i ∈ f.body, Lower.Closes E [] i := fun f hf => by
    obtain ⟨n,hn⟩ := Array.mem_iff_getElem?.mp hf
    exact Lower.Closes.made hw.inv hdone.consistent (hdone.filled n f hn E (.refl E))
  exact ⟨Wasm.Module.encode_succeeds hclosed hdone.objects.closes,hclosed⟩

/-- A loop around a match on values, a match on objects, and calls of a function that is lowered later. -/
private def branchesAndCalls : String :=
  "(obj A (: x i32)) (obj B (extends A)) (fn half (parameters (: n i32)) (/ n 2))" ++
    "(pub (fn f (parameters (: a A)) (block (define_mut n (x a))" ++
    "  (while (> n 10) (match n (=> 12 (= n 0)) (else (= n (half n)))))" ++
    "  (match a (=> B (half n)) (else n)))))"

/-- Whether the functions that a source shows to the outside are lowered, with all that they reach. -/
private def lowers (source : String) : Bool :=
  okAnd (fun scope p => okAnd (fun _ q => (q.exportsOf scope).toOption.any fun exports =>
      (lowerProgram q exports).toOption.any fun m => exports.length == 1 && m.funcs.size == 4) (resolveProgram p))
    (scan [] "main.vast" source Program.initial)

theorem encode_ok_of_lowerProgram_sample : ∃ p q exports m, p.Scanned ∧ resolveProgram p = .ok () q ∧
    lowerProgram q exports = .ok m ∧ exports.length = 1 ∧ m.funcs.size = 4 ∧ (∃ bytes, m.encode = .ok bytes) ∧
    ∀ f ∈ m.funcs, ∀ i ∈ f.body, i.Closed m.funcs.size [] := by
  obtain ⟨source,h⟩ : ∃ source, lowers source = true := ⟨branchesAndCalls,by decide +kernel⟩
  obtain ⟨scope,p,hp,h⟩ := okAnd_iff.mp h
  obtain ⟨_,q,hq,h⟩ := okAnd_iff.mp h
  obtain ⟨exports,_,h⟩ := exists_of_any h
  obtain ⟨m,hm,h⟩ := exists_of_any h
  rw [Bool.and_eq_true,beq_iff_eq,beq_iff_eq] at h
  exact ⟨p,q,exports,m,scanned_of_scan hp,hq,hm,h.1,h.2,encode_ok_of_lowerProgram (scanned_of_scan hp) hq hm⟩

end FormCompiler
