import FormCompiler.Proofs.Lowering.Placement
import FormCompiler.Proofs.Semantics.Calls

/-! What the code of a match does, said of the machine alone: the operand is run once, one arm is run after it, and the
match ends as the arm does. Which arm that is depends on the value only. -/

namespace FormCompiler

open Wasm (Activation Exec Flow Func Instance Instr LabelId NumType Proper Sound Stop Surroundings Value ValueType
  resultTyped runAll)
open Lower

namespace Semantics

variable {E : Emission} {i : Instance} {p : Program} {L : Layout}

/-- Code of the parts of a match. -/
structure MatchParts (part : ExprId → Instr → Prop) (m : Match) (value : Instr) (bodies : List Instr) (other : Instr) :
    Prop where
  operand : part m.operand value
  arms : List.Forall₂ (fun case => part case.body) m.arms bodies
  default : ∀ body, m.default = some body → part body other

section Matches

variable {part : ExprId → Instr → Prop} {m : Match} {τ σ : Ty}

/-- The operand is run once, and its value is kept in a local. -/
theorem operand_run {env : Surroundings} {s : Activation} {operand : Nat} {stored : ValueType}
    {value : Instr} (hS : PartsSound p E i L env .unreachable part) (dispatch : Instr) (hc : part m.operand value)
    (ht : p.Typed m.operand σ) (hstored : E.stored? σ = some stored) (hslot : L.slots[operand]? = some stored)
    (hs : Proper ⟨i.module,L.slots⟩ i.globals s) : (∃ stop t, value.run env s = .error stop t ∧
      (Instr.seq [.localSet operand value,dispatch]).run env s = .error stop t) ∨
    ∃ v t, value.run env s = .ok (.next (some v)) t ∧ v.HasType i.module t.store.heap stored ∧
      Proper ⟨i.module,L.slots⟩ i.globals { t with locals := t.locals.setIfInBounds operand v } ∧
      (t.locals.setIfInBounds operand v)[operand]? = some v ∧
      (Instr.seq [.localSet operand value,dispatch]).run env s =
        dispatch.run env { t with locals := t.locals.setIfInBounds operand v } := by
  have hrun := part_run hS hc ht hs
  rw [Wasm.refill_unreachable] at hrun
  rw [Instr.run_seq]
  rcases hrun with ⟨stop,t,hr⟩ | ⟨w,t,hr,hproper,hv⟩
  · refine .inl ⟨stop,t,hr,Wasm.runAll_error ?_⟩
    rw [Instr.run,Exec.operand_error hr]
  · rw [hstored] at hv
    cases w with
    | none => exact hv.elim
    | some v =>
      obtain ⟨w,hw,_⟩ := hproper.locals operand stored hslot
      have hlt := (Array.getElem?_eq_some_iff.mp hw).1
      refine .inr ⟨v,t,hr,hv,hproper.setLocal hslot hv,by simp [hlt],?_⟩
      rw [Wasm.runAll_next (Wasm.run_localSet hr hlt),runAll_single]

/-- The code of a match on values, wherever it is run: its parts, and how it chooses among them. -/
theorem literal_select {op : Instr} (hG : Grounds p E L) (hP : PartsLeave p E L part) (hm : p.MatchTyped m σ τ)
    (hc : NodeCode p E L part τ (.select m) op) (hguard : m.isTypeGuard = false) (hcount : m.arms.length < 0x7fffffff) :
    ∃ operand value bodies other, MatchParts part m value bodies other ∧
      ∀ (i : Instance) (levels : Nat), i.module = E.module →
        PartsSound p E i L (envAt i (levels + 1)) .unreachable part →
        ∀ s, Proper ⟨i.module,L.slots⟩ i.globals s → (∃ stop t, value.run (envAt i (levels + 1)) s = .error stop t ∧
            op.run (envAt i (levels + 1)) s = .error stop t) ∨
          ∃ v t, value.run (envAt i (levels + 1)) s = .ok (.next (some v)) t ∧
            Chooses (envAt i (levels + 1)) L m τ.hasValue bodies other (fun case => firesAt v case = true) v
              { t with locals := t.locals.setIfInBounds operand v } (op.run (envAt i (levels + 1)) s) := by
  obtain _ | _ | _ | _ | _ | _ | _ | _ | _ | _ | _ |
    @⟨_,stored,operand,value,exit,_,dispatch,hstored,hvalue,hslot,_,rfl,hkept,hdispatch⟩ := hc
  rw [typeOf_eq hm.operand] at hstored
  obtain ⟨bodies,other,hparts,hruns⟩ := values_dispatch hG hP hm hstored hkept hguard hcount hdispatch
  refine ⟨operand,value,bodies,other,⟨hvalue,hparts.arms,hparts.default⟩,?_⟩
  intro i levels hmodule hS s hs
  rcases operand_run hS dispatch hvalue hm.operand hstored hslot hs with hstop | ⟨v,t,hr,hv,hproper,hheld,hop⟩
  · exact .inl hstop
  have hchooses := (hruns (hmodule.trans (Wasm.Module.refill_unreachable _).symm) hS hproper hv hheld).chooses
    (Nat.succ_ne_zero levels)
  simp only [← Wasm.refillAll_eq_map,Wasm.refillAll_unreachable,Wasm.refill_unreachable] at hchooses
  rw [← hkept,hop]
  exact .inr ⟨v,t,hr,hchooses⟩

end Matches

/-! ### Matches of a whole program -/

section Lowered

variable {exports : List (String × EntityId)} {id : ExprId} {code : Instr} {τ : Ty}

theorem stands_node (h : Stands p E L id code) (hτ : p.Typed id τ) :
    NodeCode p E L (Stands p E L) τ (p.exprs.get id).shape code := by
  obtain ⟨depth,h⟩ := h
  cases depth with
  | zero => exact h.elim
  | succ depth =>
    have hnode : NodeCode p E L (CodeWithin p E L depth) (p.exprs.typeOf id) (p.exprs.get id).shape code := h
    rw [typeOf_eq hτ] at hnode
    exact hnode.imp fun _ _ _ hpart => ⟨depth,hpart⟩

theorem stands_leaves (hG : Grounds p E L) : PartsLeave p E L (Stands p E L) :=
  fun ⟨depth,h⟩ hτ => codeWithin_leaves hG depth h hτ

/-- Code of the program runs as its types say, on every machine that has it. -/
theorem stands_sound (hw : p.WellResolved) (he : p.ExportsOk exports) (hE : Lowered p exports E) (hG : Grounds p E L)
    (hm : i.module = E.module) (hhosts : i.HostsTyped) (levels : Nat) :
    PartsSound p E i L (envAt i levels) .unreachable (Stands p E L) := by
  intro id code τ hc hτ
  rw [Wasm.refill_unreachable]
  have hlayered : i.module.Layered := hm ▸ hE.objects.layered hw.inv
  have hinvoke : Wasm.InvokeSound i.module i.globals (i.callWithin levels) := by
    refine Wasm.callWithin_sound hlayered hhosts (fun f hf hh => ?_) levels
    rw [hm] at hf ⊢
    obtain ⟨n,hn⟩ := List.mem_iff_getElem?.mp hf
    exact (hE.func_wellTyped hw he (Array.getElem?_toList ▸ hn)).body hh
  have hending : code.ending? ⟨i.module,L.slots⟩ {} = some (.next (E.stored? τ)) := by
    rw [hm]
    exact (stands_leaves hG hc hτ).ending
  have hsuits : (envAt i levels).Suits ⟨i.module,L.slots⟩ i.globals := ⟨hlayered,hinvoke,rfl,rfl⟩
  exact Wasm.sound_run hsuits hending

/-- A node of a function that was lowered: the storage of the function, the code of the node and where it is. -/
theorem node_lowered (hw : p.WellResolved) (he : p.ExportsOk exports) (hE : Lowered p exports E) {f : EntityId}
    {n : Nat} {d : FunctionDef} {first root : ExprId} {func : Func} (hn : E.funcs.lookup f = some n)
    (hk : p.entities.kind f = .function d) (hb : d.body = .expr first root) (hf : E.module.funcs[n]? = some func)
    (hid : d.Covers id) (hobject : ∀ given, (p.exprs.get id).shape ≠ .object given) :
    (∃ τ, p.Typed id τ) ∧ ∃ L code, Compiled p E d root func L code ∧ Grounds p E L ∧
      ∃ op, Stands p E L id op ∧ ∃ i ∈ func.body, op.Within i := by
  obtain ⟨d',hripe⟩ := (hE.reached f n hn).ripe hw he
  cases EntityKind.function.inj (hk.symm.trans hripe.kind)
  obtain ⟨L,code,hc⟩ := hE.compiled f n d first root func hn hk hb hf
  exact ⟨hw.inv.typed_of_covers hk hripe.body hid,L,code,hc,⟨hw,hE.objects,hE.consistent,hc.typed⟩,
    hc.inside hw hripe hb hid hobject⟩

end Lowered

end Semantics

open Semantics

/-- A match with a literal that is there twice, a variable and an arm for all other cases. -/
def literalSource : String :=
  "(pub (fn pick (parameters (: n i32)) (return_type i32)" ++
    "(match n bound (=> 1 10) (=> 2 bound) (=> 2 30) (else 0))))"

end FormCompiler
