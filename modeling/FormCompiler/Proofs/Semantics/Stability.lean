import FormCompiler.Proofs.Semantics.Evaluation
import FormCompiler.Proofs.Wasm.Limits

/-! Limits do not change what a program does: an evaluation that ends within them ends alike where calls may nest
deeper and loops may take more rounds. -/

namespace FormCompiler

open Wasm (Host Value)

namespace Semantics

variable {cut : Halt → Prop} {rounds : Nat}

structure Scene.Allows (cut : Halt → Prop) (scene more : Scene) : Prop where
  program : more.program = scene.program
  rounds : more.rounds = scene.rounds ∨ scene.rounds ≤ more.rounds ∧ cut .unfinished
  room : more.room = scene.room ∨ scene.room = false ∧ cut .exhausted
  invoke : ∀ f args, Stable cut (scene.invoke f args) (more.invoke f args)

section Nodes

variable {scene more : Scene} (hscene : scene.Allows cut more) {part part' : ExprId → Eval (Option Value)}
  (hpart : ∀ id, Stable cut (part id) (part' id))
include hpart

private theorem operand_stable (id : ExprId) : Stable cut (operand part id) (operand part' id) :=
  (hpart id).bind fun _ => .refl _

private theorem operands_stable (ids : List ExprId) : Stable cut (operands part ids) (operands part' ids) := by
  induction ids with
  | nil => exact .refl _
  | cons id ids ih => exact (operand_stable hpart id).bind fun _ => ih.bind fun _ => .refl _

private theorem sequence_stable (ids : List ExprId) (last : Option Value) :
    Stable cut (sequence part last ids) (sequence part' last ids) := by
  induction ids generalizing last with
  | nil => exact .refl _
  | cons id ids ih => exact (hpart id).bind ih

private theorem operation_stable (op : Intrinsic) (element : Option Ty) (args : List ExprId) :
    Stable cut (operation part op element args) (operation part' op element args) := by
  have harg := operand_stable hpart
  unfold operation
  split
  · exact (harg _).bind fun _ => (harg _).bind fun _ => .refl _
  · exact (harg _).bind fun _ => .refl _
  · exact (harg _).bind fun _ => .refl _
  · exact (harg _).bind fun _ => (Stable.refl _).bind fun _ => (harg _).bind fun _ => .refl _
  · exact (harg _).bind fun _ => (Stable.refl _).bind fun _ => (harg _).bind fun _ =>
      (Stable.refl _).bind fun _ => (harg _).bind fun _ => .refl _
  · exact (harg _).bind fun _ => .refl _
  · exact .refl _

private theorem initialisers_stable (given : List (String × ExprId)) (fields : List Field) :
    Stable cut (initialisers part given fields) (initialisers part' given fields) := by
  induction fields with
  | nil => exact .refl _
  | cons field fields ih =>
    unfold initialisers
    split
    · exact (operand_stable hpart _).bind fun _ => ih.bind fun _ => .refl _
    · exact .refl _

private theorem branch_stable (keep : Bool) (id : ExprId) : Stable cut (branch part keep id) (branch part' keep id) :=
  (hpart id).bind fun _ => .refl _

private theorem arm_stable (keep : Bool) (value : Value) (binding : Option EntityId) (body : ExprId) :
    Stable cut (arm part keep value binding body) (arm part' keep value binding body) := by
  cases binding with
  | none => exact branch_stable hpart keep body
  | some var => exact (Stable.refl _).bind fun _ => branch_stable hpart keep body

private theorem loop_stable (test body : ExprId) {rounds' : Nat}
    (h : rounds' = rounds ∨ rounds ≤ rounds' ∧ cut .unfinished) :
    Stable cut (loop part test body rounds) (loop part' test body rounds') := by
  induction rounds generalizing rounds' with
  | zero =>
    rcases h with rfl | ⟨_,hcut⟩
    · exact .refl _
    · exact .short hcut _
  | succ rounds ih =>
    obtain ⟨rounds',rfl⟩ : ∃ n, rounds' = n + 1 := ⟨rounds' - 1,by omega⟩
    refine (operand_stable hpart test).bind fun _ => (Stable.refl _).bind fun n => ?_
    by_cases hn : n ≠ 0
    · rw [if_pos hn,if_pos hn]
      exact (hpart body).bind fun _ => ih (h.imp (by omega) (And.imp_left (by omega)))
    · rw [if_neg hn,if_neg hn]
      exact .refl _

include hscene

private theorem call_stable (args : List ExprId) (target : CallTarget) :
    Stable cut (call scene part args target) (call more part' args target) := by
  have hinvoke : ∀ callee vs, Stable cut (Eval.call scene callee vs) (Eval.call more callee vs) := by
    intro callee vs s
    unfold Eval.call
    rcases hscene.invoke callee vs s.world with he | ⟨halt,w,he,hcut⟩
    · rw [he]
      exact .inl rfl
    · rw [he]
      exact .inr ⟨halt,_,rfl,hcut⟩
  unfold call
  rw [hscene.program]
  split
  · split
    · exact .refl _
    · split
      · exact operation_stable hpart _ _ _
      · exact (operands_stable hpart args).bind (hinvoke _)
  · split
    · split
      · exact (initialisers_stable hpart _ _).bind fun _ => .refl _
      · exact .refl _
    · exact .refl _
  · split
    · exact (operand_stable hpart _).bind fun _ => .refl _
    · exact .refl _

private theorem choose_stable (keep : Bool) (m : Match) (value : Value) (fires : Arm → Bool) :
    Stable cut (choose scene part keep m value fires) (choose more part' keep m value fires) := by
  unfold choose
  rcases hscene.room with hroom | ⟨hroom,hcut⟩
  · rw [hroom]
    split
    · split
      · exact arm_stable hpart _ _ _ _
      · split
        · exact arm_stable hpart _ _ _ _
        · exact .refl _
    · exact .refl _
  · rw [hroom]
    exact .short hcut _

private theorem select_stable (keep : Bool) (m : Match) :
    Stable cut (select scene part keep m) (select more part' keep m) := by
  refine (operand_stable hpart _).bind fun value => ?_
  rw [hscene.program]
  split
  · refine (Stable.refl _).bind fun found => ?_
    split
    · exact choose_stable hscene hpart _ _ _ _
    · exact .refl _
  · exact choose_stable hscene hpart _ _ _ _

private theorem node_stable (id : ExprId) : Stable cut (node scene part id) (node more part' id) := by
  unfold node
  rw [hscene.program]
  split
  · exact .refl _
  · exact .refl _
  · exact sequence_stable hpart _ _
  · exact (operand_stable hpart _).bind fun _ => .refl _
  · exact (operand_stable hpart _).bind fun _ => .refl _
  · exact call_stable hscene hpart _ _
  · rename_i no _
    refine (operand_stable hpart _).bind fun _ => (Stable.refl _).bind fun n => ?_
    by_cases hn : n ≠ 0
    · rw [if_pos hn,if_pos hn]
      exact branch_stable hpart _ _
    · rw [if_neg hn,if_neg hn]
      cases no with
      | none => exact .refl _
      | some no => exact branch_stable hpart _ no
  · exact loop_stable hpart _ _ hscene.rounds
  · exact select_stable hscene hpart _ _
  · exact .refl _

omit hpart in
private theorem evalWithin_stable (depth : Nat) (id : ExprId) :
    Stable cut (evalWithin scene depth id) (evalWithin more depth id) := by
  induction depth generalizing id with
  | zero => exact .refl _
  | succ depth ih => exact node_stable hscene ih id

omit hpart in
private theorem runBody_stable (d : FunctionDef) (root : ExprId) (args : List Value) :
    Stable cut (runBody scene d root args) (runBody more d root args) := by
  intro w
  unfold runBody eval
  rw [hscene.program]
  rcases evalWithin_stable hscene (root.index + 1) root ⟨bindings scene.program d args,w⟩ with he | ⟨halt,s,he,hcut⟩
  · rw [he]
    exact .inl rfl
  · rw [he]
    exact .inr ⟨halt,s.world,rfl,hcut⟩

end Nodes

section Functions

variable {more : Nat} {p : Program} {hosts : Hosts}

private theorem dispatch_stable {enter enter' : FunctionDef → ExprId → List Value → Between (Option Value)}
    (h : ∀ d root args, Stable cut (enter d root args) (enter' d root args)) (function : EntityId) (args : List Value) :
    Stable cut (dispatch p hosts enter function args) (dispatch p hosts enter' function args) := by
  unfold dispatch
  split
  · exact .refl _
  · split
    · exact .refl _
    · split
      · exact .refl _
      · exact h _ _ _
      · exact .refl _

variable (cut)

/-- Calls that may nest deeper. -/
theorem callWithin_stable_levels (hcut : cut .exhausted) (rounds : Nat) {levels : Nat} (hle : levels ≤ more)
    (function : EntityId) (args : List Value) :
    Stable cut (callWithin p hosts rounds levels function args) (callWithin p hosts rounds more function args) := by
  induction levels generalizing more function args with
  | zero =>
    cases more with
    | zero => exact .refl _
    | succ more => exact dispatch_stable (fun _ _ _ => .short hcut _) _ _
  | succ levels ih =>
    obtain ⟨more,rfl⟩ : ∃ n, more = n + 1 := ⟨more - 1,by omega⟩
    have hallows : Scene.Allows cut ⟨p,rounds,levels ≠ 0,callWithin p hosts rounds levels⟩
        ⟨p,rounds,more ≠ 0,callWithin p hosts rounds more⟩ := by
      refine ⟨rfl,.inl rfl,?_,fun f args => ih (by omega) f args⟩
      by_cases hroom : levels = 0
      · exact .inr ⟨by simp [hroom],hcut⟩
      · exact .inl (by simp [hroom,show more ≠ 0 by omega])
    exact dispatch_stable (runBody_stable hallows) _ _

/-- Loops that may take more rounds. -/
theorem callWithin_stable_rounds (hcut : cut .unfinished) (hle : rounds ≤ more) (levels : Nat)
    (function : EntityId) (args : List Value) :
    Stable cut (callWithin p hosts rounds levels function args) (callWithin p hosts more levels function args) := by
  induction levels generalizing function args with
  | zero => exact .refl _
  | succ levels ih =>
    have hallows : Scene.Allows cut ⟨p,rounds,levels ≠ 0,callWithin p hosts rounds levels⟩
        ⟨p,more,levels ≠ 0,callWithin p hosts more levels⟩ := ⟨rfl,.inr ⟨hle,hcut⟩,.inl rfl,ih⟩
    exact dispatch_stable (runBody_stable hallows) _ _

/-- What a call comes to within some limits it comes to within others, unless calls nest too deep. -/
theorem callWithin_of_ends {function : EntityId} {args : List Value} {w : World} {levels : Nat}
    {r : EStateM.Result Halt World (Option Value)} (h : callWithin p hosts rounds levels function args w = r)
    (hexhausted : ∀ w', r ≠ .error .exhausted w') (hunfinished : ∀ w', r ≠ .error .unfinished w')
    (hle : rounds ≤ more) (depth : Nat) : callWithin p hosts more depth function args w = r ∨
      ∃ w', callWithin p hosts more depth function args w = .error .exhausted w' := by
  have hmore : callWithin p hosts more levels function args w = r := by
    rcases callWithin_stable_rounds (· = .unfinished) rfl hle levels function args w with he | ⟨_,w',he,rfl⟩
    · exact he ▸ h
    · exact absurd (h.symm.trans he) (hunfinished w')
  by_cases hdepth : levels ≤ depth
  · rcases callWithin_stable_levels (· = .exhausted) rfl more hdepth function args w with he | ⟨_,w',he,rfl⟩
    · exact .inl (he ▸ hmore)
    · exact absurd (hmore.symm.trans he) (hexhausted w')
  · rcases callWithin_stable_levels (· = .exhausted) rfl more (show depth ≤ levels by omega) function args w with
      he | ⟨_,w',he,rfl⟩
    · exact .inl (he.trans hmore)
    · exact .inr ⟨w',he⟩

end Functions

end Semantics

end FormCompiler
