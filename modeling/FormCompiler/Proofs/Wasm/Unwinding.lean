import FormCompiler.Proofs.Wasm.Running
import FormCompiler.Proofs.Wasm.Text

/-! Branches by label and branches by number. The machine carries a branch outward until a block or loop has its label;
stack code says instead how many frames to leave. Where code has stack code the two come to the same, and no branch
leaves a function. -/

namespace FormCompiler.Wasm

open Exec

variable {indices : Array Nat} {frame : Option LabelId} {e : Stop} {x y : Exec Flow}

/-- The place of the frame that stack code has a branch lead to, counted from the outermost. -/
def Frames.designated (frames : Frames) (label : LabelId) : LabelId :=
  match frames.depth label with
  | .ok depth => ⟨frames.length - depth⟩
  | .error _ => label

mutual

/-- The instruction with places for names: no two frames around a branch share one, and a branch names the frame that
its stack code leads to. -/
def Instr.placed (frames : Frames) : Instr → Instr
  | .localSet index value => .localSet index (value.placed frames)
  | .binary op type left right => .binary op type (left.placed frames) (right.placed frames)
  | .eqz type value => .eqz type (value.placed frames)
  | .call function args => .call function (placedAll frames args)
  | .block label result body => .block ⟨frames.length + 1⟩ result (placedAll (some label :: frames) body)
  | .loop label body => .loop ⟨frames.length + 1⟩ (placedAll (some label :: frames) body)
  | .cond result test yes no =>
    .cond result (test.placed frames) (placedAll (none :: frames) yes) (placedAll (none :: frames) no)
  | .br label none => .br (frames.designated label) none
  | .br label (some value) => .br (frames.designated label) (some (value.placed frames))
  | .brIf label test => .brIf (frames.designated label) (test.placed frames)
  | .brTable targets default index =>
    .brTable (targets.map frames.designated) (frames.designated default) (index.placed frames)
  | .ret (some value) => .ret (some (value.placed frames))
  | .drop value => .drop (value.placed frames)
  | .seq body => .seq (placedAll frames body)
  | .structNew type fields => .structNew type (placedAll frames fields)
  | .structGet type field object => .structGet type field (object.placed frames)
  | .refCast type value => .refCast type (value.placed frames)
  | .arrayNewFixed type values => .arrayNewFixed type (placedAll frames values)
  | .arrayNewDefault type length => .arrayNewDefault type (length.placed frames)
  | .arrayGet type array index => .arrayGet type (array.placed frames) (index.placed frames)
  | .arraySet type array index value => .arraySet type (array.placed frames) (index.placed frames) (value.placed frames)
  | .arrayLen array => .arrayLen (array.placed frames)
  | i => i

def placedAll (frames : Frames) : List Instr → List Instr
  | [] => []
  | i :: is => i.placed frames :: placedAll frames is

end

/-- A way out of code with the place of the frame it leads to. -/
def Flow.placed (frames : Frames) : Flow → Flow
  | .branch label value => .branch (frames.designated label) value
  | flow => flow

def Module.placed (m : Module) : Module :=
  { m with funcs := m.funcs.map fun f => { f with body := placedAll [] f.body } }

/-- A branch that no frame of the function stopped. -/
def Stop.isEscape : Stop → Bool
  | .trap (.malformed (.escapedBranch ..)) => true
  | _ => false

/-! ### Runs that go alike -/

variable {frames : Frames} {label : LabelId} {α : Type}

/-- A step that only fails in ways of its own. -/
def Exec.Own (x : Exec α) : Prop := ∀ s e t, x s = .error e t → e.isEscape = false

/-- Two runs inside frames that go alike. All branches lead to one of the frames, which the second knows by its place. -/
def Exec.Alike (frames : Frames) (x y : Exec Flow) : Prop := ∀ s, match x s with
  | .ok flow t => y s = .ok (flow.placed frames) t ∧ ∀ label v, flow = .branch label v → Succeeds (frames.depth label)
  | .error e t => y s = .error e t ∧ e.isEscape = false

namespace Exec.Alike

variable {f g : Flow → Exec Flow}

private theorem next (v : Option Value) : Alike frames (pure (.next v)) (pure (.next v)) := fun _ => ⟨rfl,by simp⟩

private theorem leave (v : Option Value) : Alike frames (pure (.leave v)) (pure (.leave v)) := fun _ => ⟨rfl,by simp⟩

private theorem branch (v : Option Value) (h : Succeeds (frames.depth label)) :
    Alike frames (pure (.branch label v)) (pure (.branch (frames.designated label) v)) := fun _ => ⟨rfl,by simpa using h⟩

private theorem throw (h : e.isEscape = false) : Alike frames (throw e) (throw e) := fun _ => ⟨rfl,h⟩

theorem bind {inner : Frames} (hx : Alike inner x y) (hn : ∀ v, Alike frames (f (.next v)) (g (.next v)))
    (hb : ∀ label v, Succeeds (inner.depth label) → Alike frames (f (.branch label v)) (g (.branch (inner.designated label) v)))
    (hl : ∀ v, Alike frames (f (.leave v)) (g (.leave v))) : Alike frames (x >>= f) (y >>= g) := by
  intro s
  have h := hx s
  rw [Exec.bind_run,Exec.bind_run]
  cases hxs : x s with
  | error e t =>
    rw [hxs] at h
    simp only [h.1]
    exact ⟨trivial,h.2⟩
  | ok flow t =>
    rw [hxs] at h
    rw [h.1]
    cases flow with
    | next v => exact hn v t
    | branch label v => exact hb label v (h.2 label v rfl) t
    | leave v => exact hl v t

/-- After a step that both take. -/
theorem step {x : Exec α} {f g : α → Exec Flow} (hx : x.Own) (h : ∀ a, Alike frames (f a) (g a)) :
    Alike frames (x >>= f) (x >>= g) := by
  intro s
  rw [Exec.bind_run,Exec.bind_run]
  cases hxs : x s with
  | ok a t => exact h a t
  | error e t => exact ⟨rfl,hx s e t hxs⟩

end Exec.Alike

/-! ### Frames -/

private theorem Frames.depth_cons (h : frame ≠ some label) :
    Frames.depth (frame :: frames) label = (· + 1) <$> frames.depth label := by
  unfold Frames.depth
  rw [List.findIdx?_cons,beq_eq_false_iff_ne.mpr h]
  cases frames.findIdx? (· == some label) <;> rfl

/-- What leads out of a frame leads to a place further out. -/
theorem Frames.outer (h : frame ≠ some label)
    (hd : Succeeds (Frames.depth (frame :: frames) label)) : Succeeds (frames.depth label) ∧
      Frames.designated (frame :: frames) label = frames.designated label ∧
        frames.designated label ≠ ⟨frames.length + 1⟩ := by
  obtain ⟨depth,hd⟩ := hd
  rw [depth_cons h] at hd
  unfold designated
  rw [depth_cons h]
  cases hf : frames.depth label with
  | error => simp [hf] at hd
  | ok inner =>
    refine ⟨⟨inner,rfl⟩,congrArg LabelId.mk (Nat.add_sub_add_right ..),fun he => ?_⟩
    have := LabelId.mk.inj he
    omega

namespace Exec

private theorem operand_alike {f g : Value → Exec Flow} (hx : Alike frames x y) (hf : ∀ v, Alike frames (f v) (g v)) :
    Alike frames (operand x f) (operand y g) := by
  refine hx.bind (fun v => ?_) (fun _ => .branch) .leave
  cases v with
  | none => exact .throw rfl
  | some v => exact hf v

/-- A frame catches the branches that lead to it; `f` and `g` say what comes then. -/
theorem frame_alike {f g : Option Value → Exec Flow} (hx : Alike (some label :: frames) x y)
    (hf : ∀ v, Alike frames (f v) (g v)) : Alike frames
      (x >>= fun
        | .branch target value => if target = label then f value else return .branch target value
        | flow => return flow)
      (y >>= fun
        | .branch target value => if target = ⟨frames.length + 1⟩ then g value else return .branch target value
        | flow => return flow) := by
  refine hx.bind .next (fun target v hl => ?_) .leave
  by_cases ht : target = label
  · subst ht
    simpa [Frames.designated,Frames.depth,List.findIdx?_cons] using hf v
  · obtain ⟨hl,he,hn⟩ := Frames.outer (by simpa using Ne.symm ht) hl
    simp only [he,ht,hn,if_false]
    exact .branch v hl

private theorem iterate_alike (h : Alike (some label :: frames) x y) (rounds : Nat) :
    Alike frames (iterate label x rounds) (iterate ⟨frames.length + 1⟩ y rounds) := by
  induction rounds with
  | zero => exact .throw rfl
  | succ rounds ih => exact frame_alike h fun _ => ih

/-- A branch out of an arm is one out of the conditional. -/
theorem arm_alike (h : Alike (none :: frames) x y) : Alike frames x y := by
  rw [← bind_pure x,← bind_pure y]
  refine h.bind .next (fun label v hl => ?_) .leave
  obtain ⟨hl,he,_⟩ := Frames.outer (by simp) hl
  exact he ▸ .branch v hl

end Exec

/-! ### Instructions -/

/-- Inside frames the instruction goes the same way by places. -/
def Instr.Steady (env env' : Surroundings) (frames : Frames) (i : Instr) : Prop :=
  Alike frames (i.run env) ((i.placed frames).run env')

variable {env env' : Surroundings} {is : List Instr}

private theorem runAll_alike (h : ∀ i ∈ is, i.Steady env env' frames) (last : Option Value) :
    Alike frames (runAll env last is) (runAll env' last (placedAll frames is)) := by
  induction is generalizing last with
  | nil =>
    exact .next last
  | cons i is ih =>
    exact (h i (by simp)).bind (ih fun j hj => h j (by simp [hj])) (fun _ => .branch) .leave

private theorem runOperands_alike (h : ∀ i ∈ is, i.Steady env env' frames) {f g : List Value → Exec Flow}
    (hf : ∀ vs, Alike frames (f vs) (g vs)) :
    Alike frames (runOperands env is f) (runOperands env' (placedAll frames is) g) := by
  induction is generalizing f g with
  | nil =>
    exact hf []
  | cons i is ih =>
    exact operand_alike (h i (by simp)) fun v => ih (fun j hj => h j (by simp [hj])) fun vs => hf (v :: vs)

/-! ### Steps that neither branch nor call -/

namespace Exec

section Own

variable {β : Type}

theorem Own.pure (a : α) : Own (pure a) := by
  rintro s e t ⟨⟩

private theorem Own.throw (h : e.isEscape = false) : Own (throw e : Exec α) := by
  rintro s e t ⟨⟩
  exact h

theorem Own.bind {x : Exec α} {f : α → Exec β} (hx : x.Own) (hf : ∀ a, (f a).Own) : (x >>= f).Own := by
  intro s e t h
  rw [bind_run] at h
  cases hxs : x s with
  | ok a u =>
    rw [hxs] at h
    exact hf a u e t h
  | error e' u =>
    rw [hxs] at h
    cases h
    exact hx s _ _ hxs

theorem Own.get : Own (get : Exec Activation) := by
  rintro s e t ⟨⟩

private theorem Own.heap : heap.Own := .bind .get fun _ => .pure _

private theorem Own.modify (f : Activation → Activation) : Own (modify f : Exec PUnit) := by
  rintro s e t ⟨⟩

private theorem index_own (v : Value) : (index v).Own := by
  cases v with
  | i32 => exact .pure _
  | _ => exact .bind .heap fun _ => .throw rfl

private theorem apply_own (op : BinOp) (type : NumType) (heap : Heap) (v w : Value) :
    (Exec.ofExcept (op.apply type heap v w)).Own := by
  unfold BinOp.apply integerOp FloatOps.apply
  repeat' first
    | exact .pure _
    | exact .throw rfl
    | split

end Own

end Exec

private theorem Frames.depths_found {targets : List LabelId} {depths : List Nat}
    (h : frames.depths targets = .ok depths) : ∀ label ∈ targets, Succeeds (frames.depth label) := by
  induction targets generalizing depths with
  | nil => simp
  | cons label targets ih =>
    obtain ⟨depth,hd,h⟩ := except_bind_ok.mp h
    obtain ⟨more,hm,_⟩ := except_bind_ok.mp h
    exact List.forall_mem_cons.mpr ⟨⟨depth,hd⟩,ih hm⟩

/-! ### Code that has stack code -/

/-- Surroundings that only differ in the names of frames. -/
structure Surroundings.Alike (env env' : Surroundings) : Prop where
  module : env'.module = env.module.placed
  globals : env'.globals = env.globals
  rounds : env'.rounds = env.rounds
  invoke : ∀ n args, env'.invoke n args = env.invoke n args
  own : ∀ n args s e t, env.invoke n args s = .error e t → e.isEscape = false

variable (he : env.Alike env')
include he

private theorem call_alike (n : Nat) (args : List Value) : Alike frames (call env n args) (call env' n args) := by
  intro s
  unfold call
  rw [he.invoke]
  cases h : env.invoke n args s.store with
  | ok v t => exact ⟨rfl,by simp⟩
  | error e t => exact ⟨rfl,he.own n args _ e t h⟩

private theorem cast_placed (type : Nat) : Exec.cast env'.module type = Exec.cast env.module type := by
  have hsub : ∀ a b, env'.module.isSubtype a b = env.module.isSubtype a b := by
    rw [he.module]
    exact Module.isSubtype_funcs _ _
  unfold Exec.cast
  simp only [hsub]

private theorem newDefault_placed (type : Nat) : newDefault env'.module type = newDefault env.module type := by
  rw [he.module]
  rfl

/-- An instruction that opens no frame goes alike if its operands do. -/
theorem steady_operator {i : Instr} {operands : List Instr} {last : FlatInstr}
    (ho : i.operator? indices frames = some (operands, .ok last))
    (hi : ∀ j ∈ operands, j.Steady env env' frames) : i.Steady env env' frames := by
  have hdepth {label : LabelId} {f : Nat → Except Diagnostic FlatInstr} (h : (frames.depth label >>= f) = .ok last) :
      Succeeds (frames.depth label) := (except_bind_ok.mp h).imp fun _ h => h.1
  unfold Instr.Steady
  cases i with
  | block | loop | cond | seq => cases ho
  | br label value =>
    have hlast := hdepth (Prod.mk.inj (Option.some.inj ho)).2
    cases value <;> simp only [Instr.placed,Instr.run]
    · exact .branch none hlast
    · cases (Prod.mk.inj (Option.some.inj ho)).1
      exact operand_alike (hi _ (by simp)) fun v => .branch v hlast
  | brIf label test =>
    obtain ⟨rfl,hlast⟩ := Prod.mk.inj (Option.some.inj ho)
    refine operand_alike (hi _ (by simp)) fun v => .step (index_own v) fun n => ?_
    split
    · exact .branch none (hdepth hlast)
    · exact .next none
  | brTable targets default index =>
    obtain ⟨rfl,hlast⟩ := Prod.mk.inj (Option.some.inj ho)
    obtain ⟨depths,hd,hlast⟩ := except_bind_ok.mp hlast
    refine operand_alike (hi _ (by simp)) fun v => .step (index_own v) fun n => ?_
    have ht : Exec.target (targets.map frames.designated) (frames.designated default) n =
        frames.designated (Exec.target targets default n) := by
      unfold Exec.target
      split <;> simp
    rw [ht]
    refine .branch none ?_
    unfold Exec.target
    split
    · exact hdepth hlast
    · cases h : targets[n.toInt.toNat]? with
      | none => exact hdepth hlast
      | some l => exact Frames.depths_found hd l (List.mem_of_getElem? h)
  | ret value =>
    cases value <;> cases ho <;> simp only [Instr.placed,Instr.run]
    · exact .leave none
    · exact operand_alike (hi _ (by simp)) fun v => .leave v
  | drop =>
    cases ho
    exact (hi _ (by simp)).bind (fun _ => .next none) (fun _ => .branch) .leave
  | _ =>
    -- the others run their operands, and then only look at values and objects or call
    cases (Prod.mk.inj (Option.some.inj ho)).1
    simp only [Instr.placed,Instr.run,he.globals,cast_placed he,newDefault_placed he]
    repeat' first
      | exact .next _
      | exact .throw rfl
      | exact .pure _
      | exact .get
      | exact .modify _
      | exact index_own _
      | exact apply_own _ _ _ _ _
      | exact call_alike he _ _
      | refine operand_alike (hi _ (by simp)) fun _ => ?_
      | refine runOperands_alike hi fun _ => ?_
      | refine .step ?_ fun _ => ?_
      | refine .bind ?_ fun _ => ?_
      | split
      | simp only [isZero,newDefault,Exec.cast,place]
      | unfold object

/-- Code that has stack code goes alike. -/
theorem steady_of_flatten :
    (∀ {frames} {i : Instr} {code}, i.flatten indices frames = .ok code → i.Steady env env' frames) ∧
      ∀ {frames is code}, flattenAll indices frames is = .ok code → ∀ i ∈ is, i.Steady env env' frames := by
  refine flatten_induction (P := fun frames i _ => i.Steady env env' frames)
    (Q := fun frames is _ => ∀ i ∈ is, i.Steady env env' frames) (by simp)
    (fun hi his => List.forall_mem_cons.mpr ⟨hi,his⟩) (fun ho => steady_operator he ho) ?_ ?_ ?_ ?_
  · intro frames label result body code h
    exact frame_alike (runAll_alike h none) .next
  · intro frames label body code h
    simp only [Instr.Steady,Instr.placed,Instr.run,he.rounds]
    exact iterate_alike (runAll_alike h none) _
  · intro frames body code h
    exact runAll_alike h none
  · intro frames result test yes no tested taken other ht hy hn
    refine operand_alike ht fun v => .step (index_own v) fun n => ?_
    split
    · exact arm_alike (runAll_alike hy none)
    · exact arm_alike (runAll_alike hn none)

omit he

/-! ### Calls -/

namespace Instance

/-- The machine for the module with places for names. -/
def placed (i : Instance) : Instance := { i with module := i.module.placed }

/-- Two ways to answer calls that come to the same, without a branch that escapes. -/
def Agree {α : Type} (x y : Between α) : Prop := ∀ store, y store = x store ∧ ∀ e t, x store = .error e t → e.isEscape = false

variable {i : Instance} {f : Func} {args : List Value}

private theorem runBody_placed {invoke invoke' : Nat → List Value → Between (Option Value)}
    {code : List FlatInstr} (h : ∀ n args, Agree (invoke n args) (invoke' n args))
    (hf : flattenAll indices [] f.body = .ok code) :
    Agree (i.runBody invoke f args) (i.placed.runBody invoke' { f with body := placedAll [] f.body } args) := by
  have he : (i.surroundings invoke).Alike (i.placed.surroundings invoke') :=
    ⟨rfl,rfl,rfl,fun n args => funext fun s => (h n args s).1,fun n args s => (h n args s).2⟩
  intro store
  have h := runAll_alike ((steady_of_flatten he).2 hf) none (entry f args store)
  rw [runBody_run,runBody_run]
  dsimp only [entry] at h ⊢
  cases hr : runAll (i.surroundings invoke) none f.body ⟨(args ++ f.locals.map Value.zero).toArray,store⟩ with
  | error e t =>
    rw [hr] at h
    simp [h.1,h.2]
  | ok flow t =>
    rw [hr] at h
    cases flow with
    | branch label v =>
      obtain ⟨_,hd⟩ := h.2 label v rfl
      cases hd
    | _ => simp [h.1,Flow.placed]

section

variable
  (hhosts : ∀ source host, i.hosts source = some host → ∀ args store e t, host args store = .error e t → e.isEscape = false)
include hhosts

private theorem callHost_own (source : ImportName) (store : Store) {t : Store}
    (h : i.callHost source args store = .error e t) : e.isEscape = false := by
  cases hhost : i.hosts source with
  | none =>
    rw [callHost_none hhost] at h
    cases h
    rfl
  | some host =>
    rw [callHost_some hhost] at h
    exact hhosts source host hhost args _ e t h

private theorem dispatch_placed {enter enter' : Func → List Value → Between (Option Value)}
    (h : ∀ f ∈ i.module.funcs, f.host? = none → ∀ args, Agree (enter f args) (enter' { f with body := placedAll [] f.body } args))
    (n : Nat) : Agree (i.dispatch enter n args) (i.placed.dispatch enter' n args) := by
  intro store
  have hget : i.placed.module.funcs[n]? = i.module.funcs[n]?.map fun f => { f with body := placedAll [] f.body } := by
    simp [placed,Module.placed]
  cases hf : i.module.funcs[n]? with
  | none =>
    simp only [dispatch,hget,hf]
    exact ⟨rfl,by rintro _ _ ⟨⟩; rfl⟩
  | some f =>
    rw [hf] at hget
    by_cases ha : args.length = f.params.length
    · cases hhost : f.host? with
      | none =>
        rw [dispatch_defined hf ha hhost,dispatch_defined hget ha hhost]
        exact h f (Array.mem_of_getElem? hf) hhost args store
      | some source =>
        rw [dispatch_host hf ha hhost,dispatch_host hget ha hhost]
        exact ⟨rfl,fun _ _ => callHost_own hhosts source store⟩
    · simp only [dispatch,hget,hf,Option.map_some,if_pos ha]
      exact ⟨rfl,by rintro _ _ ⟨⟩; rfl⟩

private theorem callWithin_placed {bytes : Bytes} (h : i.module.encode = .ok bytes) (depth n : Nat) (args : List Value)
    : Agree (i.callWithin depth n args) (i.placed.callWithin depth n args) := by
  induction depth generalizing n args with
  | zero => exact dispatch_placed hhosts (fun _ _ _ _ _ => ⟨rfl,by rintro _ _ ⟨⟩; rfl⟩) n
  | succ depth ih =>
    refine dispatch_placed hhosts (fun f hf hhost args => ?_) n
    obtain ⟨code,hcode,_⟩ := Module.flatBody_of_encode h hf hhost
    exact runBody_placed ih hcode

end

end Instance

/-- Where a module has a binary form, branches go where their stack code says. No call fails with a branch that leaves a
function; calls come to the same when frames are named by their places, so that no two around a branch share a name,
and branches by the place that the number in the stack code leads to; and every instruction that the binary has inside
some frames takes the same way then, with a branch to one of these frames. -/
theorem branches_designated {i : Instance} {bytes : Bytes} (h : i.module.encode = .ok bytes)
    (hhosts : ∀ source host, i.hosts source = some host → ∀ args store label name after,
      host args store ≠ .error (.trap (.malformed (.escapedBranch label name))) after) :
    (∀ function args store label name after,
      i.call function args store ≠ .error (.trap (.malformed (.escapedBranch label name))) after) ∧
    (∀ function args, i.placed.call function args = i.call function args) ∧
    ∀ frames (j : Instr) code, j.flatten i.module.binaryIndices.toArray frames = .ok code → ∀ depth s,
      match j.run (i.surroundings (i.callWithin depth)) s with
      | .ok flow t => (j.placed frames).run (i.placed.surroundings (i.placed.callWithin depth)) s =
          .ok (flow.placed frames) t ∧ ∀ label v, flow = .branch label v → ∃ n, frames.depth label = .ok n
      | .error e t => (j.placed frames).run (i.placed.surroundings (i.placed.callWithin depth)) s = .error e t := by
  have hown : ∀ {e : Stop}, e.isEscape = false ↔ ∀ label name, e ≠ .trap (.malformed (.escapedBranch label name)) := by
    intro e
    unfold Stop.isEscape
    split <;> simp_all
  have hcalls := Instance.callWithin_placed (fun source host hhost args store e t he => hown.mpr ?_) h
  · refine ⟨fun function args store label name after he => ?_,fun function args => ?_,fun frames j code hj depth s => ?_⟩
    · exact hown.mp ((hcalls _ function args store).2 _ after he) label name rfl
    · exact funext fun store => (hcalls _ function args store).1
    · have he : (i.surroundings (i.callWithin depth)).Alike (i.placed.surroundings (i.placed.callWithin depth)) :=
        ⟨rfl,rfl,rfl,fun n args => funext fun s => (hcalls depth n args s).1,fun n args s => (hcalls depth n args s).2⟩
      have hrun := (steady_of_flatten he).1 hj s
      split at hrun
      · exact hrun
      · exact hrun.1
  · rintro label name ⟨⟩
    exact hhosts source host hhost args store label name t he

/-- The inner block has the label of the outer one; the second branch leaves a conditional as well. -/
private def shadowing : Instance where
  module := { funcs := #[{ name := "f", params := [], result := some .i32, body := [.block ⟨7⟩ none
    [.cond none (.i32Const 1) [.block ⟨7⟩ none [.br ⟨7⟩ none],.br ⟨7⟩ none] [],.ret (some (.i32Const 2))],.i32Const 3] }] }

theorem branches_designated_shadowing : ∃ bytes, shadowing.module.encode = .ok bytes ∧
    shadowing.placed.module.funcs.toList.map (·.body) = [[.block ⟨1⟩ none
      [.cond none (.i32Const 1) [.block ⟨3⟩ none [.br ⟨3⟩ none],.br ⟨1⟩ none] [],.ret (some (.i32Const 2))],.i32Const 3]] ∧
    shadowing.placed.call 0 [] {} = .ok (some (.i32 3)) {} := by
  obtain ⟨bytes,h⟩ : Succeeds shadowing.module.encode := .of_isOk (by decide +kernel)
  have hrun : shadowing.call 0 [] {} = .ok (some (.i32 3)) {} := rfl
  refine ⟨bytes,h,by cbv,?_⟩
  rw [(branches_designated h fun source host hhost => by cases hhost).2.1]
  exact hrun

end FormCompiler.Wasm
