import FormCompiler.Wasm.Machine

/-! The limit on nested calls only cuts runs off: an instruction takes notice of it in no way but by being cut off
with it, and so does a call. -/

namespace FormCompiler

section Stable

variable {ε σ α β : Type} (cut : ε → Prop)

/-- Two runs that go alike unless the first is cut short. -/
def Stable (x y : EStateM ε σ α) : Prop := ∀ s, x s = y s ∨ ∃ e s', x s = .error e s' ∧ cut e

variable {cut} {x y : EStateM ε σ α}

theorem Stable.refl (x : EStateM ε σ α) : Stable cut x x := fun _ => .inl rfl

theorem Stable.short {e : ε} (h : cut e) (y : EStateM ε σ α) : Stable cut (throw e) y :=
  fun s => .inr ⟨e,s,rfl,h⟩

theorem Stable.bind {f g : α → EStateM ε σ β} (h : Stable cut x y) (k : ∀ a, Stable cut (f a) (g a)) :
    Stable cut (x >>= f) (y >>= g) := by
  intro s
  show EStateM.bind x f s = EStateM.bind y g s ∨ ∃ e s', EStateM.bind x f s = .error e s' ∧ cut e
  unfold EStateM.bind
  rcases h s with he | ⟨e,s',he,hcut⟩
  · rw [he]
    cases y s with
    | ok a s' => exact k a s'
    | error e s' => exact .inl rfl
  · rw [he]
    exact .inr ⟨e,s',rfl,hcut⟩

end Stable

namespace Wasm

variable {invoke' invoke : Nat → List Value → Between (Option Value)} {cut : Stop → Prop}

/-! ### Instructions -/

namespace Exec

variable {body' body : Exec Flow}

private theorem operand_stable {run run' : Exec Flow} {use use' : Value → Exec Flow} (hrun : Stable cut run run')
    (huse : ∀ value, Stable cut (use value) (use' value)) : Stable cut (operand run use) (operand run' use') := by
  refine hrun.bind fun flow => ?_
  split
  · exact huse _
  · exact .refl _
  · exact .refl _

private theorem block_stable (label : LabelId) (h : Stable cut body body') :
    Stable cut (block label body) (block label body') := h.bind fun _ => .refl _

/-- A loop goes on alike as long as its rounds do. -/
theorem iterate_stable (label : LabelId) (h : Stable cut body body') (rounds : Nat) :
    Stable cut (iterate label body rounds) (iterate label body' rounds) := by
  induction rounds with
  | zero => exact .refl _
  | succ rounds ih =>
    refine h.bind fun flow => ?_
    split
    · split
      · exact ih
      · exact .refl _
    · exact .refl _

private theorem call_stable {env more : Surroundings} {function : Nat} {args : List Value}
    (h : Stable cut (env.invoke function args) (more.invoke function args)) :
    Stable cut (call env function args) (call more function args) := by
  intro s
  unfold call
  rcases h s.store with he | ⟨e,store,he,hcut⟩
  · rw [he]
    exact .inl rfl
  · rw [he]
    exact .inr ⟨e,_,rfl,hcut⟩

end Exec

open Exec

section Instructions

variable {m : Module} {globals : Array Value} {rounds : Nat}

def CallsStable (cut : Stop → Prop) (invoke invoke' : Nat → List Value → Between (Option Value)) : Prop :=
  ∀ function args, Stable cut (invoke function args) (invoke' function args)

mutual

/-- Instructions go alike where calls do. -/
theorem run_stable (h : CallsStable cut invoke invoke') : ∀ i : Instr,
    Stable cut (i.run ⟨m,globals,rounds,invoke⟩) (i.run ⟨m,globals,rounds,invoke'⟩)
  | .i32Const _ | .i64Const _ | .f32Const _ | .f64Const _ | .localGet _ | .globalGet _ | .br _ none | .ret none
  | .unreachable =>
    .refl _
  | .localSet _ i | .eqz _ i | .br _ (some i) | .brIf _ i | .brTable _ _ i | .ret (some i) | .structGet _ _ i
  | .refCast _ i | .arrayNewDefault _ i | .arrayLen i =>
    operand_stable (run_stable h i) fun _ => .refl _
  | .binary _ _ left right =>
    operand_stable (run_stable h left) fun _ => operand_stable (run_stable h right) fun _ => .refl _
  | .call function args =>
    runOperands_stable h args fun _ => call_stable (h _ _)
  | .block label _ body =>
    block_stable label (runAll_stable h none body)
  | .loop label body =>
    iterate_stable label (runAll_stable h none body) rounds
  | .cond _ test yes no => by
    refine operand_stable (run_stable h test) fun _ => (Stable.refl _).bind fun _ => ?_
    split
    · exact runAll_stable h none yes
    · exact runAll_stable h none no
  | .drop i =>
    (run_stable h i).bind fun _ => .refl _
  | .seq body =>
    runAll_stable h none body
  | .structNew _ fields =>
    runOperands_stable h fields fun _ => .refl _
  | .arrayNewFixed _ values =>
    runOperands_stable h values fun _ => .refl _
  | .arrayGet _ array place =>
    operand_stable (run_stable h array) fun _ => (Stable.refl _).bind fun _ =>
      operand_stable (run_stable h place) fun _ => .refl _
  | .arraySet _ array place value =>
    operand_stable (run_stable h array) fun _ => (Stable.refl _).bind fun _ =>
      operand_stable (run_stable h place) fun _ => (Stable.refl _).bind fun _ =>
        operand_stable (run_stable h value) fun _ => .refl _

private theorem runAll_stable (h : CallsStable cut invoke invoke') (last : Option Value) : ∀ is : List Instr,
    Stable cut (runAll ⟨m,globals,rounds,invoke⟩ last is) (runAll ⟨m,globals,rounds,invoke'⟩ last is)
  | [] =>
    .refl _
  | i :: is => by
    refine (run_stable h i).bind fun flow => ?_
    split
    · exact runAll_stable h _ is
    · exact .refl _

private theorem runOperands_stable (h : CallsStable cut invoke invoke') :
    ∀ (is : List Instr) {use use' : List Value → Exec Flow}, (∀ values, Stable cut (use values) (use' values)) →
    Stable cut (runOperands ⟨m,globals,rounds,invoke⟩ is use) (runOperands ⟨m,globals,rounds,invoke'⟩ is use')
  | [], _, _, huse =>
    huse []
  | i :: is, _, _, huse =>
    operand_stable (run_stable h i) fun _ => runOperands_stable h is fun _ => huse _

end

end Instructions

/-! ### Calls -/

namespace Instance

variable {i : Instance}

private theorem runBody_stable
    (hinvoke : CallsStable cut invoke invoke') (f : Func) (args : List Value) : Stable cut (i.runBody invoke f args) (i.runBody invoke' f args) := by
  intro store
  unfold runBody
  have hrun : Stable cut (runAll ⟨i.module,i.globals,i.rounds,invoke⟩ none f.body)
      (runAll ⟨i.module,i.globals,i.rounds,invoke'⟩ none f.body) := runAll_stable hinvoke none f.body
  rcases hrun ⟨(args ++ f.locals.map Value.zero).toArray,store⟩ with he | ⟨e,s,he,hcut⟩
  · simp only [he]
    exact .inl trivial
  · simp only [he]
    exact .inr ⟨e,s.store,rfl,hcut⟩

/-- Only the call from outside reads the limit. -/
theorem callWithin_depthLimit (limit depth : Nat) : { i with depthLimit := limit }.callWithin depth = i.callWithin depth := by
  induction depth with
  | zero => rfl
  | succ depth ih =>
    rw [callWithin,callWithin,ih]
    rfl

private theorem dispatch_stable {enter enter' : Func → List Value → Between (Option Value)}
    (h : ∀ f args, Stable cut (enter f args) (enter' f args)) : CallsStable cut (i.dispatch enter) (i.dispatch enter') := by
  intro function args
  unfold dispatch
  split
  · exact .refl _
  · dsimp only
    split
    · exact (Stable.refl _).bind fun _ => by
        split
        · exact .refl _
        · exact h _ _
    · split
      · exact .refl _
      · exact h _ _

private theorem callWithin_stable (hcut : cut (.trap .callStackExhausted)) {limit more : Nat} (hle : limit ≤ more) :
    CallsStable cut (i.callWithin limit) (i.callWithin more) := by
  induction limit generalizing more with
  | zero =>
    cases more with
    | zero => exact fun _ _ => .refl _
    | succ more => exact dispatch_stable fun _ _ => .short hcut _
  | succ limit ih =>
    obtain ⟨more,rfl⟩ : ∃ n, more = n + 1 := ⟨more - 1,by omega⟩
    exact dispatch_stable (runBody_stable (ih (by omega)))

/-- The limit on nested calls only cuts off. Where a call ends in any other way than by it, it ends alike under every
higher limit: with the same outcome, the same calls of the host in the same order, and the same heap. Hosts may go by
all they have seen and may change the heap. -/
theorem call_eq_of_depthLimit_le (i : Instance) {limit more : Nat} (hle : limit ≤ more) (function : Nat)
    (args : List Value) (store : Store)
    (hend : ∀ s, { i with depthLimit := limit }.call function args store ≠ .error (.trap .callStackExhausted) s) :
    { i with depthLimit := more }.call function args store =
      { i with depthLimit := limit }.call function args store := by
  have hcall : ∀ depth, { i with depthLimit := depth }.call = i.callWithin depth :=
    fun depth => callWithin_depthLimit depth depth
  rw [hcall] at hend ⊢
  rw [hcall]
  have h : CallsStable (Eq (.trap .callStackExhausted)) (i.callWithin limit) (i.callWithin more) := callWithin_stable rfl hle
  rcases h function args store with he | ⟨_,s,he,rfl⟩
  · exact he.symm
  · exact absurd he (hend s)

/-- A function that calls another, which tells the host a number. The host keeps it. -/
private def tells : Instance where
  module := {
    funcs := #[ { name := "tell", params := [.i32], result := none, host? := some ⟨"env","tell"⟩ },
      { name := "inner", params := [], result := none, body := [.call 0 [.i32Const 7]] },
      { name := "outer", params := [], result := none, body := [.call 1 []] }] }
  hosts _ := some fun args store => .ok none { store with memory := args.map (.i32,·) ++ store.memory }

theorem call_tells : { tells with depthLimit := 9 }.call 2 [] {} =
    .ok none { log := #[⟨⟨"env","tell"⟩,[.i32 7]⟩], memory := [(.i32,.i32 7)] } := by
  have hrun : { tells with depthLimit := 2 }.call 2 [] {} =
      .ok none { log := #[⟨⟨"env","tell"⟩,[.i32 7]⟩], memory := [(.i32,.i32 7)] } := rfl
  have hends : ∀ s, { tells with depthLimit := 2 }.call 2 [] {} ≠ .error (.trap .callStackExhausted) s := by
    simp [hrun]
  exact (call_eq_of_depthLimit_le tells (by decide) 2 [] {} hends).trans hrun

end Instance

end Wasm

end FormCompiler
