import FormCompiler.Proofs.Wasm.Typing

/-! Other code in place of the `unreachable` that ends a row of tests. Whatever never goes on can stand there: the
types of the code around it stay as they are. -/

namespace FormCompiler.Wasm

/-- Instructions in which an `unreachable` right after a conditional, at the end, is replaced. -/
def refillEnd (filler : Instr) : List Instr → List Instr
  | [.cond result test yes no,.unreachable] => [.cond result test yes no,filler]
  | i :: is => i :: refillEnd filler is
  | [] => []

mutual

/-- The instruction with the ends of its blocks replaced. -/
def refill (filler : Instr) : Instr → Instr
  | .localSet index value => .localSet index (refill filler value)
  | .binary op type left right => .binary op type (refill filler left) (refill filler right)
  | .eqz type value => .eqz type (refill filler value)
  | .call function args => .call function (refillAll filler args)
  | .block label result body => .block label result (refillEnd filler (refillAll filler body))
  | .loop label body => .loop label (refillAll filler body)
  | .cond result test yes no => .cond result (refill filler test) (refillAll filler yes) (refillAll filler no)
  | .br label (some value) => .br label (some (refill filler value))
  | .brIf label test => .brIf label (refill filler test)
  | .brTable targets default index => .brTable targets default (refill filler index)
  | .ret (some value) => .ret (some (refill filler value))
  | .drop value => .drop (refill filler value)
  | .seq body => .seq (refillAll filler body)
  | .structNew type fields => .structNew type (refillAll filler fields)
  | .structGet type field object => .structGet type field (refill filler object)
  | .refCast type value => .refCast type (refill filler value)
  | .arrayNewFixed type values => .arrayNewFixed type (refillAll filler values)
  | .arrayNewDefault type length => .arrayNewDefault type (refill filler length)
  | .arrayGet type array index => .arrayGet type (refill filler array) (refill filler index)
  | .arraySet type array index value =>
    .arraySet type (refill filler array) (refill filler index) (refill filler value)
  | .arrayLen array => .arrayLen (refill filler array)
  | i => i

def refillAll (filler : Instr) : List Instr → List Instr
  | [] => []
  | i :: is => refill filler i :: refillAll filler is

end

theorem refillAll_eq_map (filler : Instr) (is : List Instr) : refillAll filler is = is.map (refill filler) := by
  induction is with
  | nil => rfl
  | cons i is ih => rw [refillAll,ih,List.map_cons]

def Func.refill (filler : Instr) (f : Func) : Func := { f with body := refillAll filler f.body }

def Module.refill (filler : Instr) (m : Module) : Module := { m with funcs := m.funcs.map (·.refill filler) }

variable {filler : Instr} {m : Module}

theorem refillEnd_singleton (i : Instr) : refillEnd filler [i] = [i] := by
  cases i <;> rfl

private theorem refillEnd_pair (i j : Instr) :
    refillEnd filler [i,j] = [i,j] ∨ (∃ r t y n, i = .cond r t y n) ∧ j = .unreachable := by
  cases i with
  | cond =>
    cases j with
    | unreachable => exact .inr ⟨⟨_,_,_,_,rfl⟩,rfl⟩
    | _ => exact .inl rfl
  | _ => exact .inl (congrArg _ (refillEnd_singleton j))

private theorem refillEnd_cons_cons_cons (i j k : Instr) (is : List Instr) :
    refillEnd filler (i :: j :: k :: is) = i :: refillEnd filler (j :: k :: is) := by
  rw [refillEnd]
  rintro _ _ _ _ _ ⟨⟩

/-- Only what stands last can change. -/
theorem refillEnd_append (filler : Instr) (is : List Instr) (last : Instr) : ∃ last', refillEnd filler (is ++ [last]) = is ++ [last'] ∧
    (last ≠ .unreachable → last' = last) := by
  induction is with
  | nil => exact ⟨last,refillEnd_singleton last,fun _ => rfl⟩
  | cons i is ih =>
    cases is with
    | nil =>
      rcases refillEnd_pair i last with h | ⟨⟨r,t,y,n,rfl⟩,rfl⟩
      · exact ⟨last,h,fun _ => rfl⟩
      · exact ⟨filler,rfl,fun h => absurd rfl h⟩
    | cons j js =>
      obtain ⟨last',hlast,hsame⟩ := ih
      refine ⟨last',?_,hsame⟩
      cases js with
      | nil => exact (refillEnd_cons_cons_cons i j last []).trans (congrArg _ hlast)
      | cons k js => exact (refillEnd_cons_cons_cons i j k _).trans (congrArg _ hlast)

/-! ### The original is a case of this -/

private theorem refillEnd_unreachable (is : List Instr) : refillEnd .unreachable is = is := by
  fun_induction refillEnd .unreachable is with
  | case1 => rfl
  | case2 i is _ ih => rw [ih]
  | case3 => rfl

mutual

theorem refill_unreachable : ∀ i : Instr, refill .unreachable i = i
  | .localSet index value | .eqz index value | .refCast index value | .arrayNewDefault index value => by
    rw [refill,refill_unreachable value]
  | .brIf label value | .brTable _ label value | .structGet _ _ value | .drop value | .arrayLen value => by
    rw [refill,refill_unreachable value]
  | .br label (some value) | .ret (some value) => by rw [refill,refill_unreachable value]
  | .binary _ _ left right | .arrayGet _ left right => by
    rw [refill,refill_unreachable left,refill_unreachable right]
  | .arraySet type array index value => by
    rw [refill,refill_unreachable array,refill_unreachable index,refill_unreachable value]
  | .call function args | .structNew function args | .arrayNewFixed function args | .loop function args => by
    rw [refill,refillAll_unreachable args]
  | .seq body => by rw [refill,refillAll_unreachable body]
  | .block label result body => by rw [refill,refillAll_unreachable body,refillEnd_unreachable]
  | .cond result test yes no => by
    rw [refill,refill_unreachable test,refillAll_unreachable yes,refillAll_unreachable no]
  | .i32Const _ | .i64Const _ | .f32Const _ | .f64Const _ | .localGet _ | .globalGet _ | .unreachable
  | .br _ none | .ret none => rfl

theorem refillAll_unreachable : ∀ is : List Instr, refillAll .unreachable is = is
  | [] => rfl
  | i :: is => by rw [refillAll,refill_unreachable i,refillAll_unreachable is]

end

theorem Module.refill_unreachable (m : Module) : m.refill .unreachable = m := by
  have hf : ∀ f : Func, f.refill .unreachable = f := fun f => by rw [Func.refill,refillAll_unreachable]
  simp [Module.refill,hf]

/-! ### Types -/

theorem Module.isSubtype_refill (a b : Nat) : (m.refill filler).isSubtype a b = m.isSubtype a b :=
  m.isSubtype_funcs _ a b

theorem Module.Layered.refill (h : m.Layered) : (m.refill filler).Layered := h

theorem ValueType.fits_refill (t t' : ValueType) : t.fits (m.refill filler) t' = t.fits m t' := by
  cases t <;> cases t' <;> first | rfl | exact Module.isSubtype_refill _ _

private theorem allFit_refill (ts ts' : List ValueType) : allFit (m.refill filler) ts ts' = allFit m ts ts' := by
  induction ts generalizing ts' with
  | nil => cases ts' <;> rfl
  | cons t ts ih =>
    cases ts' with
    | nil => rfl
    | cons t' ts' => rw [allFit,allFit,ih,ValueType.fits_refill]

private theorem resultFits_refill (t t' : Option ValueType) :
    resultFits (m.refill filler) t t' = resultFits m t t' := by
  cases t <;> cases t' <;> first | rfl | exact ValueType.fits_refill _ _

private theorem Ending.fits_refill (e : Ending) (result : Option ValueType) :
    e.fits (m.refill filler) result = e.fits m result := by
  cases e <;> first | rfl | exact resultFits_refill _ _

theorem Module.getElem?_funcs_refill (n : Nat) : (m.refill filler).funcs[n]? = m.funcs[n]?.map (·.refill filler) := by
  simp [Module.refill]

section Typing

variable {c : Context} {x : Exits}

/-- The code never goes on, wherever it stands. -/
def Instr.Dead (filler : Instr) : Prop := ∀ c x, filler.ending? c x = some .never

private theorem endings?_refillEnd (hdead : filler.Dead) (is : List Instr) :
    endings? c x (refillEnd filler is) = endings? c x is := by
  fun_induction refillEnd filler is with
  | case1 => simp [endings?,hdead c x,Instr.ending?]
  | case2 i is _ ih =>
    have hempty : (refillEnd filler is).isEmpty = is.isEmpty := by
      fun_cases refillEnd filler is <;> rfl
    rw [endings?,endings?,ih,hempty]
  | case3 => rfl

variable {locals : List ValueType}

mutual

/-- Replacing what is not reached leaves the types of code alone. -/
theorem ending?_refill (hd : filler.Dead) : ∀ (i : Instr) (x : Exits),
    (refill filler i).ending? ⟨m.refill filler,locals⟩ x = i.ending? ⟨m,locals⟩ x
  | .localSet _ value, x | .br _ (some value), x | .ret (some value), x => by
    simp only [refill,Instr.ending?,ending?_refill hd value,ValueType.fits_refill]
  | .eqz _ value, x | .brIf _ value, x | .brTable _ _ value, x | .drop value, x => by
    simp only [refill,Instr.ending?,ending?_refill hd value]
  | .binary op type left right, x => by
    simp only [refill,Instr.ending?,ending?_refill hd left,ending?_refill hd right]
  | .call function args, x => by
    simp only [refill,Instr.ending?,operands?_refill hd args,allFit_refill,Module.getElem?_funcs_refill]
    cases m.funcs[function]? <;> rfl
  | .block label result body, x => by
    simp only [refill,Instr.ending?,endings?_refillEnd hd,endings?_refill hd body,Ending.fits_refill]
    rfl
  | .loop label body, x => by simp only [refill,Instr.ending?,endings?_refill hd body,Ending.fits_refill]
  | .cond result test yes no, x => by
    simp only [refill,Instr.ending?,ending?_refill hd test,endings?_refill hd yes,endings?_refill hd no,Ending.fits_refill]
    rfl
  | .seq body, x => by simp only [refill,Instr.ending?,endings?_refill hd body]
  | .structNew type fields, x => by
    simp only [refill,Instr.ending?,operands?_refill hd fields,allFit_refill]
    rfl
  | .arrayNewFixed type values, x => by
    simp only [refill,Instr.ending?,operands?_refill hd values,ValueType.fits_refill]
    rfl
  | .structGet type field object, x => by
    simp only [refill,Instr.ending?,ending?_refill hd object,ValueType.fits_refill]
    rfl
  | .refCast _ value, x | .arrayNewDefault _ value, x | .arrayLen value, x => by
    simp only [refill,Instr.ending?,ending?_refill hd value]
    rfl
  | .arrayGet type array index, x => by
    simp only [refill,Instr.ending?,ending?_refill hd array,ending?_refill hd index,ValueType.fits_refill]
    rfl
  | .arraySet type array index value, x => by
    simp only [refill,Instr.ending?,ending?_refill hd array,ending?_refill hd index,ending?_refill hd value,
      ValueType.fits_refill]
    rfl
  | .i32Const _, _ | .i64Const _, _ | .f32Const _, _ | .f64Const _, _ | .localGet _, _ | .globalGet _, _
  | .unreachable, _ | .br _ none, _ | .ret none, _ => by rfl

private theorem endings?_refill (hd : filler.Dead) : ∀ (is : List Instr) (x : Exits),
    endings? ⟨m.refill filler,locals⟩ x (refillAll filler is) = endings? ⟨m,locals⟩ x is
  | [], _ => rfl
  | i :: is, x => by
    have hempty : (refillAll filler is).isEmpty = is.isEmpty := by cases is <;> rfl
    rw [refillAll,endings?,endings?,ending?_refill hd i,endings?_refill hd is,hempty]

private theorem operands?_refill (hd : filler.Dead) : ∀ is : List Instr,
    operands? ⟨m.refill filler,locals⟩ (refillAll filler is) = operands? ⟨m,locals⟩ is
  | [] => rfl
  | i :: is => by rw [refillAll,operands?,operands?,ending?_refill hd i,operands?_refill hd is]

end

theorem Func.typed_refill (hdead : filler.Dead) (f : Func) : (f.refill filler).typed (m.refill filler) = f.typed m := by
  unfold Func.typed Func.refill
  simp only [endings?_refill hdead]
  split <;> first | rfl | exact Ending.fits_refill _ _

end Typing

end FormCompiler.Wasm
