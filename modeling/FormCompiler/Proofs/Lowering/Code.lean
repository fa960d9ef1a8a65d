import FormCompiler.Proofs.Lowering.Frames
import FormCompiler.Proofs.Semantics.Evaluation

/-! Which code stands for which node. The relation speaks of the finished emission and of the finished
storage of the function, so it holds of a node's code no matter what is added after it. -/

namespace FormCompiler

open Wasm (Func Instr LabelId NumType ValueType)

namespace Lower

/-- Code whose value is thrown away if it has one and it is not wanted. -/
def discarded (p : Program) (keep : Bool) (id : ExprId) (code : Instr) : Instr :=
  if !keep && (p.exprs.typeOf id).hasValue then .drop code else code

/-- Arms around the branch that chooses among them, first arm innermost. -/
def nest (exit : LabelId) (result : Option ValueType) (inner : List Instr) : List (LabelId × Instr) → List Instr
  | [] => inner
  | (label, body) :: rest => nest exit result [.block label none inner,exitWith exit body result] rest

/-- A provided operation on operands. -/
inductive OperationCode (E : Emission) (element : Option Ty) : Intrinsic → List Instr → Instr → Prop
  | binary (op type left right) : OperationCode E element (.binary op type) [left,right] (.binary op type left right)
  | not (value) : OperationCode E element .not [value] (.eqz .i32 value)
  | newArray {τ n} (length) : element = some τ → E.stored? (.array τ) = some (.ref n) →
      OperationCode E element .newArray [length] (.arrayNewDefault n length)
  | arrayGet {τ n} (array index) : element = some τ → E.stored? (.array τ) = some (.ref n) →
      OperationCode E element .arrayGet [array,index] (.arrayGet n array index)
  | arraySet {τ n} (array index value) : element = some τ → E.stored? (.array τ) = some (.ref n) →
      OperationCode E element .arraySet [array,index,value] (.arraySet n array index value)
  | arrayLen (array) : OperationCode E element .arrayLen [array] (.arrayLen array)

section Relation

variable (p : Program) (E : Emission) (L : Layout) (part : ExprId → Instr → Prop)

/-- The expressions of a block. Only the last one keeps its value. -/
def SequenceCode : List ExprId → List Instr → Prop
  | [], codes => codes = []
  | id :: ids, codes => ∃ code rest, part id code ∧ SequenceCode ids rest ∧
      codes = discarded p ids.isEmpty id code :: rest

def SettingCode (value : Instr) : Option EntityId → List Instr → Prop
  | none, codes => codes = []
  | some v, codes => ∃ slot, L.vars.lookup v = some slot ∧ codes = [.localSet slot value]

def ArmCode (keep : Bool) (value : Instr) (binding : Option EntityId) (body : ExprId) (code : Instr) : Prop :=
  ∃ setting inner, SettingCode L value binding setting ∧ part body inner ∧
    code = .seq (setting ++ [discarded p keep body inner])

def DefaultCode (keep : Bool) (operand : Nat) (m : Match) (code : Instr) : Prop :=
  match m.default with
  | some body => ArmCode p L part keep (.localGet operand) m.defaultBinding body code
  | none => code = .unreachable

def TypeCaseCode (tester base operand : Nat) (exit : LabelId) (result : Option ValueType) (case : Arm)
    (code : Instr) : Prop :=
  ∃ object struct body, case.patternType = some (.object object) ∧ E.structs.lookup object = some struct ∧
    ArmCode p L part result.isSome (.refCast struct (.localGet operand)) case.binding case.body body ∧
    code = .cond none (.call tester [.i32Const (runtimeId object),.structGet base 0 (.localGet operand)])
      [exitWith exit body result] []

/-- The choice among the arms of a match whose operand is in a local. -/
inductive DispatchCode (m : Match) (stored : ValueType) (operand : Nat) (exit : LabelId)
    (result : Option ValueType) : Instr → Prop
  | types {tester ids out top base cases default} : m.isTypeGuard = true → E.idsArray = some ids →
      out ≠ top → E.module.funcs[tester]? = some (Emission.extendsFunc ids out top) →
      E.structs.lookup Program.objectId = some base →
      List.Forall₂ (TypeCaseCode p E L part tester base operand exit result) m.arms cases →
      DefaultCode p L part result.isSome operand m default →
      DispatchCode m stored operand exit result (.block exit result (cases ++ [default]))
  | values {prim type literals finder f fallback labels bodies default} : m.isTypeGuard = false →
      p.exprs.typeOf m.operand = .prim prim → prim.numType? = some type →
      m.arms.map (·.pattern) = literals.map .literal → E.module.funcs[finder]? = some f →
      Finds type stored literals f → (exit :: fallback :: labels).Nodup → labels.length = m.arms.length →
      List.Forall₂ (fun case : Arm =>
        ArmCode p L part result.isSome (.localGet operand) case.binding case.body) m.arms bodies →
      DefaultCode p L part result.isSome operand m default →
      DispatchCode m stored operand exit result (.block exit result [.block fallback none (nest exit result
          [.brTable (fallback :: labels) fallback (.call finder [.localGet operand])] (labels.zip bodies)),
        default])

/-- Code for a node of type `τ`, given which code stands for its parts. -/
inductive NodeCode (τ : Ty) : ExprShape → Instr → Prop
  | literal (l) : NodeCode τ (.literal l) (literal l)
  | name {n v slot} : L.vars.lookup v = some slot → NodeCode τ (.name n (some v)) (.localGet slot)
  | block {body scope codes} : SequenceCode p part body codes → NodeCode τ (.block body scope) (.seq codes)
  | define {n declared init mutable v slot value} : part init value → L.vars.lookup v = some slot →
      NodeCode τ (.define n declared init mutable (some v)) (.localSet slot value)
  | assign {n init v slot value} : part init value → L.vars.lookup v = some slot →
      NodeCode τ (.assign n init (some v)) (.localSet slot value)
  | call {n args typeArgs callee d index codes} : p.entities.kind callee = .function d →
      d.intrinsic? = none → List.Forall₂ part args codes → E.funcs.lookup callee = some index →
      NodeCode τ (.call n args typeArgs (some (.function callee))) (.call index codes)
  | operation {n args typeArgs callee d op codes code} : p.entities.kind callee = .function d →
      d.intrinsic? = some op → List.Forall₂ part args codes →
      OperationCode E d.appliedArgs.head? op codes code →
      NodeCode τ (.call n args typeArgs (some (.function callee))) code
  | construct {n typeArgs object literal given chain struct codes} :
      (p.exprs.get literal).shape = .object given → E.chains.lookup object = some chain →
      E.structs.lookup object = some struct →
      List.Forall₂ (fun field code => ∃ value, given.lookup field.name = some value ∧ part value code)
        (p.layout object) codes →
      NodeCode τ (.call n [literal] typeArgs (some (.construct object))) (.structNew struct (.globalGet chain :: codes))
  | field {n typeArgs arg object index struct value} : part arg value →
      E.structs.lookup object = some struct →
      NodeCode τ (.call n [arg] typeArgs (some (.field object index))) (.structGet struct (index + 1) value)
  | cond {test yes no t y n result} : part test t → part yes y → result = E.stored? τ →
      result.isSome = τ.hasValue →
      List.Forall₂ (fun id code => ∃ inner, part id inner ∧ code = discarded p result.isSome id inner) no.toList n →
      NodeCode τ (.cond test yes no) (.cond result t [discarded p result.isSome yes y] n)
  | loop {test body t b exit top} : part test t → part body b → exit ≠ top →
      NodeCode τ (.loop test body)
        (.block exit none [.loop top [.brIf exit (.eqz .i32 t),discarded p false body b,.br top none]])
  | select {m stored operand value exit result dispatch} :
      E.stored? (p.exprs.typeOf m.operand) = some stored → part m.operand value →
      L.slots[operand]? = some stored → (∀ v, L.vars.lookup v ≠ some operand) →
      result = E.stored? τ → result.isSome = τ.hasValue →
      DispatchCode p E L part m stored operand exit result dispatch →
      NodeCode τ (.select m) (.seq [.localSet operand value,dispatch])

/-- Code for a node whose parts nest at most `depth` deep. -/
def CodeWithin : Nat → ExprId → Instr → Prop
  | 0, _, _ => False
  | depth + 1, id, code => NodeCode p E L (CodeWithin depth) (p.exprs.typeOf id) (p.exprs.get id).shape code

def Code (id : ExprId) (code : Instr) : Prop := CodeWithin p E L (id.index + 1) id code

end Relation

/-! ### Parts -/

/-- The nodes whose code stands in the code of a node: its parts, and those of an object literal in it. -/
def PartOf (p : Program) (shape : ExprShape) (id : ExprId) : Prop :=
  id ∈ shape.children ∨ ∃ literal ∈ shape.children, id ∈ (p.exprs.get literal).shape.children

section Parts

variable {p : Program} {E : Emission} {L : Layout} {part part' : ExprId → Instr → Prop} {code : Instr}

private theorem forall₂_mem {α β : Type} {R S : α → β → Prop} {as : List α} {bs : List β} (h : List.Forall₂ R as bs)
    (hi : ∀ a ∈ as, ∀ b, R a b → S a b) : List.Forall₂ S as bs := by
  induction h with
  | nil => exact .nil
  | cons hr _ ih => exact .cons (hi _ (.head _) _ hr) (ih fun a ha => hi a (.tail _ ha))

private theorem SequenceCode.imp {ids : List ExprId} {codes : List Instr} (h : SequenceCode p part ids codes)
    (hi : ∀ id ∈ ids, ∀ code, part id code → part' id code) : SequenceCode p part' ids codes := by
  induction ids generalizing codes with
  | nil => exact h
  | cons id ids ih =>
    obtain ⟨code,rest,hc,hr,rfl⟩ := h
    exact ⟨code,rest,hi id (.head _) code hc,ih hr fun j hj => hi j (.tail _ hj),rfl⟩

private theorem ArmCode.imp {keep : Bool} {value : Instr} {binding : Option EntityId} {body : ExprId}
    (h : ArmCode p L part keep value binding body code) (hi : ∀ code, part body code → part' body code) :
    ArmCode p L part' keep value binding body code := by
  obtain ⟨setting,inner,hs,hb,rfl⟩ := h
  exact ⟨setting,inner,hs,hi _ hb,rfl⟩

private theorem DefaultCode.imp {keep : Bool} {operand : Nat} {m : Match} (h : DefaultCode p L part keep operand m code)
    (hi : ∀ body ∈ m.default, ∀ code, part body code → part' body code) :
    DefaultCode p L part' keep operand m code := by
  unfold DefaultCode at h ⊢
  split at h
  · rename_i body hd
    exact h.imp (hi body hd)
  · exact h

private theorem DispatchCode.imp {m : Match} {stored : ValueType} {operand : Nat} {exit : LabelId}
    {result : Option ValueType} (h : DispatchCode p E L part m stored operand exit result code)
    (hi : ∀ id ∈ m.arms.map (·.body) ++ m.default.toList, ∀ code, part id code → part' id code) :
    DispatchCode p E L part' m stored operand exit result code := by
  have harm : ∀ arm ∈ m.arms, ∀ code, part arm.body code → part' arm.body code := fun arm ha =>
    hi _ (List.mem_append_left _ (List.mem_map_of_mem ha))
  have hdefault : ∀ body ∈ m.default, ∀ code, part body code → part' body code := fun body hb =>
    hi _ (List.mem_append_right _ (Option.mem_toList.mpr hb))
  cases h with
  | types hg hids hne ht hb hcases hd =>
    refine .types hg hids hne ht hb (forall₂_mem hcases fun arm ha code hc => ?_) (hd.imp hdefault)
    obtain ⟨object,struct,body,hp,hs,hc,rfl⟩ := hc
    exact ⟨object,struct,body,hp,hs,hc.imp (harm arm ha),rfl⟩
  | values hg ho hn hp hf hfinds hnodup hlen hbodies hd =>
    exact .values hg ho hn hp hf hfinds hnodup hlen
      (forall₂_mem hbodies fun arm ha code hc => hc.imp (harm arm ha)) (hd.imp hdefault)

/-- Only the code of the parts of a node matters for its code. -/
theorem NodeCode.imp {τ : Ty} {shape : ExprShape} (h : NodeCode p E L part τ shape code)
    (hi : ∀ id, PartOf p shape id → ∀ code, part id code → part' id code) : NodeCode p E L part' τ shape code := by
  have hchild : ∀ id ∈ shape.children, ∀ code, part id code → part' id code := fun id hid => hi id (.inl hid)
  cases h with
  | literal l => exact .literal l
  | name hv => exact .name hv
  | block hs => exact .block (hs.imp hchild)
  | define hv hl => exact .define (hchild _ (.head _) _ hv) hl
  | assign hv hl => exact .assign (hchild _ (.head _) _ hv) hl
  | call hk hop hargs hf => exact .call hk hop (forall₂_mem hargs hchild) hf
  | operation hk hop hargs hcode => exact .operation hk hop (forall₂_mem hargs hchild) hcode
  | construct hg hc hs hfields =>
    refine .construct hg hc hs (hfields.imp fun field code => ?_)
    rintro ⟨value,hl,hv⟩
    refine ⟨value,hl,hi value (.inr ⟨_,.head _,?_⟩) code hv⟩
    rw [hg]
    exact List.mem_map_of_mem (mem_of_lookup hl)
  | field hv hs => exact .field (hchild _ (.head _) _ hv) hs
  | cond ht hy hr hv hn =>
    refine .cond (hchild _ (.head _) _ ht) (hchild _ (.tail _ (.head _)) _ hy) hr hv
      (forall₂_mem hn fun id hid code => ?_)
    rintro ⟨inner,hc,rfl⟩
    exact ⟨inner,hchild id (.tail _ (.tail _ hid)) inner hc,rfl⟩
  | loop ht hb hne => exact .loop (hchild _ (.head _) _ ht) (hchild _ (.tail _ (.head _)) _ hb) hne
  | select hs hv hslot hfree hr hvalue hd =>
    exact .select hs (hchild _ (.head _) _ hv) hslot hfree hr hvalue (hd.imp fun id hid => hchild id (.tail _ hid))

end Parts

end Lower

end FormCompiler
