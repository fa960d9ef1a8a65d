import FormCompiler.Proofs.Lowering.Validity

/-! Where the code of a node is: inside the code of the body that the node belongs to. -/

namespace FormCompiler

open List

namespace Wasm

/-- One instruction stands in another, at any depth. -/
def Instr.Within : Instr → Instr → Prop := Relation.ReflTransGen fun i j => i ∈ j.parts

namespace Instr.Within

variable {i j k : Instr}

theorem refl (i : Instr) : i.Within i := Relation.ReflTransGen.refl

theorem trans (h : i.Within j) (h' : j.Within k) : i.Within k := Relation.ReflTransGen.trans h h'

theorem part (h : i ∈ j.parts) : i.Within j := .single h

/-- What stands in a part stands in the whole. -/
theorem of_part (h : i.Within j) (hj : j ∈ k.parts) : i.Within k := Relation.ReflTransGen.tail h hj

end Instr.Within

end Wasm

open Wasm (Instr LabelId ValueType)

namespace Lower

variable {p : Program} {E : Emission} {L : Layout} {part : ExprId → Instr → Prop} {τ : Ty} {code inner : Instr}
  {exit : LabelId} {result : Option ValueType} {id : ExprId}

/-! ### Pieces of code -/

private theorem within_discarded (p : Program) (keep : Bool) (id : ExprId) (code : Instr) :
    code.Within (discarded p keep id code) := by
  unfold discarded
  split
  · exact .part (.head _)
  · exact .refl _

private theorem within_exitWith (exit : LabelId) (code : Instr) (result : Option ValueType) :
    code.Within (exitWith exit code result) := by
  cases result <;> exact .part (.head _)

/-- Arms keep what they are put around, and hold their bodies. -/
theorem within_nest {codes : List Instr} {arms : List (LabelId × Instr)}
    (h : (∃ i ∈ codes, inner.Within i) ∨ ∃ arm ∈ arms, inner = arm.2) :
    ∃ i ∈ nest exit result codes arms, inner.Within i := by
  induction arms generalizing codes with
  | nil =>
    rcases h with h | ⟨_,harm,_⟩
    · exact h
    · cases harm
  | cons arm arms ih =>
    refine ih ?_
    rcases h with ⟨i,hi,hin⟩ | ⟨other,hother,rfl⟩
    · exact .inl ⟨_,.head _,hin.of_part hi⟩
    · rcases mem_cons.mp hother with rfl | hother
      · exact .inl ⟨_,.tail _ (.head _),within_exitWith exit _ result⟩
      · exact .inr ⟨other,hother,rfl⟩

private theorem ArmCode.within {keep : Bool} {value : Instr} {binding : Option EntityId} {body : ExprId}
    (h : ArmCode p L part keep value binding body code) : ∃ inner, part body inner ∧ inner.Within code := by
  obtain ⟨setting,inner,_,hpart,rfl⟩ := h
  exact ⟨inner,hpart,(within_discarded p keep body inner).of_part (mem_append_right _ (.head _))⟩

private theorem SequenceCode.within {ids : List ExprId} {codes : List Instr} (h : SequenceCode p part ids codes)
    (hid : id ∈ ids) : ∃ inner, part id inner ∧ ∃ i ∈ codes, inner.Within i := by
  induction ids generalizing codes with
  | nil => cases hid
  | cons first ids ih =>
    obtain ⟨code,rest,hcode,hrest,rfl⟩ := h
    rcases mem_cons.mp hid with rfl | hid
    · exact ⟨code,hcode,_,.head _,within_discarded ..⟩
    · obtain ⟨inner,hpart,i,hi,hin⟩ := ih hrest hid
      exact ⟨inner,hpart,i,.tail _ hi,hin⟩

/-- The code of a member of a row. -/
private theorem forall₂_within {α : Type} {R : α → Instr → Prop} {as : List α} {codes : List Instr} {a : α}
    (h : List.Forall₂ R as codes) (ha : a ∈ as) : ∃ code ∈ codes, R a code := by
  induction h with
  | nil => cases ha
  | cons hr _ ih =>
    rcases mem_cons.mp ha with rfl | ha
    · exact ⟨_,.head _,hr⟩
    · obtain ⟨code,hc,hr⟩ := ih ha
      exact ⟨code,.tail _ hc,hr⟩

/-- The code of the arms of a match stands in that of the choice among them. -/
theorem DispatchCode.within {m : Match} {stored : ValueType} {operand : Nat}
    (h : DispatchCode p E L part m stored operand exit result code)
    (hid : id ∈ m.arms.map (·.body) ++ m.default.toList) : ∃ inner, part id inner ∧ inner.Within code := by
  have hdefault : ∀ {other : Instr}, DefaultCode p L part result.isSome operand m other →
      ∀ body ∈ m.default, ∃ inner, part body inner ∧ inner.Within other := by
    intro other hd body hb
    unfold DefaultCode at hd
    rw [hb] at hd
    exact hd.within
  cases h with
  | @types tester _ _ _ base _ _ _ _ _ _ _ hcases hd =>
    rcases mem_append.mp hid with hid | hid
    · obtain ⟨case,hcase,rfl⟩ := mem_map.mp hid
      obtain ⟨test,htest,object,struct,body,_,_,harm,rfl⟩ := forall₂_within hcases hcase
      obtain ⟨inner,hpart,hin⟩ := harm.within
      have hexit : inner.Within (exitWith exit body result) := hin.trans (within_exitWith exit body result)
      have hcond : inner.Within (.cond none (.call tester [.i32Const (runtimeId object),
          .structGet base 0 (.localGet operand)]) [exitWith exit body result] []) := hexit.of_part (.tail _ (.head _))
      exact ⟨inner,hpart,hcond.of_part (mem_append_left _ htest)⟩
    · obtain ⟨inner,hpart,hin⟩ := hdefault hd id (Option.mem_toList.mp hid)
      exact ⟨inner,hpart,hin.of_part (mem_append_right _ (.head _))⟩
  | @values _ _ _ finder _ fallback labels bodies _ _ _ _ _ _ _ _ hlabels hbodies hd =>
    rcases mem_append.mp hid with hid | hid
    · obtain ⟨case,hcase,rfl⟩ := mem_map.mp hid
      obtain ⟨body,hbody,harm⟩ := forall₂_within hbodies hcase
      obtain ⟨inner,hpart,hin⟩ := harm.within
      obtain ⟨k,hk⟩ := mem_iff_getElem?.mp hbody
      have hlt : k < labels.length := by
        rw [hlabels,hbodies.length_eq]
        exact (List.getElem?_eq_some_iff.mp hk).1
      have harm : (labels[k], body) ∈ labels.zip bodies :=
        mem_of_getElem? (getElem?_zip_eq_some.mpr ⟨getElem?_eq_getElem hlt,hk⟩)
      obtain ⟨i,hi,hnest⟩ := @within_nest body exit result
        [.brTable (fallback :: labels) fallback (.call finder [.localGet operand])] _ (.inr ⟨_,harm,rfl⟩)
      have hblock : inner.Within (.block fallback none (nest exit result
          [.brTable (fallback :: labels) fallback (.call finder [.localGet operand])] (labels.zip bodies))) :=
        (hin.trans hnest).of_part hi
      exact ⟨inner,hpart,hblock.of_part (.head _)⟩
    · obtain ⟨inner,hpart,hin⟩ := hdefault hd id (Option.mem_toList.mp hid)
      exact ⟨inner,hpart,hin.of_part (.tail _ (.head _))⟩

/-! ### Parts of a node -/

/-- The code of a child stands in that of the node. An object literal has no code, but its initialisers do. -/
theorem NodeCode.child (hI : p.Inv) {shape : ExprShape} (h : NodeCode p E L part τ shape code)
    (ht : p.NodeTyped shape τ) (hid : id ∈ shape.children) : (∃ inner, part id inner ∧ inner.Within code) ∨
      ∃ given, (p.exprs.get id).shape = .object given ∧
        ∀ value ∈ given.map (·.2), ∃ inner, part value inner ∧ inner.Within code := by
  cases h with
  | literal | name => cases hid
  | block hs =>
    obtain ⟨inner,hpart,i,hi,hin⟩ := hs.within hid
    exact .inl ⟨inner,hpart,hin.of_part hi⟩
  | define hv | assign hv | field hv =>
    cases mem_singleton.mp hid
    exact .inl ⟨_,hv,.part (.head _)⟩
  | call _ _ hargs =>
    obtain ⟨inner,hi,hpart⟩ := forall₂_within hargs hid
    exact .inl ⟨inner,hpart,.part hi⟩
  | operation _ _ hargs hcode =>
    obtain ⟨inner,hi,hpart⟩ := forall₂_within hargs hid
    refine .inl ⟨inner,hpart,.part ?_⟩
    cases hcode <;> exact hi
  | @construct _ _ object literal given _ _ codes hgiven _ _ hfields =>
    cases mem_singleton.mp hid
    refine .inr ⟨given,hgiven,fun value hvalue => ?_⟩
    obtain ⟨⟨name,_⟩,hmem,rfl⟩ := mem_map.mp hvalue
    -- an initialiser belongs to one field of the layout, and the code of the field is its code
    cases ht with
    | call ht =>
      obtain ⟨field,hfield,hvalue⟩ := hI.initialised ht hgiven hmem
      obtain ⟨inner,hi,value,hlookup,hpart⟩ := forall₂_within hfields hfield
      cases hlookup.symm.trans hvalue
      exact ⟨inner,hpart,.part (.tail _ hi)⟩
  | @cond test yes no t y n result htest hyes _ _ hno =>
    rcases mem_cons.mp hid with rfl | hid
    · exact .inl ⟨t,htest,.part (.head _)⟩
    rcases mem_cons.mp hid with rfl | hid
    · exact .inl ⟨y,hyes,(within_discarded p result.isSome id y).of_part (.tail _ (.head _))⟩
    · obtain ⟨_,hi,inner,hpart,rfl⟩ := forall₂_within hno hid
      exact .inl ⟨inner,hpart,(within_discarded p result.isSome id inner).of_part (.tail _ (mem_append_right _ hi))⟩
  | @loop test body t b exit top htest hbody _ =>
    have hround : ∀ {inner i : Instr}, inner.Within i →
        i ∈ [.brIf exit (.eqz .i32 t),discarded p false body b,.br top none] →
        inner.Within (.block exit none [.loop top [.brIf exit (.eqz .i32 t),discarded p false body b,.br top none]]) :=
      fun hin hi => (hin.of_part (k := .loop top _) hi).of_part (.head _)
    rcases mem_cons.mp hid with rfl | hid
    · have hin : t.Within (.brIf exit (.eqz .i32 t)) :=
        (Instr.Within.part (j := .eqz .i32 t) (.head _)).of_part (.head _)
      exact .inl ⟨t,htest,hround hin (.head _)⟩
    · cases mem_singleton.mp hid
      exact .inl ⟨b,hbody,hround (within_discarded p false _ b) (.tail _ (.head _))⟩
  | select _ hvalue _ _ _ _ hdispatch =>
    rcases mem_cons.mp hid with rfl | hid
    · exact .inl ⟨_,hvalue,(Instr.Within.part (.head _)).of_part (.head _)⟩
    · obtain ⟨inner,hpart,hin⟩ := hdispatch.within hid
      exact .inl ⟨inner,hpart,hin.of_part (.tail _ (.head _))⟩

/-! ### Nodes of a body -/

/-- Code that stands for a node of a function with this storage. -/
def Stands (p : Program) (E : Emission) (L : Layout) (id : ExprId) (code : Instr) : Prop :=
  ∃ depth, CodeWithin p E L depth id code

/-- Every node below another has its code in that of the other. Object literals have none. -/
theorem codeWithin_inside (hI : p.Inv) {depth lo : Nat} {id j : ExprId} (hc : CodeWithin p E L depth id code)
    (hτ : p.Typed id τ) (ht : p.exprs.Tiles lo (p.exprs.get id).shape.children id.index) (hlo : lo ≤ j.index)
    (hhi : j.index ≤ id.index) (hj : ∀ given, (p.exprs.get j).shape ≠ .object given) :
    ∃ inner, Stands p E L j inner ∧ inner.Within code := by
  induction depth generalizing id lo code τ with
  | zero => exact hc.elim
  | succ depth ih =>
    by_cases hsame : j.index = id.index
    · exact ⟨code,⟨depth + 1,Arena.ext_of_index hsame ▸ hc⟩,.refl _⟩
    have htyped := hI.typed_of_tiles (.cons ht .nil) (fun i hi => mem_singleton.mp hi ▸ ⟨τ,hτ⟩)
    have hnode : NodeCode p E L (CodeWithin p E L depth) τ (p.exprs.get id).shape code := by
      have hc' : NodeCode p E L (CodeWithin p E L depth) (p.exprs.typeOf id) (p.exprs.get id).shape code := hc
      rwa [typeOf_eq hτ] at hc'
    obtain ⟨child,hchild,x,hx,hxj,hjc⟩ := Program.Inv.tiles_locate ht hlo (by omega)
    obtain ⟨y,hy,hlt,hcy⟩ := ht.mem hchild
    obtain ⟨σ,hσ⟩ := htyped child (Nat.le_trans hy hcy.le) (Nat.lt_succ_of_lt hlt)
    rcases hnode.child hI (hI.nodes id τ hτ).1 hchild with ⟨inner,hpart,hin⟩ | ⟨given,hgiven,hall⟩
    · obtain ⟨found,hfound,hin'⟩ := ih hpart hσ hx hxj hjc
      exact ⟨found,hfound,hin'.trans hin⟩
    -- the node is in an object literal, and is not the literal itself
    have hne : j.index ≠ child.index := fun he => hj given (Arena.ext_of_index he ▸ hgiven)
    rw [hgiven] at hx
    obtain ⟨value,hvalue,z,hz,hzj,hjv⟩ := Program.Inv.tiles_locate hx hxj (by omega)
    obtain ⟨inner,hpart,hin⟩ := hall value hvalue
    have htypedChild := hI.typed_of_tiles (.cons (hgiven ▸ hx) .nil) (fun i hi => mem_singleton.mp hi ▸ ⟨σ,hσ⟩)
    obtain ⟨w,hw,hvlt,hcw⟩ := hx.mem hvalue
    obtain ⟨ρ,hρ⟩ := htypedChild value (Nat.le_trans hw hcw.le) (Nat.lt_succ_of_lt hvlt)
    obtain ⟨found,hfound,hin'⟩ := ih hpart hρ hz hzj hjv
    exact ⟨found,hfound,hin'.trans hin⟩

/-- Every node of a body has its code in that of the function. Object literals have none. -/
theorem Compiled.inside (hw : p.WellResolved) {f : EntityId} {d : FunctionDef} {first root : ExprId} {func : Wasm.Func}
    (hc : Compiled p E d root func L code) (hr : p.Ripe f d) (hb : d.body = .expr first root) (hid : d.Covers id)
    (hobject : ∀ given, (p.exprs.get id).shape ≠ .object given) :
    ∃ inner, Stands p E L id inner ∧ ∃ i ∈ func.body, inner.Within i := by
  have hbody := (hw.inv.functionOk hr.kind).body first root hb
  obtain ⟨τ,_,hτ,_⟩ := hbody.done hr.body
  obtain ⟨_,_,hb',hlo,hhi⟩ := hid
  cases hb.symm.trans hb'
  obtain ⟨inner,hstands,hin⟩ := codeWithin_inside hw.inv hc.made hτ hbody.tiles hlo hhi hobject
  exact ⟨inner,hstands,_,by rw [hc.body]; exact .head _,hin.trans (within_discarded ..)⟩

end Lower

end FormCompiler
