import FormCompiler.Proofs.Lowering.Whole
import FormCompiler.Proofs.Wasm.Validation

/-! Lowered code is well typed: the code of a node leaves a value of the node's type, and the module of a
resolved program is valid. -/

namespace FormCompiler

open Wasm Instr Emission ValueType List

namespace Wasm.Exits

variable {x : Exits} {labels : List LabelId} {label : LabelId}

/-- More labels that take no value, the first of them innermost. -/
def addAll (x : Exits) : List LabelId → Exits
  | [] => x
  | label :: labels => (x.addAll labels).add label none

private theorem addAll_mem (h : label ∈ labels ∨ x.labels.lookup label = some none) :
    (x.addAll labels).labels.lookup label = some none := by
  induction labels with
  | nil => exact h.resolve_left (by simp)
  | cons l labels ih =>
    simp only [addAll,add,lookup_cons]
    split
    · rfl
    · rename_i hne
      exact ih (h.imp_left fun hm => (mem_cons.mp hm).resolve_left (beq_eq_false_iff_ne.mp hne))

private theorem addAll_not_mem (h : label ∉ labels) :
    (x.addAll labels).labels.lookup label = x.labels.lookup label := by
  induction labels with
  | nil => rfl
  | cons l labels ih =>
    obtain ⟨hne,hm⟩ : label ≠ l ∧ label ∉ labels := by simpa using h
    simp only [addAll,add,lookup_cons,beq_eq_false_iff_ne.mpr hne]
    exact ih hm

end Wasm.Exits

namespace Lower

variable {literals : List Literal} {type b : ValueType} {v object : EntityId} {prim : Prim} {f : Func} {g : Global}
  {n : Nat} {p : Program} {E : Emission} {L : Layout} {σ τ : Ty} {id : ExprId} {code : Instr} {x : Exits}

abbrev contextOf (E : Emission) (L : Layout) : Context := ⟨E.module,L.slots⟩

/-- Code that leaves a value of a type, or none if the type has none. No branch goes out of it. -/
structure Leaves (E : Emission) (L : Layout) (code : Instr) (τ : Ty) : Prop where
  ending : code.ending? (contextOf E L) {} = some (.next (E.stored? τ))
  value : (E.stored? τ).isSome = τ.hasValue

/-- What is known of the emission and of the storage of a function. -/
structure Grounds (p : Program) (E : Emission) (L : Layout) : Prop where
  resolved : p.WellResolved
  objects : Objects p E
  consistent : E.Consistent p
  vars : ∀ v n, L.vars.lookup v = some n → ∃ τ stored, p.VarOf v τ ∧ E.stored? τ = some stored ∧
    L.slots[n]? = some stored

private theorem Grounds.known (hG : Grounds p E L) (τ : Ty) : (E.stored? τ).all (·.isKnown E.module) = true := by
  rw [Option.all_eq_true]
  exact fun _ => hG.consistent.stored?_known

theorem hasValue_of_stored? (h : E.stored? τ = some type) : τ.hasValue = true := by
  cases hv : τ.hasValue with
  | true => rfl
  | false => simp [E.stored?_of_no_value hv] at h

theorem stored?_prim (prim : Prim) : E.stored? (.prim prim) = prim.numType?.map NumType.valueType := by
  cases prim <;> rfl

theorem ref_of_array (h : (E.stored? (.array τ)).isSome = true) : ∃ n, E.stored? (.array τ) = some (.ref n) := by
  obtain ⟨type,hs⟩ := Option.isSome_iff_exists.mp h
  simp only [stored?,Option.bind_eq_bind,Option.bind_eq_some_iff] at hs
  obtain ⟨inner,hi,n,hn,hr⟩ := hs
  exact ⟨n,by simp [stored?,hi,hn]⟩

/-- The array type that stands for arrays of a type. -/
theorem array?_of_stored? (h : E.stored? (.array τ) = some (.ref n)) :
    ∃ name inner, E.stored? τ = some inner ∧ E.module.array? n = some ⟨name,inner,true⟩ := by
  simp only [stored?,Option.bind_eq_bind,Option.bind_eq_some_iff] at h
  obtain ⟨inner,hi,index,hn,hr⟩ := h
  cases hr
  obtain ⟨hlt,hd,_⟩ := Array.findIdx?_eq_some_iff_getElem.mp hn
  cases ht : E.module.types[n] with
  | struct d => simp [ht,Module.isArrayOf] at hd
  | array d =>
    simp only [ht,Module.isArrayOf,Bool.and_eq_true,decide_eq_true_eq] at hd
    obtain ⟨name,element,mutable⟩ := d
    obtain ⟨rfl,rfl⟩ := hd
    exact ⟨name,element,hi,by simp [Module.array?,Array.getElem?_eq_getElem hlt,ht]⟩

private theorem find?_name {fields : List Field} {a b : Field} (hn : (fields.map (·.name)).Nodup) (ha : a ∈ fields)
    (hb : fields.find? (·.name == a.name) = some b) : b = a := by
  induction fields with
  | nil => cases ha
  | cons field fields ih =>
    rw [map_cons,nodup_cons] at hn
    rw [find?_cons] at hb
    split at hb
    · rename_i he
      cases hb
      rcases mem_cons.mp ha with rfl | ha
      · rfl
      · exact absurd (beq_iff_eq.mp he ▸ mem_map_of_mem ha) hn.1
    · rename_i he
      rcases mem_cons.mp ha with rfl | ha
      · simp at he
      · exact ih hn.2 ha hb

/-- Operators are defined for the types they are provided for. -/
private theorem operator_typed : ∀ operator ∈ Operator.all, ∀ operand ∈ operator.operands,
    ∀ type, operand.numType? = some type → operator.op.isDefinedFor type = true ∧
      (operator.result operand).numType?.map NumType.valueType = some (operator.op.resultType type) := by
  have h : ∀ operator ∈ Operator.all, ∀ operand ∈ operator.operands, ∀ type ∈ operand.numType?,
      operator.op.isDefinedFor type = true ∧
        (operator.result operand).numType?.map NumType.valueType = some (operator.op.resultType type) := by
    decide
  exact fun operator ho operand hp type ht => h operator ho operand hp type ht

theorem Below.hasValue (h : p.Below σ τ) : σ.hasValue = τ.hasValue := by
  rcases h with rfl | ⟨_,_,rfl,rfl,_⟩ <;> rfl

private theorem VarOf.unique (h : p.VarOf v σ) (h' : p.VarOf v τ) : σ = τ := by
  obtain ⟨_,h⟩ := h
  obtain ⟨_,h'⟩ := h'
  rw [h] at h'
  cases h'
  rfl

theorem typeOf_eq (h : p.Typed id τ) : p.exprs.typeOf id = τ := by
  simp [Arena.typeOf,show (p.exprs.get id).type = some τ from h]

namespace Grounds

variable (hG : Grounds p E L)
include hG

/-- Values of a type can stand where a type above it is expected. -/
theorem fits {a b : ValueType} (h : p.Below σ τ) (ha : E.stored? σ = some a) (hb : E.stored? τ = some b) :
    a.fits E.module b = true := by
  rcases h with rfl | ⟨i,j,rfl,rfl,he⟩
  · cases ha.symm.trans hb
    exact a.fits_refl E.module
  · obtain ⟨n,hn,rfl⟩ := Option.map_eq_some_iff.mp ha
    obtain ⟨k,hk,rfl⟩ := Option.map_eq_some_iff.mp hb
    exact ((hG.objects.populated hn).isSubtype_iff hG.resolved.inv hn hk).mpr he

/-- A variable in its local. -/
theorem slot {n : Nat} (hl : L.vars.lookup v = some n) (hv : p.VarOf v τ) :
    ∃ type, E.stored? τ = some type ∧ L.slots[n]? = some type := by
  obtain ⟨σ,type,hσ,hs,hn⟩ := hG.vars v n hl
  cases VarOf.unique hv hσ
  exact ⟨type,hs,hn⟩

end Grounds

/-! ### Values kept and thrown away -/

private theorem Leaves.gives (h : Leaves E L code τ) (hs : E.stored? τ = some type) :
    code.Gives (contextOf E L) type := by
  have he := h.ending
  rwa [hs] at he

/-- Code whose value is not wanted leaves none. -/
theorem Leaves.discarded (h : Leaves E L code τ) (ht : p.Typed id τ) :
    (discarded p false id code).ending? (contextOf E L) x = some (.next none) := by
  unfold Lower.discarded
  rw [typeOf_eq ht,← h.value]
  cases hs : E.stored? τ with
  | none =>
    have he := h.ending
    rw [hs] at he
    exact ending?_mono (.empty x) he
  | some type => exact ending?_drop.mpr ⟨type,h.gives hs,rfl⟩

/-- Code that gives the value of a node where a type above the node's is expected. -/
theorem Leaves.kept (hG : Grounds p E L) (h : Leaves E L code σ) (ht : p.Typed id σ) (hb : p.Below σ τ)
    (hv : (E.stored? τ).isSome = τ.hasValue) :
    ∃ value, (Lower.discarded p (E.stored? τ).isSome id code).ending? (contextOf E L) x = some (.next value) ∧
      resultFits E.module value (E.stored? τ) = true := by
  cases hs : E.stored? τ with
  | none => exact ⟨none,h.discarded ht,rfl⟩
  | some b =>
    have ha : (E.stored? σ).isSome = true := by rw [h.value,Below.hasValue hb,← hv,hs]; rfl
    obtain ⟨a,ha⟩ := Option.isSome_iff_exists.mp ha
    exact ⟨some a,ending?_mono (.empty x) (h.gives ha),hG.fits hb ha hs⟩

/-- Code of a node where a type with values is expected. -/
theorem Leaves.givesBelow (hG : Grounds p E L) (h : Leaves E L code σ) (hb : p.Below σ τ)
    (hs : E.stored? τ = some b) : ∃ a, code.Gives (contextOf E L) a ∧ a.fits E.module b = true := by
  have ha : (E.stored? σ).isSome = true := by rw [h.value,Below.hasValue hb,hasValue_of_stored? hs]
  obtain ⟨a,ha⟩ := Option.isSome_iff_exists.mp ha
  exact ⟨a,h.gives ha,hG.fits hb ha hs⟩

/-! ### Nodes -/

section Parts

variable {result : Option ValueType} {τs : List Ty} {arm : Instr} {part : ExprId → Instr → Prop}

def PartsLeave (p : Program) (E : Emission) (L : Layout) (part : ExprId → Instr → Prop) : Prop :=
  ∀ {id code τ}, part id code → p.Typed id τ → Leaves E L code τ

variable (hG : Grounds p E L) (hP : PartsLeave p E L part) {codes : List Instr} {exit : LabelId} {stored : ValueType}
  {ids : List ExprId} {operand : Nat} {m : Match}
include hP

/-- Where a type that is no object's is expected, the node has this very type. -/
theorem leaves_of_fits (hc : part id code) (hf : p.Fits id τ) (hτ : ∀ object, τ ≠ .object object) :
    Leaves E L code τ := by
  obtain ⟨σ,hσ,rfl | ⟨_,object,_,rfl,_⟩⟩ := hf
  · exact hP hc hσ
  · exact absurd rfl (hτ object)

private theorem gives_prim {type : NumType} (hc : part id code) (hf : p.Fits id (.prim prim))
    (ht : prim.numType? = some type) : code.Gives (contextOf E L) type.valueType :=
  (leaves_of_fits hP hc hf (by simp)).gives (by simp [stored?_prim,ht])

private theorem gives_i32 (hc : part id code) (hf : p.Fits id .i32) : code.Gives (contextOf E L) .i32 :=
  gives_prim hP hc hf rfl

private theorem gives_bool (hc : part id code) (hf : p.Fits id .bool) : code.Gives (contextOf E L) .i32 :=
  gives_prim hP hc hf rfl

/-- A sequence leaves the value of its last expression. -/
theorem sequence_leaves (hc : SequenceCode p part ids codes) (ht : p.SeqTyped .void ids τ) :
    Leaves E L (.seq codes) τ := by
  suffices h : ∀ σ, p.SeqTyped σ ids τ → ids ≠ [] →
      endings? (contextOf E L) {} codes = some (.next (E.stored? τ)) ∧ (E.stored? τ).isSome = τ.hasValue by
    cases ids with
    | nil =>
      cases hc
      cases ht
      exact ⟨rfl,rfl⟩
    | cons id ids =>
      obtain ⟨h1,h2⟩ := h _ ht (by simp)
      exact ⟨by rw [ending?]; exact h1,h2⟩
  clear ht
  induction ids generalizing codes with
  | nil => exact fun _ _ h => absurd rfl h
  | cons id ids ih =>
    intro _ ht _
    obtain ⟨code,rest,hcode,hrest,rfl⟩ := hc
    obtain ⟨σ,hσ,ht⟩ := ht
    have hl := hP hcode hσ
    cases ids with
    | nil =>
      cases hrest
      cases ht
      exact ⟨endings?_cons.mpr (.inl ⟨rfl,hl.ending⟩),hl.value⟩
    | cons id' ids =>
      obtain ⟨h1,h2⟩ := ih hrest σ ht (by simp)
      obtain ⟨_,_,_,_,rfl⟩ := hrest
      exact ⟨endings?_cons.mpr (.inr ⟨by simp,hl.discarded hσ,h1⟩),h2⟩

private theorem loop_leaves {test body : ExprId} {t b : Instr} {top : LabelId} (ht : part test t) (hb : part body b)
    (hne : exit ≠ top) (htest : p.Fits test .bool) (hbody : p.Typed body σ) :
    Leaves E L (.block exit none [.loop top [.brIf exit (.eqz .i32 t),discarded p false body b,.br top none]])
      .void := by
  have hexit : ((Exits.add {} exit none).add top none).labels.lookup exit = some none := by
    simp [Exits.add,lookup_cons,beq_eq_false_iff_ne.mpr hne]
  have htop : ((Exits.add {} exit none).add top none).labels.lookup top = some none := by simp [Exits.add]
  have hrounds : endings? (contextOf E L) ((Exits.add {} exit none).add top none)
      [.brIf exit (.eqz .i32 t),discarded p false body b,.br top none] = some .never := by
    refine endings?_cons.mpr (.inr ⟨by simp,ending?_brIf.mpr ⟨?_,hexit,rfl⟩,?_⟩)
    · exact ending?_eqz.mpr ⟨rfl,gives_bool hP ht htest,rfl⟩
    · refine endings?_cons.mpr (.inr ⟨by simp,(hP hb hbody).discarded hbody,?_⟩)
      exact endings?_cons.mpr (.inl ⟨rfl,ending?_br_none.mpr ⟨htop,rfl⟩⟩)
  refine ⟨ending?_block.mpr ⟨⟨.next none,?_,rfl⟩,rfl,rfl⟩,rfl⟩
  exact endings?_cons.mpr (.inl ⟨rfl,ending?_loop.mpr ⟨⟨.never,hrounds,rfl⟩,rfl⟩⟩)

include hG

private theorem gives_of_fits (hc : part id code) (hf : p.Fits id τ) (hs : E.stored? τ = some b) :
    ∃ a, code.Gives (contextOf E L) a ∧ a.fits E.module b = true := by
  obtain ⟨σ,hσ,hb⟩ := hf
  exact (hP hc hσ).givesBelow hG hb hs

private theorem operands_fit {types : List ValueType} (hc : List.Forall₂ part ids codes)
    (hf : List.Forall₂ p.Fits ids τs) (hs : List.Forall₂ (fun τ type => E.stored? τ = some type) τs types) :
    ∃ founds, operands? (contextOf E L) codes = some founds ∧ allFit E.module founds types = true := by
  induction hc generalizing τs types with
  | nil =>
    cases hf
    cases hs
    exact ⟨[],rfl,rfl⟩
  | cons hc _ ih =>
    cases hf with
    | cons hf hfs =>
      cases hs with
      | cons hs hss =>
        obtain ⟨a,ha,hfit⟩ := gives_of_fits hG hP hc hf hs
        obtain ⟨founds,ho,hfits⟩ := ih hfs hss
        exact ⟨a :: founds,operands?_cons.mpr ⟨a,ha,founds,ho,rfl⟩,by simp [allFit,hfit,hfits]⟩

theorem operation_leaves {element : Option Ty} {op : Intrinsic}
    (ht : Program.OperationTyped element op τs τ) (hc : List.Forall₂ part ids codes)
    (hf : List.Forall₂ p.Fits ids τs) (ho : OperationCode E element op codes code) : Leaves E L code τ := by
  cases ht with
  | @binary operator operand type hmem hoperand htype =>
    obtain _ | ⟨hf1,_ | ⟨hf2,_ | _⟩⟩ := hf
    obtain _ | ⟨hc1,_ | ⟨hc2,_ | _⟩⟩ := hc
    cases ho
    obtain ⟨hdefined,hresult⟩ := operator_typed operator hmem operand hoperand type htype
    rw [← stored?_prim (E := E)] at hresult
    exact ⟨hresult ▸ ending?_binary.mpr ⟨hdefined,gives_prim hP hc1 hf1 htype,gives_prim hP hc2 hf2 htype,rfl⟩,
      by rw [hresult,hasValue_of_stored? hresult]; rfl⟩
  | not =>
    obtain _ | ⟨hf1,_ | _⟩ := hf
    obtain _ | ⟨hc1,_ | _⟩ := hc
    cases ho
    exact ⟨ending?_eqz.mpr ⟨rfl,gives_bool hP hc1 hf1,rfl⟩,rfl⟩
  | newArray he =>
    obtain _ | ⟨hf1,_ | _⟩ := hf
    obtain _ | ⟨hc1,_ | _⟩ := hc
    cases ho with
    | newArray _ he' hs =>
      cases he.symm.trans he'
      obtain ⟨_,inner,_,harray⟩ := array?_of_stored? hs
      exact ⟨hs ▸ ending?_arrayNewDefault.mpr ⟨_,harray,gives_i32 hP hc1 hf1,rfl⟩,by rw [hs]; rfl⟩
  | arrayGet he =>
    obtain _ | ⟨hf1,_ | ⟨hf2,_ | _⟩⟩ := hf
    obtain _ | ⟨hc1,_ | ⟨hc2,_ | _⟩⟩ := hc
    cases ho with
    | arrayGet _ _ he' hs =>
      cases he.symm.trans he'
      obtain ⟨_,inner,hi,harray⟩ := array?_of_stored? hs
      have ha := gives_of_fits hG hP hc1 hf1 hs
      exact ⟨hi ▸ ending?_arrayGet.mpr ⟨_,harray,ha,gives_i32 hP hc2 hf2,rfl⟩, by rw [hi,hasValue_of_stored? hi]; rfl⟩
  | arraySet he =>
    obtain _ | ⟨hf1,_ | ⟨hf2,_ | ⟨hf3,_ | _⟩⟩⟩ := hf
    obtain _ | ⟨hc1,_ | ⟨hc2,_ | ⟨hc3,_ | _⟩⟩⟩ := hc
    cases ho with
    | arraySet _ _ _ he' hs =>
      cases he.symm.trans he'
      obtain ⟨_,inner,hi,harray⟩ := array?_of_stored? hs
      have ha := gives_of_fits hG hP hc1 hf1 hs
      have hv := gives_of_fits hG hP hc3 hf3 hi
      exact ⟨ending?_arraySet.mpr ⟨_,harray,rfl,ha,gives_i32 hP hc2 hf2,hv,rfl⟩,rfl⟩
  | @arrayLen τ he =>
    obtain _ | ⟨hf1,_ | _⟩ := hf
    obtain _ | ⟨hc1,_ | _⟩ := hc
    cases ho
    have hl := leaves_of_fits hP hc1 hf1 (by simp)
    obtain ⟨n,hs⟩ := ref_of_array hl.value
    obtain ⟨_,inner,_,harray⟩ := array?_of_stored? hs
    exact ⟨ending?_arrayLen.mpr ⟨n,_,hl.gives hs,harray,rfl⟩,rfl⟩

/-! Objects -/

theorem construct_leaves {literal : ExprId} {given : List (String × ExprId)}
    {chain struct : Nat} (hshape : (p.exprs.get literal).shape = .object given)
    (ht : p.CallTyped [literal] (.construct object) τ) (hchain : E.chains.lookup object = some chain)
    (hstruct : E.structs.lookup object = some struct)
    (hc : List.Forall₂ (fun field code => ∃ value, given.lookup field.name = some value ∧ part value code)
      (p.layout object) codes) : Leaves E L (.structNew struct (.globalGet chain :: codes)) τ := by
  obtain _ | @⟨_,_,_,d,hshape',htype,hkind,_,_,hgiven⟩ := ht
  cases hshape.symm.trans hshape'
  have hpop := hG.objects.populated hstruct
  obtain ⟨name,fields,hs,defs,rfl,hdefs⟩ := hpop.struct? hstruct
  obtain ⟨k,hk⟩ := (hpop.chains object chain).mp hchain
  have hglobal : E.module.globals[chain]? = some (chainGlobalOf p 0 (object, k)) := by
    rw [← Array.getElem?_toList,hpop.globals,getElem?_map,hk]
    rfl
  have hstored : E.stored? (.object object) = some (.ref struct) := by simp [stored?,hstruct]
  have hvalues : ∀ {layout : List Field} {codes : List Instr} {defs : List FieldDef},
      (∀ field ∈ layout, field ∈ p.layout object) →
      List.Forall₂ (fun field code => ∃ value, given.lookup field.name = some value ∧ part value code) layout codes →
      List.Forall₂ (fun field def_ => fieldDef? E field = some def_) layout defs →
      ∃ founds, operands? (contextOf E L) codes = some founds ∧ allFit E.module founds (defs.map (·.type)) = true := by
    intro layout codes defs hmem hc hdefs
    induction hc generalizing defs with
    | nil =>
      cases hdefs
      exact ⟨[],rfl,rfl⟩
    | @cons field code layout codes hfield _ ih =>
      cases hdefs with
      | cons hd hdefs =>
        obtain ⟨value,hlookup,hpart⟩ := hfield
        obtain ⟨stored,hstored,rfl⟩ := Option.map_eq_some_iff.mp hd
        -- the initialiser was checked against the one field of its name
        obtain ⟨field',hfind,hfits⟩ := hgiven field.name value (mem_of_lookup hlookup)
        have hfield : field ∈ d.fields := by
          have := hmem field (.head _)
          simpa [Program.layout,EntityTable.object?_eq_some.mpr hkind] using this
        cases find?_name (hG.resolved.inv.objectOk hkind).names hfield hfind
        obtain ⟨a,ha,hfit⟩ := gives_of_fits hG hP hpart hfits hstored
        obtain ⟨founds,ho,hfits⟩ := ih (fun field hf => hmem field (.tail _ hf)) hdefs
        exact ⟨a :: founds,operands?_cons.mpr ⟨a,ha,founds,ho,rfl⟩,by simp [allFit,hfit,hfits]⟩
  obtain ⟨founds,ho,hfit⟩ := hvalues (fun _ h => h) hc hdefs
  refine ⟨hstored ▸ ending?_structNew.mpr ⟨_,hs,.ref 0 :: founds,?_,?_,rfl⟩,by rw [hstored]; rfl⟩
  · exact operands?_cons.mpr ⟨.ref 0,ending?_globalGet.mpr ⟨_,hglobal,rfl⟩,founds,ho,rfl⟩
  · simp [allFit,fits_refl,hfit]

theorem field_leaves {arg : ExprId} {index struct : Nat} (hc : part arg code)
    (ht : p.CallTyped [arg] (.field object index) τ) (hstruct : E.structs.lookup object = some struct) :
    Leaves E L (.structGet struct (index + 1) code) τ := by
  obtain _ | _ | @⟨_,_,d,field,_,harg,hk,_,hfield⟩ := ht
  obtain ⟨name,fields,hs,defs,rfl,hdefs⟩ := (hG.objects.populated hstruct).struct? hstruct
  have hstored : E.stored? (.object object) = some (.ref struct) := by simp [stored?,hstruct]
  simp only [EntityTable.object?_eq_some.mpr hk,Option.map_some,Option.getD_some] at hdefs
  obtain ⟨hlt,rfl⟩ := List.getElem?_eq_some_iff.mp hfield
  have hlt' : index < defs.length := hdefs.length_eq ▸ hlt
  obtain ⟨type,htype,hdef⟩ := Option.map_eq_some_iff.mp ((List.forall₂_iff_get.mp hdefs).2 index hlt hlt')
  have htype' : E.stored? d.fields[index].type = some type := htype
  refine ⟨htype'.symm ▸ ending?_structGet.mpr ⟨_,hs,defs[index],by simp,_,(hP hc harg).gives hstored,
    fits_refl _ _,?_⟩,by rw [htype',hasValue_of_stored? htype']; rfl⟩
  rw [show defs[index] = _ from hdef.symm]

/-! Matches -/

/-- What an arm leaves fits the type of the match. -/
theorem arm_ending {binding : Option EntityId} {value : Instr} {body : ExprId} (hv : (E.stored? τ).isSome = τ.hasValue)
    (hc : ArmCode p L part (E.stored? τ).isSome value binding body arm) (hf : p.Fits body τ)
    (hb : ∀ var, binding = some var → ∃ ρ type, p.VarOf var ρ ∧ E.stored? ρ = some type ∧
      value.Gives (contextOf E L) type) :
    ∃ left, arm.ending? (contextOf E L) {} = some (.next left) ∧ resultFits E.module left (E.stored? τ) = true := by
  obtain ⟨setting,inner,hsetting,hinner,rfl⟩ := hc
  obtain ⟨σ,hσ,hbelow⟩ := hf
  obtain ⟨left,hleft,hfit⟩ := (hP hinner hσ).kept (x := {}) hG hσ hbelow hv
  refine ⟨left,?_,hfit⟩
  cases binding with
  | none =>
    cases hsetting
    exact endings?_cons.mpr (.inl ⟨rfl,hleft⟩)
  | some var =>
    obtain ⟨slot,hslot,rfl⟩ := hsetting
    obtain ⟨ρ,type,hρ,hs,hgives⟩ := hb var rfl
    obtain ⟨type',hs',hn⟩ := hG.slot hslot hρ
    cases hs.symm.trans hs'
    refine endings?_cons.mpr (.inr ⟨by simp,?_,endings?_cons.mpr (.inl ⟨rfl,hleft⟩)⟩)
    exact ending?_localSet.mpr ⟨type,hn,type,hgives,type.fits_refl _,rfl⟩

omit hG hP in
private theorem exitWith_ending {left : Option ValueType}
    (ha : arm.ending? (contextOf E L) {} = some (.next left)) (hfit : resultFits E.module left result = true)
    (hx : x.labels.lookup exit = some result) : (exitWith exit arm result).ending? (contextOf E L) x = some .never := by
  cases result with
  | none =>
    cases left with
    | some _ => cases hfit
    | none =>
      refine endings?_cons.mpr (.inr ⟨by simp,ending?_mono (.empty x) ha,?_⟩)
      exact endings?_cons.mpr (.inl ⟨rfl,ending?_br_none.mpr ⟨hx,rfl⟩⟩)
  | some wanted =>
    cases left with
    | none => cases hfit
    | some found => exact ending?_br_some.mpr ⟨wanted,hx,found,ha,hfit,rfl⟩

structure Held (E : Emission) (L : Layout) (operand : Nat) (σ : Ty) (type : ValueType) : Prop where
  stored : E.stored? σ = some type
  slot : L.slots[operand]? = some type

omit hG hP in
private theorem Held.gives (h : Held E L operand σ stored) :
    (localGet operand).Gives (contextOf E L) stored := ending?_localGet.mpr ⟨stored,h.slot,rfl⟩

private theorem default_ending {default : Instr} (hv : (E.stored? τ).isSome = τ.hasValue) (ht : p.MatchTyped m σ τ)
    (ho : Held E L operand σ stored) (hc : DefaultCode p L part (E.stored? τ).isSome operand m default) :
    ∃ e, default.ending? (contextOf E L) x = some e ∧ e.fits E.module (E.stored? τ) = true := by
  unfold DefaultCode at hc
  split at hc
  · rename_i body hd
    obtain ⟨left,hleft,hfit⟩ := arm_ending hG hP hv hc (ht.default body hd) fun var hvar =>
      ⟨σ,stored,ht.defaultBinding var hvar,ho.stored,ho.gives⟩
    exact ⟨.next left,ending?_mono (.empty x) hleft,hfit⟩
  · subst hc
    exact ⟨.never,rfl,rfl⟩

private theorem typeCase_ending {tester ids base : Nat} {out top : LabelId} {case : Arm}
    (hv : (E.stored? τ).isSome = τ.hasValue) (ht : p.MatchTyped m σ τ) (hguard : m.isTypeGuard = true)
    (ho : Held E L operand σ stored) (hids : E.idsArray = some ids)
    (htester : E.module.funcs[tester]? = some (extendsFunc ids out top))
    (hbase : E.structs.lookup Program.objectId = some base) (hx : x.labels.lookup exit = some (E.stored? τ))
    (hcase : case ∈ m.arms) (hc : TypeCaseCode p E L part tester base operand exit (E.stored? τ) case code) :
    code.ending? (contextOf E L) x = some (.next none) := by
  obtain ⟨object,struct,body,hpattern,hstruct,harm,rfl⟩ := hc
  obtain ⟨scrutinee,rfl⟩ := ht.guard hguard
  obtain ⟨n,hn,rfl⟩ := Option.map_eq_some_iff.mp ho.stored
  have hpop := hG.objects.populated hstruct
  cases hids.symm.trans hpop.idsArray
  obtain ⟨name,fields,hs,defs,rfl,_⟩ := hpop.struct? hbase
  have hsub := hpop.isSubtype_base hG.resolved.inv hn hbase
  have hanc : (structGet base 0 (.localGet operand)).Gives (contextOf E L) (.ref 0) :=
    ending?_structGet.mpr ⟨_,hs,⟨"__ancestors",.ref 0,false⟩,rfl,.ref n,ho.gives,hsub,rfl⟩
  have hcall : (Instr.call tester [.i32Const (runtimeId object),.structGet base 0 (.localGet operand)]).Gives
      (contextOf E L) .i32 := by
    refine ending?_call.mpr ⟨_,htester,[.i32,.ref 0],?_,by simp [extendsFunc,allFit,fits_refl],rfl⟩
    exact operands?_cons.mpr ⟨.i32,rfl,_,operands?_cons.mpr ⟨_,hanc,[],rfl,rfl⟩,rfl⟩
  cases ht.arms case hcase with
  | literal _ hσ => cases hσ
  | @type t object' _ hpattern' hbinding hfits =>
    cases hpattern.symm.trans hpattern'
    have hstored : E.stored? (.object object) = some (.ref struct) := by simp [stored?,hstruct]
    have hcast : (refCast struct (.localGet operand)).Gives (contextOf E L) (.ref struct) :=
      ending?_refCast.mpr ⟨n,ho.gives,hG.consistent.structs object struct hstruct,rfl⟩
    obtain ⟨left,hleft,hfit⟩ := arm_ending hG hP hv harm hfits fun var hvar =>
      ⟨.object object,.ref struct,hbinding var hvar,hstored,hcast⟩
    refine ending?_cond.mpr ⟨hcall,⟨.never,?_,rfl⟩,⟨.next none,rfl,rfl⟩,rfl,rfl⟩
    exact endings?_cons.mpr (.inl ⟨rfl,exitWith_ending hleft hfit hx⟩)

omit hG hP in
/-- Arms around a choice that never goes on. -/
theorem nest_ending {arms : List (LabelId × Instr)} {inner : List Instr}
    (hx : x.labels.lookup exit = some result) (hexit : exit ∉ arms.map (·.1))
    (harms : ∀ arm ∈ arms, ∃ left, arm.2.ending? (contextOf E L) {} = some (.next left) ∧
      resultFits E.module left result = true)
    (hinner : endings? (contextOf E L) (x.addAll (arms.map (·.1))) inner = some .never) :
    endings? (contextOf E L) x (nest exit result inner arms) = some .never := by
  induction arms generalizing inner with
  | nil => exact hinner
  | cons arm arms ih =>
    obtain ⟨label,body⟩ := arm
    obtain ⟨_,hrest⟩ : exit ≠ label ∧ exit ∉ arms.map (·.1) := by simpa using hexit
    obtain ⟨left,hleft,hfit⟩ := harms _ (.head _)
    refine ih hrest (fun arm ha => harms arm (.tail _ ha)) ?_
    refine endings?_cons.mpr (.inr ⟨by simp,ending?_block.mpr ⟨⟨.never,hinner,rfl⟩,rfl,rfl⟩,?_⟩)
    exact endings?_cons.mpr (.inl ⟨rfl,exitWith_ending hleft hfit ((Exits.addAll_not_mem hrest).trans hx)⟩)

omit hG hP in
private theorem endings?_append {is : List Instr} {last : Instr} {e : Ending}
    (his : ∀ i ∈ is, i.ending? (contextOf E L) x = some (.next none))
    (hl : last.ending? (contextOf E L) x = some e) : endings? (contextOf E L) x (is ++ [last]) = some e := by
  induction is with
  | nil => exact endings?_cons.mpr (.inl ⟨rfl,hl⟩)
  | cons i is ih =>
    exact endings?_cons.mpr (.inr ⟨by simp,his i (.head _),ih fun j hj => his j (.tail _ hj)⟩)

private theorem dispatch_ending (hv : (E.stored? τ).isSome = τ.hasValue) (ht : p.MatchTyped m σ τ)
    (ho : Held E L operand σ stored) (hc : DispatchCode p E L part m stored operand exit (E.stored? τ) code) :
    code.ending? (contextOf E L) {} = some (.next (E.stored? τ)) := by
  have hexit : (Exits.add {} exit (E.stored? τ)).labels.lookup exit = some (E.stored? τ) := by simp [Exits.add]
  cases hc with
  | types hguard hids _ htester hbase hcases hdefault =>
    obtain ⟨e,he,hfit⟩ := default_ending (x := Exits.add {} exit (E.stored? τ)) hG hP hv ht ho hdefault
    refine ending?_block.mpr ⟨⟨e,endings?_append (fun i hi => ?_) he,hfit⟩,hG.known τ,rfl⟩
    obtain ⟨k,hk⟩ := List.mem_iff_getElem?.mp hi
    obtain ⟨hlt,rfl⟩ := List.getElem?_eq_some_iff.mp hk
    have hlt' := hcases.length_eq ▸ hlt
    exact typeCase_ending hG hP hv ht hguard ho hids htester hbase hexit (getElem_mem hlt')
      ((forall₂_iff_get.mp hcases).2 k hlt' hlt)
  | @values prim type literals finder f fallback labels bodies default hguard htype hnum hpatterns hf hfinds hnodup hlength hbodies hdefault =>
    obtain ⟨hne,hnotin⟩ : exit ≠ fallback ∧ exit ∉ labels := by simpa using (nodup_cons.mp hnodup).1
    have hlabels : (labels.zip bodies).map (·.1) = labels :=
      map_fst_zip (Nat.le_of_eq (hlength.trans hbodies.length_eq))
    have hfall : ((Exits.add {} exit (E.stored? τ)).add fallback none).labels.lookup exit = some (E.stored? τ) := by
      simp only [Exits.add,lookup_cons,beq_eq_false_iff_ne.mpr hne,BEq.rfl]
    obtain ⟨e,he,hfit⟩ := default_ending (x := Exits.add {} exit (E.stored? τ)) hG hP hv ht ho hdefault
    have hchoice : endings? (contextOf E L)
        (((Exits.add {} exit (E.stored? τ)).add fallback none).addAll ((labels.zip bodies).map (·.1)))
        [.brTable (fallback :: labels) fallback (.call finder [.localGet operand])] = some .never := by
      have hfallback : (((Exits.add {} exit (E.stored? τ)).add fallback none).addAll
          ((labels.zip bodies).map (·.1))).labels.lookup fallback = some none := Exits.addAll_mem (.inr (by simp [Exits.add]))
      refine endings?_cons.mpr (.inl ⟨rfl,ending?_brTable.mpr ⟨?_,fun target htarget => ?_,hfallback,rfl⟩⟩)
      · refine ending?_call.mpr ⟨f,hf,[stored],?_,?_,by rw [hfinds.result]⟩
        · exact operands?_cons.mpr ⟨stored,ho.gives,[],rfl,rfl⟩
        · simp [hfinds.params,allFit,fits_refl]
      · rcases mem_cons.mp htarget with rfl | htarget
        · exact hfallback
        · exact Exits.addAll_mem (.inl (hlabels.symm ▸ htarget))
    refine ending?_block.mpr ⟨⟨e,?_,hfit⟩,hG.known τ,rfl⟩
    refine endings?_cons.mpr (.inr ⟨by simp,?_,endings?_cons.mpr (.inl ⟨rfl,he⟩)⟩)
    refine ending?_block.mpr ⟨⟨.never,nest_ending hfall (by rwa [hlabels]) (fun arm harm => ?_) hchoice,rfl⟩,rfl,rfl⟩
    obtain ⟨k,hk⟩ := List.mem_iff_getElem?.mp (List.of_mem_zip harm).2
    obtain ⟨hlt,hbody⟩ := List.getElem?_eq_some_iff.mp hk
    have hlt' := hbodies.length_eq ▸ hlt
    have harm' := (forall₂_iff_get.mp hbodies).2 k hlt' hlt
    simp only [get_eq_getElem,hbody] at harm'
    have hmem : m.arms[k] ∈ m.arms := getElem_mem hlt'
    have hlit : ∃ l, m.arms[k].pattern = .literal l := by
      have : m.arms[k].pattern ∈ literals.map Pattern.literal := hpatterns ▸ mem_map_of_mem hmem
      obtain ⟨l,_,hl⟩ := mem_map.mp this
      exact ⟨l,hl.symm⟩
    obtain ⟨l,hl⟩ := hlit
    cases ht.arms _ hmem with
    | literal _ _ hbinding hfits =>
      exact arm_ending hG hP hv harm' hfits fun var hvar => ⟨σ,stored,hbinding var hvar,ho.stored,ho.gives⟩
    | type hpattern =>
      rw [hl] at hpattern
      cases hpattern

/-- The code of a node leaves what its type says. -/
theorem node_leaves {shape : ExprShape} (ht : p.NodeTyped shape τ) (hc : NodeCode p E L part τ shape code) :
    Leaves E L code τ := by
  cases hc with
  | literal l =>
    cases ht
    cases l <;> exact ⟨rfl,rfl⟩
  | name hl =>
    cases ht with
    | name hv =>
      obtain ⟨type,hs,hn⟩ := hG.slot hl hv
      exact ⟨hs ▸ ending?_localGet.mpr ⟨type,hn,rfl⟩,by rw [hs,hasValue_of_stored? hs]; rfl⟩
  | block hcodes =>
    cases ht with
    | block hs => exact sequence_leaves hP hcodes hs
  | define hpart hl =>
    cases ht with
    | define hf hv _ =>
      obtain ⟨type,hs,hn⟩ := hG.slot hl ⟨_,hv⟩
      obtain ⟨a,ha,hfit⟩ := gives_of_fits hG hP hpart hf hs
      exact ⟨ending?_localSet.mpr ⟨type,hn,a,ha,hfit,rfl⟩,rfl⟩
  | assign hpart hl =>
    cases ht with
    | assign hv hf =>
      obtain ⟨type,hs,hn⟩ := hG.slot hl ⟨_,hv⟩
      obtain ⟨a,ha,hfit⟩ := gives_of_fits hG hP hpart hf hs
      exact ⟨ending?_localSet.mpr ⟨type,hn,a,ha,hfit,rfl⟩,rfl⟩
  | call hk _ hcodes hindex =>
    cases ht with
    | call hct =>
      cases hct with
      | function hk' _ _ hret hargs =>
        cases hk.symm.trans hk'
        obtain ⟨d,f,hk'',hf,hsig⟩ := hG.consistent.entry _ _ hindex
        cases hk.symm.trans hk''
        obtain ⟨founds,hfounds,hfit⟩ := operands_fit hG hP hcodes hargs hsig.params
        have hr : f.result = E.stored? τ := by rw [hsig.result,hret]; rfl
        refine ⟨hr ▸ ending?_call.mpr ⟨f,hf,founds,hfounds,hfit,rfl⟩,?_⟩
        have hvalue := hsig.value
        rwa [hr,hret] at hvalue
  | operation hk hop hcodes hoc =>
    cases ht with
    | call hct =>
      cases hct with
      | function hk' hplain hs hret hargs =>
        cases hk.symm.trans hk'
        obtain ⟨ρ,hρ,hot⟩ := hG.resolved.operation hk hplain hs hop
        cases hret.symm.trans hρ
        exact operation_leaves hG hP hot hcodes hargs hoc
  | construct hshape hchain hstruct hcodes =>
    cases ht with
    | call hct => exact construct_leaves hG hP hshape hct hchain hstruct hcodes
  | field hpart hstruct =>
    cases ht with
    | call hct => exact field_leaves hG hP hpart hct hstruct
  | cond htest hyes hr hv hno =>
    subst hr
    cases ht with
    | when hft hty =>
      cases hno
      refine ⟨ending?_cond.mpr ⟨gives_bool hP htest hft,⟨.next none,?_,rfl⟩,⟨.next none,rfl,rfl⟩,rfl,rfl⟩,rfl⟩
      exact endings?_cons.mpr (.inl ⟨rfl,(hP hyes hty).discarded hty⟩)
    | cond hft hfy hfn =>
      obtain _ | ⟨⟨inner,hinner,rfl⟩,_ | _⟩ := hno
      obtain ⟨σy,hσy,hby⟩ := hfy
      obtain ⟨σn,hσn,hbn⟩ := hfn
      obtain ⟨y,hy,hfity⟩ := (hP hyes hσy).kept (x := {}) hG hσy hby hv
      obtain ⟨n,hn,hfitn⟩ := (hP hinner hσn).kept (x := {}) hG hσn hbn hv
      exact ⟨ending?_cond.mpr ⟨gives_bool hP htest hft,⟨.next y,endings?_cons.mpr (.inl ⟨rfl,hy⟩),hfity⟩,
        ⟨.next n,endings?_cons.mpr (.inl ⟨rfl,hn⟩),hfitn⟩,hG.known _,rfl⟩,hv⟩
  | loop htest hbody hne =>
    cases ht with
    | loop hft htb => exact loop_leaves hP htest hbody hne hft htb
  | select hs hpart hslot hfree hr hv hd =>
    subst hr
    cases ht with
    | select hm =>
      rw [typeOf_eq hm.operand] at hs
      have hd' := dispatch_ending hG hP hv hm ⟨hs,hslot⟩ hd
      refine ⟨?_,hv⟩
      refine endings?_cons.mpr (.inr ⟨by simp,?_,endings?_cons.mpr (.inl ⟨rfl,hd'⟩)⟩)
      exact ending?_localSet.mpr ⟨_,hslot,_,(hP hpart hm.operand).gives hs,fits_refl _ _,rfl⟩

end Parts

theorem codeWithin_leaves (hG : Grounds p E L) (depth : Nat) : PartsLeave p E L (CodeWithin p E L depth) := by
  induction depth with
  | zero => exact fun h _ => h.elim
  | succ depth ih =>
    intro id code τ hc ht
    have hn := (hG.resolved.inv.nodes id τ ht).1
    have hc' : NodeCode p E L (CodeWithin p E L depth) (p.exprs.typeOf id) (p.exprs.get id).shape code := hc
    rw [typeOf_eq ht] at hc'
    exact node_leaves hG ih hn hc'

/-! ### Functions -/

/-- The body of a function of the program gives its result. -/
theorem Compiled.isTyped (hw : p.WellResolved) (hO : Objects p E) (hE : E.Consistent p) {i : EntityId}
    {d : FunctionDef} {first root : ExprId} (hr : p.Ripe i d) (hb : d.body = .expr first root)
    (hsig : E.Signs d f) (hc : Compiled p E d root f L code) : f.typed E.module = true := by
  obtain ⟨τ,ρ,hτ,hρ,hfit⟩ := ((hw.inv.functionOk hr.kind).body first root hb).done hr.body
  have hl := codeWithin_leaves ⟨hw,hO,hE,hc.typed⟩ _ hc.made hτ
  have hresult : f.result = E.stored? ρ := by rw [hsig.result,hρ]; rfl
  have hvalue : (E.stored? ρ).isSome = ρ.hasValue := by
    have := hsig.value
    rwa [hresult,hρ] at this
  have hleft : ∃ left, (discarded p (E.stored? ρ).isSome root code).ending? (contextOf E L)
      { result := some f.result } = some (.next left) ∧ resultFits E.module left (E.stored? ρ) = true := by
    rcases hfit with rfl | hbelow
    · exact ⟨none,hl.discarded hτ,rfl⟩
    · exact hl.kept ⟨hw,hO,hE,hc.typed⟩ hτ hbelow hvalue
  obtain ⟨left,hleft,hfits⟩ := hleft
  have hkeep : d.returnType.any (·.hasValue) = (E.stored? ρ).isSome := by simp [hρ,hvalue]
  have hend : endings? ⟨E.module,f.params ++ f.locals⟩ { result := some f.result } f.body = some (.next left) := by
    rw [hc.body,hkeep,← hc.slots]
    exact endings?_cons.mpr (.inl ⟨rfl,hleft⟩)
  exact Func.typed_of_endings? (hresult ▸ hfits) hend

/-- The function that looks for a number among ancestors gives its result. -/
theorem Tester.wellTyped (hO : Objects p E) (h : E.Tester f) : f.WellTyped E.module := by
  obtain ⟨ids,exit,top,hids,hne,rfl⟩ := h
  have hids' : E.module.types[ids]? = some (.array ⟨"array_0",.i32,false⟩) := by
    rcases hO with hO | hO
    · cases hids.symm.trans hO.idsArray
      exact hO.ids
    · rw [hO.idsArray] at hids
      cases hids
  have harray : E.module.array? ids = some ⟨"array_0",.i32,false⟩ := by simp [Module.array?,hids']
  have hknown : ids < E.module.types.size := Module.lt_size_of_array? harray
  refine ⟨by simp [extendsFunc,isKnown,hknown],fun _ => by simp [extendsFunc,isKnown],fun _ => ?_⟩
  -- local 0 is the number, 1 the array, 2 counts
  let c : Context := ⟨E.module,[.i32,.ref ids,.i32]⟩
  let x : Exits := (Exits.add { result := some (some .i32) } exit none).add top none
  have hexit : x.labels.lookup exit = some none := by
    simp [x,Exits.add,lookup_cons,beq_eq_false_iff_ne.mpr hne]
  have htop : x.labels.lookup top = some none := by simp [x,Exits.add]
  have hget : (arrayGet ids (.localGet 1) (.localGet 2)).Gives c .i32 :=
    ending?_arrayGet.mpr ⟨_,harray,⟨.ref ids,rfl,fits_refl _ _⟩,rfl,rfl⟩
  have hlength : (arrayLen (.localGet 1)).Gives c .i32 := ending?_arrayLen.mpr ⟨ids,_,rfl,harray,rfl⟩
  have hfound : (ret (some (.i32Const 1))).ending? c x = some .never :=
    ending?_ret_some.mpr ⟨.i32,rfl,.i32,rfl,fits_refl _ _,rfl⟩
  have hset : ∀ {value : Instr} {y : Exits}, value.Gives c .i32 →
      (localSet 2 value).ending? c y = some (.next none) := fun h =>
    ending?_localSet.mpr ⟨.i32,rfl,.i32,h,fits_refl _ _,rfl⟩
  have hround : endings? c x [.brIf exit (.binary .ge .i32 (.localGet 2) (.arrayLen (.localGet 1))),
       .cond none (.binary .eq .i32 (.arrayGet ids (.localGet 1) (.localGet 2)) (.localGet 0))
        [.ret (some (.i32Const 1))] [],
       .localSet 2 (.binary .add .i32 (.localGet 2) (.i32Const 1)),.br top none] = some .never := by
    refine endings?_cons.mpr (.inr ⟨by simp,ending?_brIf.mpr ⟨?_,hexit,rfl⟩,?_⟩)
    · exact ending?_binary.mpr ⟨rfl,rfl,hlength,rfl⟩
    refine endings?_cons.mpr (.inr ⟨by simp,ending?_cond.mpr ⟨?_,⟨.never,?_,rfl⟩,⟨.next none,rfl,rfl⟩,rfl,rfl⟩,?_⟩)
    · exact ending?_binary.mpr ⟨rfl,hget,rfl,rfl⟩
    · exact endings?_cons.mpr (.inl ⟨rfl,hfound⟩)
    refine endings?_cons.mpr (.inr ⟨by simp,hset (ending?_binary.mpr ⟨rfl,rfl,rfl,rfl⟩),?_⟩)
    exact endings?_cons.mpr (.inl ⟨rfl,ending?_br_none.mpr ⟨htop,rfl⟩⟩)
  have hbody : endings? c { result := some (some .i32) } (extendsBody ids exit top) = some (.next (some .i32)) := by
    refine endings?_cons.mpr (.inr ⟨by simp,hset rfl,endings?_cons.mpr (.inr ⟨by simp,?_,rfl⟩)⟩)
    refine ending?_block.mpr ⟨⟨.next none,endings?_cons.mpr (.inl ⟨rfl,?_⟩),rfl⟩,rfl,rfl⟩
    exact ending?_loop.mpr ⟨⟨.never,hround,rfl⟩,rfl⟩
  exact Func.typed_of_endings? (e := .next (some .i32)) rfl hbody

private theorem caseTests_ending {c : Context} {type : NumType}
    (hlocal : c.locals[0]? = some type.valueType) (hl : ∀ l ∈ literals, l.prim.numType? = some type) (index : Nat) :
    endings? c { result := some (some .i32) } (caseTests type index literals) = some (.next (some .i32)) := by
  induction literals generalizing index with
  | nil => rfl
  | cons l literals ih =>
    have hlit : (literal l).Gives c type.valueType := by
      have := hl l (.head _)
      cases l <;> cases this <;> rfl
    have htest : (binary .eq type (.localGet 0) (literal l)).Gives c .i32 :=
      ending?_binary.mpr ⟨rfl,ending?_localGet.mpr ⟨_,hlocal,rfl⟩,hlit,rfl⟩
    refine endings?_cons.mpr (.inr ⟨by cases literals <;> simp [caseTests],?_,ih (fun l hm => hl l (.tail _ hm)) _⟩)
    refine ending?_cond.mpr ⟨htest,⟨.never,endings?_cons.mpr (.inl ⟨rfl,?_⟩),rfl⟩,⟨.next none,rfl,rfl⟩,rfl,rfl⟩
    exact ending?_ret_some.mpr ⟨.i32,rfl,.i32,rfl,fits_refl _ _,rfl⟩

/-- The literals of a match on values all have the type of its operand. -/
theorem literals_prim {m : Match} (hm : p.MatchTyped m (.prim prim) τ)
    (hpatterns : m.arms.map (·.pattern) = literals.map .literal) : ∀ l ∈ literals, l.prim = prim := by
  intro l hl
  have hmem : Pattern.literal l ∈ m.arms.map (·.pattern) := hpatterns ▸ mem_map_of_mem hl
  obtain ⟨arm,harm,hpattern⟩ := mem_map.mp hmem
  cases hm.arms arm harm with
  | literal hp hprim =>
    rw [hpattern] at hp
    cases hp
    cases hprim
    rfl
  | type hp =>
    rw [hpattern] at hp
    cases hp

/-- The function that finds the case of a match gives its result. -/
theorem Finder.wellTyped (hI : p.Inv) {node : ExprId} (hτ : p.Typed node τ) (h : p.Finder node f) :
    f.WellTyped E.module := by
  obtain ⟨m,prim,type,stored,literals,hshape,htype,hnum,hstored,hpatterns,hfinds⟩ := h
  have ht := (hI.nodes node τ hτ).1
  rw [hshape] at ht
  obtain ⟨σ,hm⟩ : ∃ σ, p.MatchTyped m σ τ := by
    cases ht with
    | select hm => exact ⟨_,hm⟩
  cases (typeOf_eq hm.operand).symm.trans htype
  have hs : some type.valueType = some stored := by rw [← hstored E,stored?_prim,hnum]; rfl
  cases hs
  have hend := caseTests_ending (c := ⟨E.module,f.params ++ f.locals⟩) (by simp [hfinds.params])
    (fun l hl => literals_prim hm hpatterns l hl ▸ hnum) 1
  refine ⟨?_,fun _ => by simp [hfinds.locals],fun _ => ?_⟩
  · simp only [hfinds.params,hfinds.result,Option.toList_some,cons_append,nil_append,mem_cons,
      not_mem_nil,or_false,forall_eq_or_imp,forall_eq]
    exact ⟨by cases type <;> rfl,rfl⟩
  · refine Func.typed_of_endings? (e := .next (some .i32)) ?_ ?_
    · rw [hfinds.result]
      rfl
    · rw [hfinds.result,hfinds.body]
      exact hend

/-! ### Modules -/

variable {exports : List (String × EntityId)}

theorem Lowered.func_wellTyped (hw : p.WellResolved) (he : p.ExportsOk exports) (h : Lowered p exports E)
    (hf : E.module.funcs[n]? = some f) : f.WellTyped E.module := by
  rcases h.helpers hf with ⟨i,hi⟩ | ht | ⟨g,d,node,hreach,hk,hcov,hfinder⟩
  · obtain ⟨d,hr⟩ := (h.reached i n hi).ripe hw he
    obtain ⟨d',f',hk,hf',hsig⟩ := h.consistent.entry i n hi
    cases hr.kind.symm.trans hk
    cases hf.symm.trans hf'
    have hparams : ∀ t ∈ f.params, t.isKnown E.module = true := by
      intro t ht
      obtain ⟨k,hk⟩ := List.mem_iff_getElem?.mp ht
      obtain ⟨hlt,rfl⟩ := List.getElem?_eq_some_iff.mp hk
      exact h.consistent.stored?_known ((forall₂_iff_get.mp hsig.params).2 k (hsig.params.length_eq.symm ▸ hlt) hlt)
    have hresult : ∀ t ∈ f.result.toList, t.isKnown E.module = true := by
      intro t ht
      exact h.consistent.stored?_known (hsig.result.symm.trans (Option.mem_toList.mp ht))
    have hbody : f.host? = none → (∀ t ∈ f.locals, t.isKnown E.module = true) ∧ f.typed E.module = true := by
      intro hhost
      cases hb : d.body with
      | expr first root =>
        obtain ⟨L,code,hc⟩ := h.compiled i n d first root f hi hk hb hf
        exact ⟨fun t ht => hc.known t (hc.slots ▸ mem_append_right _ ht),
          hc.isTyped hw h.objects h.consistent hr hb hsig⟩
      | host source name =>
        rw [hsig.host,hb] at hhost
        cases hhost
      | intrinsic op =>
        have hown := hr.own
        simp [FunctionDef.intrinsic?,hb] at hown
    exact ⟨fun t ht => (mem_append.mp ht).elim (hparams t) (hresult t),fun hh => (hbody hh).1, fun hh => (hbody hh).2⟩
  · exact Tester.wellTyped h.objects ht
  · obtain ⟨e,hr⟩ := hreach.ripe hw he
    cases hk.symm.trans hr.kind
    obtain ⟨τ,hτ⟩ := hw.inv.typed_of_covers hk hr.body hcov
    exact Finder.wellTyped hw.inv hτ hfinder

section

variable (h : Lowered p exports E) (hg : g ∈ E.module.globals.toList)
include h hg

/-- A global holds the numbers of the ancestors of an object. -/
theorem Lowered.global_init : ∃ ids : List Int32, g.init = .arrayNewFixed 0 (ids.map .i32Const) ∧ g.type = .ref 0 ∧
      E.module.array? 0 = some ⟨"array_0",.i32,false⟩ := by
  rcases h.objects with hO | hO
  · rw [hO.globals] at hg
    obtain ⟨x,_,rfl⟩ := mem_map.mp hg
    exact ⟨x.2.map runtimeId,by simp [Function.comp_def,chainGlobalOf],rfl,by simp [Module.array?,hO.ids]⟩
  · rw [hO.globals] at hg
    cases hg

private theorem Lowered.global_gives : g.init.Gives ⟨E.module,[]⟩ g.type := by
  obtain ⟨ids,hinit,htype,harray⟩ := h.global_init hg
  have hoperands : operands? ⟨E.module,[]⟩ (ids.map .i32Const) = some (ids.map fun _ => .i32) := by
    clear hinit
    induction ids with
    | nil => rfl
    | cons i ids ih => exact operands?_cons.mpr ⟨.i32,rfl,_,ih,rfl⟩
  rw [hinit,htype]
  refine ending?_arrayNewFixed.mpr ⟨_,harray,_,hoperands,fun t ht => ?_,rfl⟩
  obtain ⟨_,_,rfl⟩ := mem_map.mp ht
  exact fits_refl _ _

private theorem Lowered.global_isValid : g.isValid E.module = true := by
  obtain ⟨_,_,htype,harray⟩ := h.global_init hg
  refine Global.isValid_of_typed ?_ (h.global_gives hg)
  rw [htype]
  exact decide_eq_true (Module.lt_size_of_array? harray)

end

private theorem Lowered.type_isValid (hw : p.WellResolved) (h : Lowered p exports E) {d : TypeDef}
    (hd : E.module.types[n]? = some d) : d.isValid E.module n = true := by
  cases d with
  | array d => exact h.consistent.arrays n d hd
  | struct d =>
    have hs : E.module.struct? n = some d := by simp [Module.struct?,hd]
    simp only [TypeDef.isValid,StructDef.isValid,Bool.and_eq_true,all_eq_true]
    constructor
    · rcases h.objects with hO | hO
      · obtain ⟨i,hi⟩ := hO.object_of_struct? hs
        obtain ⟨name,fields,hs',defs,rfl,hdefs⟩ := hO.struct? hi
        cases hs.symm.trans hs'
        intro field hfield
        rcases mem_cons.mp hfield with rfl | hfield
        · exact decide_eq_true (Array.getElem?_eq_some_iff.mp hO.ids).1
        · obtain ⟨k,hk⟩ := List.mem_iff_getElem?.mp hfield
          obtain ⟨hlt,rfl⟩ := List.getElem?_eq_some_iff.mp hk
          obtain ⟨type,hstored,heq⟩ := Option.map_eq_some_iff.mp
            ((forall₂_iff_get.mp hdefs).2 k (hdefs.length_eq.symm ▸ hlt) hlt)
          rw [show defs[k] = _ from heq.symm]
          exact h.consistent.stored?_known hstored
      · exact absurd hd (hO.only n d)
    · cases hsup : d.supertype with
      | none => rfl
      | some sup =>
        obtain ⟨hlt,e,he, hprefix⟩ := h.objects.layered hw.inv n d sup hs hsup
        simp [hlt,he, isPrefixOf_iff_prefix.mpr hprefix]

private theorem Lowered.isValid (hw : p.WellResolved) (he : p.ExportsOk exports) (h : Lowered p exports E) :
    E.module.isValid = true := by
  simp only [Module.isValid,Bool.and_eq_true,all_eq_true]
  refine ⟨⟨fun x hx => ?_,fun g hg => h.global_isValid hg⟩,fun f hf => ?_⟩
  · obtain ⟨d,n⟩ := x
    refine h.type_isValid hw ?_
    simpa using mem_zipIdx_iff_getElem?.mp hx
  · obtain ⟨n,hn⟩ := mem_iff_getElem?.mp hf
    exact (h.func_wellTyped hw he (Array.getElem?_toList ▸ hn)).isValid

end Lower

/-- What lies between a source that compiles and its module. -/
theorem lowered_of_compile {library : List SourceFile} {file source : String} {artifact : Artifact}
    (h : compile library file source = .ok artifact) : ∃ p exports E, p.WellResolved ∧ p.ExportsOk exports ∧
      Lower.Lowered p exports E ∧ E.module = artifact.module ∧
      checkSource library file source Program.initial = .ok exports p ∧ Lower.program exports p {} = .ok ((), E) := by
  unfold compile at h
  cases hc : checkSource library file source Program.initial with
  | error d q =>
    rw [hc] at h
    cases h
  | ok exports p =>
    rw [hc] at h
    obtain ⟨hw,he⟩ := Program.wellResolved_of_checkSource hc
    cases hl : lowerProgram p exports with
    | error d =>
      simp only [hl] at h
      cases h
    | ok m =>
      simp only [hl] at h
      obtain ⟨_,E,hp,hm⟩ := Lower.lowerProgram_ok hl
      refine ⟨p,exports,E,hw,he,Lower.lowered_of_program hw he hp,?_,rfl,hp⟩
      cases hb : m.encode with
      | error d =>
        simp only [bind,Except.bind,hb] at h
        cases h
      | ok bytes =>
        simp only [bind,Except.bind,hb] at h
        cases h
        exact hm

/-- Whatever compiles has a valid module: stack code that types, structs behind their supertypes. -/
theorem compile_isValid {library : List SourceFile} {file source : String} {artifact : Artifact}
    (h : compile library file source = .ok artifact) : artifact.module.isValid = true := by
  obtain ⟨p,exports,E,hw,he,hE,hm,_⟩ := lowered_of_compile h
  exact hm ▸ hE.isValid hw he

/-- A small program with a match on types that has no arm for other cases. -/
def sampleSource : String :=
  "(obj A (: x i32))(obj B (extends A) (: x i32))(pub (fn f (parameters (: a A)) (match a (=> B 1) (=> A 2))))"

theorem sample_compiles : ∃ artifact, compile [] "main.vast" sampleSource = .ok artifact :=
  Succeeds.of_isOk (by decide +kernel)

theorem compile_isValid_sample : ∃ artifact, compile [] "main.vast" sampleSource = .ok artifact ∧
    artifact.module.isValid = true := by
  obtain ⟨artifact,h⟩ := sample_compiles
  exact ⟨artifact,h,compile_isValid h⟩

end FormCompiler
