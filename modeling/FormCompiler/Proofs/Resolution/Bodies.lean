import FormCompiler.Proofs.Resolution.Whole

/-! Resolved bodies as a whole: every node in them has a type, and every function they call is ready to be
compiled or is a provided operation on operands of its types. -/

namespace FormCompiler

open List

deriving instance DecidableEq for FunctionBody

namespace Program

variable {p : Program} {d : FunctionDef} {f : EntityId} {ids : List ExprId} {id : ExprId} {lo hi : Nat}

/-- The parts of a node with a type have types. -/
theorem NodeTyped.parts {shape : ExprShape} {τ : Ty} (h : p.NodeTyped shape τ) :
    ∀ id ∈ shape.children, ∃ σ, p.Typed id σ := by
  have fits : ∀ {id : ExprId} {ρ : Ty}, p.Fits id ρ → ∃ σ, p.Typed id σ := fun ⟨σ,hσ,_⟩ => ⟨σ,hσ⟩
  intro id hid
  cases h with
  | literal | name => simp [ExprShape.children] at hid
  | block hs =>
    have hseq : ∀ {last : Ty} {ids : List ExprId}, p.SeqTyped last ids τ → ∀ i ∈ ids, ∃ σ, p.Typed i σ := by
      intro last ids hs
      induction ids generalizing last with
      | nil => simp
      | cons i ids ih =>
        obtain ⟨σ,hσ,hrest⟩ := hs
        intro j hj
        rcases mem_cons.mp hj with rfl | hj
        · exact ⟨σ,hσ⟩
        · exact ih hrest j hj
    exact hseq hs id hid
  | define hf => exact mem_singleton.mp hid ▸ fits hf
  | assign _ hf => exact mem_singleton.mp hid ▸ fits hf
  | call hc =>
    cases hc with
    | function _ _ _ _ hargs =>
      obtain ⟨k,hk⟩ := mem_iff_getElem?.mp hid
      obtain ⟨hlt,rfl⟩ := List.getElem?_eq_some_iff.mp hk
      exact fits ((List.forall₂_iff_get.mp hargs).2 k hlt ((List.forall₂_iff_get.mp hargs).1 ▸ hlt))
    | construct _ ht => exact ⟨_,mem_singleton.mp hid ▸ ht⟩
    | field ht => exact ⟨_,mem_singleton.mp hid ▸ ht⟩
  | object _ hx =>
    obtain ⟨x,hx',rfl⟩ := mem_map.mp hid
    exact hx x hx'
  | when ht hy =>
    simp only [ExprShape.children,Option.toList_none,mem_cons,not_mem_nil,or_false] at hid
    rcases hid with rfl | rfl
    · exact fits ht
    · exact ⟨_,hy⟩
  | cond ht hy hn =>
    simp only [ExprShape.children,Option.toList_some,mem_cons,not_mem_nil,or_false] at hid
    rcases hid with rfl | rfl | rfl
    exacts [fits ht,fits hy,fits hn]
  | loop ht hb =>
    simp only [ExprShape.children,mem_cons,not_mem_nil,or_false] at hid
    rcases hid with rfl | rfl
    · exact fits ht
    · exact ⟨_,hb⟩
  | select hm =>
    simp only [ExprShape.children,mem_cons,mem_append,mem_map,Option.mem_toList] at hid
    rcases hid with rfl | ⟨arm,ha,rfl⟩ | hd
    · exact ⟨_,hm.operand⟩
    · cases hm.arms arm ha with
      | literal _ _ _ hf => exact fits hf
      | type _ _ _ hf _ => exact fits hf
    · exact fits (hm.default id hd)

/-- Where the outermost nodes of an interval have types, all its nodes have. -/
theorem Inv.typed_of_tiles (hI : p.Inv) (ht : p.exprs.Tiles lo ids hi) (hids : ∀ id ∈ ids, ∃ τ, p.Typed id τ)
    (j : ExprId) (hlo : lo ≤ j.index) (hhi : j.index < hi) : ∃ τ, p.Typed j τ := by
  induction ht with
  | nil => omega
  | @cons lo id ids hi _ _ ih1 ih2 =>
    obtain ⟨τ,hτ⟩ := hids id (.head _)
    rcases Nat.lt_trichotomy j.index id.index with hlt | heq | hgt
    · exact ih1 (hI.nodes id τ hτ).1.parts hlo hlt
    · exact ⟨τ,Arena.ext_of_index heq ▸ hτ⟩
    · exact ih2 (fun i hi => hids i (.tail _ hi)) hgt hhi

/-- Every node of a finished body has a type. -/
theorem Inv.typed_of_covers (hI : p.Inv) (hk : p.entities.kind f = .function d) (hd : d.bodyStage = .done)
    (hc : d.Covers id) : ∃ τ, p.Typed id τ := by
  obtain ⟨first,root,hb,h1,h2⟩ := hc
  have ho := (hI.functionOk hk).body first root hb
  obtain ⟨τ,_,hτ,_⟩ := ho.done hd
  refine hI.typed_of_tiles (.cons ho.tiles .nil) (fun i hi => ?_) id h1 (Nat.lt_succ_of_le h2)
  exact mem_singleton.mp hi ▸ ⟨τ,hτ⟩

/-! ### Nodes of a body -/

theorem Inv.length_le_of_tiles (ht : p.exprs.Tiles lo ids hi) : lo + ids.length ≤ hi := by
  induction ht with
  | nil => exact Nat.le_refl _
  | cons hc _ _ ih =>
    simp only [length_cons]
    omega

/-- Each node of an interval has its parts before it there. -/
theorem Inv.tiles_inner (ht : p.exprs.Tiles lo ids hi) (j : ExprId) (hlo : lo ≤ j.index) (hhi : j.index < hi) :
    ∃ x, lo ≤ x ∧ p.exprs.Tiles x (p.exprs.get j).shape.children j.index := by
  induction ht with
  | nil => omega
  | @cons lo id ids hi hc _ ih1 ih2 =>
    rcases Nat.lt_trichotomy j.index id.index with hlt | heq | hgt
    · exact ih1 hlo hlt
    · exact ⟨lo,Nat.le_refl _,Arena.ext_of_index heq ▸ hc⟩
    · obtain ⟨x,hx,hj⟩ := ih2 hgt hhi
      exact ⟨x,by have := hc.le; omega,hj⟩

/-- A place in an interval of nodes belongs to one of those that fill it. -/
theorem Inv.tiles_locate (h : p.exprs.Tiles lo ids hi) {k : Nat} (hlo : lo ≤ k)
    (hhi : k < hi) : ∃ id ∈ ids, ∃ x, p.exprs.Tiles x (p.exprs.get id).shape.children id.index ∧ x ≤ k ∧
      k ≤ id.index := by
  induction h with
  | nil => omega
  | @cons lo id ids hi hc _ _ ih =>
    by_cases hk : k ≤ id.index
    · exact ⟨id,.head _,lo,hc,hlo,hk⟩
    · obtain ⟨other,ho,rest⟩ := ih (by omega) hhi
      exact ⟨other,.tail _ ho,rest⟩

section

variable (hI : p.Inv) (hk : p.entities.kind f = .function d) (hc : d.Covers id)
include hI hk hc

theorem Inv.tiles_of_covers : id.index < p.exprs.size ∧ ∃ x, p.exprs.Tiles x (p.exprs.get id).shape.children id.index ∧
      ∀ j : ExprId, x ≤ j.index → j.index < id.index → d.Covers j := by
  obtain ⟨first,root,hb,h1,h2⟩ := hc
  have ho := (hI.functionOk hk).body first root hb
  obtain ⟨x,hx,ht⟩ := Inv.tiles_inner (.cons ho.tiles .nil) id h1 (Nat.lt_succ_of_le h2)
  have hlt := ho.lt_size
  exact ⟨by omega,x,ht,fun j hj hid => ⟨first,root,hb,by omega,by omega⟩⟩

/-- The parts of a node of a body belong to the body. -/
theorem Inv.covers_child {j : ExprId} (hj : j ∈ (p.exprs.get id).shape.children) : d.Covers j := by
  obtain ⟨_,x,ht,hall⟩ := hI.tiles_of_covers hk hc
  obtain ⟨y,hy,hlt,hcy⟩ := ht.mem hj
  exact hall j (Nat.le_trans hy hcy.le) hlt

theorem Inv.length_children_lt : (p.exprs.get id).shape.children.length < p.exprs.size := by
  obtain ⟨hlt,x,ht,_⟩ := hI.tiles_of_covers hk hc
  have := Inv.length_le_of_tiles ht
  omega

end

/-- A function that can be compiled: it is neither generic nor provided, and it is resolved. -/
structure Ripe (p : Program) (f : EntityId) (d : FunctionDef) : Prop where
  kind : p.entities.kind f = .function d
  own : d.intrinsic? = none
  signature : d.signature = .done
  body : d.bodyStage = .done

theorem WellResolved.ripe (h : p.WellResolved) (hk : p.entities.kind f = .function d)
    (hplain : d.typeParams = []) (hop : d.intrinsic? = none) : p.Ripe f d := by
  have hbody := h.settled f d hk hplain hop
  refine ⟨hk,hop,?_,hbody⟩
  apply Classical.byContradiction
  intro hs
  have := ((h.inv.functionOk hk).unsigned hs).2.2
  rw [hbody] at this
  cases this

/-! ### Provided operations -/

/-- Operands and result of the provided operations. `element` is what the arrays hold. -/
inductive OperationTyped (element : Option Ty) : Intrinsic → List Ty → Ty → Prop
  | binary {operator operand type} : operator ∈ Operator.all → operand ∈ operator.operands →
      operand.numType? = some type →
      OperationTyped element (.binary operator.op type) [.prim operand,.prim operand] (.prim (operator.result operand))
  | not : OperationTyped element .not [.bool] .bool
  | newArray {τ} : element = some τ → OperationTyped element .newArray [.i32] (.array τ)
  | arrayGet {τ} : element = some τ → OperationTyped element .arrayGet [.array τ,.i32] τ
  | arraySet {τ} : element = some τ → OperationTyped element .arraySet [.array τ,.i32,τ] .void
  | arrayLen {τ} : element = some τ → OperationTyped element .arrayLen [.array τ] .i32

private theorem meanings?_eq {scope : ScopeId} {ts : List TypeExpr} {τs : List Ty}
    (h : List.Forall₂ (fun t τ => p.meaning? scope t = some τ) ts τs) : p.meanings? scope ts = some τs := by
  induction h with
  | nil => rfl
  | cons ht _ ih => simp [meanings?,ht,ih]

theorem WellResolved.operation (h : p.WellResolved) {op : Intrinsic} (hk : p.entities.kind f = .function d)
    (hplain : d.typeParams = []) (hs : d.signature = .done) (hop : d.intrinsic? = some op) :
    ∃ τ, d.returnType = some τ ∧ OperationTyped d.appliedArgs.head? op d.paramTypes τ := by
  have hf := h.inv.functionOk hk
  have hsig := hf.signed hs
  have hb : d.body = .intrinsic op := by
    unfold FunctionDef.intrinsic? at hop
    split at hop
    · rename_i hb
      rw [hb,Option.some.inj hop]
    · cases hop
  have hmeaning : ∀ t, d.returnExpr = some t → ∀ τ, p.meaning? d.scope t = some τ → d.returnType = some τ := by
    intro t ht τ hτ
    obtain ⟨σ,hσ,hm⟩ := hsig.result t ht
    rw [hσ,← hτ,hm]
  have hparam : ∀ τs, List.Forall₂ (fun t τ => p.meaning? d.scope t = some τ) (d.params.map (·.declared)) τs →
      d.paramTypes = τs := fun τs hτs =>
    Option.some.inj (hsig.types.symm.trans (meanings?_eq hτs))
  cases hf.intrinsic op hb with
  | binary hmem hoperand htype _ hparams hresult =>
    rw [hparams] at hparam
    have hp := hparam [_,_] (.cons rfl (.cons rfl .nil))
    exact ⟨_,hmeaning _ hresult _ rfl,hp ▸ .binary hmem hoperand htype⟩
  | not _ hparams hresult =>
    rw [hparams] at hparam
    have hp := hparam [_] (.cons rfl .nil)
    exact ⟨_,hmeaning _ hresult _ rfl,hp ▸ .not⟩
  | arrayTemplate _ _ hgeneric =>
    rw [hplain] at hgeneric
    cases hgeneric
  | @arrayInstance _ params result element hsignature hscope _ hargs hparams hresult =>
    rw [hparams,hscope] at hparam
    rw [hscope] at hmeaning
    have harray := h.arrays.2 element .builtin
    have hhead : d.appliedArgs.head? = some element := by rw [hargs]; rfl
    rw [hhead]
    cases op with
    | newArray =>
      cases hsignature
      have hp := hparam [.i32] (.cons rfl .nil)
      exact ⟨_,hmeaning _ hresult _ harray,hp ▸ .newArray rfl⟩
    | arrayGet =>
      cases hsignature
      have hp := hparam [.array element,.i32] (.cons harray (.cons rfl .nil))
      exact ⟨_,hmeaning _ hresult _ rfl,hp ▸ .arrayGet rfl⟩
    | arraySet =>
      cases hsignature
      have hp := hparam [.array element,.i32,element] (.cons harray (.cons rfl (.cons rfl .nil)))
      exact ⟨_,hmeaning _ hresult _ rfl,hp ▸ .arraySet rfl⟩
    | arrayLen =>
      cases hsignature
      have hp := hparam [.array element] (.cons harray .nil)
      exact ⟨_,hmeaning _ hresult _ rfl,hp ▸ .arrayLen rfl⟩
    | binary | not => cases hsignature

end Program

end FormCompiler
