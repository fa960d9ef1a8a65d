import FormCompiler.Proofs.Resolution.Judgement

/-! How a program changes while it is resolved: entities, scopes and nodes are added, definitions are
completed, and what is complete stays as it is. All judgements survive such changes. -/

namespace FormCompiler

open EntityTable

variable {τ : Ty} {d e : FunctionDef}

namespace ScopeKind

/-- Scopes whose names are all known before resolution starts. -/
def isStatic : ScopeKind → Bool
  | root | module => true
  | _ => false

end ScopeKind

structure ObjectDef.Grows (d e : ObjectDef) : Prop where
  scope : e.scope = d.scope
  fieldExprs : e.fieldExprs = d.fieldExprs
  typeParams : e.typeParams = d.typeParams
  parent : ∀ above, d.parent = some above → e.parent = some above
  done : d.stage = .done → e.stage = .done ∧ e.parent = d.parent ∧ e.fields = d.fields
  instances : ∀ args id, d.instances.lookup args = some id → e.instances.lookup args = some id

structure FunctionDef.Grows (d e : FunctionDef) : Prop where
  scope : e.scope = d.scope
  typeParams : e.typeParams = d.typeParams
  appliedArgs : e.appliedArgs = d.appliedArgs
  params : e.params = d.params
  returnExpr : e.returnExpr = d.returnExpr
  body : e.body = d.body
  signature : d.signature = .done → e.signature = .done ∧ e.paramTypes = d.paramTypes ∧ e.paramVars = d.paramVars
  returnType : ∀ τ, d.returnType = some τ → e.returnType = some τ
  bodyStage : d.bodyStage = .done → e.bodyStage = .done

structure AliasDef.Grows (d e : AliasDef) : Prop where
  done : ∀ τ, d.stage = .done → d.resolved = some τ → e.stage = .done ∧ e.resolved = some τ

inductive EntityKind.Grows : EntityKind → EntityKind → Prop
  | same (k : EntityKind) : Grows k k
  | object {d e : ObjectDef} : d.Grows e → Grows (.object d) (.object e)
  | function {d e : FunctionDef} : d.Grows e → Grows (.function d) (.function e)
  | typeAlias {d e : AliasDef} : d.Grows e → Grows (.typeAlias d) (.typeAlias e)

structure ScopeTable.Grows (s t : ScopeTable) : Prop where
  size : s.size ≤ t.size
  parent : ∀ x, x.index < s.size → (t.get x).parent = (s.get x).parent
  kind : ∀ x, x.index < s.size → (t.get x).kind = (s.get x).kind
  exports : ∀ x, x.index < s.size → (t.get x).exports = (s.get x).exports
  bindings : ∀ x, x.index < s.size → (s.get x).kind.isStatic = true → (t.get x).bindings = (s.get x).bindings

/-- `q` is what `p` became by adding and completing. -/
structure Program.Grows (p q : Program) : Prop where
  entities : p.entities.size ≤ q.entities.size
  name : ∀ id, id.index < p.entities.size → (q.entities.get id).name = (p.entities.get id).name
  kind : ∀ id, id.index < p.entities.size → (p.entities.kind id).Grows (q.entities.kind id)
  scopes : p.scopes.Grows q.scopes
  exprs : p.exprs.size ≤ q.exprs.size
  children : ∀ id, id.index < p.exprs.size → (q.exprs.get id).shape.children = (p.exprs.get id).shape.children
  typed : ∀ id τ, p.Typed id τ → q.exprs.get id = p.exprs.get id

namespace ObjectDef.Grows

variable {d e f : ObjectDef}

theorem refl (d : ObjectDef) : d.Grows d :=
  ⟨rfl,rfl,rfl,fun _ h => h,fun h => ⟨h,rfl,rfl⟩,fun _ _ h => h⟩

theorem trans (h : d.Grows e) (k : e.Grows f) : d.Grows f where
  scope := k.scope.trans h.scope
  fieldExprs := k.fieldExprs.trans h.fieldExprs
  typeParams := k.typeParams.trans h.typeParams
  parent a ha := k.parent a (h.parent a ha)
  done hd := by
    obtain ⟨h1,h2,h3⟩ := h.done hd
    obtain ⟨k1,k2,k3⟩ := k.done h1
    exact ⟨k1,k2.trans h2,k3.trans h3⟩
  instances args id hl := k.instances args id (h.instances args id hl)

end ObjectDef.Grows

namespace FunctionDef.Grows

variable {f : FunctionDef}

theorem refl (d : FunctionDef) : d.Grows d :=
  ⟨rfl,rfl,rfl,rfl,rfl,rfl,fun h => ⟨h,rfl,rfl⟩,fun _ h => h,fun h => h⟩

theorem trans (h : d.Grows e) (k : e.Grows f) : d.Grows f where
  scope := k.scope.trans h.scope
  typeParams := k.typeParams.trans h.typeParams
  appliedArgs := k.appliedArgs.trans h.appliedArgs
  params := k.params.trans h.params
  returnExpr := k.returnExpr.trans h.returnExpr
  body := k.body.trans h.body
  signature hd := by
    obtain ⟨h1,h2,h3⟩ := h.signature hd
    obtain ⟨k1,k2,k3⟩ := k.signature h1
    exact ⟨k1,k2.trans h2,k3.trans h3⟩
  returnType τ hτ := k.returnType τ (h.returnType τ hτ)
  bodyStage hd := k.bodyStage (h.bodyStage hd)

end FunctionDef.Grows

namespace AliasDef.Grows

variable {d e f : AliasDef}

theorem trans (h : d.Grows e) (k : e.Grows f) : d.Grows f where
  done τ hd hr := by
    obtain ⟨h1,h2⟩ := h.done τ hd hr
    exact k.done τ h1 h2

end AliasDef.Grows

namespace EntityKind.Grows

variable {a b c : EntityKind}

theorem trans (h : a.Grows b) (k : b.Grows c) : a.Grows c := by
  cases h with
  | same => exact k
  | object h =>
    cases k with
    | same => exact .object h
    | object k => exact .object (h.trans k)
  | function h =>
    cases k with
    | same => exact .function h
    | function k => exact .function (h.trans k)
  | typeAlias h =>
    cases k with
    | same => exact .typeAlias h
    | typeAlias k => exact .typeAlias (h.trans k)

private theorem of_object {d : ObjectDef} (h : Grows (.object d) b) : ∃ e, b = .object e ∧ d.Grows e := by
  cases h with
  | same => exact ⟨d,rfl,.refl d⟩
  | object h => exact ⟨_,rfl,h⟩

private theorem of_function (h : Grows (.function d) b) : ∃ e, b = .function e ∧ d.Grows e := by
  cases h with
  | same => exact ⟨d,rfl,.refl d⟩
  | function h => exact ⟨_,rfl,h⟩

private theorem of_var {m : Bool} (h : Grows (.var τ m) b) : b = .var τ m := by
  cases h
  rfl

theorem to_function (h : Grows a (.function e)) : ∃ d, a = .function d ∧ d.Grows e := by
  cases h with
  | same => exact ⟨e,rfl,.refl e⟩
  | function h => exact ⟨_,rfl,h⟩

theorem to_var {m : Bool} (h : Grows a (.var τ m)) : a = .var τ m := by
  cases h
  rfl

end EntityKind.Grows

namespace ScopeTable.Grows

theorem refl (s : ScopeTable) : s.Grows s :=
  ⟨Nat.le_refl _,fun _ _ => rfl,fun _ _ => rfl,fun _ _ => rfl,fun _ _ _ => rfl⟩

theorem trans {s t u : ScopeTable} (h : s.Grows t) (k : t.Grows u) : s.Grows u where
  size := Nat.le_trans h.size k.size
  parent x hx := (k.parent x (Nat.lt_of_lt_of_le hx h.size)).trans (h.parent x hx)
  kind x hx := (k.kind x (Nat.lt_of_lt_of_le hx h.size)).trans (h.kind x hx)
  exports x hx := (k.exports x (Nat.lt_of_lt_of_le hx h.size)).trans (h.exports x hx)
  bindings x hx hs := by
    rw [k.bindings x (Nat.lt_of_lt_of_le hx h.size) (by rw [h.kind x hx]; exact hs),h.bindings x hx hs]

end ScopeTable.Grows

namespace Program.Grows

variable {p q r : Program} {σ : Ty} {id : EntityId}

theorem refl (p : Program) : p.Grows p :=
  ⟨Nat.le_refl _,fun _ _ => rfl,fun _ _ => .same _,.refl _,Nat.le_refl _,fun _ _ => rfl,fun _ _ _ => rfl⟩

section

variable {ids : List ExprId} (h : p.Grows q)
include h

theorem typed' {id : ExprId} (ht : p.Typed id τ) : q.Typed id τ := by
  rw [Typed,h.typed id τ ht]
  exact ht

theorem trans (k : q.Grows r) : p.Grows r where
  entities := Nat.le_trans h.entities k.entities
  name id hid := (k.name id (Nat.lt_of_lt_of_le hid h.entities)).trans (h.name id hid)
  kind id hid := (h.kind id hid).trans (k.kind id (Nat.lt_of_lt_of_le hid h.entities))
  scopes := h.scopes.trans k.scopes
  exprs := Nat.le_trans h.exprs k.exprs
  children id hid := (k.children id (Nat.lt_of_lt_of_le hid h.exprs)).trans (h.children id hid)
  typed id τ ht := (k.typed id τ (h.typed' ht)).trans (h.typed id τ ht)

theorem object {d : ObjectDef} (hk : p.entities.kind id = .object d) :
    ∃ e, q.entities.kind id = .object e ∧ d.Grows e :=
  (hk ▸ h.kind id (lt_size_of_kind (by simp [hk]))).of_object

theorem function {d : FunctionDef} (hk : p.entities.kind id = .function d) :
    ∃ e, q.entities.kind id = .function e ∧ d.Grows e :=
  (hk ▸ h.kind id (lt_size_of_kind (by simp [hk]))).of_function

theorem var {m : Bool} (hk : p.entities.kind id = .var τ m) : q.entities.kind id = .var τ m := by
  have hg := h.kind id (lt_size_of_kind (by simp [hk]))
  rw [hk] at hg
  exact hg.of_var

theorem varOf (hv : p.VarOf id τ) : q.VarOf id τ := by
  obtain ⟨m,hk⟩ := hv
  exact ⟨m,h.var hk⟩

theorem good (hg : τ.Good p.entities) : τ.Good q.entities := by
  induction τ with
  | prim => trivial
  | object id =>
    obtain ⟨d,hk,ht⟩ := hg
    obtain ⟨e,hk',hd⟩ := h.object hk
    exact ⟨e,hk',hd.typeParams.trans ht⟩
  | array element ih => exact ih hg
  | never => exact hg

theorem goodExpr {t : TypeExpr} (hg : t.Good p.entities) : t.Good q.entities := by
  induction hg with
  | named => exact .named
  | apply _ ih => exact .apply ih
  | resolved hτ => exact .resolved (h.good hτ)

theorem raw {shape : ExprShape} (hr : shape.Raw p.entities) : shape.Raw q.entities :=
  ⟨hr.intros,fun x hx => h.goodExpr (hr.good x hx),hr.cases,hr.names⟩

private theorem «extends» {x y : EntityId} (he : p.entities.Extends x y) : q.entities.Extends x y := by
  refine Relation.ReflTransGen.mono ?_ x y he
  rintro a b ⟨d,hk,hp⟩
  obtain ⟨e,hk',hd⟩ := h.object hk
  exact ⟨e,hk',hd.parent b hp⟩

theorem chain {l : List EntityId} (hc : Chain p.entities id l) : Chain q.entities id l := by
  induction hc with
  | base hk hd hp =>
    obtain ⟨e,hk',hg⟩ := h.object hk
    obtain ⟨h1,h2,_⟩ := hg.done hd
    exact .base hk' h1 (h2.trans hp)
  | step hk hd hp _ ih =>
    obtain ⟨e,hk',hg⟩ := h.object hk
    obtain ⟨h1,h2,_⟩ := hg.done hd
    exact .step hk' h1 (h2.trans hp) ih

theorem below (hb : p.Below σ τ) : q.Below σ τ := by
  rcases hb with rfl | ⟨x,y,rfl,rfl,he⟩
  · exact .inl rfl
  · exact .inr ⟨x,y,rfl,rfl,h.extends he⟩

theorem fits {id : ExprId} (hf : p.Fits id τ) : q.Fits id τ := by
  obtain ⟨σ,ht,hb⟩ := hf
  exact ⟨σ,h.typed' ht,h.below hb⟩

theorem finished (hτ : τ.Finished p.entities) : τ.Finished q.entities := by
  intro x hx
  obtain ⟨l,hl⟩ := hτ x hx
  exact ⟨l,h.chain hl⟩

/-- What is above a finished type does not change. -/
theorem assignable_iff (hσ : σ.Finished p.entities) : q.entities.Assignable σ τ ↔ p.entities.Assignable σ τ := by
  refine or_congr_right (or_congr_right (exists_congr fun x => exists_congr fun y => and_congr_right fun hx =>
    and_congr_right fun _ => ?_))
  obtain ⟨l,hl⟩ := hσ x hx
  rw [← (h.chain hl).mem_iff,hl.mem_iff]

private theorem isJoin {types : List Ty} (hf : ∀ σ ∈ types, σ.Finished p.entities)
    (hj : p.entities.IsJoin types τ) : q.entities.IsJoin types τ where
  above σ hσ := (h.assignable_iff (hf σ hσ)).mpr (hj.above σ hσ)
  least d hd := by
    rcases hj.least d fun σ hσ => (h.assignable_iff (hf σ hσ)).mp (hd σ hσ) with he | he | ⟨x,y,hx,hy,he⟩
    · exact .inl he
    · exact .inr (.inl he)
    · exact .inr (.inr ⟨x,y,hx,hy,h.extends he⟩)

theorem merges {before : List Ty} (hm : p.Merges before ids τ) : q.Merges before ids τ := by
  obtain ⟨types,ht,hf,hj⟩ := hm
  exact ⟨types,ht.imp fun _ _ => h.typed',fun σ hσ => h.finished (hf σ hσ),h.isJoin hf hj⟩

private theorem seqTyped {last : Ty} (hs : p.SeqTyped last ids τ) : q.SeqTyped last ids τ := by
  induction ids generalizing last with
  | nil => exact hs
  | cons id ids ih =>
    obtain ⟨σ,ht,hs⟩ := hs
    exact ⟨σ,h.typed' ht,ih hs⟩

private theorem callTyped {args : List ExprId} {target : CallTarget} (hc : p.CallTyped args target τ) :
    q.CallTyped args target τ := by
  cases hc with
  | function hk hp hs hr ha =>
    obtain ⟨e,hk',hg⟩ := h.function hk
    obtain ⟨h1,h2,_⟩ := hg.signature hs
    exact .function hk' (hg.typeParams.trans hp) h1 (hg.returnType _ hr) (h2 ▸ ha.imp fun _ _ => h.fits)
  | construct hs ht hk hd hn hf =>
    obtain ⟨e,hk',hg⟩ := h.object hk
    obtain ⟨h1,_,h3⟩ := hg.done hd
    refine .construct (by rw [h.typed _ _ ht]; exact hs) (h.typed' ht) hk' h1 (h3 ▸ hn) fun name value hm => ?_
    obtain ⟨field,hl,hv⟩ := hf name value hm
    exact ⟨field,h3 ▸ hl,h.fits hv⟩
  | field ht hk hd hf =>
    obtain ⟨e,hk',hg⟩ := h.object hk
    obtain ⟨h1,_,h3⟩ := hg.done hd
    exact .field (h.typed' ht) hk' h1 (h3 ▸ hf)

theorem armTyped {arm : Arm} (ha : p.ArmTyped σ τ arm) : q.ArmTyped σ τ arm := by
  cases ha with
  | literal hp hσ hv hf => exact .literal hp hσ (fun v hb => h.varOf (hv v hb)) (h.fits hf)
  | type hp ht hv hf hg => exact .type hp ht (fun v hb => h.varOf (hv v hb)) (h.fits hf) (h.good hg)

private theorem matchTyped {m : Match} (hm : p.MatchTyped m σ τ) : q.MatchTyped m σ τ where
  operand := h.typed' hm.operand
  arms arm ha := h.armTyped (hm.arms arm ha)
  default body hb := h.fits (hm.default body hb)
  defaultBinding v hv := h.varOf (hm.defaultBinding v hv)
  guard := hm.guard
  merges := h.merges hm.merges

theorem nodeTyped {shape : ExprShape} (hn : p.NodeTyped shape τ) : q.NodeTyped shape τ := by
  cases hn with
  | literal l => exact .literal l
  | name hv => exact .name (h.varOf hv)
  | block hs => exact .block (h.seqTyped hs)
  | define hf hv ht => exact .define (h.fits hf) (h.var hv) ht
  | assign hv hf => exact .assign (h.var hv) (h.fits hf)
  | call hc => exact .call (h.callTyped hc)
  | object hn hx => exact .object hn fun x hm => (hx x hm).imp fun _ => h.typed'
  | when ht hy => exact .when (h.fits ht) (h.typed' hy)
  | cond ht hy hn hm => exact .cond (h.fits ht) (h.fits hy) (h.fits hn) (h.merges hm)
  | loop ht hb => exact .loop (h.fits ht) (h.typed' hb)
  | select hm => exact .select (h.matchTyped hm)

end

end Program.Grows

end FormCompiler
