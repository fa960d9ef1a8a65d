import FormCompiler.Proofs.Resolution.Advance
import FormCompiler.Proofs.Resolution.Visibility

/-! What is true of a program at every point of its resolution, and what one action of resolution may
change. The nodes of a body fill an interval of the arena; a body is resolved once, when its function
is no longer pending, and an action touches no nodes but its own and those of pending functions. -/

namespace FormCompiler

variable {a : Arena} {ids : List ExprId}

/-- The expressions lie one behind the other in the arena, each with its parts before it, and fill the
places from `lo` up to and excluding `hi`. -/
inductive Arena.Tiles (a : Arena) : Nat → List ExprId → Nat → Prop
  | nil {lo} : Tiles a lo [] lo
  | cons {lo id ids hi} : Tiles a lo (a.get id).shape.children id.index →
      Tiles a (id.index + 1) ids hi → Tiles a lo (id :: ids) hi

theorem Arena.Tiles.le {lo hi : Nat} (h : a.Tiles lo ids hi) : lo ≤ hi := by
  induction h with
  | nil => exact Nat.le_refl _
  | cons _ _ ihc ihr => omega

/-- A member has its own parts before it. -/
theorem Arena.Tiles.mem {lo hi : Nat} (h : a.Tiles lo ids hi) {id : ExprId} (hid : id ∈ ids) :
    ∃ x, lo ≤ x ∧ id.index < hi ∧ a.Tiles x (a.get id).shape.children id.index := by
  induction h with
  | nil => cases hid
  | cons hc hn _ ih =>
    rcases List.mem_cons.mp hid with rfl | hid
    · exact ⟨_,Nat.le_refl _,hn.le,hc⟩
    · obtain ⟨x,hx,hlt,hcx⟩ := ih hid
      exact ⟨x,Nat.le_trans (Nat.le_succ_of_le hc.le) hx,hlt,hcx⟩

theorem Arena.Tiles.split {lo hi : Nat} {first second : List ExprId} (h : a.Tiles lo (first ++ second) hi) :
    ∃ mid, a.Tiles lo first mid ∧ a.Tiles mid second hi := by
  induction first generalizing lo with
  | nil => exact ⟨lo,.nil,h⟩
  | cons id first ih =>
    cases h with
    | cons hc hr =>
      obtain ⟨mid,h1,h2⟩ := ih hr
      exact ⟨mid,.cons hc h1,h2⟩

/-- Only the parts of the nodes in the interval matter. -/
theorem Arena.Tiles.of_children {b : Arena} {lo hi : Nat} (h : a.Tiles lo ids hi)
    (hc : ∀ id, lo ≤ id.index → id.index < hi →
      (b.get id).shape.children = (a.get id).shape.children) : b.Tiles lo ids hi := by
  induction h with
  | nil => exact .nil
  | @cons lo id ids hi h1 h2 ih1 ih2 =>
    have hlo : lo ≤ id.index := h1.le
    have hhi : id.index + 1 ≤ hi := h2.le
    refine .cons ?_ (ih2 fun j hj => hc j (by omega))
    rw [hc id hlo (by omega)]
    exact ih1 fun j h1 h2 => hc j h1 (by omega)

theorem Arena.Tiles.append {lo mid hi : Nat} {first second : List ExprId} (h : a.Tiles lo first mid)
    (k : a.Tiles mid second hi) : a.Tiles lo (first ++ second) hi := by
  induction h with
  | nil => exact k
  | cons h1 _ _ ih => exact .cons h1 (ih k)

/-- A finished object that was declared with the given fields. -/
structure ObjectDef.Declares (d : ObjectDef) (scope : ScopeId) (fieldExprs : List (String × TypeExpr)) : Prop where
  scope : d.scope = scope
  typeParams : d.typeParams = []
  stage : d.stage = .done
  fieldExprs : d.fieldExprs = fieldExprs

namespace FunctionDef

/-- The node belongs to the body. -/
def Covers (d : FunctionDef) (id : ExprId) : Prop :=
  ∃ first root, d.body = .expr first root ∧ first.index ≤ id.index ∧ id.index ≤ root.index

structure InstanceOf (d : FunctionDef) (args : List Ty) (e : FunctionDef) : Prop where
  scope : e.scope = d.scope
  typeParams : e.typeParams = []
  signature : e.signature = .done
  params : e.params.map (·.declared) = d.params.map fun param => param.declared.substitute (d.typeParams.zip args)

end FunctionDef

namespace Intrinsic

/-- Parameters and result of the array operations, in terms of the element type `T`. -/
def arraySignature? : Intrinsic → Option (List TypeExpr × TypeExpr)
  | newArray => some ([.resolved .i32], .apply "FixedArray" [.named "T" .builtin] .builtin)
  | arrayGet => some ([.apply "FixedArray" [.named "T" .builtin] .builtin,.resolved .i32],
      .named "T" .builtin)
  | arraySet => some ([.apply "FixedArray" [.named "T" .builtin] .builtin,.resolved .i32,
      .named "T" .builtin], .resolved .void)
  | arrayLen => some ([.apply "FixedArray" [.named "T" .builtin] .builtin], .resolved .i32)
  | _ => none

/-- How the functions that stand for provided operations are declared. -/
inductive Declares (d : FunctionDef) : Intrinsic → Prop
  | binary {operator operand type} : operator ∈ Operator.all → operand ∈ operator.operands →
      operand.numType? = some type → d.typeParams = [] →
      d.params.map (·.declared) = [.resolved (.prim operand),.resolved (.prim operand)] →
      d.returnExpr = some (.resolved (.prim (operator.result operand))) →
      Declares d (.binary operator.op type)
  | not : d.typeParams = [] → d.params.map (·.declared) = [.resolved .bool] →
      d.returnExpr = some (.resolved .bool) → Declares d .not
  | arrayTemplate {op params result} : op.arraySignature? = some (params, result) →
      d.scope = ScopeTable.root → d.typeParams = ["T"] → d.params.map (·.declared) = params →
      d.returnExpr = some result → Declares d op
  | arrayInstance {op params result element} : op.arraySignature? = some (params, result) →
      d.scope = ScopeTable.root → d.typeParams = [] → d.appliedArgs = [element] →
      d.params.map (·.declared) = params.map (·.substitute [("T", element)]) →
      d.returnExpr = some (result.substitute [("T", element)]) → Declares d op

end Intrinsic

namespace Program

variable (p : Program) {id : EntityId}

/-- The parameters and the declared result of a function mean what is noted of them. -/
structure SignatureOk (d : FunctionDef) : Prop where
  types : p.meanings? d.scope (d.params.map (·.declared)) = some d.paramTypes
  vars : d.hasBody = true → List.Forall₂ p.VarOf d.paramVars d.paramTypes
  result : ∀ t, d.returnExpr = some t → ∃ τ, d.returnType = some τ ∧ p.meaning? d.scope t = some τ

structure BodyOk (d : FunctionDef) (first root : ExprId) : Prop where
  lt_size : root.index < p.exprs.size
  tiles : p.exprs.Tiles first.index (p.exprs.get root).shape.children root.index
  pending : d.bodyStage = .pending → ∀ id, d.Covers id →
    (p.exprs.get id).type = none ∧ (p.exprs.get id).shape.Raw p.entities
  done : d.bodyStage = .done → ∃ τ ρ, p.Typed root τ ∧ d.returnType = some ρ ∧ (ρ = .void ∨ p.Below τ ρ)
  lexical : d.bodyStage = .done → (∀ v ∈ d.paramVars, v.index < p.entities.size) ∧
    p.Nested (fun _ => none) d.paramVars [root]

structure FunctionOk (d : FunctionDef) : Prop where
  scope : p.scopes.Static d.scope
  params : ∀ param ∈ d.params, param.declared.Good p.entities
  returnExpr : ∀ t, d.returnExpr = some t → t.Good p.entities
  generic : d.typeParams ≠ [] → d.signature ≠ .done
  unsigned : d.signature ≠ .done → d.returnType = none ∧ d.paramVars = [] ∧ d.bodyStage = .pending
  signed : d.signature = .done → p.SignatureOk d
  returnType : ∀ τ, d.returnType = some τ → τ.Good p.entities
  body : ∀ first root, d.body = .expr first root → p.BodyOk d first root
  intrinsic : ∀ op, d.body = .intrinsic op → op.Declares d
  instances : ∀ args id, d.instances.lookup args = some id → ∃ e, p.entities.kind id = .function e ∧ d.InstanceOf args e

structure ObjectOk (id : EntityId) (d : ObjectDef) : Prop where
  scope : p.scopes.Static d.scope
  declared : d.stage = .done → ∀ x ∈ d.fieldExprs, ∃ τ, p.meaning? d.scope x.2 = some τ ∧ ⟨x.1,τ⟩ ∈ d.fields
  parentExpr : ∀ t, d.parentExpr = some t → t.Good p.entities
  fieldExprs : ∀ field ∈ d.fieldExprs, field.2.Good p.entities
  appliedArgs : ∀ τ ∈ d.appliedArgs, τ.Good p.entities
  pending : d.stage = .pending → d.parent = none
  unfinished : d.stage ≠ .done → d.fields = []
  plain : d.stage = .done → d.typeParams = []
  names : (d.fields.map (·.name)).Nodup
  fields : ∀ field ∈ d.fields, field.type.Good p.entities ∧ field.type.hasValue = true
  base : d.stage = .done → d.parent = none → id = objectId
  inherited : ∀ above, d.stage = .done → d.parent = some above →
    ∃ e, p.entities.kind above = .object e ∧ e.stage = .done ∧ e.fields <+: d.fields
  instances : ∀ args i, d.instances.lookup args = some i → d.isGeneric = true ∧ d.typeParams.length = args.length ∧
    ∃ e, p.entities.kind i = .object e ∧
      e.Declares d.scope (d.fieldExprs.map fun (name, t) => (name, t.substitute (d.typeParams.zip args)))

structure AliasOk (d : AliasDef) : Prop where
  target : d.target.Good p.entities
  resolved : ∀ τ, d.stage = .done → d.resolved = some τ → τ.Good p.entities

def EntityOk (id : EntityId) : EntityKind → Prop
  | .object d => p.ObjectOk id d
  | .function d => p.FunctionOk d
  | .var τ _ => τ.Good p.entities
  | .typeAlias d => p.AliasOk d
  | _ => True

/-- Each variable is brought into being at one place. -/
structure VarsOk : Prop where
  intro_lt : ∀ n, ∀ v ∈ (p.exprs.get n).shape.intros, v.index < p.entities.size
  intro_nodup : ∀ n, (p.exprs.get n).shape.intros.Nodup
  intro_unique : ∀ n m v, v ∈ (p.exprs.get n).shape.intros → v ∈ (p.exprs.get m).shape.intros → n = m
  param_lt : ∀ f d, p.entities.kind f = .function d → ∀ v ∈ d.paramVars, v.index < p.entities.size
  param_nodup : ∀ f d, p.entities.kind f = .function d → d.paramVars.Nodup
  param_intro : ∀ f d, p.entities.kind f = .function d → ∀ v ∈ d.paramVars, ∀ n, v ∉ (p.exprs.get n).shape.intros

structure Inv : Prop where
  scopes : p.scopes.WellFormed p.entities
  entities : ∀ id, p.EntityOk id (p.entities.kind id)
  base : ∃ d, p.entities.kind objectId = .object d ∧ d.stage = .done ∧ d.typeParams = []
  founded : p.entities.Founded
  memo : p.ancestry.Exact p.entities
  nodes : ∀ id τ, p.Typed id τ → p.NodeTyped (p.exprs.get id).shape τ ∧ τ.Good p.entities
  bodies : ∀ f g d e n, p.entities.kind f = .function d → p.entities.kind g = .function e →
    d.Covers n → e.Covers n → f = g
  vars : p.VarsOk
  orderly : p.Orderly

/-- Every object has its layout, generic ones apart. -/
def Formed : Prop := ∀ id d, p.entities.kind id = .object d → d.typeParams = [] → d.stage = .done

/-- A node that is in no body that waits to be resolved. -/
def Loose (id : ExprId) : Prop :=
  id.index < p.exprs.size ∧ ∀ f d, p.entities.kind f = .function d → d.bodyStage = .pending → ¬ d.Covers id

/-- What an action of resolution may change: of the nodes in bodies that are under way, only those from
`lo` up to and excluding `hi`. -/
structure Step (lo hi : Nat) (q : Program) : Prop where
  grows : p.Grows q
  frame : ∀ id, p.Loose id → id.index < lo ∨ hi ≤ id.index → q.exprs.get id = p.exprs.get id
  asleep : ∀ f e, q.entities.kind f = .function e → e.bodyStage = .pending →
    (∃ d, p.entities.kind f = .function d ∧ d.bodyStage = .pending ∧
      ∀ id, e.Covers id → q.exprs.get id = p.exprs.get id) ∨
    ∀ id, e.Covers id → p.exprs.size ≤ id.index
  formed : p.Formed → q.Formed
  intros : ∀ n, ∀ v ∈ (q.exprs.get n).shape.intros, v ∈ (p.exprs.get n).shape.intros ∨ p.entities.size ≤ v.index
  params : ∀ f e, q.entities.kind f = .function e → ∀ v ∈ e.paramVars,
    (∃ d, p.entities.kind f = .function d ∧ v ∈ d.paramVars) ∨ p.entities.size ≤ v.index

/-- A variable that no node and no parameter has brought into being. -/
def Spare (v : EntityId) : Prop :=
  v.index < p.entities.size ∧ (∀ n, v ∉ (p.exprs.get n).shape.intros) ∧
    ∀ f d, p.entities.kind f = .function d → v ∉ d.paramVars

variable {p} {q r : Program} {lo hi : Nat}

namespace Grows

variable {d : FunctionDef}

section

variable (h : p.Grows q)
include h

theorem kind_function {f : EntityId} {e : FunctionDef}
    (hf : f.index < p.entities.size) (hk : q.entities.kind f = .function e) :
    ∃ d, p.entities.kind f = .function d ∧ d.Grows e := by
  have hg := h.kind f hf
  rw [hk] at hg
  exact hg.to_function

theorem tiles (ht : p.exprs.Tiles lo ids hi) (hs : lo < hi → hi ≤ p.exprs.size) : q.exprs.Tiles lo ids hi :=
  ht.of_children fun id h1 h2 => h.children id (Nat.lt_of_lt_of_le h2 (hs (by omega)))

theorem signatureOk (hw : p.scopes.WellFormed p.entities) (hs : p.scopes.Static d.scope)
    (ho : p.SignatureOk d) : q.SignatureOk d where
  types := h.meanings? hw hs ho.types
  vars hb := (ho.vars hb).imp fun _ _ => h.varOf
  result t ht := by
    obtain ⟨τ,hr,hm⟩ := ho.result t ht
    exact ⟨τ,hr,h.meaning? hw hs hm⟩

theorem bodyOk {first root : ExprId} (ha : d.bodyStage = .pending → ∀ id, d.Covers id → q.exprs.get id = p.exprs.get id)
    (ho : p.BodyOk d first root) : q.BodyOk d first root where
  lt_size := Nat.lt_of_lt_of_le ho.lt_size h.exprs
  tiles := by
    rw [h.children root ho.lt_size]
    exact h.tiles ho.tiles fun _ => Nat.le_of_lt ho.lt_size
  pending hp id hc := by
    rw [ha hp id hc]
    exact ⟨(ho.pending hp id hc).1,h.raw (ho.pending hp id hc).2⟩
  done hd := by
    obtain ⟨τ,ρ,ht,hr,hb⟩ := ho.done hd
    exact ⟨τ,ρ,h.typed' ht,hr,hb.imp id h.below⟩
  lexical hd := ⟨fun v hv => Nat.lt_of_lt_of_le ((ho.lexical hd).1 v hv) h.entities,
    h.nested (ho.lexical hd).1 (ho.lexical hd).2⟩

theorem functionOk (hw : p.scopes.WellFormed p.entities)
    (ha : d.bodyStage = .pending → ∀ id, d.Covers id → q.exprs.get id = p.exprs.get id) (ho : p.FunctionOk d) :
    q.FunctionOk d where
  scope := ho.scope.grows h.scopes
  params x hx := h.goodExpr (ho.params x hx)
  returnExpr t ht := h.goodExpr (ho.returnExpr t ht)
  generic := ho.generic
  unsigned := ho.unsigned
  signed hs := h.signatureOk hw ho.scope (ho.signed hs)
  returnType τ hτ := h.good (ho.returnType τ hτ)
  body first root hb := h.bodyOk ha (ho.body first root hb)
  intrinsic := ho.intrinsic
  instances args id hl := by
    obtain ⟨e,hk,hi⟩ := ho.instances args id hl
    obtain ⟨e',hk',hg⟩ := h.function hk
    exact ⟨e',hk',hg.scope.trans hi.scope,hg.typeParams.trans hi.typeParams,
      (hg.signature hi.signature).1,by rw [hg.params,hi.params]⟩

theorem objectOk (hw : p.scopes.WellFormed p.entities) {d : ObjectDef} (ho : p.ObjectOk id d) : q.ObjectOk id d where
  scope := ho.scope.grows h.scopes
  declared hd x hx := by
    obtain ⟨τ,hm,hf⟩ := ho.declared hd x hx
    exact ⟨τ,h.meaning? hw ho.scope hm,hf⟩
  parentExpr t ht := h.goodExpr (ho.parentExpr t ht)
  fieldExprs x hx := h.goodExpr (ho.fieldExprs x hx)
  appliedArgs τ hτ := h.good (ho.appliedArgs τ hτ)
  pending := ho.pending
  unfinished := ho.unfinished
  plain := ho.plain
  names := ho.names
  fields x hx := ⟨h.good (ho.fields x hx).1,(ho.fields x hx).2⟩
  base := ho.base
  inherited above hd hp := by
    obtain ⟨e,hk,he,hf⟩ := ho.inherited above hd hp
    obtain ⟨e',hk',hg⟩ := h.object hk
    obtain ⟨h1,_,h3⟩ := hg.done he
    exact ⟨e',hk',h1,h3 ▸ hf⟩
  instances args i hl := by
    obtain ⟨hd,ha,e,hk,hi⟩ := ho.instances args i hl
    obtain ⟨e',hk',hg⟩ := h.object hk
    exact ⟨hd,ha,e',hk',hg.scope.trans hi.scope,hg.typeParams.trans hi.typeParams,(hg.done hi.stage).1,
      hg.fieldExprs.trans hi.fieldExprs⟩

/-- What is true of an entity stays true as long as the body it waits with is left alone. -/
theorem entityOk (hw : p.scopes.WellFormed p.entities) {k : EntityKind}
    (ha : ∀ d, k = .function d → d.bodyStage = .pending → ∀ n, d.Covers n →
      q.exprs.get n = p.exprs.get n) (ho : p.EntityOk id k) : q.EntityOk id k := by
  cases k with
  | object d => exact h.objectOk hw ho
  | function d => exact h.functionOk hw (ha d rfl) ho
  | var τ m => exact h.good ho
  | typeAlias d =>
    exact ⟨h.goodExpr ho.target,fun τ hd hr => h.good (ho.resolved τ hd hr)⟩
  | _ => trivial

end

end Grows

theorem Inv.objectOk (hI : p.Inv) {d : ObjectDef} (hk : p.entities.kind id = .object d) : p.ObjectOk id d := by
  have ho := hI.entities id
  rwa [hk] at ho

theorem Inv.functionOk (hI : p.Inv) {d : FunctionDef} (hk : p.entities.kind id = .function d) : p.FunctionOk d := by
  have ho := hI.entities id
  rwa [hk] at ho

theorem Inv.aliasOk (hI : p.Inv) {d : AliasDef} (hk : p.entities.kind id = .typeAlias d) : p.AliasOk d := by
  have ho := hI.entities id
  rwa [hk] at ho

/-- The invariant after a change, from what is new. -/
theorem Inv.grow (hI : p.Inv) (h : p.Grows q) (scopes : q.scopes.WellFormed q.entities)
    (asleep : ∀ f d, p.entities.kind f = .function d → q.entities.kind f = .function d →
      d.bodyStage = .pending → ∀ n, d.Covers n → q.exprs.get n = p.exprs.get n)
    (entities : ∀ id, q.entities.kind id = p.entities.kind id ∨ q.EntityOk id (q.entities.kind id))
    (founded : ∀ id d above, q.entities.kind id = .object d → d.parent = some above →
      q.entities.kind id = p.entities.kind id ∨ ∃ l, EntityTable.Chain p.entities above l)
    (memo : q.ancestry = p.ancestry ∨ q.ancestry.Exact q.entities)
    (nodes : ∀ id τ, q.Typed id τ → p.Typed id τ ∨ q.NodeTyped (q.exprs.get id).shape τ ∧ τ.Good q.entities)
    (bodies : ∀ f g d e n, q.entities.kind f = .function d → q.entities.kind g = .function e →
      d.Covers n → e.Covers n → f = g)
    (vars : q.VarsOk) (orderly : q.Orderly) : q.Inv where
  scopes := scopes
  entities id := by
    rcases entities id with he | he
    · rw [he]
      refine h.entityOk hI.scopes (fun d hk hp => ?_) (hI.entities id)
      exact asleep id d hk (he.trans hk) hp
    · exact he
  base := by
    obtain ⟨d,hk,hd,ht⟩ := hI.base
    obtain ⟨e,hk',hg⟩ := h.object hk
    exact ⟨e,hk',(hg.done hd).1,hg.typeParams.trans ht⟩
  founded id d above hk hp := by
    rcases founded id d above hk hp with he | ⟨l,hl⟩
    · obtain ⟨l,hl⟩ := hI.founded id d above (he.symm.trans hk) hp
      exact ⟨l,h.chain hl⟩
    · exact ⟨l,h.chain hl⟩
  memo := by
    rcases memo with he | he
    · intro id l hl
      exact h.chain (hI.memo id l (he ▸ hl))
    · exact he
  nodes id τ ht := by
    rcases nodes id τ ht with hp | hn
    · rw [h.typed id τ hp]
      exact ⟨h.nodeTyped (hI.nodes id τ hp).1,h.good (hI.nodes id τ hp).2⟩
    · exact hn
  bodies := bodies
  vars := vars
  orderly := orderly

namespace Step

theorem refl (lo hi : Nat) (p : Program) : p.Step lo hi p where
  grows := .refl p
  frame _ _ _ := rfl
  asleep _ e hk hp := .inl ⟨e,hk,hp,fun _ _ => rfl⟩
  formed h := h
  intros _ _ hv := .inl hv
  params _ e hk _ hv := .inl ⟨e,hk,hv⟩

theorem mono {lo' hi' : Nat} (h : p.Step lo hi q)
    (hs : ∀ n, lo ≤ n → n < hi → lo' ≤ n ∧ n < hi') : p.Step lo' hi' q where
  __ := h
  frame id hl ho := h.frame id hl (by have := hs id.index; omega)

/-- An action that touches no node under way. -/
theorem any (h : p.Step 0 0 q) (lo hi : Nat) : p.Step lo hi q := h.mono (by omega)

theorem loose (h : p.Step lo hi q) {id : ExprId} (hl : p.Loose id) : q.Loose id := by
  refine ⟨Nat.lt_of_lt_of_le hl.1 h.grows.exprs,fun f e hk hp hc => ?_⟩
  rcases h.asleep f e hk hp with ⟨d,hk',hp',_⟩ | hn
  · obtain ⟨e',hk'',hg⟩ := h.grows.function hk'
    cases hk.symm.trans hk''
    obtain ⟨first,root,hb,hc⟩ := hc
    exact hl.2 f d hk' hp' ⟨first,root,hg.body ▸ hb,hc⟩
  · exact absurd hl.1 (Nat.not_lt.mpr (hn id hc))

theorem trans (h : p.Step lo hi q) (k : q.Step lo hi r) : p.Step lo hi r where
  grows := h.grows.trans k.grows
  frame id hl ho := (k.frame id (h.loose hl) ho).trans (h.frame id hl ho)
  asleep f e hk hp := by
    rcases k.asleep f e hk hp with ⟨d,hk',hp',hn⟩ | hn
    · obtain ⟨e',he',hg⟩ := k.grows.function hk'
      cases hk.symm.trans he'
      have hc : ∀ id, e.Covers id → d.Covers id := by
        rintro id ⟨first,root,hb,hc⟩
        exact ⟨first,root,hg.body ▸ hb,hc⟩
      rcases h.asleep f d hk' hp' with ⟨c,hk'',hp'',hn'⟩ | hn'
      · exact .inl ⟨c,hk'',hp'',fun id he => (hn id he).trans (hn' id (hc id he))⟩
      · exact .inr fun id he => hn' id (hc id he)
    · exact .inr fun id he => Nat.le_trans h.grows.exprs (hn id he)
  formed hp := k.formed (h.formed hp)
  intros n v hv := by
    rcases k.intros n v hv with hv | hv
    · exact h.intros n v hv
    · exact .inr (Nat.le_trans h.grows.entities hv)
  params f e hk v hv := by
    rcases k.params f e hk v hv with ⟨d,hk',hv'⟩ | hv
    · exact h.params f d hk' v hv'
    · exact .inr (Nat.le_trans h.grows.entities hv)

theorem spare (h : p.Step lo hi q) {v : EntityId} (hv : p.Spare v) : q.Spare v := by
  refine ⟨Nat.lt_of_lt_of_le hv.1 h.grows.entities,fun n hn => ?_,fun f e hk he => ?_⟩
  · rcases h.intros n v hn with hn | hn
    · exact hv.2.1 n hn
    · exact absurd hv.1 (by omega)
  · rcases h.params f e hk v he with ⟨d,hk',hd⟩ | hd
    · exact hv.2.2 f d hk' hd
    · exact absurd hv.1 (by omega)

end Step

/-- An action that keeps the invariant. -/
structure Moves (p : Program) (lo hi : Nat) (q : Program) : Prop where
  inv : q.Inv
  step : p.Step lo hi q

namespace Moves

theorem refl (hI : p.Inv) : p.Moves lo hi p := ⟨hI,.refl lo hi p⟩

theorem mono {lo' hi' : Nat} (h : p.Moves lo hi q)
    (hs : ∀ n, lo ≤ n → n < hi → lo' ≤ n ∧ n < hi') : p.Moves lo' hi' q := ⟨h.inv,h.step.mono hs⟩

theorem any (h : p.Moves 0 0 q) : p.Moves lo hi q := ⟨h.inv,h.step.any lo hi⟩

theorem trans (h : p.Moves lo hi q) (k : q.Moves lo hi r) : p.Moves lo hi r :=
  ⟨k.inv,h.step.trans k.step⟩

theorem grows (h : p.Moves lo hi q) : p.Grows q := h.step.grows

end Moves

/-- An action on types alone: no node and no function changes. -/
structure Calm (p q : Program) : Prop where
  inv : q.Inv
  grows : p.Grows q
  exprs : q.exprs = p.exprs
  functions : ∀ f d, q.entities.kind f = .function d ↔ p.entities.kind f = .function d
  formed : p.Formed → q.Formed

namespace Calm

theorem refl (hI : p.Inv) : p.Calm p := ⟨hI,.refl p,rfl,fun _ _ => Iff.rfl,fun h => h⟩

theorem trans (h : p.Calm q) (k : q.Calm r) : p.Calm r :=
  ⟨k.inv,h.grows.trans k.grows,k.exprs.trans h.exprs,fun f d => (k.functions f d).trans (h.functions f d),
    fun hp => k.formed (h.formed hp)⟩

theorem step (h : p.Calm q) : p.Step 0 0 q where
  grows := h.grows
  frame _ _ _ := by rw [h.exprs]
  asleep f e hk hp := .inl ⟨e,(h.functions f e).mp hk,hp,fun _ _ => by rw [h.exprs]⟩
  formed := h.formed
  intros n v hv := .inl (h.exprs ▸ hv)
  params f e hk v hv := .inl ⟨e,(h.functions f e).mp hk,hv⟩

theorem moves (h : p.Calm q) : p.Moves lo hi q := ⟨h.inv,h.step.any lo hi⟩

end Calm

end Program

end FormCompiler
