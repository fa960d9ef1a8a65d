import FormCompiler.Proofs.Resolution.Judgement
import FormCompiler.Proofs.Resolution.Outcome

/-! What resolution can do to a program, refused or not. Definitions only move forward: what was started is finished
by whoever started it, and what is finished stays as it is. This needs no well typed program, so it also holds of
the program that a refusal leaves behind. -/

namespace FormCompiler

open EntityTable EntityKind

variable {generic : EntityId} {args : List Ty} {d : FunctionDef} {k : EntityKind}

/-! ### Nodes without their slots -/

def Arm.blank (arm : Arm) : Arm := { arm with binding := none, patternType := none }

namespace ExprShape

def blank : ExprShape → ExprShape
  | name n _ => name n none
  | block body _ => block body none
  | define n declared init mutable _ => define n declared init mutable none
  | assign n value _ => assign n value none
  | call n args typeArgs _ => call n args typeArgs none
  | select m => select { m with arms := m.arms.map (·.blank), defaultBinding := none }
  | shape => shape

/-- Every slot of the node names what it should: a variable, one that can be assigned, a call's target, a block's
scope, the object type of a pattern. -/
def Filled (t : EntityTable) : ExprShape → Prop
  | name _ binding => ∃ v τ mutable, binding = some v ∧ t.kind v = .var τ mutable
  | block _ scope => scope.isSome = true
  | define _ _ _ mutable entity => ∃ v τ, entity = some v ∧ t.kind v = .var τ mutable
  | assign _ _ target => ∃ v τ, target = some v ∧ t.kind v = .var τ true
  | call _ _ _ target => target.isSome = true
  | select m => ∀ arm ∈ m.arms, arm.pattern.isType = true → ∃ object, arm.patternType = some (.object object)
  | _ => True

@[simp] theorem children_blank (shape : ExprShape) : shape.blank.children = shape.children := by
  cases shape with
  | select m => simp [blank,children,Function.comp_def,Arm.blank]
  | _ => rfl

@[simp] theorem typeExprs_blank (shape : ExprShape) : shape.blank.typeExprs = shape.typeExprs := by
  cases shape with
  | select m => simp [blank,typeExprs,Arm.blank]
  | _ => rfl

end ExprShape

/-! ### Definitions -/

/-- Two stages of one definition: what is written in it is the same, and instances are only added. -/
structure ObjectDef.Like (d e : ObjectDef) : Prop where
  scope : e.scope = d.scope
  typeParams : e.typeParams = d.typeParams
  appliedArgs : e.appliedArgs = d.appliedArgs
  genericOf : e.genericOf = d.genericOf
  parentExpr : e.parentExpr = d.parentExpr
  instances : d.instances <+: e.instances

@[inherit_doc ObjectDef.Like]
structure FunctionDef.Like (d e : FunctionDef) : Prop where
  typeParams : e.typeParams = d.typeParams
  appliedArgs : e.appliedArgs = d.appliedArgs
  genericOf : e.genericOf = d.genericOf
  instances : d.instances <+: e.instances

/-- What was found out about an object stays, from the time it is started. -/
def ObjectDef.Fixed (d e : ObjectDef) : Prop :=
  d.stage ≠ .pending → e.stage = d.stage ∧ e.parent = d.parent ∧ e.fields = d.fields

/-- What was found out about a function stays: its signature, its return type, and the stage of its body from the
time it is started. -/
structure FunctionDef.Fixed (d e : FunctionDef) : Prop where
  signature : d.signature = .done → e.signature = .done ∧ e.paramTypes = d.paramTypes ∧ e.paramVars = d.paramVars
  body : d.bodyStage ≠ .pending → e.bodyStage = d.bodyStage ∧ e.returnType = d.returnType

/-- What was found out about an alias stays, from the time it is started. -/
def AliasDef.Fixed (d e : AliasDef) : Prop :=
  d.stage ≠ .pending → e.stage = d.stage ∧ e.resolved = d.resolved

namespace EntityKind

variable {a b c : EntityKind}

def instances : EntityKind → Instances
  | object d => d.instances
  | function d => d.instances
  | _ => []

/-- How far the work on a definition is. On other entities there is none to do. -/
def stage : EntityKind → Stage
  | object d => d.stage
  | function d => d.bodyStage
  | typeAlias d => d.stage
  | _ => .done

/-- The type arguments of the instances of a definition. -/
def keys (k : EntityKind) : List (List Ty) := k.instances.map (·.1)

def IsInstance (generic : EntityId) (args : List Ty) : EntityKind → Prop
  | object d => d.genericOf = some generic ∧ d.appliedArgs = args
  | function d => d.genericOf = some generic ∧ d.appliedArgs = args
  | _ => False

inductive Like : EntityKind → EntityKind → Prop
  | same (k : EntityKind) : Like k k
  | object {d e : ObjectDef} : d.Like e → Like (.object d) (.object e)
  | function {d e : FunctionDef} : d.Like e → Like (.function d) (.function e)
  | typeAlias (d e : AliasDef) : Like (.typeAlias d) (.typeAlias e)

def Fixed : EntityKind → EntityKind → Prop
  | object d, object e => d.Fixed e
  | function d, function e => d.Fixed e
  | typeAlias d, typeAlias e => d.Fixed e
  | _, _ => True

/-- An entity by itself: no two instances have the same arguments, a function without a signature has no result and
no body, and an alias that is done has a type. -/
structure Sane (k : EntityKind) : Prop where
  keys : k.keys.Nodup
  unsigned : ∀ d, k = .function d → d.signature ≠ .done → d.returnType = none ∧ d.bodyStage = .pending
  named : ∀ d, k = .typeAlias d → d.stage = .done → d.resolved.isSome = true

namespace Like

theorem trans (h : a.Like b) (k : b.Like c) : a.Like c := by
  cases h with
  | same => exact k
  | object h =>
    cases k with
    | same => exact .object h
    | object k =>
      exact .object ⟨k.scope.trans h.scope,k.typeParams.trans h.typeParams,k.appliedArgs.trans h.appliedArgs,
        k.genericOf.trans h.genericOf,k.parentExpr.trans h.parentExpr,h.instances.trans k.instances⟩
  | function h =>
    cases k with
    | same => exact .function h
    | function k =>
      exact .function ⟨k.typeParams.trans h.typeParams,k.appliedArgs.trans h.appliedArgs,
        k.genericOf.trans h.genericOf,h.instances.trans k.instances⟩
  | typeAlias =>
    cases k with
    | same => exact .typeAlias ..
    | typeAlias => exact .typeAlias ..

private theorem of_object {d : ObjectDef} (h : Like (.object d) b) : ∃ e, b = .object e ∧ d.Like e := by
  cases h with
  | same => exact ⟨d,rfl,rfl,rfl,rfl,rfl,rfl,List.prefix_rfl⟩
  | object h => exact ⟨_,rfl,h⟩

theorem to_object {e : ObjectDef} (h : Like a (.object e)) : ∃ d, a = .object d ∧ d.Like e := by
  cases h with
  | same => exact ⟨e,rfl,rfl,rfl,rfl,rfl,rfl,List.prefix_rfl⟩
  | object h => exact ⟨_,rfl,h⟩

theorem of_function (h : Like (.function d) b) : ∃ e, b = .function e ∧ d.Like e := by
  cases h with
  | same => exact ⟨d,rfl,rfl,rfl,rfl,List.prefix_rfl⟩
  | function h => exact ⟨_,rfl,h⟩

theorem to_function {e : FunctionDef} (h : Like a (.function e)) : ∃ d, a = .function d := by
  cases h <;> exact ⟨_,rfl⟩

private theorem of_typeAlias {d : AliasDef} (h : Like (.typeAlias d) b) : ∃ e, b = .typeAlias e := by
  cases h with
  | same => exact ⟨d,rfl⟩
  | typeAlias => exact ⟨_,rfl⟩

theorem instances (h : a.Like b) : a.instances <+: b.instances := by
  cases h with
  | same => exact List.prefix_rfl
  | object h => exact h.instances
  | function h => exact h.instances
  | typeAlias => exact List.prefix_rfl

private theorem isInstance (h : a.Like b) (hi : a.IsInstance generic args) : b.IsInstance generic args := by
  cases h with
  | same => exact hi
  | object h | function h => exact ⟨h.genericOf.trans hi.1,h.appliedArgs.trans hi.2⟩
  | typeAlias => exact hi

end Like

namespace Fixed

/-- Of what nobody works on yet, nothing was found out. -/
theorem of_pending (h : a.stage = .pending) (hf : ∀ d, a ≠ .function d) : a.Fixed b := by
  cases a <;> cases b <;> first | trivial | exact fun hn => absurd h hn | exact absurd rfl (hf _)

theorem refl (a : EntityKind) : a.Fixed a := by
  cases a with
  | object d => exact fun _ => ⟨rfl,rfl,rfl⟩
  | function d => exact ⟨fun h => ⟨h,rfl,rfl⟩,fun _ => ⟨rfl,rfl⟩⟩
  | typeAlias d => exact fun _ => ⟨rfl,rfl⟩
  | _ => trivial

theorem trans (hl : a.Like b) (hl' : b.Like c) (h : a.Fixed b) (k : b.Fixed c) : a.Fixed c := by
  cases hl with
  | same => exact k
  | object _ =>
    cases hl' with
    | same => exact h
    | object _ =>
      intro hs
      obtain ⟨h1,h2,h3⟩ := h hs
      obtain ⟨k1,k2,k3⟩ := k (h1.symm ▸ hs)
      exact ⟨k1.trans h1,k2.trans h2,k3.trans h3⟩
  | function _ =>
    cases hl' with
    | same => exact h
    | function _ =>
      refine ⟨fun hs => ?_,fun hs => ?_⟩
      · obtain ⟨h1,h2,h3⟩ := h.signature hs
        obtain ⟨k1,k2,k3⟩ := k.signature h1
        exact ⟨k1,k2.trans h2,k3.trans h3⟩
      · obtain ⟨h1,h2⟩ := h.body hs
        obtain ⟨k1,k2⟩ := k.body (h1.symm ▸ hs)
        exact ⟨k1.trans h1,k2.trans h2⟩
  | typeAlias =>
    cases hl' with
    | same => exact h
    | typeAlias =>
      intro hs
      obtain ⟨h1,h2⟩ := h hs
      obtain ⟨k1,k2⟩ := k (h1.symm ▸ hs)
      exact ⟨k1.trans h1,k2.trans h2⟩

end Fixed

/-- Definitions without instances and without anything found out yet. -/
theorem Sane.of_new (hi : k.instances = []) (hf : ∀ d, k = .function d → d.returnType = none ∧ d.bodyStage = .pending)
    (ha : ∀ d, k = .typeAlias d → d.stage ≠ .done) : k.Sane where
  keys := by simp [EntityKind.keys,hi]
  unsigned d hk _ := hf d hk
  named d hk hd := absurd hd (ha d hk)

end EntityKind

namespace Program

/-! ### What may change -/

/-- What an action of resolution may change, refused or not. The definition `x`, if there is one, is being worked
on. Instances that are being made are made by nobody else. -/
structure Advances (p : Program) (x : Option EntityId) (q : Program) : Prop where
  entities : p.entities.size ≤ q.entities.size
  like : ∀ id, id.index < p.entities.size → (p.entities.kind id).Like (q.entities.kind id)
  fixed : ∀ id, id.index < p.entities.size → some id ≠ x → (p.entities.kind id).Fixed (q.entities.kind id)
  exprs : p.exprs.size ≤ q.exprs.size
  shape : ∀ id, id.index < p.exprs.size → (q.exprs.get id).shape.blank = (p.exprs.get id).shape.blank
  instantiating : q.instantiating = p.instantiating
  depth : q.instanceDepth = p.instanceDepth
  locked : ∀ generic args, generic.index < p.entities.size → (generic, args) ∈ p.instantiating →
    args ∉ (p.entities.kind generic).keys → args ∉ (q.entities.kind generic).keys

/-- An action that is not refused leaves nothing unfinished that was not there before. -/
def Settles (p : Program) (x : Option EntityId) (q : Program) : Prop :=
  ∀ id, some id ≠ x → (q.entities.kind id).stage ≠ .done → (p.entities.kind id).stage = (q.entities.kind id).stage

/-- What holds of a program whatever was done to it: definitions are sane, and instances are kept under their
arguments. -/
structure Orderly (p : Program) : Prop where
  sane : ∀ id, (p.entities.kind id).Sane
  kept : ∀ generic args id, (args, id) ∈ (p.entities.kind generic).instances →
    (p.entities.kind id).IsInstance generic args

variable {p q r : Program} {x : Option EntityId} {id : EntityId}

theorem lt_size_of_stage {t : EntityTable} {i : EntityId} (h : (t.kind i).stage ≠ .done) : i.index < t.size :=
  lt_size_of_kind fun hk => by simp [hk,stage] at h

namespace Advances

theorem refl (x : Option EntityId) (p : Program) : p.Advances x p where
  entities := Nat.le_refl _
  like _ _ := .same _
  fixed _ _ _ := .refl _
  exprs := Nat.le_refl _
  shape _ _ := rfl
  instantiating := rfl
  depth := rfl
  locked _ _ _ _ h := h

theorem trans (h : p.Advances x q) (k : q.Advances x r) : p.Advances x r where
  entities := Nat.le_trans h.entities k.entities
  like id hid := (h.like id hid).trans (k.like id (Nat.lt_of_lt_of_le hid h.entities))
  fixed id hid hx :=
    have hid' := Nat.lt_of_lt_of_le hid h.entities
    (h.fixed id hid hx).trans (h.like id hid) (k.like id hid') (k.fixed id hid' hx)
  exprs := Nat.le_trans h.exprs k.exprs
  shape id hid := (k.shape id (Nat.lt_of_lt_of_le hid h.exprs)).trans (h.shape id hid)
  instantiating := k.instantiating.trans h.instantiating
  depth := k.depth.trans h.depth
  locked g args hg hi hn :=
    k.locked g args (Nat.lt_of_lt_of_le hg h.entities) (h.instantiating ▸ hi) (h.locked g args hg hi hn)

private theorem except (h : p.Advances none q) (x : Option EntityId) : p.Advances x q where
  __ := h
  fixed id hid _ := h.fixed id hid (by simp)

/-- An action on a definition is over. -/
theorem finish (h : p.Advances (some id) q) (hf : (p.entities.kind id).Fixed (q.entities.kind id)) :
    p.Advances none q where
  __ := h
  fixed j hj _ := by
    by_cases he : j = id
    · exact he ▸ hf
    · exact h.fixed j hj (by simpa using he)

section

variable (h : p.Advances x q)
include h

theorem object {d : ObjectDef} (hk : p.entities.kind id = .object d) : ∃ e, q.entities.kind id = .object e ∧ d.Like e :=
  (hk ▸ h.like id (lt_size_of_kind (by simp [hk]))).of_object

theorem function (hk : p.entities.kind id = .function d) : ∃ e, q.entities.kind id = .function e ∧ d.Like e :=
  (hk ▸ h.like id (lt_size_of_kind (by simp [hk]))).of_function

private theorem typeAlias {d : AliasDef} (hk : p.entities.kind id = .typeAlias d) :
    ∃ e, q.entities.kind id = .typeAlias e :=
  (hk ▸ h.like id (lt_size_of_kind (by simp [hk]))).of_typeAlias

theorem object_fixed (hx : some id ≠ x) {d : ObjectDef} (hk : p.entities.kind id = .object d) :
    ∃ e, q.entities.kind id = .object e ∧ d.Like e ∧ d.Fixed e := by
  obtain ⟨e,hk',hl⟩ := h.object hk
  have hf := h.fixed id (lt_size_of_kind (by simp [hk])) hx
  rw [hk,hk'] at hf
  exact ⟨e,hk',hl,hf⟩

theorem function_fixed (hx : some id ≠ x)
    (hk : p.entities.kind id = .function d) : ∃ e, q.entities.kind id = .function e ∧ d.Fixed e := by
  obtain ⟨e,hk', -⟩ := h.function hk
  have hf := h.fixed id (lt_size_of_kind (by simp [hk])) hx
  rw [hk,hk'] at hf
  exact ⟨e,hk',hf⟩

theorem alias_fixed (hx : some id ≠ x) {d : AliasDef}
    (hk : p.entities.kind id = .typeAlias d) : ∃ e, q.entities.kind id = .typeAlias e ∧ d.Fixed e := by
  obtain ⟨e,hk'⟩ := h.typeAlias hk
  have hf := h.fixed id (lt_size_of_kind (by simp [hk])) hx
  rw [hk,hk'] at hf
  exact ⟨e,hk',hf⟩

theorem isInstance
    (hi : (p.entities.kind id).IsInstance generic args) : (q.entities.kind id).IsInstance generic args := by
  refine (h.like id (lt_size_of_kind fun hk => ?_)).isInstance hi
  rw [hk] at hi
  exact hi

end

end Advances

namespace Settles

theorem refl (x : Option EntityId) (p : Program) : p.Settles x p := fun _ _ _ => rfl

theorem trans (h : p.Settles x q) (k : q.Settles x r) : p.Settles x r := fun id hx hs =>
  have hq := k id hx hs
  (h id hx (hq ▸ hs)).trans hq

private theorem except (h : p.Settles none q) (x : Option EntityId) : p.Settles x q := fun id _ => h id (by simp)

/-- An action on a definition is over, and the definition is finished or as unfinished as before. -/
theorem finish (h : p.Settles (some id) q) (hid : (q.entities.kind id).stage ≠ .done →
    (p.entities.kind id).stage = (q.entities.kind id).stage) : p.Settles none q := by
  intro j _ hs
  by_cases he : j = id
  · subst he
    exact hid hs
  · exact h j (by simpa using he) hs

end Settles

/-- What holds of every program is kept, from what is new. -/
theorem Orderly.advance (hO : p.Orderly) (h : p.Advances x q)
    (sane : ∀ id, q.entities.kind id = p.entities.kind id ∨ (q.entities.kind id).Sane)
    (kept : ∀ generic args id, (args, id) ∈ (q.entities.kind generic).instances →
      (args, id) ∈ (p.entities.kind generic).instances ∨ (q.entities.kind id).IsInstance generic args) :
    q.Orderly where
  sane id := by
    rcases sane id with he | hs
    · exact he ▸ hO.sane id
    · exact hs
  kept generic args id hm := by
    rcases kept generic args id hm with hm | hi
    · exact h.isInstance (hO.kept generic args id hm)
    · exact hi

theorem Orderly.of_entities (hO : p.Orderly) (he : q.entities = p.entities) : q.Orderly :=
  ⟨by rw [he]; exact hO.sane,by rw [he]; exact hO.kept⟩

structure Leaves (p : Program) (x : Option EntityId) (q : Program) : Prop where
  orderly : q.Orderly
  advances : p.Advances x q

structure Reaches (p : Program) (x : Option EntityId) (q : Program) : Prop extends p.Leaves x q where
  settles : p.Settles x q

theorem Leaves.refl (hO : p.Orderly) : p.Leaves x p := ⟨hO,.refl x p⟩

theorem Leaves.trans (h : p.Leaves x q) (k : q.Leaves x r) : p.Leaves x r := ⟨k.orderly,h.advances.trans k.advances⟩

theorem Leaves.except (h : p.Leaves none q) (x : Option EntityId) : p.Leaves x q := ⟨h.orderly,h.advances.except x⟩

theorem Leaves.finish (h : p.Leaves (some id) q) (hf : (p.entities.kind id).Fixed (q.entities.kind id)) :
    p.Leaves none q := ⟨h.orderly,h.advances.finish hf⟩

theorem Reaches.refl (hO : p.Orderly) : p.Reaches x p := ⟨.refl hO,.refl x p⟩

theorem Reaches.trans (h : p.Reaches x q) (k : q.Reaches x r) : p.Reaches x r :=
  ⟨h.toLeaves.trans k.toLeaves,h.settles.trans k.settles⟩

theorem Reaches.except (h : p.Reaches none q) (x : Option EntityId) : p.Reaches x q :=
  ⟨h.toLeaves.except x,h.settles.except x⟩

/-- What is unfinished was there and as unfinished. -/
theorem Reaches.unfinished (h : p.Reaches x q) (id : EntityId) (hx : some id ≠ x)
    (hs : (q.entities.kind id).stage ≠ .done) :
    id.index < p.entities.size ∧ (p.entities.kind id).Like (q.entities.kind id) ∧
      (p.entities.kind id).stage = (q.entities.kind id).stage := by
  have hstage := h.settles id hx hs
  have hid := lt_size_of_stage (hstage.symm ▸ hs)
  exact ⟨hid,h.advances.like id hid,hstage⟩

/-! ### Single changes -/

/-- Changes that leave entities and instantiations alone, and of nodes only fill slots or add new ones. -/
theorem Reaches.of_entities (hO : p.Orderly) (he : q.entities = p.entities) (hs : p.exprs.size ≤ q.exprs.size)
    (hb : ∀ n : ExprId, n.index < p.exprs.size → (q.exprs.get n).shape.blank = (p.exprs.get n).shape.blank)
    (hi : q.instantiating = p.instantiating) (hd : q.instanceDepth = p.instanceDepth) : p.Reaches x q := by
  refine ⟨⟨hO.of_entities he,Nat.le_of_eq (by rw [he]),fun id _ => ?_,fun id _ _ => ?_,hs,hb,hi,hd,
    fun g args _ _ hn => by rw [he]; exact hn⟩,fun id _ _ => by rw [he]⟩
  · rw [he]
    exact .same _
  · rw [he]
    exact .refl _

theorem Reaches.of_tables (hO : p.Orderly) (he : q.entities = p.entities) (hx : q.exprs = p.exprs)
    (hi : q.instantiating = p.instantiating) (hd : q.instanceDepth = p.instanceDepth) : p.Reaches x q :=
  .of_entities hO he (Nat.le_of_eq (by rw [hx])) (fun n _ => by rw [hx]) hi hd

/-- A new entity. -/
theorem Leaves.alloc (hO : p.Orderly) (name : String) (location : Location) (hs : k.Sane)
    (hi : k.instances = []) : p.Leaves x { p with entities := (p.entities.alloc name location k).2 } := by
  have ha : p.Advances x { p with entities := (p.entities.alloc name location k).2 } := by
    refine ⟨by simp,fun id hid => ?_,fun id hid _ => ?_,Nat.le_refl _,fun _ _ => rfl,rfl,rfl,
      fun g args hg _ hn => ?_⟩ <;> simp only [kind_alloc_of_lt ‹_›]
    · exact .same _
    · exact .refl _
    · exact hn
  refine ⟨hO.advance ha (fun id => ?_) fun g args id hm => ?_,ha⟩
  · rcases p.entities.kind_alloc_cases name location k id with he | ⟨_,he⟩
    · exact .inl he
    · exact .inr (by simpa only [he] using hs)
  · rcases p.entities.kind_alloc_cases name location k g with he | ⟨_,he⟩
    · exact .inl (he ▸ hm)
    · simp only [he,hi] at hm
      cases hm

/-- A new variable. -/
theorem Reaches.allocVar (hO : p.Orderly) (name : String) (location : Location) (τ : Ty) (mutable : Bool) :
    p.Reaches x { p with entities := (p.entities.alloc name location (.var τ mutable)).2 } := by
  have hnew : (var τ mutable).Sane := .of_new rfl (by simp) (by simp)
  refine ⟨.alloc hO name location hnew rfl,fun id _ hs => ?_⟩
  rcases p.entities.kind_alloc_cases name location (.var τ mutable) id with he | ⟨_,he⟩
  · simp only [he]
  · simp [he,stage] at hs

/-- A change of the definition that is being worked on. -/
theorem Leaves.modifyKind (hO : p.Orderly) {f : EntityKind → EntityKind}
    (hid : id.index < p.entities.size) (hf : f (p.entities.kind id) = k) (hl : (p.entities.kind id).Like k)
    (hs : k.Sane) (hkept : ∀ args i, (args, i) ∈ k.instances → (args, i) ∈ (p.entities.kind id).instances ∨
      (id, args) ∉ p.instantiating ∧ (p.entities.kind i).IsInstance id args) :
    p.Leaves (some id) { p with entities := p.entities.modifyKind id f } := by
  have self : (p.entities.modifyKind id f).kind id = k := (kind_modifyKind_self hid f).trans hf
  have other : ∀ {j}, j ≠ id → (p.entities.modifyKind id f).kind j = p.entities.kind j :=
    fun hj => kind_modifyKind_ne hj f
  have ha : p.Advances (some id) { p with entities := p.entities.modifyKind id f } := by
    refine ⟨by simp,fun j _ => ?_,fun j _ hx => ?_,Nat.le_refl _,fun _ _ => rfl,rfl,rfl,fun g args _ hi hn => ?_⟩
    · by_cases hj : j = id
      · subst hj
        simp only [self]
        exact hl
      · simp only [other hj]
        exact .same _
    · simp only [other (show j ≠ id by simpa using hx)]
      exact .refl _
    · by_cases hg : g = id
      · subst hg
        simp only [self]
        intro hm
        obtain ⟨⟨args',i⟩,hmem,rfl⟩ := List.mem_map.mp hm
        rcases hkept args' i hmem with hold | ⟨hfree,_⟩
        · exact hn (List.mem_map.mpr ⟨_,hold,rfl⟩)
        · exact hfree hi
      · simp only [other hg]
        exact hn
  refine ⟨hO.advance ha (fun j => ?_) fun g args i hm => ?_,ha⟩
  · by_cases hj : j = id
    · subst hj
      exact .inr (self.symm ▸ hs)
    · exact .inl (other hj)
  · by_cases hg : g = id
    · subst hg
      simp only [self] at hm
      exact (hkept args i hm).imp_right fun h => ha.isInstance h.2
    · simp only [other hg] at hm
      exact .inl hm

theorem Settles.modifyKind (p : Program) (id : EntityId) (f : EntityKind → EntityKind) :
    p.Settles (some id) { p with entities := p.entities.modifyKind id f } := fun j hj _ => by
  simp only [kind_modifyKind_ne (show j ≠ id by simpa using hj)]

theorem Reaches.modifyObject (hO : p.Orderly) {d : ObjectDef} (hk : p.entities.kind id = .object d)
    {f : ObjectDef → ObjectDef} (hl : d.Like (f d) := by exact ⟨rfl,rfl,rfl,rfl,rfl,List.prefix_rfl⟩)
    (hs : (f d).instances = d.instances := by rfl) :
    p.Reaches (some id) { p with entities := p.entities.modifyObject id f } := by
  refine ⟨.modifyKind hO (lt_size_of_kind (by simp [hk])) (k := .object (f d)) (by rw [hk])
    (hk ▸ .object hl) ⟨?_,by simp,by simp⟩ fun args i hm => .inl ?_,.modifyKind _ _ _⟩
  · have := (hO.sane id).keys
    rw [hk] at this
    simpa only [keys,instances,hs] using this
  · simpa only [hk,instances,hs] using hm

theorem Reaches.modifyFunction (hO : p.Orderly) (hk : p.entities.kind id = .function d) {f : FunctionDef → FunctionDef}
    (hu : (f d).signature ≠ .done → (f d).returnType = none ∧ (f d).bodyStage = .pending)
    (hl : d.Like (f d) := by exact ⟨rfl,rfl,rfl,List.prefix_rfl⟩) (hs : (f d).instances = d.instances := by rfl) :
    p.Reaches (some id) { p with entities := p.entities.modifyFunction id f } := by
  refine ⟨.modifyKind hO (lt_size_of_kind (by simp [hk])) (k := .function (f d)) (by rw [hk])
    (hk ▸ .function hl) ⟨?_,by rintro _ ⟨⟩; exact hu,by simp⟩ fun args i hm => .inl ?_,.modifyKind _ _ _⟩
  · have := (hO.sane id).keys
    rw [hk] at this
    simpa only [keys,instances,hs] using this
  · simpa only [hk,instances,hs] using hm

theorem Reaches.modifyAlias (hO : p.Orderly) {d : AliasDef} (hk : p.entities.kind id = .typeAlias d)
    {f : AliasDef → AliasDef} (hn : (f d).stage = .done → (f d).resolved.isSome = true) :
    p.Reaches (some id) { p with entities := p.entities.modifyAlias id f } := by
  exact ⟨.modifyKind hO (lt_size_of_kind (by simp [hk])) (k := .typeAlias (f d)) (by rw [hk])
    (hk ▸ .typeAlias ..) ⟨by simp [keys,instances],by simp,
      by rintro _ ⟨⟩; exact hn⟩ (by simp [instances]),.modifyKind _ _ _⟩

end Program

end FormCompiler
