import FormCompiler.Proofs.Resolution.Joins
import Mathlib.Data.List.Forall2

/-! When a resolved node is well typed. The judgement looks at one node: at the types noted for its parts
and at the entities its slots name. A program is well typed when every node with a type satisfies it. -/

namespace FormCompiler

/-- Types that values can have: nothing in them is `never`, and their objects are not generic. -/
def Ty.Good (t : EntityTable) : Ty → Prop
  | .prim _ => True
  | .object id => ∃ d, t.kind id = .object d ∧ d.typeParams = []
  | .array element => element.Good t
  | .never => False

/-- It will not change what the type extends. -/
def Ty.Finished (t : EntityTable) (τ : Ty) : Prop := ∀ x, τ = .object x → ∃ l, t.Chain x l

/-- Type expressions in which only good types were filled in. -/
inductive TypeExpr.Good (t : EntityTable) : TypeExpr → Prop
  | named {name location} : Good t (.named name location)
  | apply {name args location} : (∀ arg ∈ args, Good t arg) → Good t (.apply name args location)
  | resolved {type : Ty} : type.Good t → Good t (.resolved type)

namespace ExprShape

def children : ExprShape → List ExprId
  | literal _ | name _ _ => []
  | block body _ => body
  | define _ _ init _ _ => [init]
  | assign _ value _ => [value]
  | call _ args _ _ => args
  | object fields => fields.map (·.2)
  | cond test yes no => test :: yes :: no.toList
  | loop test body => [test,body]
  | select m => m.operand :: (m.arms.map (·.body) ++ m.default.toList)

def intros : ExprShape → List EntityId
  | define _ _ _ _ var => var.toList
  | select m => m.arms.filterMap (·.binding) ++ m.defaultBinding.toList
  | _ => []

def typeExprs : ExprShape → List TypeExpr
  | define _ declared _ _ _ => declared.toList
  | call _ _ typeArgs _ => typeArgs
  | select m => m.arms.filterMap fun arm =>
      match arm.pattern with
      | .type t => some t
      | .literal _ => none
  | _ => []

/-- A node as it is before resolution. A match has an arm or a default, and an object literal names no field
twice. -/
structure Raw (t : EntityTable) (shape : ExprShape) : Prop where
  intros : shape.intros = []
  good : ∀ x ∈ shape.typeExprs, x.Good t
  cases : ∀ m, shape = .select m → m.arms ≠ [] ∨ m.default.isSome
  names : ∀ fields, shape = .object fields → (fields.map (·.1)).Nodup

end ExprShape

namespace Program

variable (p : Program)

def Typed (id : ExprId) (τ : Ty) : Prop := (p.exprs.get id).type = some τ

/-- Values of the first type can stand where the second is expected. -/
def Below (σ τ : Ty) : Prop :=
  σ = τ ∨ ∃ x y, σ = .object x ∧ τ = .object y ∧ p.entities.Extends x y

/-- The expression can stand where a type is expected. -/
def Fits (id : ExprId) (τ : Ty) : Prop := ∃ σ, p.Typed id σ ∧ p.Below σ τ

/-- The least type above some types and those of some branches, all of them finished. -/
def Merges (before : List Ty) (ids : List ExprId) (τ : Ty) : Prop :=
  ∃ types, List.Forall₂ p.Typed ids types ∧ (∀ σ ∈ before ++ types, σ.Finished p.entities) ∧
    p.entities.IsJoin (before ++ types) τ

def VarOf (id : EntityId) (τ : Ty) : Prop := ∃ mutable, p.entities.kind id = .var τ mutable

def SeqTyped (last : Ty) : List ExprId → Ty → Prop
  | [], τ => τ = last
  | id :: ids, τ => ∃ σ, p.Typed id σ ∧ SeqTyped σ ids τ

inductive CallTyped : List ExprId → CallTarget → Ty → Prop
  | function {f d τ args} : p.entities.kind f = .function d → d.typeParams = [] →
      d.signature = .done → d.returnType = some τ → List.Forall₂ p.Fits args d.paramTypes →
      CallTyped args (.function f) τ
  | construct {object literal given d} : (p.exprs.get literal).shape = .object given →
      p.Typed literal (.object object) → p.entities.kind object = .object d → d.stage = .done →
      given.length = d.fields.length →
      (∀ name value, (name, value) ∈ given → ∃ field, d.fields.find? (·.name == name) = some field ∧
        p.Fits value field.type) →
      CallTyped [literal] (.construct object) (.object object)
  | field {object index d field arg} : p.Typed arg (.object object) →
      p.entities.kind object = .object d → d.stage = .done → d.fields[index]? = some field →
      CallTyped [arg] (.field object index) field.type

/-- An arm of a match on an operand of type `σ` that gives `τ`. -/
inductive ArmTyped (σ τ : Ty) (arm : Arm) : Prop
  | literal {l} : arm.pattern = .literal l → σ = .prim l.prim →
      (∀ var, arm.binding = some var → p.VarOf var σ) → p.Fits arm.body τ → ArmTyped σ τ arm
  | type {t object} : arm.pattern = .type t → arm.patternType = some (.object object) →
      (∀ var, arm.binding = some var → p.VarOf var (.object object)) → p.Fits arm.body τ →
      (Ty.object object).Good p.entities → ArmTyped σ τ arm

structure MatchTyped (m : Match) (σ τ : Ty) : Prop where
  operand : p.Typed m.operand σ
  arms : ∀ arm ∈ m.arms, p.ArmTyped σ τ arm
  default : ∀ body, m.default = some body → p.Fits body τ
  defaultBinding : ∀ var, m.defaultBinding = some var → p.VarOf var σ
  guard : m.isTypeGuard = true → ∃ object, σ = .object object
  merges : p.Merges [] (m.arms.map (·.body) ++ m.default.toList) τ

/-- A node of type `τ`. Object literals are checked where they are used. -/
inductive NodeTyped : ExprShape → Ty → Prop
  | literal (l) : NodeTyped (.literal l) (.prim l.prim)
  | name {n var τ} : p.VarOf var τ → NodeTyped (.name n (some var)) τ
  | block {body scope τ} : p.SeqTyped .void body τ → NodeTyped (.block body (some scope)) τ
  | define {n declared init mutable var τ} : p.Fits init τ → p.entities.kind var = .var τ mutable → τ.hasValue = true →
      NodeTyped (.define n declared init mutable (some var)) .void
  | assign {n value var τ} : p.entities.kind var = .var τ true → p.Fits value τ → NodeTyped (.assign n value (some var)) .void
  | call {n args typeArgs target τ} : p.CallTyped args target τ →
      NodeTyped (.call n args typeArgs (some target)) τ
  | object {fields τ} : (fields.map (·.1)).Nodup → (∀ x ∈ fields, ∃ σ, p.Typed x.2 σ) →
      NodeTyped (.object fields) τ
  | when {test yes σ} : p.Fits test .bool → p.Typed yes σ → NodeTyped (.cond test yes none) .void
  | cond {test yes no τ} : p.Fits test .bool → p.Fits yes τ → p.Fits no τ → p.Merges [] [yes,no] τ →
      NodeTyped (.cond test yes (some no)) τ
  | loop {test body σ} : p.Fits test .bool → p.Typed body σ → NodeTyped (.loop test body) .void
  | select {m σ τ} : p.MatchTyped m σ τ → NodeTyped (.select m) τ

end Program

end FormCompiler
