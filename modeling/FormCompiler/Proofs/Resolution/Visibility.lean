import FormCompiler.Proofs.Resolution.Meaning
import Mathlib.Logic.Function.Basic

/-! Which variable a name stands for. A node stands in a scope, and some of its parts stand there too; others have
scopes of their own. In a resolved body every name stands for the innermost variable of that name: the last one that was
added before in the scope of the name or, if there is none, in one around it. -/

namespace FormCompiler

open List

variable {scope : ScopeId} {v : EntityId} {p q : Program}

namespace ExprShape

/-- The parts that stand in the scope of the node, in order. -/
def straight : ExprShape → List ExprId
  | define _ _ init _ _ => [init]
  | assign _ value _ => [value]
  | call _ args _ _ => args
  | object fields => fields.map (·.2)
  | cond test _ _ | loop test _ => [test]
  | select m => [m.operand]
  | _ => []

/-- The parts in scopes of their own, with the variables that are known there from the start. -/
def inner : ExprShape → List (List EntityId × List ExprId)
  | block body _ => [([], body)]
  | cond _ yes no => ([], [yes]) :: no.toList.map fun no => ([], [no])
  | loop _ body => [([], [body])]
  | select m => m.arms.map (fun arm => (arm.binding.toList, [arm.body])) ++
      m.default.toList.map fun body => (m.defaultBinding.toList, [body])
  | _ => []

/-- The names in a node, with the variables they stand for. -/
def uses : ExprShape → List (String × EntityId)
  | name n binding => binding.toList.map (n, ·)
  | assign n _ target => target.toList.map (n, ·)
  | _ => []

def adds : ExprShape → List EntityId
  | define _ _ _ _ var => var.toList
  | _ => []

private theorem adds_subset_intros (shape : ExprShape) : shape.adds ⊆ shape.intros := by
  cases shape <;> simp [adds,intros]

private theorem inner_subset_intros {shape : ExprShape} {part : List EntityId × List ExprId} (h : part ∈ shape.inner) :
    part.1 ⊆ shape.intros := by
  cases shape with
  | cond _ _ no => cases no <;> simp [inner] at h <;> rcases h with rfl | rfl <;> simp
  | select m =>
    simp only [inner,mem_append,mem_map,Option.mem_toList] at h
    intro v hv
    simp only [intros,mem_append,mem_filterMap]
    rcases h with ⟨arm,ha,rfl⟩ | ⟨body,_,rfl⟩
    · exact .inl ⟨arm,ha,by simpa using hv⟩
    · exact .inr hv
  | _ => simp_all [inner]

end ExprShape

/-- The variable that each name stands for. -/
abbrev View := String → Option EntityId

def EntityKind.isVar : EntityKind → Bool
  | var _ _ => true
  | _ => false

namespace Program

/-- What names stand for after variables were added, each under its own name. -/
def shadow (p : Program) (seen : View) (vars : List EntityId) : View :=
  vars.foldl (fun seen v => Function.update seen (p.entities.get v).name (some v)) seen

/-- In a row of expressions every name stands for the variable that is seen there under this name, first those in `seen`
and then also what the expressions in front added; in the end one sees `out`. -/
inductive Scoped (p : Program) : View → List ExprId → View → Prop
  | nil {seen} : Scoped p seen [] seen
  | cons {seen mid out id τ ids} (exits : List EntityId × List ExprId → View) : p.Typed id τ →
      (∀ v ∈ (p.exprs.get id).shape.intros, v.index < p.entities.size) →
      (∀ use ∈ (p.exprs.get id).shape.uses, seen use.1 = some use.2) →
      Scoped p seen (p.exprs.get id).shape.straight mid →
      (∀ part ∈ (p.exprs.get id).shape.inner, Scoped p (p.shadow mid part.1) part.2 (exits part)) →
      Scoped p (p.shadow mid (p.exprs.get id).shape.adds) ids out → Scoped p seen (id :: ids) out

/-- Expressions in a scope of their own, where some variables are known from the start. -/
def Nested (p : Program) (seen : View) (vars : List EntityId) (ids : List ExprId) : Prop :=
  ∃ out, p.Scoped (p.shadow seen vars) ids out

variable {seen mid out : View} {id : ExprId} {ids : List ExprId}

/-- One expression, then the others. -/
theorem Scoped.then (h : p.Scoped seen [id] mid) (k : p.Scoped mid ids out) : p.Scoped seen (id :: ids) out := by
  cases h with
  | cons exits ht hv hu hs hi hr =>
    cases hr
    exact .cons exits ht hv hu hs hi k

namespace Grows

variable {vars : List EntityId}

theorem shadow (h : p.Grows q) (hv : ∀ v ∈ vars, v.index < p.entities.size) :
    q.shadow seen vars = p.shadow seen vars := by
  induction vars generalizing seen with
  | nil => rfl
  | cons v vars ih =>
    simp only [Program.shadow,foldl_cons,h.name v (hv v (by simp))] at ih ⊢
    exact ih fun w hw => hv w (by simp [hw])

/-- A resolved body stays as it is, and so does what its names stand for. -/
theorem scoping (h : p.Grows q) (hs : p.Scoped seen ids out) : q.Scoped seen ids out := by
  induction hs with
  | nil => exact .nil
  | @cons seen mid out id τ ids exits ht hv hu _ _ _ ihs ihi ihr =>
    have he := h.typed id τ ht
    refine .cons exits (h.typed' ht) ?_ (by rw [he]; exact hu) (by rw [he]; exact ihs) ?_ ?_
    · rw [he]
      exact fun v hm => Nat.lt_of_lt_of_le (hv v hm) h.entities
    · rw [he]
      intro part hp
      rw [h.shadow fun v hm => hv v (ExprShape.inner_subset_intros hp hm)]
      exact ihi part hp
    · rw [he,h.shadow fun v hm => hv v (ExprShape.adds_subset_intros _ hm)]
      exact ihr

theorem nested (h : p.Grows q) (hv : ∀ v ∈ vars, v.index < p.entities.size)
    (hn : p.Nested seen vars ids) : q.Nested seen vars ids := by
  obtain ⟨out,hs⟩ := hn
  exact ⟨out,h.shadow hv ▸ h.scoping hs⟩

private theorem isVar (h : p.Grows q) (hv : v.index < p.entities.size) :
    (q.entities.kind v).isVar = (p.entities.kind v).isVar := by
  have hk := h.kind v hv
  revert hk
  generalize p.entities.kind v = a
  generalize q.entities.kind v = b
  rintro (_ | _ | _ | _) <;> rfl

end Grows

def view (p : Program) (scope : ScopeId) : View := fun name =>
  (p.scopes.resolve? p.entities scope name).filter fun v => (p.entities.kind v).isVar

end Program

namespace ScopeTable

variable {t : ScopeTable} {entities : EntityTable}

theorem WellFormed.le_of_mem_ancestors (hw : t.WellFormed entities) {n : Nat} {s x : ScopeId}
    (hx : x ∈ t.ancestorsWithin n s) : x.index ≤ s.index := by
  induction n generalizing s with
  | zero => cases hx
  | succ n ih =>
    rcases mem_cons.mp hx with rfl | hx
    · exact Nat.le_refl _
    · cases hp : (t.get s).parent with
      | none => simp [hp] at hx
      | some y =>
        simp only [hp] at hx
        exact Nat.le_trans (ih hx) (Nat.le_of_lt (hw.parent_lt s y hp))

private theorem here_of_resolve? {name : String}
    (h : t.resolve? entities scope name = some v) : ∃ s ∈ t.ancestors scope, v ∈ t.here s name := by
  obtain ⟨s,hs,hf⟩ := exists_of_findSome?_eq_some h
  exact ⟨s,hs,mem_of_find?_eq_some hf⟩

end ScopeTable

namespace Program

/-- If no name was added to the scopes around, one sees the same. -/
theorem Grows.view (h : p.Grows q) (hw : p.scopes.WellFormed p.entities) (hs : scope.index < p.scopes.size)
    (hb : ∀ name, ∀ x ∈ p.scopes.ancestors scope, q.scopes.here x name = p.scopes.here x name) :
    q.view scope = p.view scope := by
  funext name
  unfold Program.view
  rw [h.resolve?_of_here hw hs name (hb name)]
  cases hr : p.scopes.resolve? p.entities scope name with
  | none => rfl
  | some v =>
    obtain ⟨s, -,hv⟩ := ScopeTable.here_of_resolve? hr
    simp only [Option.filter,h.isVar (hw.bound s name v hv)]

/-- From a module no variable can be seen. -/
theorem view_static (hw : p.scopes.WellFormed p.entities) (hs : p.scopes.Static scope) :
    p.view scope = fun _ => none := by
  funext name
  refine Option.filter_eq_none_iff.mpr fun v hr hk => ?_
  obtain ⟨s,hmem,hv⟩ := ScopeTable.here_of_resolve? hr
  cases hkind : p.entities.kind v with
  | var τ mutable => exact hw.plain s name v (hw.static_ancestors hs hmem).2 hv τ mutable hkind
  | _ => simp [hkind,EntityKind.isVar] at hk

end Program

end FormCompiler
