import FormCompiler.Proofs.Resolution.Advance
import FormCompiler.Proofs.Resolution.Avoiding

/-! The single changes that resolution makes to a program, one after the other. What each of them keeps, every action of
resolution keeps, refused or not, and at every moment of it. Types name no object of the set `G` on the way. -/

namespace FormCompiler

open EntityTable

variable {id : EntityId} {d e : ObjectDef}

/-- The object that a type expression stands for, as far as its outermost name tells. -/
inductive Program.Names (p : Program) (scope : ScopeId) (id : EntityId) : TypeExpr → Prop
  | resolved : Names p scope id (.resolved (.object id))
  | plain {name : String} {location : Location} {d : ObjectDef} : p.scopes.resolve? p.entities scope name = some id →
      p.entities.kind id = .object d → Names p scope id (.named name location)
  | aliased {name : String} {location : Location} {named : EntityId} {d : AliasDef} :
      p.scopes.resolve? p.entities scope name = some named → p.entities.kind named = .typeAlias d → d.stage = .done →
      d.resolved = some (.object id) → Names p scope id (.named name location)
  | applied {name : String} {args : List TypeExpr} {location : Location} {generic : EntityId} {types : List Ty} :
      p.scopes.resolve? p.entities scope name = some generic → (p.entities.kind id).IsInstance generic types →
      Names p scope id (.apply name args location)

/-- The object that another one declares as its parent. -/
def Program.NamesParent (p : Program) (d : ObjectDef) (above : EntityId) : Prop :=
  match d.parentExpr with
  | none => above = Program.objectId
  | some t => p.Names d.scope above t

/-- How an object goes on: work on it starts, its parent is found, its layout is found. Instances and methods are added
at any time. -/
inductive ObjectDef.Turns (G : EntityId → Prop) (p : Program) (d : ObjectDef) : ObjectDef → Prop
  | start : d.stage = .pending → d.isGeneric = false → Turns G p d { d with stage := .inProgress }
  | parent {above : EntityId} {e : ObjectDef} : d.stage = .inProgress → d.isGeneric = false → ¬ G above →
      p.NamesParent d above → p.entities.kind above = .object e → (e.stage = .done ∨ e.isGeneric = true) →
      Turns G p d { d with parent := some above }
  | finish {above : EntityId} {e : ObjectDef} {fields : List Field} : d.stage = .inProgress → d.isGeneric = false →
      d.parent = some above → p.entities.kind above = .object e → (∀ field ∈ fields, field.type.Avoids G) →
      (e.isGeneric = false → e.stage = .done ∧ e.fields <+: fields ∧ (LayoutOk e.fields → LayoutOk fields)) →
      Turns G p d { d with fields, stage := .done }
  | keep {args : List Ty} {i : EntityId} : ¬ G i → Turns G p d { d with instances := d.instances ++ [(args, i)] }
  | addMethods {methods : List EntityId} : Turns G p d { d with methods := d.methods ++ methods }

inductive AliasDef.Turns (G : EntityId → Prop) (d : AliasDef) : AliasDef → Prop
  | start : d.stage = .pending → Turns G d { d with resolved := none, stage := .inProgress }
  | finish {τ : Ty} : d.stage = .inProgress → τ.Avoids G → Turns G d { d with resolved := some τ, stage := .done }

/-- How a function goes on: its signature is found, work on its body starts, its return type is found. One without a
body is done with its signature. -/
inductive FunctionDef.Turns (G : EntityId → Prop) (d : FunctionDef) : FunctionDef → Prop
  | sign {paramTypes : List Ty} {paramVars : List EntityId} {returnType : Option Ty} : d.signature ≠ .done →
      d.returnType = none → (∀ τ, returnType = some τ → τ.Avoids G) →
      Turns G d { d with paramTypes, paramVars, returnType, signature := .done }
  | start {bodyScope : Option ScopeId} : d.signature = .done → d.bodyStage = .pending →
      Turns G d { d with bodyStage := .inProgress, bodyScope }
  | finish {τ : Ty} : d.signature = .done → d.bodyStage = .inProgress → (∀ σ, d.returnType = some σ → τ = σ) →
      τ.Avoids G → Turns G d { d with returnType := some τ, bodyStage := .done }
  | skip : d.signature = .done → d.bodyStage = .pending → Turns G d { d with bodyStage := .done }
  | keep {args : List Ty} {i : EntityId} : Turns G d { d with instances := d.instances ++ [(args, i)] }

variable {G : EntityId → Prop}

private theorem ObjectDef.Turns.avoids {p : Program} (h : d.Turns G p e) (hd : d.Avoids G id) : e.Avoids G id := by
  cases h with
  | start | addMethods => exact ⟨hd.plain,hd.parentExpr,hd.fieldExprs,hd.appliedArgs,hd.parent,hd.fields,hd.instances⟩
  | parent _ _ habove =>
    refine ⟨hd.plain,hd.parentExpr,hd.fieldExprs,hd.appliedArgs,?_,hd.fields,hd.instances⟩
    rintro _ ⟨⟩
    exact habove
  | finish _ _ _ _ hfields =>
    exact ⟨hd.plain,hd.parentExpr,hd.fieldExprs,hd.appliedArgs,hd.parent,hfields,hd.instances⟩
  | keep hi =>
    refine ⟨hd.plain,hd.parentExpr,hd.fieldExprs,hd.appliedArgs,hd.parent,hd.fields,fun args' i hl => ?_⟩
    rw [List.lookup_append] at hl
    rcases Option.or_eq_some_iff.mp hl with hl | ⟨_,hl⟩
    · exact hd.instances args' i hl
    · rw [List.lookup_cons] at hl
      split at hl
      · cases hl
        exact hi
      · cases hl

private theorem AliasDef.Turns.avoids {d e : AliasDef} (h : d.Turns G e) (hd : d.Avoids G) : e.Avoids G := by
  cases h with
  | start => exact ⟨hd.target,by simp⟩
  | finish _ hτ =>
    refine ⟨hd.target,?_⟩
    rintro _ _ ⟨⟩
    exact hτ

private theorem FunctionDef.Turns.avoids {d e : FunctionDef} (h : d.Turns G e) (hd : d.Avoids G) : e.Avoids G := by
  cases h with
  | sign _ _ hτ => exact ⟨hd.params,hd.returnExpr,hτ⟩
  | finish _ _ _ hτ =>
    refine ⟨hd.params,hd.returnExpr,?_⟩
    rintro _ ⟨⟩
    exact hτ
  | start | skip | keep => exact ⟨hd.params,hd.returnExpr,hd.returnType⟩

namespace Program

/-- A single change of a program. Without `lo` it is one that questions about types make; with it, functions, nodes and
scopes may change as well, but no scope below `lo`. -/
inductive Alters (G : EntityId → Prop) : Option Nat → Program → Program → Prop
  | tables {lo : Option Nat} {p q : Program} : q.entities = p.entities → q.exprs = p.exprs → q.scopes = p.scopes →
      q.ancestry = p.ancestry → Alters G lo p q
  | ancestors {lo : Option Nat} {p : Program} (id : EntityId) :
      Alters G lo p { p with ancestry := (p.ancestry.chain p.entities id).2 }
  | alloc {lo : Option Nat} {p : Program} {k : EntityKind} (name : String) (location : Location) :
      k.Avoids G ⟨p.entities.size⟩ → (∀ d, k = .object d → ∃ generic e args, p.entities.kind generic = .object e ∧
        e.typeParams.length = args.length ∧ d = Solver.objectInstance generic e args) →
      (∀ d, k = .function d → lo ≠ none ∧ d.signature = .pending) → (∀ d, k ≠ .typeAlias d) →
      Alters G lo p { p with entities := (p.entities.alloc name location k).2 }
  | object {lo : Option Nat} {p : Program} {id : EntityId} {d : ObjectDef} {f : ObjectDef → ObjectDef} :
      p.entities.kind id = .object d → d.Turns G p (f d) →
      Alters G lo p { p with entities := p.entities.modifyObject id f }
  | typeAlias {lo : Option Nat} {p : Program} {id : EntityId} {d : AliasDef} {f : AliasDef → AliasDef} :
      p.entities.kind id = .typeAlias d → d.Turns G (f d) →
      Alters G lo p { p with entities := p.entities.modifyAlias id f }
  | function {lo : Nat} {p : Program} {id : EntityId} {d : FunctionDef} {f : FunctionDef → FunctionDef} :
      p.entities.kind id = .function d → d.Turns G (f d) →
      Alters G (some lo) p { p with entities := p.entities.modifyFunction id f }
  | nodes {lo : Nat} {p : Program} {a : Arena} :
      (∀ n, (a.get n).shape.blank = (p.exprs.get n).shape.blank ∨ ∀ t ∈ (a.get n).shape.typeExprs, t.Avoids G) →
      Alters G (some lo) p { p with exprs := a }
  | scopes {lo : Nat} {p : Program} {t : ScopeTable} : p.scopes.size ≤ t.size →
      (∀ s : ScopeId, s.index < lo → t.get s = p.scopes.get s) → Alters G (some lo) p { p with scopes := t }

def Evolves (G : EntityId → Prop) (lo : Option Nat) : Program → Program → Prop := Relation.ReflTransGen (Alters G lo)

variable {lo : Option Nat} {p q r : Program}

/-! ### What changes keep -/

namespace Avoids

/-- Entities are changed, and the new ones avoid the same objects. -/
theorem of_entities (h : p.Avoids G) {t : EntityTable} (hsize : p.entities.size ≤ t.size)
    (ht : ∀ id, t.kind id = p.entities.kind id ∨ (t.kind id).Avoids G id) : Avoids G { p with entities := t } where
  base := h.base
  known id hG := Nat.lt_of_lt_of_le (h.known id hG) hsize
  entities id := by
    rcases ht id with he | ha
    · exact he ▸ h.entities id
    · exact ha
  nodes := h.nodes
  memo := h.memo

private theorem modifyKind (h : p.Avoids G) {f : EntityKind → EntityKind}
    (hf : (f (p.entities.kind id)).Avoids G id) : Avoids G { p with entities := p.entities.modifyKind id f } := by
  refine h.of_entities (by simp) fun j => ?_
  rcases p.entities.kind_modifyKind_cases id f j with he | ⟨rfl,he⟩
  · exact .inl he
  · exact .inr (he ▸ hf)

end Avoids

theorem Alters.avoids (h : Alters G lo p q) (hp : p.Avoids G) : q.Avoids G := by
  cases h with
  | tables he hx _ ha => exact ⟨hp.base,he ▸ hp.known,he ▸ hp.entities,hx ▸ hp.nodes,ha ▸ hp.memo⟩
  | ancestors id => exact ⟨hp.base,hp.known,hp.entities,hp.nodes,hp.chain.1⟩
  | @alloc _ _ k name location hk =>
    refine hp.of_entities (by simp) fun id => ?_
    rcases p.entities.kind_alloc_cases name location k id with he | ⟨rfl,he⟩
    · exact .inl he
    · exact .inr (by rwa [he])
  | object hk ht =>
    refine hp.modifyKind ?_
    rw [hk]
    exact ht.avoids (hp.object hk)
  | @typeAlias _ _ id _ _ hk ht =>
    have hd := hp.entities id
    rw [hk] at hd
    refine hp.modifyKind ?_
    rw [hk]
    exact ht.avoids hd
  | function hk ht =>
    refine hp.modifyKind ?_
    rw [hk]
    exact ht.avoids (hp.function hk)
  | @nodes _ _ a ha =>
    refine ⟨hp.base,hp.known,hp.entities,fun n => ?_,hp.memo⟩
    rcases ha n with he | ht
    · rw [← ExprShape.typeExprs_blank,he,ExprShape.typeExprs_blank]
      exact hp.nodes n
    · exact ht
  | scopes => exact ⟨hp.base,hp.known,hp.entities,hp.nodes,hp.memo⟩

/-- Questions about types leave nodes, scopes and functions alone. -/
structure Still (p q : Program) : Prop where
  exprs : q.exprs = p.exprs
  scopes : q.scopes = p.scopes
  functions : ∀ id d, q.entities.kind id = .function d ↔ p.entities.kind id = .function d

private theorem Alters.still (h : Alters G none p q) : p.Still q := by
  cases h with
  | tables he hx hs _ => exact ⟨hx,hs,by simp [he]⟩
  | ancestors => exact ⟨rfl,rfl,fun _ _ => Iff.rfl⟩
  | @alloc _ _ k name location _ _ hf =>
    refine ⟨rfl,rfl,fun id d => ⟨fun hd => ?_,fun hd => ?_⟩⟩
    · rcases p.entities.kind_alloc_cases name location k id with he | ⟨_,he⟩
      · exact he ▸ hd
      · exact absurd rfl (hf d (he.symm.trans hd)).1
    · rwa [kind_alloc_of_lt (lt_size_of_kind (by simp [hd]))]
  | object => exact ⟨rfl,rfl,fun _ _ => kind_modifyObject_function _⟩
  | typeAlias => exact ⟨rfl,rfl,fun _ _ => kind_modifyAlias_function _⟩

/-- Names stand for the same entities. -/
theorem Still.resolve? (h : p.Still q) (scope : ScopeId) (name : String) :
    q.scopes.resolve? q.entities scope name = p.scopes.resolve? p.entities scope name := by
  have hf (id : EntityId) : (q.entities.get id).isFunction = (p.entities.get id).isFunction := by
    rw [Bool.eq_iff_iff,isFunction_iff,isFunction_iff]
    exact exists_congr (h.functions id)
  simp only [ScopeTable.resolve?,h.scopes,hf]

/-- An object that was named is still named. -/
theorem Names.still {scope : ScopeId} {t : TypeExpr} (hn : p.Names scope id t) (hs : p.Still q)
    (ha : p.Advances none q) : q.Names scope id t := by
  cases hn with
  | resolved => exact .resolved
  | plain hr hk =>
    obtain ⟨e,he,_⟩ := ha.object hk
    exact .plain ((hs.resolve? _ _).trans hr) he
  | aliased hr hk hd hτ =>
    obtain ⟨e,he,hf⟩ := ha.alias_fixed (by simp) hk
    obtain ⟨h1,h2⟩ := hf (by simp [hd])
    exact .aliased ((hs.resolve? _ _).trans hr) he (h1.trans hd) (h2.trans hτ)
  | applied hr hi => exact .applied ((hs.resolve? _ _).trans hr) (ha.isInstance hi)

theorem NamesParent.still {above : EntityId} (h : p.NamesParent d above) (hs : p.Still q)
    (ha : p.Advances none q) (ht : e.parentExpr = d.parentExpr) (hscope : e.scope = d.scope) :
    q.NamesParent e above := by
  unfold NamesParent at *
  rw [ht,hscope]
  split at h
  · exact h
  · exact h.still hs ha

/-- Scopes are only added, and those below `lo` stay as they are. -/
theorem Alters.confined {lo : Nat} (h : Alters G (some lo) p q) :
    p.scopes.size ≤ q.scopes.size ∧ ∀ s : ScopeId, s.index < lo → q.scopes.get s = p.scopes.get s := by
  cases h with
  | tables _ _ hs _ => rw [hs]; exact ⟨Nat.le_refl _,fun _ _ => rfl⟩
  | scopes hsize hget => exact ⟨hsize,hget⟩
  | _ => exact ⟨Nat.le_refl _,fun _ _ => rfl⟩

private theorem Alters.widen (h : Alters G none p q) (lo : Option Nat) : Alters G lo p q := by
  cases h with
  | tables he hx hs ha => exact .tables he hx hs ha
  | ancestors id => exact .ancestors id
  | alloc name location hk ho hf ha => exact .alloc name location hk ho (fun d hd => absurd rfl (hf d hd).1) ha
  | object hk ht => exact .object hk ht
  | typeAlias hk ht => exact .typeAlias hk ht

namespace Evolves

theorem refl (p : Program) : p.Evolves G lo p := Relation.ReflTransGen.refl

theorem trans (h : p.Evolves G lo q) (k : q.Evolves G lo r) : p.Evolves G lo r := Relation.ReflTransGen.trans h k

theorem single (h : Alters G lo p q) : p.Evolves G lo q := Relation.ReflTransGen.single h

theorem tables (he : q.entities = p.entities) (hx : q.exprs = p.exprs) (hs : q.scopes = p.scopes)
    (ha : q.ancestry = p.ancestry) : p.Evolves G lo q := .single (.tables he hx hs ha)

/-- What single changes keep, all of them together keep. -/
theorem keeps {R : Program → Prop} (hR : ∀ {p q}, Alters G lo p q → R p → R q) (h : p.Evolves G lo q) (hp : R p) :
    R q := by
  induction h with
  | refl => exact hp
  | tail _ hc ih => exact hR hc ih

theorem avoids (h : p.Evolves G lo q) (hp : p.Avoids G) : q.Avoids G := h.keeps Alters.avoids hp

theorem still (h : p.Evolves G none q) : p.Still q := by
  induction h with
  | refl => exact ⟨rfl,rfl,fun _ _ => Iff.rfl⟩
  | tail _ hc ih =>
    have hs := hc.still
    exact ⟨hs.exprs.trans ih.exprs,hs.scopes.trans ih.scopes,fun id d => (hs.functions id d).trans (ih.functions id d)⟩

theorem confined {lo : Nat} (h : p.Evolves G (some lo) q) :
    p.scopes.size ≤ q.scopes.size ∧ ∀ s : ScopeId, s.index < lo → q.scopes.get s = p.scopes.get s := by
  induction h with
  | refl => exact ⟨Nat.le_refl _,fun _ _ => rfl⟩
  | tail _ hc ih =>
    exact ⟨Nat.le_trans ih.1 hc.confined.1,fun s hs => (hc.confined.2 s hs).trans (ih.2 s hs)⟩

theorem widen (h : p.Evolves G none q) (lo : Option Nat) : p.Evolves G lo q := by
  induction h with
  | refl => exact .refl p
  | tail _ hc ih => exact ih.trans (.single (hc.widen lo))

/-- What two types have in common is found by their chains. -/
theorem join? (p : Program) (σ τ : Ty) : p.Evolves G lo { p with ancestry := (p.ancestry.join? p.entities σ τ).2 } := by
  unfold Ancestry.join?
  split
  · rename_i left right
    split
    · exact .refl p
    · exact .trans (.single (.ancestors right)) (.single (.ancestors left))
  · exact .refl p

end Evolves

theorem Avoids.join? (h : p.Avoids G) {σ τ ρ : Ty} (hσ : σ.Avoids G) (hτ : τ.Avoids G)
    (hρ : (p.ancestry.join? p.entities σ τ).1 = some ρ) : ρ.Avoids G := by
  unfold Ancestry.join? at hρ
  split at hρ
  · rename_i left right
    split at hρ
    · cases hρ
      exact hσ
    · obtain ⟨common,hc,rfl⟩ := Option.map_eq_some_iff.mp hρ
      have h1 : Avoids G { p with ancestry := (p.ancestry.chain p.entities right).2 } :=
        ⟨h.base,h.known,h.entities,h.nodes,h.chain.1⟩
      exact h1.chain.2 hσ common (List.mem_of_find?_eq_some hc)
  · unfold Ty.join? at hρ
    split at hρ
    · cases hρ
      exact hτ
    · split at hρ
      · cases hρ
        exact hσ
      · split at hρ
        · cases hρ
          exact hσ
        · split at hρ <;> cases hρ

end Program

end FormCompiler
