import FormCompiler.Proofs.Resolution.Judgement

/-! Types that name no object of a given set. The generic objects of a program are such a set `G`: they are those that
were declared, since instances are not generic, and a type can be said to avoid them without a look at the program. -/

namespace FormCompiler

open List

variable {args : List Ty} {id generic : EntityId} {d : FunctionDef} {t : EntityTable} {subst : Subst}
  {G : EntityId → Prop}

def Ty.Avoids (G : EntityId → Prop) : Ty → Prop
  | .object id => ¬ G id
  | .array element => element.Avoids G
  | _ => True

/-- The types filled in name no object of `G`. -/
inductive TypeExpr.Avoids (G : EntityId → Prop) : TypeExpr → Prop
  | named {name location} : Avoids G (.named name location)
  | apply {name args location} : (∀ arg ∈ args, Avoids G arg) → Avoids G (.apply name args location)
  | resolved {type : Ty} : type.Avoids G → Avoids G (.resolved type)

theorem TypeExpr.Avoids.substitute {t : TypeExpr} (h : t.Avoids G)
    (hs : ∀ name τ, subst.lookup name = some τ → τ.Avoids G) : (t.substitute subst).Avoids G := by
  induction h with
  | @named name location =>
    simp only [TypeExpr.substitute]
    cases hl : subst.lookup name with
    | none => exact .named
    | some τ => exact .resolved (hs name τ hl)
  | @apply name args location _ ih =>
    simp only [TypeExpr.substitute,TypeExpr.substituteAll_eq_map]
    refine .apply fun arg ha => ?_
    obtain ⟨a,hmem,rfl⟩ := mem_map.mp ha
    exact ih a hmem
  | resolved h => exact .resolved h

/-- What is known of an object, whether it is one of `G`. -/
structure ObjectDef.Avoids (G : EntityId → Prop) (id : EntityId) (d : ObjectDef) : Prop where
  plain : d.isGeneric = false → ¬ G id
  parentExpr : ∀ t, d.parentExpr = some t → t.Avoids G
  fieldExprs : ∀ field ∈ d.fieldExprs, field.2.Avoids G
  appliedArgs : ∀ τ ∈ d.appliedArgs, τ.Avoids G
  parent : ∀ above, d.parent = some above → ¬ G above
  fields : ∀ field ∈ d.fields, field.type.Avoids G
  instances : ∀ args i, d.instances.lookup args = some i → ¬ G i

structure FunctionDef.Avoids (G : EntityId → Prop) (d : FunctionDef) : Prop where
  params : ∀ param ∈ d.params, param.declared.Avoids G
  returnExpr : ∀ t, d.returnExpr = some t → t.Avoids G
  returnType : ∀ τ, d.returnType = some τ → τ.Avoids G

structure AliasDef.Avoids (G : EntityId → Prop) (d : AliasDef) : Prop where
  target : d.target.Avoids G
  resolved : ∀ τ, d.stage = .done → d.resolved = some τ → τ.Avoids G

/-- The types noted in an entity name no object of `G`, and the entity itself is one only if it is a generic object. -/
def EntityKind.Avoids (G : EntityId → Prop) (id : EntityId) : EntityKind → Prop
  | .object d => d.Avoids G id
  | .function d => d.Avoids G
  | .var τ _ => τ.Avoids G
  | .typeAlias d => d.Avoids G
  | _ => True

/-- Kept chains lead from objects outside `G` only to others. -/
def Ancestry.Avoids (G : EntityId → Prop) (a : Ancestry) : Prop :=
  ∀ id l, a.chains.lookup id = some l → ¬ G id → ∀ above ∈ l, ¬ G above

/-- The types noted in entities and nodes name no object of `G`, and neither do kept chains. -/
structure Program.Avoids (G : EntityId → Prop) (p : Program) : Prop where
  base : ¬ G Program.objectId
  known : ∀ id, G id → id.index < p.entities.size
  entities : ∀ id, (p.entities.kind id).Avoids G id
  nodes : ∀ n, ∀ t ∈ (p.exprs.get n).shape.typeExprs, t.Avoids G
  memo : p.ancestry.Avoids G

/-- Fields of different names whose types have values. -/
structure LayoutOk (fields : List Field) : Prop where
  names : (fields.map (·.name)).Nodup
  values : ∀ field ∈ fields, field.type.hasValue = true

theorem LayoutOk.concat {fields : List Field} (h : LayoutOk fields) {field : Field}
    (hn : fields.find? (·.name == field.name) = none) (hv : field.type.hasValue = true) :
    LayoutOk (fields ++ [field]) := by
  refine ⟨?_,by simpa [or_imp,forall_and] using ⟨h.values,hv⟩⟩
  rw [map_append,nodup_append]
  refine ⟨h.names,by simp,?_⟩
  rintro name hname _ hm rfl
  obtain ⟨other,hother,he⟩ := mem_map.mp hname
  simp_all

theorem avoids_zip (names : List String) (ha : ∀ τ ∈ args, τ.Avoids G) :
    ∀ name τ, (names.zip args).lookup name = some τ → τ.Avoids G := by
  intro name τ hl
  exact ha τ (of_mem_zip (mem_of_lookup hl)).2

/-- Instances avoid what their definition and their arguments do. -/
theorem ObjectDef.Avoids.instance {d : ObjectDef} (h : d.Avoids G generic)
    (ha : ∀ τ ∈ args, τ.Avoids G) (hid : ¬ G id) : (Solver.objectInstance generic d args).Avoids G id := by
  have hs := avoids_zip d.typeParams ha
  refine ⟨fun _ => hid,fun t ht => ?_,fun field hf => ?_,ha,by simp [Solver.objectInstance],by simp [Solver.objectInstance],
    by simp [Solver.objectInstance]⟩
  · obtain ⟨u,hu,rfl⟩ := Option.map_eq_some_iff.mp ht
    exact (h.parentExpr u hu).substitute hs
  · obtain ⟨f,hmem,rfl⟩ := mem_map.mp hf
    exact (h.fieldExprs f hmem).substitute hs

def Solver.functionInstance (generic : EntityId) (d : FunctionDef) (args : List Ty) (body : FunctionBody) :
    FunctionDef where
  scope := d.scope
  appliedArgs := args
  genericOf := some generic
  params := d.params.map fun p => { p with declared := p.declared.substitute (d.typeParams.zip args) }
  returnExpr := d.returnExpr.map (·.substitute (d.typeParams.zip args))
  body := body

theorem FunctionDef.Avoids.instance (h : d.Avoids G)
    (ha : ∀ τ ∈ args, τ.Avoids G) (body : FunctionBody) : (Solver.functionInstance generic d args body).Avoids G := by
  have hs := avoids_zip d.typeParams ha
  refine ⟨fun param hp => ?_,fun t ht => ?_,by simp [Solver.functionInstance]⟩
  · obtain ⟨x,hx,rfl⟩ := mem_map.mp hp
    exact (h.params x hx).substitute hs
  · obtain ⟨u,hu,rfl⟩ := Option.map_eq_some_iff.mp ht
    exact (h.returnExpr u hu).substitute hs

private theorem Ancestry.avoids_chainWithin
    (ht : ∀ id d above, t.kind id = .object d → d.parent = some above → ¬ G above) (steps : Nat) :
    ∀ (a : Ancestry) (id : EntityId), a.Avoids G → (chainWithin t steps a id).2.Avoids G ∧
      (¬ G id → ∀ above ∈ (chainWithin t steps a id).1, ¬ G above) := by
  induction steps with
  | zero =>
    intro a id ha
    refine ⟨ha,fun hid above hm => ?_⟩
    rw [mem_singleton.mp hm]
    exact hid
  | succ steps ih =>
    intro a id ha
    -- a chain behind that of the parent, kept or not
    have hchain {above : List EntityId} (h : ∀ x ∈ above, ¬ G x) : ¬ G id → ∀ x ∈ id :: above, ¬ G x := by
      intro hid x hm
      rcases mem_cons.mp hm with rfl | hm
      · exact hid
      · exact h x hm
    have hmemo {b : Ancestry} {above : List EntityId} (hb : b.Avoids G) (h : ∀ x ∈ above, ¬ G x) :
        Avoids G ⟨(id, id :: above) :: b.chains⟩ := by
      intro j l hl hj
      rw [lookup_cons] at hl
      split at hl
      · rename_i he
        cases hl
        cases (beq_iff_eq.mp he)
        exact hchain h hj
      · exact hb j l hl hj
    unfold chainWithin
    split
    · rename_i l hl
      exact ⟨ha,ha id l hl⟩
    · cases hparent : (t.object? id).bind (·.parent) with
      | none =>
        simp only [hparent]
        split
        · exact ⟨hmemo ha (by simp),hchain (by simp)⟩
        · exact ⟨ha,hchain (by simp)⟩
      | some parent =>
        obtain ⟨d,hd,hp⟩ := Option.bind_eq_some_iff.mp hparent
        obtain ⟨hb,habove⟩ := ih a parent ha
        replace habove := habove (ht id d parent (EntityTable.object?_eq_some.mp hd) hp)
        simp only [hparent]
        split
        · exact ⟨hmemo hb habove,hchain habove⟩
        · exact ⟨hb,hchain habove⟩

namespace EntityKind.Avoids

variable {e : Entity}

private theorem alias? (h : e.kind.Avoids G id) {d : AliasDef} (hd : e.alias? = some d) : d.Avoids G := by
  unfold Entity.alias? at hd
  split at hd <;> simp_all [EntityKind.Avoids]

end EntityKind.Avoids

namespace Program.Avoids

variable {p : Program} (h : p.Avoids G)
include h

theorem object {d : ObjectDef} (hk : p.entities.kind id = .object d) : d.Avoids G id := by
  have := h.entities id
  rwa [hk] at this

theorem function (hk : p.entities.kind id = .function d) : d.Avoids G := by
  have := h.entities id
  rwa [hk] at this

theorem alias? {d : AliasDef} (hd : (p.entities.get id).alias? = some d) : d.Avoids G :=
  EntityKind.Avoids.alias? (h.entities id) hd

theorem size : ¬ G ⟨p.entities.size⟩ := fun hG => Nat.lt_irrefl _ (h.known _ hG)

theorem parent (id : EntityId) (d : ObjectDef) (above : EntityId) (hk : p.entities.kind id = .object d)
    (hp : d.parent = some above) : ¬ G above := (h.object hk).parent above hp

theorem chain : (p.ancestry.chain p.entities id).2.Avoids G ∧
    (¬ G id → ∀ above ∈ (p.ancestry.chain p.entities id).1, ¬ G above) :=
  Ancestry.avoids_chainWithin h.parent (p.entities.size + 1) p.ancestry id h.memo

end Program.Avoids

/-! ### Copies -/

theorem ExprShape.typeExprs_copy {offset : Nat} (shape : ExprShape) :
    (shape.copy offset subst).typeExprs = shape.typeExprs.map (·.substitute subst) := by
  cases shape with
  | define name declared init mutable entity => cases declared <;> rfl
  | select m =>
    obtain ⟨operand,bind,arms,body,binding⟩ := m
    simp only [copy,typeExprs,filterMap_map,map_filterMap]
    congr 1
    funext arm
    cases hp : arm.pattern <;> simp [Arm.copy,hp,Pattern.substitute]
  | _ => rfl

/-- A node of a program with a copied body is an old one or a copy. -/
theorem Arena.get_cloneRange (a : Arena) (first root n : ExprId) (subst : Subst) :
    (a.cloneRange first root subst).2.get n = a.get n ∨
      ∃ j, (a.cloneRange first root subst).2.get n = (a.get j).copy (a.size - first.index) subst := by
  by_cases hn : n.index < a.size
  · exact .inl (get_cloneRange_of_lt hn)
  have hle : a.nodes.size ≤ n.index := Nat.le_of_not_lt hn
  have hget : (a.cloneRange first root subst).2.get n =
      (((a.nodes.extract first.index (root.index + 1))[n.index - a.nodes.size]?).map
        (·.copy (a.size - first.index) subst)).getD default := by
    simp only [get,cloneRange,Array.getD_eq_getD_getElem?]
    rw [Array.getElem?_append_right hle,Array.getElem?_map]
  rw [hget]
  cases hc : (a.nodes.extract first.index (root.index + 1))[n.index - a.nodes.size]? with
  | none => exact .inl (get_of_size_le hle).symm
  | some e =>
    refine .inr ⟨⟨first.index + (n.index - a.nodes.size)⟩,?_⟩
    rw [Array.getElem?_extract] at hc
    split at hc
    · simp [get,Array.getD_eq_getD_getElem?,hc]
    · cases hc

/-! ### Nothing to avoid -/

theorem Ty.avoids_none (τ : Ty) : τ.Avoids fun _ => False := by
  induction τ with
  | object => exact not_false
  | array element ih => exact ih
  | _ => exact trivial

mutual

theorem TypeExpr.avoids_none : ∀ t : TypeExpr, t.Avoids fun _ => False
  | .named _ _ => .named
  | .apply _ args _ => .apply (TypeExpr.all_avoid_none args)
  | .resolved τ => .resolved τ.avoids_none

theorem TypeExpr.all_avoid_none : ∀ ts : List TypeExpr, ∀ t ∈ ts, t.Avoids fun _ => False
  | [] => forall_mem_nil _
  | t :: ts => forall_mem_cons.mpr ⟨TypeExpr.avoids_none t,TypeExpr.all_avoid_none ts⟩

end

theorem ObjectDef.avoids_none (d : ObjectDef) (id : EntityId) : d.Avoids (fun _ => False) id :=
  ⟨fun _ => not_false,fun t _ => t.avoids_none,fun field _ => field.2.avoids_none,fun τ _ => τ.avoids_none,
    fun _ _ => not_false,fun field _ => field.type.avoids_none,fun _ _ _ => not_false⟩

theorem FunctionDef.avoids_none (d : FunctionDef) : d.Avoids fun _ => False :=
  ⟨fun param _ => param.declared.avoids_none,fun t _ => t.avoids_none,fun τ _ => τ.avoids_none⟩

theorem Program.avoids_none (p : Program) : p.Avoids fun _ => False := by
  refine ⟨not_false,fun _ => False.elim,fun id => ?_,fun n t _ => t.avoids_none,fun _ _ _ _ _ _ => not_false⟩
  cases p.entities.kind id with
  | object d => exact d.avoids_none id
  | function d => exact d.avoids_none
  | var τ _ => exact τ.avoids_none
  | typeAlias d => exact ⟨d.target.avoids_none,fun τ _ _ => τ.avoids_none⟩
  | _ => exact trivial

/-! ### Type arguments -/

/-- A property of types that passes to their parts. -/
structure PassesDown (t : EntityTable) (P : Ty → Prop) : Prop where
  array : ∀ element, P (.array element) → P element
  object : ∀ id d, t.kind id = .object d → P (.object id) → ∀ τ ∈ d.appliedArgs, P τ

section

variable {P : Ty → Prop} {typeParams : List String}

private theorem bound_set {bound : List (Option Ty)} (h : ∀ τ, some τ ∈ bound → P τ) {σ : Ty} (hσ : P σ)
    (index : Nat) : ∀ τ, some τ ∈ bound.set index (some σ) → P τ := by
  intro τ hτ
  rcases mem_or_eq_of_mem_set hτ with hτ | hτ
  · exact h τ hτ
  · cases hτ
    exact hσ

mutual

private theorem PassesDown.unify (hP : PassesDown t P) :
    ∀ (e : TypeExpr) {actual : Ty} {bound bound' : List (Option Ty)}, P actual →
      (∀ τ, some τ ∈ bound → P τ) → unify t typeParams e actual bound = some bound' → ∀ τ, some τ ∈ bound' → P τ
  | .named name location, actual, bound, bound', ha, hb, h => by
    unfold FormCompiler.unify at h
    split at h
    · cases h
      exact hb
    · split at h
      · split at h
        · cases h
          exact hb
        · cases h
      · cases h
        exact bound_set hb ha _
  | .resolved type, actual, bound, bound', _, hb, h => by
    cases h
    exact hb
  | .apply name args location, actual, bound, bound', ha, hb, h => by
    cases actual with
    | array element =>
      match args with
      | [arg] =>
        simp only [FormCompiler.unify] at h
        split at h
        · exact PassesDown.unify hP arg (hP.array element ha) hb h
        · cases h
          exact hb
      | [] | _ :: _ :: _ =>
        cases h
        exact hb
    | object id =>
      simp only [FormCompiler.unify] at h
      split at h
      · cases h
        exact hb
      · rename_i d hd
        split at h
        · exact PassesDown.unifyAll hP args (hP.object id d (EntityTable.object?_eq_some.mp hd) ha) hb h
        · cases h
          exact hb
    | prim _ | never =>
      simp only [FormCompiler.unify] at h
      cases h
      exact hb

private theorem PassesDown.unifyAll (hP : PassesDown t P) :
    ∀ (es : List TypeExpr) {actuals : List Ty} {bound bound' : List (Option Ty)}, (∀ τ ∈ actuals, P τ) →
      (∀ τ, some τ ∈ bound → P τ) → unifyAll t typeParams es actuals bound = some bound' →
      ∀ τ, some τ ∈ bound' → P τ
  | [], actuals, bound, bound', _, hb, h => by
    cases h
    exact hb
  | e :: es, actuals, bound, bound', ha, hb, h => by
    cases actuals with
    | nil =>
      cases h
      exact hb
    | cons actual actuals =>
      simp only [FormCompiler.unifyAll] at h
      split at h
      · rename_i bound1 h1
        exact PassesDown.unifyAll hP es (fun τ hτ => ha τ (by simp [hτ]))
          (PassesDown.unify hP e (ha actual (by simp)) hb h1) h
      · cases h

end

/-- Inferred type arguments are parts of the types of arguments. -/
theorem PassesDown.inferTypeArgs (hP : PassesDown t P) {params : List TypeExpr} {argTypes typeArgs : List Ty}
    (ha : ∀ τ ∈ argTypes, P τ) (h : inferTypeArgs t typeParams params argTypes = some typeArgs) :
    ∀ τ ∈ typeArgs, P τ := by
  simp only [FormCompiler.inferTypeArgs,Option.bind_eq_bind,Option.bind_eq_some_iff] at h
  obtain ⟨bound,hu,hm⟩ := h
  have hb := hP.unifyAll params ha (fun τ hτ => by simp at hτ) hu
  intro τ hτ
  refine hb τ ?_
  obtain ⟨x,hx,he⟩ := mem_of_mapM hm hτ
  exact he ▸ hx

end

end FormCompiler
