import FormCompiler.Proofs.Resolution.Growth

/-! What a type expression means once everything in it is resolved. Names of modules are settled before
resolution starts, so in a module a type expression never changes its meaning. This is why a generic
function gets the parameter types it was chosen for. -/

namespace FormCompiler

variable {s : ScopeId}

namespace ScopeTable

/-- Parents are older, modules lie in modules and bind no variables, and bound entities exist. -/
structure WellFormed (t : ScopeTable) (entities : EntityTable) : Prop where
  parent_lt : ∀ x y, (t.get x).parent = some y → y.index < x.index
  static_parent : ∀ x y, (t.get x).parent = some y → (t.get x).kind.isStatic = true → (t.get y).kind.isStatic = true
  bound : ∀ x name id, id ∈ t.here x name → id.index < entities.size
  plain : ∀ x name id, (t.get x).kind.isStatic = true → id ∈ t.here x name →
    ∀ τ mutable, entities.kind id ≠ .var τ mutable

def Static (t : ScopeTable) (s : ScopeId) : Prop := s.index < t.size ∧ (t.get s).kind.isStatic = true

variable {t u : ScopeTable} {entities : EntityTable} {x : ScopeId}

theorem Static.grows (hs : t.Static s) (h : t.Grows u) : u.Static s :=
  ⟨Nat.lt_of_lt_of_le hs.1 h.size,by rw [h.kind s hs.1]; exact hs.2⟩

theorem WellFormed.static_ancestors (hw : t.WellFormed entities) {n : Nat} (hs : t.Static s)
    (hx : x ∈ t.ancestorsWithin n s) : t.Static x := by
  induction n generalizing s with
  | zero => cases hx
  | succ n ih =>
    rcases List.mem_cons.mp hx with rfl | hx
    · exact hs
    · cases hp : (t.get s).parent with
      | none => simp [hp] at hx
      | some y =>
        simp only [hp] at hx
        have hlt := hw.parent_lt s y hp
        exact ih ⟨Nat.lt_trans hlt hs.1,hw.static_parent s y hp hs.2⟩ hx

theorem WellFormed.ancestors_grows (hw : t.WellFormed entities) (h : t.Grows u) {n m : Nat}
    (hs : s.index < t.size) (hn : s.index < n) (hm : s.index < m) : u.ancestorsWithin m s = t.ancestorsWithin n s := by
  induction n generalizing s m with
  | zero => omega
  | succ n ih =>
    obtain ⟨m,rfl⟩ := Nat.exists_eq_add_of_lt (Nat.lt_of_le_of_lt (Nat.zero_le _) hm)
    simp only [Nat.zero_add,ancestorsWithin,h.parent s hs]
    cases hp : (t.get s).parent with
    | none => rfl
    | some y =>
      have hlt := hw.parent_lt s y hp
      exact congrArg (s :: ·) (ih (Nat.lt_trans hlt hs) (by omega) (by omega))

end ScopeTable

theorem findSome?_congr_mem {α β : Type} {f g : α → Option β} {l : List α}
    (h : ∀ x ∈ l, f x = g x) : l.findSome? f = l.findSome? g := by
  induction l with
  | nil => rfl
  | cons x l ih =>
    rw [List.findSome?_cons,List.findSome?_cons,h x (by simp),ih fun y hy => h y (by simp [hy])]

private theorem find?_congr_mem {α : Type} {f g : α → Bool} {l : List α} (h : ∀ x ∈ l, f x = g x) :
    l.find? f = l.find? g := by
  induction l with
  | nil => rfl
  | cons x l ih =>
    rw [List.find?_cons,List.find?_cons,h x (by simp),ih fun y hy => h y (by simp [hy])]

/-- An entity that went on stands for the same type as before, if it did for one. -/
inductive EntityKind.Upholds : EntityKind → EntityKind → Prop
  | same (k : EntityKind) : Upholds k k
  | object {d e : ObjectDef} : e.typeParams = d.typeParams →
      (∀ args id, d.instances.lookup args = some id → e.instances.lookup args = some id) → Upholds (.object d) (.object e)
  | function {d e : FunctionDef} : Upholds (.function d) (.function e)
  | typeAlias {d e : AliasDef} : (∀ τ, d.stage = .done → d.resolved = some τ → e.stage = .done ∧ e.resolved = some τ) →
      Upholds (.typeAlias d) (.typeAlias e)

private theorem EntityKind.Grows.upholds {a b : EntityKind} (h : a.Grows b) : a.Upholds b := by
  cases h with
  | same => exact .same _
  | object hg => exact .object hg.typeParams hg.instances
  | function => exact .function
  | typeAlias hg => exact .typeAlias hg.done

namespace Program

variable {p q : Program} {id : EntityId} {name : String}

private theorem Grows.isFunction (h : p.Grows q) (hid : id.index < p.entities.size) :
    (q.entities.get id).isFunction = (p.entities.get id).isFunction := by
  have hk := h.kind id hid
  simp only [EntityTable.kind] at hk
  unfold Entity.isFunction
  generalize (p.entities.get id).kind = a at hk
  generalize (q.entities.get id).kind = b at hk
  cases hk <;> rfl

/-- Where the scopes around bind a name as before, it stands for the same entity. -/
theorem Grows.resolve?_of_here (h : p.Grows q) (hw : p.scopes.WellFormed p.entities)
    (hs : s.index < p.scopes.size) (name : String)
    (hb : ∀ x ∈ p.scopes.ancestors s, q.scopes.here x name = p.scopes.here x name) :
    q.scopes.resolve? q.entities s name = p.scopes.resolve? p.entities s name := by
  unfold ScopeTable.resolve? ScopeTable.ancestors
  rw [hw.ancestors_grows h.scopes hs hs (Nat.lt_of_lt_of_le hs h.scopes.size)]
  refine findSome?_congr_mem fun x hx => ?_
  rw [hb x hx]
  exact find?_congr_mem fun id hid => by rw [h.isFunction (hw.bound x name id hid)]

/-- In a module names stand for the same entities for good. -/
theorem Grows.resolve? (h : p.Grows q) (hw : p.scopes.WellFormed p.entities) (hs : p.scopes.Static s) (name : String) :
    q.scopes.resolve? q.entities s name = p.scopes.resolve? p.entities s name := by
  refine h.resolve?_of_here hw hs.1 name fun x hx => ?_
  have hst := hw.static_ancestors hs hx
  unfold ScopeTable.here Scope.bound
  rw [h.scopes.bindings x hst.1 hst.2]

mutual

/-- The type an expression stands for in a scope, if all it needs is there. -/
def meaning? (p : Program) (scope : ScopeId) : TypeExpr → Option Ty
  | .resolved type => some type
  | .named name _ => do
    let id ← p.scopes.resolve? p.entities scope name
    match p.entities.kind id with
    | .primitive prim => some (.prim prim)
    | .object d => if d.typeParams.length = 0 then some (.object id) else none
    | .typeAlias d => if d.stage = .done then d.resolved else none
    | _ => none
  | .apply name args _ => do
    let id ← p.scopes.resolve? p.entities scope name
    let types ← meanings? p scope args
    match p.entities.kind id, types with
    | .arrayType, [element] => some (.array element)
    | .object d, types => (d.instances.lookup types).map .object
    | _, _ => none

def meanings? (p : Program) (scope : ScopeId) : List TypeExpr → Option (List Ty)
  | [] => some []
  | t :: ts => do
    let type ← meaning? p scope t
    let types ← meanings? p scope ts
    return type :: types

end

variable {scope : ScopeId}

theorem resolve?_lt (hw : p.scopes.WellFormed p.entities)
    (hr : p.scopes.resolve? p.entities scope name = some id) : id.index < p.entities.size := by
  obtain ⟨x,_,hx⟩ := List.exists_of_findSome?_eq_some hr
  exact hw.bound x name id (List.mem_of_find?_eq_some hx)

section Upheld

variable (hr : ∀ name, q.scopes.resolve? q.entities scope name = p.scopes.resolve? p.entities scope name)
  (hk : ∀ name id, p.scopes.resolve? p.entities scope name = some id → (p.entities.kind id).Upholds (q.entities.kind id))
include hr hk

private theorem named_upheld {location : Location} {τ : Ty}
    (hm : p.meaning? scope (.named name location) = some τ) : q.meaning? scope (.named name location) = some τ := by
  simp only [meaning?,Option.bind_eq_bind,Option.bind_eq_some_iff] at hm ⊢
  obtain ⟨id,hname,hm⟩ := hm
  refine ⟨id,(hr name).trans hname,?_⟩
  have hup := hk name id hname
  generalize p.entities.kind id = a at hm hup
  generalize q.entities.kind id = b at hup ⊢
  cases hup with
  | same | function => exact hm
  | object ht =>
    simp only [ht]
    exact hm
  | typeAlias hdone =>
    simp only at hm ⊢
    split at hm
    · obtain ⟨h1,h2⟩ := hdone τ ‹_› hm
      simp [h1,h2]
    · cases hm

end Upheld

mutual

/-- Where names stand for entities that went on, expressions mean what they did. -/
theorem meaning?_upheld (hr : ∀ name, q.scopes.resolve? q.entities scope name = p.scopes.resolve? p.entities scope name)
    (hk : ∀ name id, p.scopes.resolve? p.entities scope name = some id →
      (p.entities.kind id).Upholds (q.entities.kind id)) :
    ∀ {t : TypeExpr} {τ : Ty}, p.meaning? scope t = some τ → q.meaning? scope t = some τ
  | .resolved _, _, hm => hm
  | .named _ _, _, hm => named_upheld hr hk hm
  | .apply name args location, τ, hm => by
    simp only [Program.meaning?,Option.bind_eq_bind,Option.bind_eq_some_iff] at hm ⊢
    obtain ⟨id,hname,types,ht,hm⟩ := hm
    refine ⟨id,(hr name).trans hname,types,meanings?_upheld hr hk ht,?_⟩
    have hup := hk name id hname
    generalize p.entities.kind id = a at hm hup
    generalize q.entities.kind id = b at hup ⊢
    cases hup with
    | same | function | typeAlias => exact hm
    | object _ hinstances =>
      obtain ⟨i,hi,rfl⟩ := Option.map_eq_some_iff.mp hm
      simp [hinstances types i hi]

private theorem meanings?_upheld
    (hr : ∀ name, q.scopes.resolve? q.entities scope name = p.scopes.resolve? p.entities scope name)
    (hk : ∀ name id, p.scopes.resolve? p.entities scope name = some id →
      (p.entities.kind id).Upholds (q.entities.kind id)) :
    ∀ {ts : List TypeExpr} {τs : List Ty}, p.meanings? scope ts = some τs → q.meanings? scope ts = some τs
  | [], _, hm => hm
  | t :: ts, τs, hm => by
    simp only [Program.meanings?,Option.bind_eq_bind,Option.bind_eq_some_iff] at hm ⊢
    obtain ⟨type,ht,types,hts,hm⟩ := hm
    exact ⟨type,meaning?_upheld hr hk ht,types,meanings?_upheld hr hk hts,hm⟩

end

theorem Grows.meaning? (h : p.Grows q) (hw : p.scopes.WellFormed p.entities) (hs : p.scopes.Static scope)
    {t : TypeExpr} {τ : Ty} (hm : p.meaning? scope t = some τ) : q.meaning? scope t = some τ :=
  meaning?_upheld (h.resolve? hw hs) (fun _ id hr => (h.kind id (resolve?_lt hw hr)).upholds) hm

theorem Grows.meanings? (h : p.Grows q) (hw : p.scopes.WellFormed p.entities) (hs : p.scopes.Static scope)
    {ts : List TypeExpr} {τs : List Ty} (hm : p.meanings? scope ts = some τs) : q.meanings? scope ts = some τs :=
  meanings?_upheld (h.resolve? hw hs) (fun _ id hr => (h.kind id (resolve?_lt hw hr)).upholds) hm

end Program

end FormCompiler
