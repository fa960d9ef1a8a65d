import FormCompiler.Proofs.Resolution.Reading
import FormCompiler.Proofs.Resolution.Whole
import FormCompiler.Proofs.Results

/-! Programs before resolution: everything is declared, nothing is resolved. They satisfy the invariant of resolution.
Reading declarations makes few kinds of changes, and what it does to a program, refused or not, follows from what each
of them does. -/

namespace FormCompiler

open EntityTable ScopeTable

variable {id : EntityId} {pub : Location → Prop} {scope parent : ScopeId} {location : Location}
  {receiver : Option TypeExpr} {d : ObjectDef} {valid : Prop} {ok : ScopeId → Prop} {items : List Form} {p q : Program}
  {name : String}

def ScopeTable.Has (t : ScopeTable) (scope : ScopeId) : Prop := scope.index < t.size

/-- Nothing is known of the object but its declaration; the base type is finished from the start. -/
structure ObjectDef.Fresh (d : ObjectDef) (id : EntityId) (ok : ScopeId → Prop) : Prop where
  scope : ok d.scope
  bare : d.stage = .done → d.fieldExprs = []
  parentExpr : ∀ x, d.parentExpr = some x → ∀ t, x.Good t
  fieldExprs : ∀ field ∈ d.fieldExprs, ∀ t, field.2.Good t
  stage : d.stage = .pending ∨ d.stage = .done ∧ id = Program.objectId ∧ d.typeParams = []
  blank : d.appliedArgs = [] ∧ d.parent = none ∧ d.fields = [] ∧ d.instances = []

structure FunctionDef.Fresh (d : FunctionDef) (ok : ScopeId → Prop) (exprs : Arena) : Prop where
  scope : ok d.scope
  params : ∀ param ∈ d.params, ∀ t, param.declared.Good t
  returnExpr : ∀ x, d.returnExpr = some x → ∀ t, x.Good t
  stages : d.signature = .pending ∧ d.bodyStage = .pending
  blank : d.returnType = none ∧ d.paramVars = [] ∧ d.instances = []
  body : ∀ first root, d.body = .expr first root → root.index < exprs.size ∧
    exprs.Tiles first.index (exprs.get root).shape.children root.index
  intrinsic : ∀ op, d.body = .intrinsic op → op.Declares d

structure AliasDef.Fresh (d : AliasDef) : Prop where
  target : ∀ t, d.target.Good t
  stage : d.stage = .pending

namespace EntityKind

/-- An entity of which nothing is resolved, in scopes as stated. -/
def Fresh (id : EntityId) (ok : ScopeId → Prop) (exprs : Arena) : EntityKind → Prop
  | .object d => d.Fresh id ok
  | .function d => d.Fresh ok exprs
  | .typeAlias d => d.Fresh
  | .module inner => ok inner
  | .var _ _ => False
  | _ => True

/-- The definition is of this very scope, and a form of the program wrote it. -/
def StandsIn (scopes : ScopeTable) (scope : ScopeId) : EntityKind → Prop
  | .function d => d.scope = scope ∧ d.intrinsic? = none
  | .object d => d.scope = scope
  | .typeAlias d => d.scope = scope
  | .module inner => scopes.Has inner ∧ (scopes.get inner).parent = some scope
  | _ => False

variable {k : EntityKind} {ok' : ScopeId → Prop} {a b : Arena}

/-- Entities depend on scopes and nodes by existence alone. -/
theorem Fresh.mono (h : k.Fresh id ok a) (hs : ∀ x, ok x → ok' x) (ha : a.size ≤ b.size)
    (hc : ∀ n, n.index < a.size → (b.get n).shape.children = (a.get n).shape.children) : k.Fresh id ok' b := by
  cases k with
  | object d => exact { h with scope := hs _ h.scope }
  | function d =>
    refine { h with scope := hs _ h.scope, body := fun first root hb => ?_ }
    obtain ⟨hlt,htiles⟩ := h.body first root hb
    refine ⟨Nat.lt_of_lt_of_le hlt ha,?_⟩
    rw [hc root hlt]
    exact htiles.of_children fun n _ hn => hc n (by omega)
  | module inner => exact hs _ h
  | _ => exact h

private theorem Fresh.instances (h : k.Fresh id ok a) : k.instances = [] := by
  cases k with
  | object d => exact (ObjectDef.Fresh.blank h).2.2.2
  | function d => exact (FunctionDef.Fresh.blank h).2.2
  | _ => rfl

private theorem Fresh.sane (h : k.Fresh id ok a) : k.Sane := by
  refine .of_new h.instances (fun d hk => ?_) fun d hk => ?_ <;> subst hk
  · exact ⟨(FunctionDef.Fresh.blank h).1,(FunctionDef.Fresh.stages h).2⟩
  · simp [AliasDef.Fresh.stage h]

end EntityKind

namespace Program

variable {t : ScopeTable} {r : Program}

/-- An entity that is not an operation the language provides. -/
def Declared (p : Program) (id : EntityId) : Prop :=
  id.index < p.entities.size ∧ ∀ d, p.entities.kind id = .function d → d.intrinsic? = none

/-- A program before resolution. Only the root scope has names of provided operations. -/
structure Fresh (p : Program) : Prop where
  parent_lt : ∀ x y, (p.scopes.get x).parent = some y → y.index < x.index
  static : ∀ x, (p.scopes.get x).kind.isStatic = true
  bound : ∀ x name id, id ∈ p.scopes.here x name → id.index < p.entities.size ∧ (x ≠ root → p.Declared id)
  exported : ∀ x id, id ∈ p.scopes.exports x → p.Declared id
  entities : ∀ id, (p.entities.kind id).Fresh id p.scopes.Has p.exprs
  nodes : ∀ n, (p.exprs.get n).Fresh
  bodies : ∀ f g d e n, p.entities.kind f = .function d → p.entities.kind g = .function e →
    d.Covers n → e.Covers n → f = g
  ancestry : p.ancestry.chains = []

def HasBase (p : Program) : Prop :=
  ∃ d, p.entities.kind objectId = .object d ∧ d.stage = .done ∧ d.typeParams = []

def HasArrays (p : Program) : Prop :=
  ∃ id others, p.scopes.here root "FixedArray" = id :: others ∧ p.entities.kind id = .arrayType

theorem Fresh.object (hF : p.Fresh) (hk : p.entities.kind id = .object d) : d.Fresh id p.scopes.Has := by
  have := hF.entities id
  rwa [hk] at this

theorem Fresh.function (hF : p.Fresh) {d : FunctionDef} (hk : p.entities.kind id = .function d) :
    d.Fresh p.scopes.Has p.exprs := by
  have := hF.entities id
  rwa [hk] at this

/-! ### The invariant at the start -/

private theorem Fresh.objectOk (hF : p.Fresh) (h : d.Fresh id p.scopes.Has) : p.ObjectOk id d where
  scope := ⟨h.scope,hF.static _⟩
  declared hd := by simp [h.bare hd]
  parentExpr x hx := h.parentExpr x hx _
  fieldExprs field hf := h.fieldExprs field hf _
  appliedArgs := by simp [h.blank.1]
  pending _ := h.blank.2.1
  unfinished _ := h.blank.2.2.1
  plain hd := by
    rcases h.stage with hs | hs
    · simp [hs] at hd
    · exact hs.2.2
  names := by simp [h.blank.2.2.1]
  fields := by simp [h.blank.2.2.1]
  base hd _ := by
    rcases h.stage with hs | hs
    · simp [hs] at hd
    · exact hs.2.1
  inherited := by simp [h.blank.2.1]
  instances := by simp [h.blank.2.2.2]

private theorem Fresh.functionOk (hF : p.Fresh) {d : FunctionDef} (h : d.Fresh p.scopes.Has p.exprs) :
    p.FunctionOk d where
  scope := ⟨h.scope,hF.static _⟩
  params param hp := h.params param hp _
  returnExpr x hx := h.returnExpr x hx _
  generic _ := by simp [h.stages.1]
  unsigned _ := ⟨h.blank.1,h.blank.2.1,h.stages.2⟩
  signed hs := by simp [h.stages.1] at hs
  returnType := by simp [h.blank.1]
  body first root hb := by
    obtain ⟨hlt,htiles⟩ := h.body first root hb
    exact ⟨hlt,htiles,fun _ n _ => ⟨(hF.nodes n).type,(hF.nodes n).raw _⟩,
      fun hd => by simp [h.stages.2] at hd,fun hd => by simp [h.stages.2] at hd⟩
  intrinsic := h.intrinsic
  instances := by simp [h.blank.2.2]

theorem Fresh.orderly (hF : p.Fresh) : p.Orderly := by
  refine ⟨fun id => (hF.entities id).sane,fun g args id hm => ?_⟩
  rw [(hF.entities g).instances] at hm
  cases hm

theorem Fresh.inv (hF : p.Fresh) (hbase : p.HasBase) : p.Inv where
  scopes := ⟨hF.parent_lt,fun _ y _ _ => hF.static y,fun x name id h => (hF.bound x name id h).1,
    fun x name id _ _ τ m hk => by simpa [hk,EntityKind.Fresh] using hF.entities id⟩
  entities id := by
    have h := hF.entities id
    cases hk : p.entities.kind id with
    | object d => exact hF.objectOk (hF.object hk)
    | function d => exact hF.functionOk (hF.function hk)
    | typeAlias d =>
      rw [hk] at h
      exact ⟨h.target _,fun τ hd => by simp [h.stage] at hd⟩
    | var τ m => simp [hk,EntityKind.Fresh] at h
    | _ => trivial
  base := hbase
  founded id d above hk hp := by simp [(hF.object hk).blank.2.1] at hp
  memo id l hl := by simp [hF.ancestry] at hl
  nodes id τ ht := by simp [Typed,(hF.nodes id).type] at ht
  bodies := hF.bodies
  orderly := hF.orderly
  vars := by
    have hi : ∀ n, (p.exprs.get n).shape.intros = [] := fun n => ((hF.nodes n).raw p.entities).intros
    have hv : ∀ f d, p.entities.kind f = .function d → d.paramVars = [] := fun f d hk => (hF.function hk).blank.2.1
    constructor
    · simp [hi]
    · simp [hi]
    · simp [hi]
    · intro f d hk
      simp [hv f d hk]
    · intro f d hk
      simp [hv f d hk]
    · intro f d hk
      simp [hv f d hk]

theorem Fresh.arraysNamed (hF : p.Fresh) (ha : p.HasArrays) : p.ArraysNamed := by
  obtain ⟨id,others,hr,hk⟩ := ha
  have hroot : root.index < p.scopes.size := by
    apply Classical.byContradiction
    intro hn
    rw [here,get_of_size_le (Nat.le_of_not_lt hn)] at hr
    cases hr
  refine ⟨⟨hroot,hF.static _⟩,fun element location => ?_⟩
  have hparent : (p.scopes.get root).parent = none := by
    cases hp : (p.scopes.get root).parent with
    | none => rfl
    | some y => exact absurd (hF.parent_lt _ y hp) (Nat.not_lt_zero _)
  have hfun : (p.entities.get id).isFunction = false := by
    simp only [EntityTable.kind] at hk
    simp [Entity.isFunction,hk]
  have hres : p.scopes.resolve? p.entities root "FixedArray" = some id := by
    obtain ⟨n,hn⟩ : ∃ n, p.scopes.size = n + 1 := ⟨p.scopes.size - 1,by omega⟩
    simp [resolve?,ancestors,hn,ancestorsWithin,hparent,hr,hfun]
  simp [meaning?,meanings?,hres,hk]

theorem Fresh.idle (hF : p.Fresh) (f : EntityId) : ¬ p.Busy f := by
  rintro ⟨d,hk,hb⟩
  simp [(hF.function hk).stages.2] at hb

/-! ### Additions -/

/-- Definitions, names and nodes were added that nothing was done about. -/
structure Scans (p q : Program) : Prop where
  entities : p.entities.size ≤ q.entities.size
  entity : ∀ id, id.index < p.entities.size → q.entities.get id = p.entities.get id
  new : ∀ id, p.entities.size ≤ id.index → (q.entities.kind id).Sane ∧ (q.entities.kind id).instances = []
  exprs : p.exprs.size ≤ q.exprs.size
  node : ∀ n, n.index < p.exprs.size → q.exprs.get n = p.exprs.get n
  scopes : p.scopes.size ≤ q.scopes.size
  parent : ∀ x, p.scopes.Has x → (q.scopes.get x).parent = (p.scopes.get x).parent
  here : ∀ x name, ∃ more, q.scopes.here x name = p.scopes.here x name ++ more
  instantiating : q.instantiating = p.instantiating
  depth : q.instanceDepth = p.instanceDepth

namespace Scans

theorem kind (h : p.Scans q) (hid : id.index < p.entities.size) : q.entities.kind id = p.entities.kind id := by
  rw [EntityTable.kind,h.entity id hid,EntityTable.kind]

private theorem new_nothing {t : EntityTable} (hid : t.size ≤ id.index) :
    (t.kind id).Sane ∧ (t.kind id).instances = [] := by
  rw [kind_of_size_le hid]
  exact ⟨.of_new rfl (by simp) (by simp),rfl⟩

private theorem setScopes (hs : p.scopes.size ≤ t.size)
    (hp : ∀ x, p.scopes.Has x → (t.get x).parent = (p.scopes.get x).parent)
    (hh : ∀ x name, ∃ more, t.here x name = p.scopes.here x name ++ more) : p.Scans { p with scopes := t } :=
  ⟨Nat.le_refl _,fun _ _ => rfl,fun _ => new_nothing,Nat.le_refl _,fun _ _ => rfl,hs,hp,hh,rfl,rfl⟩

theorem wait (uses : List PendingUse) (impls : List PendingImpl) :
    p.Scans { p with pendingUses := uses, pendingImpls := impls } :=
  ⟨Nat.le_refl _,fun _ _ => rfl,fun _ => new_nothing,Nat.le_refl _,fun _ _ => rfl,
    Nat.le_refl _,fun _ _ => rfl,fun _ _ => ⟨[],by simp⟩,rfl,rfl⟩

theorem refl (p : Program) : p.Scans p := wait p.pendingUses p.pendingImpls

theorem trans (h : p.Scans q) (k : q.Scans r) : p.Scans r where
  entities := Nat.le_trans h.entities k.entities
  entity id hid := (k.entity id (Nat.lt_of_lt_of_le hid h.entities)).trans (h.entity id hid)
  new id hid := by
    by_cases hq : id.index < q.entities.size
    · rw [k.kind hq]
      exact h.new id hid
    · exact k.new id (Nat.le_of_not_lt hq)
  exprs := Nat.le_trans h.exprs k.exprs
  node n hn := (k.node n (Nat.lt_of_lt_of_le hn h.exprs)).trans (h.node n hn)
  scopes := Nat.le_trans h.scopes k.scopes
  parent x hx := (k.parent x (Nat.lt_of_lt_of_le hx h.scopes)).trans (h.parent x hx)
  here x name := by
    obtain ⟨l,hl⟩ := h.here x name
    obtain ⟨l',hl'⟩ := k.here x name
    exact ⟨l ++ l',by rw [hl',hl,List.append_assoc]⟩
  instantiating := k.instantiating.trans h.instantiating
  depth := k.depth.trans h.depth

private theorem alloc (name : String) (location : Location) {kind : EntityKind} (hs : kind.Sane)
    (hi : kind.instances = []) : p.Scans { p with entities := (p.entities.alloc name location kind).2 } := by
  refine ⟨by simp,fun id hid => get_alloc_of_lt hid ..,fun id hid => ?_,Nat.le_refl _,fun _ _ => rfl,
    Nat.le_refl _,fun _ _ => rfl,fun _ _ => ⟨[],by simp⟩,rfl,rfl⟩
  rcases p.entities.kind_alloc_cases name location kind id with he | ⟨_,he⟩
  · simp only [he]
    exact new_nothing hid
  · simp only [he]
    exact ⟨hs,hi⟩

private theorem appends (h : p.Appends q) : p.Scans q := by
  obtain ⟨a,rfl⟩ := h.rest
  exact ⟨Nat.le_refl _,fun _ _ => rfl,fun _ => new_nothing,h.size,h.old,Nat.le_refl _,fun _ _ => rfl,
    fun _ _ => ⟨[],by simp⟩,rfl,rfl⟩

theorem bind (scope : ScopeId) (name : String) (id : EntityId) :
    p.Scans { p with scopes := p.scopes.bind scope name id } :=
  setScopes (by simp) (fun _ _ => parent_bind) fun _ _ => here_bind_appends.imp fun _ h => h.1

private theorem push (parent : ScopeId) : p.Scans { p with scopes := (p.scopes.push parent .module).2 } :=
  setScopes (by simp) (fun _ hx => by rw [get_push_of_lt hx]) fun _ _ => ⟨[],by simp [here_push]⟩

private theorem addExport (scope : ScopeId) (id : EntityId) :
    p.Scans { p with scopes := p.scopes.addExport scope id } := by
  refine setScopes (by simp [ScopeTable.addExport,ScopeTable.size]) (fun x _ => ?_) fun _ _ =>
    ⟨[],by simp [here_addExport]⟩
  rw [get_addExport]
  split <;> rfl

theorem declared (h : p.Scans q) (hd : p.Declared id) : q.Declared id :=
  ⟨Nat.lt_of_lt_of_le hd.1 h.entities,by rw [h.kind hd.1]; exact hd.2⟩

theorem hasBase (h : p.Scans q) (hb : p.HasBase) : q.HasBase := by
  obtain ⟨d,hk,hd⟩ := hb
  exact ⟨d,(h.kind (lt_size_of_kind (by simp [hk]))).trans hk,hd⟩

theorem hasArrays (h : p.Scans q) (ha : p.HasArrays) : q.HasArrays := by
  obtain ⟨id,others,hr,hk⟩ := ha
  obtain ⟨more,hm⟩ := h.here root "FixedArray"
  exact ⟨id,others ++ more,by rw [hm,hr]; rfl,(h.kind (lt_size_of_kind (by simp [hk]))).trans hk⟩

theorem leaves (hO : p.Orderly) (h : p.Scans q) : p.Leaves none q := by
  have ha : p.Advances none q := by
    refine ⟨h.entities,fun id hid => ?_,fun id hid _ => ?_,h.exprs,fun n hn => by rw [h.node n hn],
      h.instantiating,h.depth,fun g args hg _ hn => ?_⟩ <;> rw [h.kind ‹_›]
    · exact .same _
    · exact .refl _
    · exact hn
  refine ⟨hO.advance ha (fun id => ?_) fun g args id hm => ?_,ha⟩
  · rcases Nat.lt_or_ge id.index p.entities.size with hid | hid
    · exact .inl (h.kind hid)
    · exact .inr (h.new id hid).1
  · rcases Nat.lt_or_ge g.index p.entities.size with hg | hg
    · exact .inl (h.kind hg ▸ hm)
    · rw [(h.new g hg).2] at hm
      cases hm

end Scans

/-- Additions that keep a program as it is before resolution. -/
structure Declares (p q : Program) : Prop extends p.Scans q where
  fresh : q.Fresh

theorem Declares.refl (hF : p.Fresh) : p.Declares p := ⟨.refl p,hF⟩

theorem Declares.trans (h : p.Declares q) (k : q.Declares r) : p.Declares r := ⟨h.toScans.trans k.toScans,k.fresh⟩

namespace Fresh

section

variable (hF : p.Fresh)
include hF

theorem alloc (name : String) (location : Location) {kind : EntityKind}
    (hk : kind.Fresh ⟨p.entities.size⟩ p.scopes.Has p.exprs)
    (hbody : ∀ d, kind = .function d → ∀ f e n, p.entities.kind f = .function e → d.Covers n → ¬ e.Covers n) :
    p.Declares { p with entities := (p.entities.alloc name location kind).2 } := by
  have hS : p.Scans { p with entities := (p.entities.alloc name location kind).2 } := .alloc name location hk.sane hk.instances
  refine ⟨hS,hF.parent_lt,hF.static,fun x n id h => ?_,fun x id h => hS.declared (hF.exported x id h),fun id => ?_,
    hF.nodes,fun f g d e n hf hg hd he => ?_,hF.ancestry⟩
  · obtain ⟨h1,h2⟩ := hF.bound x n id h
    exact ⟨Nat.lt_of_lt_of_le h1 hS.entities,fun hx => hS.declared (h2 hx)⟩
  · rcases kind_alloc_cases p.entities name location kind id with h | ⟨rfl,h⟩
    · rw [h]
      exact hF.entities id
    · rw [h]
      exact hk
  · rcases kind_alloc_cases p.entities name location kind f with h | ⟨rfl,h⟩ <;>
      rcases kind_alloc_cases p.entities name location kind g with h' | ⟨rfl,h'⟩ <;>
      rw [h] at hf <;> rw [h'] at hg
    · exact hF.bodies f g d e n hf hg hd he
    · exact absurd hd (hbody e hg f d n hf he)
    · exact absurd he (hbody d hf g e n hg hd)

/-- A change of scopes alone. -/
theorem setScopes (hS : p.Scans { p with scopes := t })
    (hp : ∀ x y, (t.get x).parent = some y → y.index < x.index) (hk : ∀ x, (t.get x).kind.isStatic = true)
    (hb : ∀ x name id, id ∈ t.here x name → id ∈ p.scopes.here x name ∨
      id.index < p.entities.size ∧ (x ≠ root → p.Declared id))
    (he : ∀ x id, id ∈ t.exports x → id ∈ p.scopes.exports x ∨ p.Declared id) :
    p.Declares { p with scopes := t } := by
  refine ⟨hS,hp,hk,fun x n id h => ?_,fun x id h => ?_,fun id => ?_,hF.nodes,hF.bodies,hF.ancestry⟩
  · exact (hb x n id h).elim (hF.bound x n id) fun h => h
  · exact (he x id h).elim (hF.exported x id) fun h => h
  · exact (hF.entities id).mono (fun _ h => Nat.lt_of_lt_of_le h hS.scopes) (Nat.le_refl _) fun _ _ => rfl

private theorem push (hp : p.scopes.Has parent) : p.Declares { p with scopes := (p.scopes.push parent .module).2 } := by
  refine hF.setScopes (.push parent) (fun x y h => ?_) (fun x => ?_) (fun x n id h => ?_) fun x id h => ?_
  · rw [get_push] at h
    split at h
    · cases h
      exact Nat.lt_of_lt_of_eq hp (Eq.symm ‹_›)
    · exact hF.parent_lt x y h
  · rw [get_push]
    split
    · rfl
    · exact hF.static x
  · exact .inl (by rwa [here_push] at h)
  · rw [exports,get_push] at h
    split at h
    · cases h
    · exact .inl h

theorem bind (scope : ScopeId) (name : String) (hid : id.index < p.entities.size) (hd : scope ≠ root → p.Declared id) :
    p.Declares { p with scopes := p.scopes.bind scope name id } := by
  refine hF.setScopes (.bind scope name id) (fun x y h => hF.parent_lt x y (by simpa using h))
    (fun x => by simpa using hF.static x) (fun x n j h => ?_) fun x j h => .inl (by simpa using h)
  rcases mem_here_bind h with h | ⟨rfl,rfl, -⟩
  · exact .inl h
  · exact .inr ⟨hid,hd⟩

private theorem addExport (scope : ScopeId) (hd : p.Declared id) :
    p.Declares { p with scopes := p.scopes.addExport scope id } := by
  refine hF.setScopes (.addExport scope id) (fun x y h => hF.parent_lt x y ?_) (fun x => ?_)
    (fun x n j h => .inl (by rwa [here_addExport] at h)) fun x j h => ?_
  · rw [get_addExport] at h
    split at h <;> exact h
  · rw [get_addExport]
    split <;> exact hF.static x
  · rw [exports_addExport,List.mem_append] at h
    refine h.imp_right fun h => ?_
    split at h
    · rwa [List.mem_singleton.mp h]
    · cases h

/-- New nodes belong to no body yet. -/
theorem appends (ha : p.Appends q) : p.Declares q := by
  refine ⟨.appends ha,?_⟩
  obtain ⟨a,rfl⟩ := ha.rest
  refine ⟨hF.parent_lt,hF.static,hF.bound,hF.exported,fun id => ?_,fun n => ?_,hF.bodies,hF.ancestry⟩
  · exact (hF.entities id).mono (fun _ h => h) ha.size fun n hn => by rw [ha.old n hn]
  · by_cases hn : n.index < p.exprs.size
    · rw [ha.old n hn]
      exact hF.nodes n
    · exact ha.new n (Nat.le_of_not_lt hn)

/-- What waits for later does not matter now. -/
theorem wait (uses : List PendingUse) (impls : List PendingImpl) :
    p.Declares { p with pendingUses := uses, pendingImpls := impls } :=
  ⟨.wait uses impls,hF.parent_lt,hF.static,hF.bound,hF.exported,hF.entities,hF.nodes,hF.bodies,hF.ancestry⟩

end

end Fresh

/-! ### Changes -/

/-- The entity is declared directly in the scope. -/
def Stands (p : Program) (scope : ScopeId) (id : EntityId) : Prop := (p.entities.kind id).StandsIn p.scopes scope

namespace Stands

theorem lt_size (h : p.Stands scope id) : id.index < p.entities.size := by
  refine lt_size_of_kind fun hk => ?_
  simp [Stands,EntityKind.StandsIn,hk] at h

private theorem declared (h : p.Stands scope id) : p.Declared id := by
  refine ⟨h.lt_size,fun d hk => ?_⟩
  rw [Stands,hk] at h
  exact h.2

theorem scans (h : p.Stands scope id) (hS : p.Scans q) : q.Stands scope id := by
  have hk := hS.kind h.lt_size
  rw [Stands] at h
  rw [Stands,hk]
  cases hkind : p.entities.kind id <;> rw [hkind] at h
  case module => exact ⟨Nat.lt_of_lt_of_le h.1 hS.scopes,(hS.parent _ h.1).trans h.2⟩
  all_goals exact h

end Stands

/-- One change that is made where declarations are read. If `valid`, they are read into scopes that exist. What is made
visible from outside stands at a place in `pub`. -/
inductive Change (valid : Prop) (pub : Location → Prop) (p : Program) : Program → Prop
  | read {q : Program} : p.Appends q → Change valid pub p q
  | wait (uses : List PendingUse) (impls : List PendingImpl) :
      Change valid pub p { p with pendingUses := uses, pendingImpls := impls }
  | alloc (name : String) (location : Location) {kind : EntityKind} :
      kind.Fresh ⟨p.entities.size⟩ (fun x => valid → p.scopes.Has x) p.exprs →
      (∀ d, kind = .function d → ∀ n, ¬ d.Covers n) →
      Change valid pub p { p with entities := (p.entities.alloc name location kind).2 }
  | define (name : String) (location : Location) {q : Program} {root : ExprId} {d : FunctionDef} :
      p.Reads [root] q → d.body = .expr p.exprs.next root → d.Fresh (fun x => valid → p.scopes.Has x) q.exprs →
      Change valid pub p { q with entities := (q.entities.alloc name location (.function d)).2 }
  | push (parent : ScopeId) : (valid → p.scopes.Has parent) →
      Change valid pub p { p with scopes := (p.scopes.push parent .module).2 }
  | bind (name : String) {scope : ScopeId} {id : EntityId} : p.Stands scope id →
      Change valid pub p { p with scopes := p.scopes.bind scope name id }
  | addExport {scope : ScopeId} {id : EntityId} : p.Stands scope id → pub (p.entities.get id).location →
      Change valid pub p { p with scopes := p.scopes.addExport scope id }

def Changes (valid : Prop) (pub : Location → Prop) : Program → Program → Prop :=
  Relation.ReflTransGen (Change valid pub)

theorem Change.scans (h : Change valid pub p q) : p.Scans q := by
  cases h with
  | read h => exact .appends h
  | wait uses impls => exact .wait uses impls
  | alloc name location hk _ => exact .alloc name location hk.sane hk.instances
  | define name location hr _ hd =>
    have hk : (EntityKind.function _).Fresh ⟨p.entities.size⟩ _ _ := hd
    exact (Scans.appends hr.appends).trans (.alloc name location hk.sane hk.instances)
  | push parent _ => exact .push parent
  | bind name _ => exact .bind _ name _
  | addExport => exact .addExport _ _

private theorem Change.fresh (h : Change valid pub p q) (hv : valid) (hF : p.Fresh) : q.Fresh := by
  cases h with
  | read h => exact (hF.appends h).fresh
  | wait uses impls => exact (hF.wait uses impls).fresh
  | alloc name location hk hbody =>
    exact (hF.alloc name location (hk.mono (fun _ h => h hv) (Nat.le_refl _) fun _ _ => rfl)
      fun d hd _ _ n _ hn => absurd hn (hbody d hd n)).fresh
  | @define name location q root d hr hbody hd =>
    have hq := hF.appends hr.appends
    have hkind : ∀ f, q.entities.kind f = p.entities.kind f ∧ q.scopes = p.scopes := by
      obtain ⟨a,rfl⟩ := hr.appends.rest
      exact fun f => ⟨rfl,rfl⟩
    have hnew : (EntityKind.function d).Fresh ⟨q.entities.size⟩ q.scopes.Has q.exprs :=
      { hd with scope := (hkind ⟨0⟩).2 ▸ hd.scope hv }
    refine (hq.fresh.alloc name location hnew fun e he f e' n hf hn => ?_).fresh
    -- the bodies of older functions end before this one starts
    cases he
    obtain ⟨first,last,hb,hfirst,_⟩ := hn
    cases hbody.symm.trans hb
    rintro ⟨first',last',hb',_,hlast⟩
    have hlt := ((hF.function ((hkind f).1 ▸ hf)).body first' last' hb').1
    simp only [Arena.next] at hfirst
    omega
  | push parent hp => exact (hF.push (hp hv)).fresh
  | bind name hs => exact (hF.bind _ name hs.lt_size fun _ => hs.declared).fresh
  | addExport hs _ => exact (hF.addExport _ hs.declared).fresh

theorem Changes.scans (h : p.Changes valid pub q) : p.Scans q := by
  induction h with
  | refl => exact .refl p
  | tail _ h ih => exact ih.trans h.scans

private theorem Changes.fresh (h : p.Changes valid pub q) (hv : valid) (hF : p.Fresh) : q.Fresh := by
  induction h with
  | refl => exact hF
  | tail _ h ih => exact h.fresh hv ih

theorem Changes.declares (h : p.Changes valid pub q) (hv : valid) (hF : p.Fresh) : p.Declares q :=
  ⟨h.scans,h.fresh hv hF⟩

end Program

/-! ### Headers -/

private theorem good_param (hr : ∀ x, receiver = some x → ∀ t, x.Good t) {form : Form} {param : Param}
    (h : Param.ofForm receiver form = .ok param) (t : EntityTable) : param.declared.Good t := by
  unfold Param.ofForm at h
  split at h
  · cases h
    exact hr _ rfl t
  · obtain ⟨⟨name,x⟩,hx,h⟩ := except_bind_ok.mp h
    cases h
    exact TypeExpr.good_typedName hx

/-- The types in the head of a function are as they are written. -/
def FunctionHeader.Good (h : FunctionHeader) : Prop :=
  (∀ params, h.params = some params → ∀ param ∈ params, ∀ t, param.declared.Good t) ∧
    ∀ x, h.returnExpr = some x → ∀ t, x.Good t

private theorem good_readParts (hr : ∀ x, receiver = some x → ∀ t, x.Good t) {header r : FunctionHeader}
    (hh : header.Good) (h : FunctionHeader.readParts receiver header items = .ok r) : r.Good := by
  induction items generalizing header with
  | nil =>
    cases h
    exact hh
  | cons item rest ih =>
    simp only [FunctionHeader.readParts] at h
    split at h
    · obtain ⟨names,_,h⟩ := except_bind_ok.mp h
      refine ih ?_ h
      exact hh
    · split at h
      · obtain ⟨params,hn,h⟩ := except_bind_ok.mp h
        refine ih ?_ h
        refine ⟨fun ps hps param hp => ?_,hh.2⟩
        cases hps
        obtain ⟨form,_,hform⟩ := List.mem_map.mp (mapM_ok.mp hn ▸ List.mem_map_of_mem hp)
        exact good_param hr hform
      · split at h
        · split at h
          · obtain ⟨x,hx,h⟩ := except_bind_ok.mp h
            refine ih ?_ h
            refine ⟨hh.1,fun y hy t => ?_⟩
            cases hy
            exact TypeExpr.good_ofForm hx
          · cases h
        · cases h
          exact hh

private theorem good_header (hr : ∀ x, receiver = some x → ∀ t, x.Good t)
    {r : FunctionHeader × List Param} (h : FunctionHeader.ofItems receiver location items = .ok r) :
    (∀ param ∈ r.2, ∀ t, param.declared.Good t) ∧ ∀ x, r.1.returnExpr = some x → ∀ t, x.Good t := by
  obtain ⟨name,_,h⟩ := except_bind_ok.mp h
  obtain ⟨header,hp,h⟩ := except_bind_ok.mp h
  have hg := good_readParts hr ⟨by simp,by simp⟩ hp
  cases hps : header.params with
  | none => simp [hps] at h
  | some params =>
    simp only [hps] at h
    cases h
    exact ⟨hg.1 params hps,hg.2⟩

private theorem good_objectParts {r : ObjectDef} (hd : d.Fresh id ok)
    (hp : d.stage = .pending ∧ d.scope = scope) (h : ObjectDef.readParts d items = .ok r) :
    r.Fresh id ok ∧ r.scope = scope := by
  induction items generalizing d with
  | nil =>
    cases h
    exact ⟨hd,hp.2⟩
  | cons item rest ih =>
    simp only [ObjectDef.readParts] at h
    split at h
    · obtain ⟨names,_,h⟩ := except_bind_ok.mp h
      refine ih ?_ ?_ h
      · exact { hd with stage := .inl hp.1 }
      · exact hp
    · split at h
      · split at h
        · obtain ⟨x,hx,h⟩ := except_bind_ok.mp h
          refine ih ?_ ?_ h
          · refine { hd with parentExpr := fun y hy t => ?_ }
            cases hy
            exact TypeExpr.good_ofForm hx
          · exact hp
        · cases h
      · obtain ⟨⟨name,x⟩,hx,h⟩ := except_bind_ok.mp h
        split at h
        · cases h
        · refine ih ?_ ?_ h
          · refine { hd with bare := by simp [hp.1], fieldExprs := fun f hf t => ?_ }
            rcases List.mem_append.mp hf with hf | hf
            · exact hd.fieldExprs f hf t
            · cases List.mem_singleton.mp hf
              exact TypeExpr.good_typedName hx
          · exact hp

/-! ### Declarations -/

namespace Check

variable {α β : Type} {x : Check α} {f : α → Check β}

/-- The action makes changes, refused or not; if it is not, its result is as stated. -/
def Changing (valid : Prop) (pub : Location → Prop) (x : Check α) (p : Program) (post : α → Program → Prop) : Prop :=
  Ends x p (fun a q => p.Changes valid pub q ∧ post a q) fun _ q => p.Changes valid pub q

namespace Changing

variable {P : α → Program → Prop} {post : β → Program → Prop}

theorem pure {b : β} (h : post b p) : Changing valid pub (pure b) p post := ⟨.refl,h⟩

private theorem throw (d : Diagnostic) : Changing valid pub (throw d : Check β) p post := Relation.ReflTransGen.refl

theorem bind (hx : Changing valid pub x p P)
    (hf : ∀ a q, p.Changes valid pub q → P a q → Changing valid pub (f a) q post) :
    Changing valid pub (x >>= f) p post :=
  Ends.bind hx fun a q _ h => (hf a q h.1 h.2).mono (fun _ _ _ k => ⟨h.1.trans k.1,k.2⟩) fun _ _ k => h.1.trans k

private theorem except {e : Except Diagnostic α} (hf : ∀ a, e = .ok a → Changing valid pub (f a) p post) :
    Changing valid pub (ofExcept e >>= f) p post := by
  cases e with
  | ok a => exact hf a rfl
  | error d => exact throw d

private theorem modify {g : Program → Program} (h : p.Change valid pub (g p)) :
    Changing valid pub (modify g : Check PUnit) p fun _ _ => True := ⟨.single h,trivial⟩

private theorem alloc {kind : EntityKind} (hk : kind.Fresh ⟨p.entities.size⟩ (fun x => valid → p.scopes.Has x) p.exprs)
    (hbody : ∀ d, kind = .function d → ∀ n, ¬ d.Covers n) :
    Changing valid pub (allocEntity name location kind) p fun id q => q.scopes = p.scopes ∧
      q.entities.get id = ⟨name,location,kind⟩ :=
  ⟨.single (.alloc name location hk hbody),rfl,get_alloc_self name location kind⟩

private theorem register (h : p.Stands scope id) : Changing valid pub (register scope id) p fun _ _ => True := by
  refine .run rfl (except fun scopes hs => ?_)
  rcases bind_of_registerAs hs with rfl | rfl
  · exact ⟨.refl,trivial⟩
  · exact modify (.bind _ h)

end Changing

end Check

/-- In an item of a `declare` block a function is made visible that stands at a place. -/
inductive Form.PublishesHost : Bool → Form → Location → Prop
  | here {head : Form} {items : List Form} {place : Location} : head.identifier? = some "fn" →
      PublishesHost true (.list (head :: items) place) place
  | block {exported : Bool} {head form : Form} {items : List Form} {location place : Location} :
      head.identifier? = some "block" → form ∈ items → PublishesHost exported form place →
      PublishesHost exported (.list (head :: items) location) place
  | pub {exported : Bool} {head form : Form} {items : List Form} {location place : Location} :
      head.identifier? = some "pub" → form ∈ items → PublishesHost true form place →
      PublishesHost exported (.list (head :: items) location) place

/-- In a declaration something is made visible that is declared at a place: it stands under `pub`. -/
inductive Form.Publishes : Form → Location → Prop
  | here {head form : Form} {location : Location} : head.identifier? = some "pub" →
      Publishes (.list [head,form] location) form.location
  | pub {head form : Form} {location place : Location} : head.identifier? = some "pub" → Publishes form place →
      Publishes (.list [head,form] location) place
  | module {head name form : Form} {forms : List Form} {location place : Location} : head.identifier? = some "mod" →
      form ∈ forms → Publishes form place → Publishes (.list (head :: name :: forms) location) place
  | host {head name form : Form} {forms : List Form} {location place : Location} :
      head.identifier? = some "declare" → form ∈ forms → form.PublishesHost false place →
      Publishes (.list (head :: name :: forms) location) place

namespace Declaration

open Check

variable {outer : List String} {exported : Bool} {place : Location} {host : String}

/-- An entity was declared in a scope at a place. -/
def Declaring (scope : ScopeId) (place : Location) (id : EntityId) (q : Program) : Prop :=
  q.Stands scope id ∧ (q.entities.get id).location = place

private theorem declaring_of_get {kind : EntityKind} (h : p.entities.get id = ⟨name,place,kind⟩)
    (hs : kind.StandsIn p.scopes scope) : Declaring scope place id p :=
  ⟨by rwa [Program.Stands,EntityTable.kind,h],by rw [h]⟩

private theorem Declaring.scans (h : Declaring scope place id p) (hS : p.Scans q) :
    Declaring scope place id q := ⟨h.1.scans hS,by rw [hS.entity id h.1.lt_size]; exact h.2⟩

theorem changes_newModule (hs : valid → p.scopes.Has parent) :
    Changing valid pub (newModule parent name location) p fun r q =>
      Declaring parent location r.1 q ∧ r.2.index = p.scopes.size ∧ q.scopes.Has r.2 := by
  have hpush : Changing valid pub (pushScope parent .module) p fun inner q => inner.index = p.scopes.size ∧
      q.scopes.Has inner ∧ (q.scopes.get inner).parent = some parent :=
    ⟨.single (.push parent hs),rfl,by simp [ScopeTable.Has,ScopeTable.size],
      congrArg Scope.parent (get_push_self parent .module)⟩
  refine hpush.bind fun inner q _ h => ?_
  obtain ⟨hsize,hinner,hparent⟩ := h
  refine Changing.bind (.alloc (fun _ => hinner) (by simp)) fun id r _ h => ?_
  obtain ⟨hscopes,hget⟩ := h
  have hd : Declaring parent location id r := declaring_of_get hget (hscopes ▸ ⟨hinner,hparent⟩)
  refine (Changing.register hd.1).bind fun _ s h _ => .pure ⟨hd.scans h.scans,hsize,?_⟩
  exact Nat.lt_of_lt_of_le (hscopes ▸ hinner) h.scans.scopes

private theorem changes_newFunction (hr : ∀ x, receiver = some x → ∀ t, x.Good t) (hs : valid → p.scopes.Has scope) :
    Changing valid pub (newFunction scope receiver outer location items) p (Declaring scope location) := by
  refine .except fun r hh => .run rfl ?_
  obtain ⟨hparams,hreturn⟩ := good_header hr hh
  refine ((Body.reads_ofSequence location r.1.body p).mono (fun _ _ _ h => h)
    fun _ _ h => Relation.ReflTransGen.single (.read h)).bind fun root q _ h => ?_
  have hbody : ∀ first last, FunctionBody.expr p.exprs.next root = .expr first last → last.index < q.exprs.size ∧
      q.exprs.Tiles first.index (q.exprs.get last).shape.children last.index := by
    rintro first last hb
    cases hb
    cases h.1.tiles with
    | cons htiles hend => exact ⟨hend.le,htiles⟩
  refine ⟨.single (.define r.1.name location h.1 rfl ⟨hs,hparams,hreturn,⟨rfl,rfl⟩,⟨rfl,rfl,rfl⟩,hbody,by simp⟩),?_⟩
  exact declaring_of_get (get_alloc_self ..) ⟨rfl,rfl⟩

private theorem changes_newObject (hs : valid → p.scopes.Has scope) :
    Changing valid pub (newObject scope location items) p (Declaring scope location) := by
  refine .except fun name _ => .except fun d hd => ?_
  have hstart : ({ scope } : ObjectDef).Fresh ⟨p.entities.size⟩ fun x => valid → p.scopes.Has x :=
    ⟨hs,nofun,by simp,by simp,.inl rfl,rfl,rfl,rfl,rfl⟩
  obtain ⟨hfresh,hscope⟩ := good_objectParts hstart ⟨rfl,rfl⟩ hd
  refine (Changing.alloc ?_ (by simp)).mono (fun id q _ h => ⟨h.1,declaring_of_get h.2.2 hscope⟩) fun _ _ h => h
  exact hfresh

private theorem changes_newAlias : Changing valid pub (newAlias scope location items) p (Declaring scope location) := by
  refine .except fun name _ => ?_
  split
  · refine .except fun target hx => ?_
    refine (Changing.alloc ?_ (by simp)).mono (fun id q _ h => ⟨h.1,declaring_of_get h.2.2 rfl⟩) fun _ _ h => h
    exact ⟨fun t => TypeExpr.good_ofForm hx,rfl⟩
  · exact .throw _

private theorem changes_publish (h : Declaring scope place id p) (hp : exported = true → pub place) :
    Changing valid pub (publish scope exported id) p fun _ _ => True := by
  refine (Changing.register h.1).bind fun _ q hq _ => ?_
  split
  · have hd := h.scans hq.scans
    exact .modify (.addExport hd.1 (hd.2 ▸ hp ‹_›))
  · exact .pure trivial

private theorem changes_addUse : Changing valid pub (addUse scope location items) p fun _ _ => True :=
  .except fun _ _ => .modify (.wait _ _)

private theorem changes_newMethods {target : TypeExpr} (ht : ∀ t, target.Good t) (hs : valid → p.scopes.Has scope) :
    Changing valid pub (items.mapM (newMethod scope target outer)) p fun _ _ => True := by
  induction items generalizing p with
  | nil => exact .pure trivial
  | cons item items ih =>
    rw [List.mapM_cons]
    have hmethod : Changing valid pub (newMethod scope target outer item) p fun _ _ => True := by
      unfold newMethod
      split
      · exact (changes_newFunction (by simpa using ht) hs).mono (fun _ _ _ h => ⟨h.1,trivial⟩) fun _ _ h => h
      · exact .throw _
    refine hmethod.bind fun _ q h _ => (ih fun hv => ?_).bind fun _ _ _ _ => .pure trivial
    exact Nat.lt_of_lt_of_le (hs hv) h.scans.scopes

private theorem changes_addImpl (hs : valid → p.scopes.Has scope) :
    Changing valid pub (addImpl scope location items) p fun _ _ => True := by
  unfold addImpl
  extract_lets tail
  have htail : ∀ r, Changing valid pub (tail r) p fun _ _ => True := by
    intro r
    unfold tail
    dsimp only
    split
    · exact .throw _
    · exact .except fun target hx => (changes_newMethods (fun t => TypeExpr.good_ofForm hx) hs).bind fun _ _ _ _ =>
        .modify (.wait _ _)
  split
  · split
    · exact .except fun names _ => htail (names, _)
    · rename_i first rest _
      exact htail ([], first :: rest)
  · exact htail ([], [])

private theorem changes_newHostFunction (hs : valid → p.scopes.Has scope) (hp : exported = true → pub location) :
    Changing valid pub (newHostFunction scope host exported location items) p fun _ _ => True := by
  refine .except fun r hh => ?_
  obtain ⟨hparams,hreturn⟩ := good_header (by simp) hh
  dsimp -zeta only
  extract_lets tail
  have htail : ∀ r, Changing valid pub (tail r) p fun _ _ => True := by
    intro _
    refine Changing.bind (.alloc ?_ (by simp [FunctionDef.Covers])) fun id q _ h =>
      changes_publish (declaring_of_get h.2 ⟨rfl,rfl⟩) hp
    exact ⟨hs,hparams,hreturn,⟨rfl,rfl⟩,⟨rfl,rfl,rfl⟩,by simp,by simp⟩
  split
  · exact htail ()
  · exact .throw _

mutual

private theorem changes_addHostItem : ∀ {form : Form} {exported : Bool} {p : Program},
    (valid → p.scopes.Has scope) → (∀ place, form.PublishesHost exported place → pub place) →
    Changing valid pub (addHostItem scope host exported form) p fun _ _ => True
  | .list (head :: items) location, exported, p, hs, hp => by
    simp only [addHostItem]
    split
    · exact changes_addHostItems hs fun form hf place h => hp place (.block ‹_› hf h)
    · exact changes_addHostItems hs fun form hf place h => hp place (.pub ‹_› hf h)
    · refine changes_newHostFunction hs fun he => hp location ?_
      subst he
      exact .here ‹_›
    · exact .throw _
  | .list [] _, _, _, _, _ | .identifier _ _, _, _, _, _ | .literal _ _, _, _, _, _ | .string _ _, _, _, _, _ => by
    exact .throw _

private theorem changes_addHostItems : ∀ {forms : List Form} {exported : Bool} {p : Program},
    (valid → p.scopes.Has scope) → (∀ form ∈ forms, ∀ place, form.PublishesHost exported place → pub place) →
    Changing valid pub (addHostItems scope host exported forms) p fun _ _ => True
  | [], _, _, _, _ => by
    exact .pure trivial
  | form :: forms, exported, p, hs, hp => by
    refine (changes_addHostItem hs (hp form (by simp))).bind fun _ q h _ => changes_addHostItems (fun hv => ?_) fun f hf =>
      hp f (by simp [hf])
    exact Nat.lt_of_lt_of_le (hs hv) h.scans.scopes

end

mutual

private theorem changes_add : ∀ {form : Form} {scope : ScopeId} {exported : Bool} {p : Program},
    (valid → p.scopes.Has scope) → (exported = true → pub form.location) → (∀ place, form.Publishes place → pub place) →
    Changing valid pub (add scope exported form) p fun _ _ => True
  | .list (head :: items) location, scope, exported, p, hs, he, hp => by
    rw [add.eq_def]
    dsimp only
    split
    · exact (changes_newFunction (by simp) hs).bind fun _ _ _ h => changes_publish h he
    · exact (changes_newObject hs).bind fun _ _ _ h => changes_publish h he
    · exact changes_newAlias.bind fun _ _ _ h => changes_publish h he
    · refine (changes_newModule hs).bind fun r q _ h => ?_
      refine (changes_addAll (fun _ => h.2.2) fun f hf place k => hp place (.module ‹_› hf k)).bind fun _ s hq _ => ?_
      split
      · have hd := h.1.scans hq.scans
        exact .modify (.addExport hd.1 (hd.2 ▸ he ‹_›))
      · exact .pure trivial
    · exact .throw _
    · split
      · exact changes_add hs (fun _ => hp _ (.here ‹_›)) fun place k => hp place (.pub ‹_› k)
      · exact .throw _
    · exact .throw _
    · exact changes_addUse
    · exact changes_addImpl hs
    · exact changes_addHostItems hs fun f hf place k => hp place (.host ‹_› hf k)
    · exact .throw _
    · exact .throw _
  | .list [] _, _, _, _, _, _, _ | .identifier _ _, _, _, _, _, _, _ | .literal _ _, _, _, _, _, _, _
  | .string _ _, _, _, _, _, _, _ => by
    exact .throw _

theorem changes_addAll : ∀ {forms : List Form} {scope : ScopeId} {p : Program}, (valid → p.scopes.Has scope) →
    (∀ form ∈ forms, ∀ place, form.Publishes place → pub place) →
    Changing valid pub (addAll scope forms) p fun _ _ => True
  | [], _, _, _, _ => by
    exact .pure trivial
  | form :: forms, scope, p, hs, hp => by
    refine (changes_add hs (by simp) (hp form (by simp))).bind fun _ q h _ => changes_addAll (fun hv => ?_) fun f hf =>
      hp f (by simp [hf])
    exact Nat.lt_of_lt_of_le (hs hv) h.scans.scopes

end

end Declaration

end FormCompiler
