import FormCompiler.Proofs.Resolution.Invariant

/-! The single changes that resolution is made of, and what each of them keeps. -/

namespace FormCompiler

open EntityTable

variable {scope parent : ScopeId} {kind : ScopeKind} {t : ScopeTable} {id : EntityId} {name : String} {p q : Program}
  {lo hi : Nat}
namespace Program

/-! ### Changes that leave entities and nodes alone -/

private theorem Grows.of_tables (he : q.entities = p.entities) (hx : q.exprs = p.exprs)
    (hs : p.scopes.Grows q.scopes) : p.Grows q where
  entities := Nat.le_of_eq (by rw [he])
  name _ _ := by rw [he]
  kind _ _ := by rw [he]; exact .same _
  scopes := hs
  exprs := Nat.le_of_eq (by rw [hx])
  children _ _ := by rw [hx]
  typed _ _ _ := by rw [hx]

theorem Inv.of_tables (hI : p.Inv) (he : q.entities = p.entities) (hx : q.exprs = p.exprs)
    (hs : p.scopes.Grows q.scopes) (hw : q.scopes.WellFormed q.entities)
    (ha : q.ancestry = p.ancestry ∨ q.ancestry.Exact q.entities) : q.Inv := by
  refine hI.grow (.of_tables he hx hs) hw ?_ ?_ ?_ ha ?_ ?_ ?_ (hI.orderly.of_entities he)
  · intro f d _ _ _ n _
    rw [hx]
  · intro id
    exact .inl (by rw [he])
  · intro id d above _ _
    exact .inl (by rw [he])
  · intro id τ ht
    exact .inl (by rwa [Typed,hx] at ht)
  · rw [he]
    exact hI.bodies
  · obtain ⟨h1,h2,h3,h4,h5,h6⟩ := hI.vars
    constructor <;> simp only [he,hx] <;> assumption

theorem Calm.of_tables (hI : q.Inv) (he : q.entities = p.entities) (hx : q.exprs = p.exprs)
    (hs : p.scopes.Grows q.scopes) : p.Calm q :=
  ⟨hI,.of_tables he hx hs,hx,fun _ _ => by rw [he],fun h => by unfold Formed; rw [he]; exact h⟩

theorem Inv.setAncestry (hI : p.Inv) {a : Ancestry} (ha : a.Exact p.entities) : p.Calm { p with ancestry := a } :=
  .of_tables (hI.of_tables rfl rfl (.refl _) hI.scopes (.inr ha)) rfl rfl (.refl _)

private theorem Inv.setScopes (hI : p.Inv) (hg : p.scopes.Grows t)
    (hw : t.WellFormed p.entities) : p.Calm { p with scopes := t } :=
  .of_tables (hI.of_tables rfl rfl hg hw (.inl rfl)) rfl rfl hg

/-! ### New scopes and names -/

/-- A scope of a body, where variables can be added. -/
def Local (p : Program) (s : ScopeId) : Prop :=
  s.index < p.scopes.size ∧ (p.scopes.get s).kind.isStatic = false

theorem Grows.local (h : p.Grows q) {s : ScopeId} (hs : p.Local s) : q.Local s :=
  ⟨Nat.lt_of_lt_of_le hs.1 h.scopes.size,by rw [h.scopes.kind s hs.1]; exact hs.2⟩

end Program

namespace ScopeTable

variable {entities : EntityTable}

theorem Grows.push (parent : ScopeId) (kind : ScopeKind) : t.Grows (t.push parent kind).2 where
  size := by simp
  parent y hy := by rw [get_push_of_lt hy]
  kind y hy := by rw [get_push_of_lt hy]
  exports y hy := by rw [get_push_of_lt hy]
  bindings y hy _ := by rw [get_push_of_lt hy]

private theorem get_push_cases (parent : ScopeId) (kind : ScopeKind) (y : ScopeId) :
    (t.push parent kind).2.get y = t.get y ∨
      y.index = t.size ∧ (t.push parent kind).2.get y = { parent := some parent, kind } := by
  rw [get_push]
  split
  · exact .inr ⟨‹_›,rfl⟩
  · exact .inl rfl

private theorem WellFormed.push (hw : t.WellFormed entities) (hp : parent.index < t.size)
    (hk : kind.isStatic = false) : (t.push parent kind).2.WellFormed entities where
  parent_lt y z h := by
    rcases get_push_cases (t := t) parent kind y with he | ⟨hy,he⟩
    · exact hw.parent_lt y z (he ▸ h)
    · rw [he] at h
      cases h
      omega
  static_parent y z h hs := by
    rcases get_push_cases (t := t) parent kind y with he | ⟨hy,he⟩
    · rw [he] at h hs
      have hz := hw.static_parent y z h hs
      rcases get_push_cases (t := t) parent kind z with he' | ⟨hz',he'⟩
      · rwa [he']
      · have hlt := hw.parent_lt y z h
        rw [get_of_size_le (by omega)] at h
        cases h
    · rw [he] at hs
      simp [hk] at hs
  bound y name id h := by
    rcases get_push_cases (t := t) parent kind y with he | ⟨hy,he⟩
    · exact hw.bound y name id (by simpa only [here,he] using h)
    · simp [here,he,Scope.bound] at h
  plain y name id hs h := by
    rcases get_push_cases (t := t) parent kind y with he | ⟨hy,he⟩
    · exact hw.plain y name id (he ▸ hs) (by simpa only [here,he] using h)
    · simp [he,hk] at hs

theorem Grows.bind (hs : (t.get scope).kind.isStatic = false) (name : String) (id : EntityId) :
    t.Grows (t.bind scope name id) where
  size := by simp
  parent _ _ := parent_bind
  kind _ _ := kind_bind
  exports _ _ := exports_bind
  bindings y hy hst := by
    by_cases he : y = scope
    · subst he
      simp [hs] at hst
    · rw [get_bind_ne he]

theorem WellFormed.bind (hw : t.WellFormed entities) (hl : (t.get scope).kind.isStatic = false)
    (hid : id.index < entities.size) : (t.bind scope name id).WellFormed entities where
  parent_lt y z h := hw.parent_lt y z (by simpa using h)
  static_parent y z h hst := by
    rw [kind_bind] at hst ⊢
    exact hw.static_parent y z (by simpa using h) hst
  bound y n j h := by
    rcases mem_here_bind h with h | ⟨rfl, -⟩
    · exact hw.bound y n j h
    · exact hid
  plain y n j hst h := by
    rw [kind_bind] at hst
    rcases mem_here_bind h with h | ⟨-,rfl, -⟩
    · exact hw.plain y n j hst h
    · simp [hl] at hst

end ScopeTable

namespace Program

theorem Inv.pushScope (hI : p.Inv) (hp : parent.index < p.scopes.size) (hk : kind.isStatic = false)
    (h : Check.pushScope parent kind p = .ok scope q) : p.Calm q ∧ q.Local scope := by
  obtain ⟨rfl,rfl⟩ := Check.pushScope_ok.mp h
  exact ⟨hI.setScopes (.push parent kind) (hI.scopes.push hp hk),by simp [Local,hk]⟩

theorem Inv.register (hI : p.Inv) (hs : p.Local scope)
    (hid : id.index < p.entities.size) {u : Unit} (h : Check.register scope id p = .ok u q) : p.Calm q := by
  obtain ⟨t,ht,rfl⟩ := Check.register_ok.mp h
  rcases ScopeTable.bind_of_registerAs ht with rfl | rfl
  · exact hI.setScopes (.refl _) hI.scopes
  · exact hI.setScopes (.bind hs.2 _ _) (hI.scopes.bind hs.2 hid)

/-! ### New entities -/

section Alloc

variable {location : Location} {kind : EntityKind}

private abbrev added (p : Program) (name : String) (location : Location) (kind : EntityKind) : Program :=
  { p with entities := (p.entities.alloc name location kind).2 }

theorem Grows.alloc (name : String) (location : Location) (kind : EntityKind) :
    p.Grows { p with entities := (p.entities.alloc name location kind).2 } where
  entities := by simp
  name id hid := by simp only [get_alloc_of_lt hid]
  kind id hid := by
    simp only [kind_alloc_of_lt hid]
    exact .same _
  scopes := .refl _
  exprs := Nat.le_refl _
  children _ _ := rfl
  typed _ _ _ := rfl

theorem Inv.alloc (hI : p.Inv) (name : String) (location : Location)
    (ok : (p.added name location kind).EntityOk ⟨p.entities.size⟩ kind)
    (object : ∀ d, kind = .object d → d.parent = none) (function : ∀ d, kind = .function d → d.paramVars = [] ∧
      ∀ g e n, p.entities.kind g = .function e → e.Covers n → ¬ d.Covers n)
    (orderly : (p.added name location kind).Orderly) :
    Inv { p with entities := (p.entities.alloc name location kind).2 } := by
  have old : ∀ {id d}, (p.added name location kind).entities.kind id = .function d →
      p.entities.kind id = .function d ∨ id = ⟨p.entities.size⟩ ∧ kind = .function d := by
    intro id d hk
    rcases p.entities.kind_alloc_cases name location kind id with he | ⟨rfl,he⟩
    · exact .inl (he.symm.trans hk)
    · exact .inr ⟨rfl,he.symm.trans hk⟩
  refine hI.grow (.alloc name location kind) ?_ ?_ ?_ ?_ (.inl rfl) ?_ ?_ ?_ orderly
  · refine ⟨hI.scopes.parent_lt,hI.scopes.static_parent,fun s n id hid => ?_,fun s n id hs hid => ?_⟩
    · have := hI.scopes.bound s n id hid
      simp only [size_alloc]
      omega
    · simp only [kind_alloc_of_lt (hI.scopes.bound s n id hid)]
      exact hI.scopes.plain s n id hs hid
  · intro f d _ _ _ n _
    rfl
  · intro id
    rcases p.entities.kind_alloc_cases name location kind id with he | ⟨rfl,he⟩
    · exact .inl he
    · refine .inr ?_
      simp only [he]
      exact ok
  · intro id d above hk hp
    rcases p.entities.kind_alloc_cases name location kind id with he | ⟨rfl,he⟩
    · exact .inl he
    · rw [object d (he.symm.trans hk)] at hp
      cases hp
  · intro id τ ht
    exact .inl ht
  · intro f g d e n hf hg hd he
    rcases old hf with hf' | ⟨rfl,hf'⟩ <;> rcases old hg with hg' | ⟨rfl,hg'⟩
    · exact hI.bodies f g d e n hf' hg' hd he
    · exact absurd he ((function e hg').2 f d n hf' hd)
    · exact absurd hd ((function d hf').2 g e n hg' he)
    · rfl
  · have hv := hI.vars
    refine ⟨fun n v hn => ?_,hv.intro_nodup,hv.intro_unique,fun f d hf v hd => ?_,
      fun f d hf => ?_,fun f d hf v hd => ?_⟩
    · have := hv.intro_lt n v hn
      simp only [size_alloc]
      omega
    · rcases old hf with hf' | ⟨rfl,hf'⟩
      · have := hv.param_lt f d hf' v hd
        simp only [size_alloc]
        omega
      · simp [(function d hf').1] at hd
    · rcases old hf with hf' | ⟨rfl,hf'⟩
      · exact hv.param_nodup f d hf'
      · simp [(function d hf').1]
    · rcases old hf with hf' | ⟨rfl,hf'⟩
      · exact hv.param_intro f d hf' v hd
      · simp [(function d hf').1] at hd

/-- A new entity at the end of an action; a new function waits with a body of new nodes. -/
theorem Step.alloc (h : p.Step lo hi q) (name : String) (location : Location)
    (hf : ∀ d, kind = .function d → d.paramVars = [] ∧ ∀ n, d.Covers n → p.exprs.size ≤ n.index)
    (ho : ∀ d, kind ≠ .object d) : p.Step lo hi { q with entities := (q.entities.alloc name location kind).2 } where
  grows := h.grows.trans (.alloc name location kind)
  frame := h.frame
  asleep f e hk hp := by
    rcases q.entities.kind_alloc_cases name location kind f with he | ⟨rfl,he⟩
    · exact h.asleep f e (he.symm.trans hk) hp
    · exact .inr (hf e (he.symm.trans hk)).2
  formed hp id e hk := by
    rcases q.entities.kind_alloc_cases name location kind id with he | ⟨rfl,he⟩
    · exact h.formed hp id e (he.symm.trans hk)
    · exact absurd (he.symm.trans hk) (ho e)
  intros := h.intros
  params f e hk v hv := by
    rcases q.entities.kind_alloc_cases name location kind f with he | ⟨rfl,he⟩
    · exact h.params f e (he.symm.trans hk) v hv
    · simp [(hf e (he.symm.trans hk)).1] at hv

theorem Inv.allocObject (hI : p.Inv) {d : ObjectDef}
    (ho : p.ObjectOk ⟨p.entities.size⟩ d) (hp : d.parent = none) (hi : d.instances = [])
    (h : Check.allocEntity name location (.object d) p = .ok id q) :
    q.Inv ∧ p.Grows q ∧ q.entities.kind id = .object d := by
  obtain ⟨rfl,rfl⟩ := Check.allocEntity_ok.mp h
  have hO := Leaves.alloc (x := none) hI.orderly name location (k := .object d) (.of_new hi (by simp) (by simp)) hi
  exact ⟨hI.alloc name location ((Grows.alloc ..).objectOk hI.scopes ho) (by rintro _ ⟨⟩; exact hp) (by simp) hO.orderly,
    .alloc name location _,kind_alloc_self ..⟩

/-- A new variable belongs to no node yet. -/
theorem Inv.allocVar (hI : p.Inv) {τ : Ty} {mutable : Bool} (hg : τ.Good p.entities)
    (h : Check.allocEntity name location (.var τ mutable) p = .ok id q) :
    p.Calm q ∧ q.entities.kind id = .var τ mutable ∧ q.Spare id ∧ p.entities.size ≤ id.index := by
  obtain ⟨rfl,rfl⟩ := Check.allocEntity_ok.mp h
  have hr := Reaches.allocVar (x := none) hI.orderly name location τ mutable
  have hnew : p.entities.kind ⟨p.entities.size⟩ = .primitive default := kind_of_size_le (Nat.le_refl _)
  have old : ∀ {f : EntityId} {k : EntityKind}, (∀ σ m, k ≠ .var σ m) → k ≠ .primitive default →
      ((p.entities.alloc name location (.var τ mutable)).2.kind f = k ↔ p.entities.kind f = k) := by
    intro f k hv hn
    rcases p.entities.kind_alloc_cases name location (.var τ mutable) f with he | ⟨rfl,he⟩
    · rw [he]
    · rw [he,hnew]
      exact ⟨fun h => absurd h.symm (hv τ mutable),fun h => absurd h.symm hn⟩
  refine ⟨⟨hI.alloc name location ((Grows.alloc ..).good hg) (by simp) (by simp) hr.orderly,.alloc ..,rfl,
    fun f d => old (by simp) (by simp),fun hp j d hk => hp j d ((old (by simp) (by simp)).mp hk)⟩,
    by simp,⟨by simp,fun n hn => ?_,fun f d hk hd => ?_⟩,Nat.le_refl _⟩
  · exact Nat.lt_irrefl _ (hI.vars.intro_lt n _ hn)
  · exact Nat.lt_irrefl _ (hI.vars.param_lt f d ((old (by simp) (by simp)).mp hk) _ hd)

end Alloc

/-! ### Completing an entity -/

section Modify

variable {f : EntityKind → EntityKind} {d e : ObjectDef}

theorem Grows.modifyKind (hg : (p.entities.kind id).Grows (f (p.entities.kind id))) :
    p.Grows { p with entities := p.entities.modifyKind id f } where
  entities := by simp
  name j _ := by simp
  kind j hj := by
    by_cases he : j = id
    · subst he
      simp only [kind_modifyKind_self hj]
      exact hg
    · simp only [kind_modifyKind_ne he]
      exact .same _
  scopes := .refl _
  exprs := Nat.le_refl _
  children _ _ := rfl
  typed _ _ _ := rfl

/-- What must be shown of the new definition, in terms of the program before the change. -/
private theorem Inv.modifyKind (hI : p.Inv) (hid : id.index < p.entities.size) {k : EntityKind}
    (hf : f (p.entities.kind id) = k) (hg : (p.entities.kind id).Grows k) (ok : p.EntityOk id k)
    (parent : ∀ d above, k = .object d → d.parent = some above → ∃ l, Chain p.entities above l)
    (vars : ∀ d, k = .function d → (∃ c, p.entities.kind id = .function c ∧ d.paramVars = c.paramVars) ∨
      d.paramVars.Nodup ∧ ∀ v ∈ d.paramVars, p.Spare v)
    (orderly : Orderly { p with entities := p.entities.modifyKind id f }) :
    Inv { p with entities := p.entities.modifyKind id f } := by
  have hgrows : p.Grows { p with entities := p.entities.modifyKind id f } := .modifyKind (hf ▸ hg)
  have self : (p.entities.modifyKind id f).kind id = k := by
    rw [kind_modifyKind_self hid,hf]
  have other : ∀ j, j ≠ id → (p.entities.modifyKind id f).kind j = p.entities.kind j :=
    fun j hj => kind_modifyKind_ne hj f
  have old : ∀ {j e}, (p.entities.modifyKind id f).kind j = .function e →
      ∃ d, p.entities.kind j = .function d ∧ d.body = e.body ∧ (d.paramVars = e.paramVars ∨
        e.paramVars.Nodup ∧ ∀ v ∈ e.paramVars, p.Spare v) := by
    intro j e hk
    by_cases hj : j = id
    · subst hj
      obtain ⟨d,hd,hb⟩ := hgrows.kind_function hid hk
      refine ⟨d,hd,hb.body.symm,?_⟩
      rcases vars e (self.symm.trans hk) with ⟨c,hc,hv⟩ | hv
      · cases hd.symm.trans hc
        exact .inl hv.symm
      · exact .inr hv
    · exact ⟨e,(other j hj).symm.trans hk,rfl,.inl rfl⟩
  refine hI.grow hgrows ?_ ?_ ?_ ?_ (.inl rfl) ?_ ?_ ?_ orderly
  · refine ⟨hI.scopes.parent_lt,hI.scopes.static_parent,fun s n j hj => ?_,fun s n j hs hj τ m hk => ?_⟩
    · simpa using hI.scopes.bound s n j hj
    · have hg := hgrows.kind j (hI.scopes.bound s n j hj)
      rw [hk] at hg
      exact hI.scopes.plain s n j hs hj τ m hg.to_var
  · intro j d _ _ _ n _
    rfl
  · intro j
    by_cases hj : j = id
    · subst hj
      refine .inr ?_
      simp only [self]
      exact hgrows.entityOk hI.scopes (fun _ _ _ _ _ => rfl) ok
    · exact .inl (other j hj)
  · intro j d above hk hp
    by_cases hj : j = id
    · subst hj
      exact .inr (parent d above (self.symm.trans hk) hp)
    · exact .inl (other j hj)
  · intro j τ ht
    exact .inl ht
  · intro j g d e n hj hg hd he
    obtain ⟨d',hj',hb,_⟩ := old hj
    obtain ⟨e',hg',hb',_⟩ := old hg
    refine hI.bodies j g d' e' n hj' hg' ?_ ?_
    · unfold FunctionDef.Covers
      rwa [hb]
    · unfold FunctionDef.Covers
      rwa [hb']
  · have hv := hI.vars
    refine ⟨fun n v hn => by simpa using hv.intro_lt n v hn,hv.intro_nodup,hv.intro_unique,
      fun j e hj v he => ?_,fun j e hj => ?_,fun j e hj v he => ?_⟩ <;>
      obtain ⟨d,hd,_,hn | ⟨hn,hs⟩⟩ := old hj
    · simpa using hv.param_lt j d hd v (hn ▸ he)
    · simpa using (hs v he).1
    · exact hn ▸ hv.param_nodup j d hd
    · exact hn
    · exact hv.param_intro j d hd v (hn ▸ he)
    · exact (hs v he).2.1

theorem Inv.modifyObject (hI : p.Inv) (hk : p.entities.kind id = .object d) {f : ObjectDef → ObjectDef}
    (hg : d.Grows (f d)) (ok : p.ObjectOk id (f d))
    (parent : ∀ above, (f d).parent = some above → d.parent = some above ∨ ∃ l, Chain p.entities above l)
    (orderly : Orderly { p with entities := p.entities.modifyObject id f }) :
    Inv { p with entities := p.entities.modifyObject id f } := by
  refine hI.modifyKind (k := .object (f d)) (lt_size_of_kind (by simp [hk])) (by rw [hk])
    (hk ▸ .object hg) ok ?_ (by simp) orderly
  intro e above he hp
  cases he
  rcases parent above hp with hp | hl
  · exact hI.founded id d above hk hp
  · exact hl

theorem Inv.modifyFunction (hI : p.Inv) {d : FunctionDef} (hk : p.entities.kind id = .function d)
    {f : FunctionDef → FunctionDef} (hg : d.Grows (f d)) (ok : p.FunctionOk (f d))
    (vars : (f d).paramVars = d.paramVars ∨ (f d).paramVars.Nodup ∧ ∀ v ∈ (f d).paramVars, p.Spare v)
    (orderly : Orderly { p with entities := p.entities.modifyFunction id f }) :
    Inv { p with entities := p.entities.modifyFunction id f } := by
  refine hI.modifyKind (k := .function (f d)) (lt_size_of_kind (by simp [hk])) (by rw [hk])
    (hk ▸ .function hg) ok (by simp) ?_ orderly
  intro e he
  cases he
  exact vars.imp_left fun h => ⟨d,hk,h⟩

theorem Inv.modifyAlias (hI : p.Inv) {d : AliasDef} (hk : p.entities.kind id = .typeAlias d)
    {f : AliasDef → AliasDef} (hg : d.Grows (f d)) (ok : p.AliasOk (f d))
    (orderly : Orderly { p with entities := p.entities.modifyAlias id f }) :
    Inv { p with entities := p.entities.modifyAlias id f } :=
  hI.modifyKind (k := .typeAlias (f d)) (lt_size_of_kind (by simp [hk])) (by rw [hk])
    (hk ▸ .typeAlias hg) ok (by simp) (by simp) orderly

/-- A change of a function at the end of an action. -/
theorem Step.modifyFunction (h : p.Step lo hi q) {d : FunctionDef}
    (hk : q.entities.kind id = .function d) {f : FunctionDef → FunctionDef} (hg : d.Grows (f d))
    (pending : (f d).bodyStage = .pending → d.bodyStage = .pending)
    (vars : ∀ v ∈ (f d).paramVars, v ∈ d.paramVars ∨ p.entities.size ≤ v.index) :
    p.Step lo hi { q with entities := q.entities.modifyFunction id f } := by
  have old : ∀ {j e}, (q.entities.modifyFunction id f).kind j = .function e →
      q.entities.kind j = .function e ∨ j = id ∧ e = f d := by
    intro j e he
    rcases kind_modifyFunction_cases hk f j with hj | ⟨rfl,hj⟩
    · exact .inl (hj.symm.trans he)
    · cases hj.symm.trans he
      exact .inr ⟨rfl,rfl⟩
  refine ⟨h.grows.trans (.modifyKind (by rw [hk]; exact .function hg)),h.frame,fun j e he hp => ?_,
    fun hF j e he => ?_,h.intros,fun j e he v hv => ?_⟩
  · rcases old he with he | ⟨rfl,rfl⟩
    · exact h.asleep j e he hp
    have hc : ∀ n, (f d).Covers n → d.Covers n := by
      rintro n ⟨first,root,he,hc⟩
      exact ⟨first,root,hg.body ▸ he,hc⟩
    rcases h.asleep j d hk (pending hp) with ⟨c,hc',hp',hn⟩ | hn
    · exact .inl ⟨c,hc',hp',fun n he => hn n (hc n he)⟩
    · exact .inr fun n he => hn n (hc n he)
  · rcases kind_modifyFunction_cases hk f j with hj | ⟨rfl,hj⟩
    · exact h.formed hF j e (hj.symm.trans he)
    · cases hj.symm.trans he
  · rcases old he with he | ⟨rfl,rfl⟩
    · exact h.params j e he v hv
    · rcases vars v hv with hv | hv
      · exact h.params j d hk v hv
      · exact .inr hv

end Modify

/-! ### Resolving a node -/

section Node

variable {id : ExprId} {shape : ExprShape} {τ : Ty} {a : Arena}

private theorem Grows.of_node (hs : a.size = p.exprs.size) (he : ∀ n, n ≠ id → a.get n = p.exprs.get n)
    (hn : (p.exprs.get id).type = none) (hc : (a.get id).shape.children = (p.exprs.get id).shape.children) :
    p.Grows { p with exprs := a } where
  entities := Nat.le_refl _
  name _ _ := rfl
  kind _ _ := .same _
  scopes := .refl _
  exprs := Nat.le_of_eq hs.symm
  children n _ := by
    by_cases h : n = id
    · subst h
      exact hc
    · simp only [he n h]
  typed n τ ht := by
    refine he n fun h => ?_
    subst h
    rw [Typed,hn] at ht
    cases ht

private theorem Loose.ne {n : ExprId} (hl : p.Loose id) {f : EntityId} {d : FunctionDef}
    (hk : p.entities.kind f = .function d) (hp : d.bodyStage = .pending) (hc : d.Covers n) : n ≠ id := by
  rintro rfl
  exact hl.2 f d hk hp hc

private theorem Inv.of_node (hI : p.Inv) (hs : a.size = p.exprs.size)
    (he : ∀ n, n ≠ id → a.get n = p.exprs.get n) (hl : p.Loose id) (hn : (p.exprs.get id).type = none)
    (hc : (a.get id).shape.children = (p.exprs.get id).shape.children)
    (ht : ∀ τ, (a.get id).type = some τ → p.NodeTyped (a.get id).shape τ ∧ τ.Good p.entities)
    (vars : Program.VarsOk { p with exprs := a }) : Inv { p with exprs := a } := by
  have hg : p.Grows { p with exprs := a } := .of_node hs he hn hc
  refine hI.grow hg hI.scopes ?_ (fun _ => .inl rfl) (fun _ _ _ _ _ => .inl rfl) (.inl rfl) ?_
    hI.bodies vars (hI.orderly.of_entities rfl)
  · intro f d hk _ hp n hn
    exact he n (hl.ne hk hp hn)
  · intro n τ hτ
    by_cases h : n = id
    · subst h
      obtain ⟨h1,h2⟩ := ht τ hτ
      exact .inr ⟨hg.nodeTyped h1,h2⟩
    · refine .inl ?_
      simp only [Typed,he n h] at hτ
      exact hτ

private theorem Step.of_node (h : p.Step lo hi q) (hs : a.size = q.exprs.size)
    (he : ∀ n, n ≠ id → a.get n = q.exprs.get n) (hl : q.Loose id) (hn : (q.exprs.get id).type = none)
    (hc : (a.get id).shape.children = (q.exprs.get id).shape.children) (hlo : lo ≤ id.index)
    (hhi : id.index < hi) (vars : ∀ v ∈ (a.get id).shape.intros,
      v ∈ (q.exprs.get id).shape.intros ∨ p.entities.size ≤ v.index) :
    p.Step lo hi { q with exprs := a } where
  grows := h.grows.trans (.of_node hs he hn hc)
  frame n hp ho := by
    simp only [he n (by rintro rfl; omega)]
    exact h.frame n hp ho
  asleep f e hk hp := by
    rcases h.asleep f e hk hp with ⟨d,hd,hp',hn⟩ | hn
    · refine .inl ⟨d,hd,hp',fun n hcov => ?_⟩
      simp only [he n (hl.ne hk hp hcov)]
      exact hn n hcov
    · exact .inr hn
  formed := h.formed
  intros n v hv := by
    by_cases hne : n = id
    · subst hne
      rcases vars v hv with hv | hv
      · exact h.intros n v hv
      · exact .inr hv
    · simp only [he n hne] at hv
      exact h.intros n v hv
  params := h.params

theorem Grows.setShape (hl : id.index < p.exprs.size) (hn : (p.exprs.get id).type = none)
    (hc : shape.children = (p.exprs.get id).shape.children) : p.Grows { p with exprs := p.exprs.setShape id shape } :=
  .of_node (by simp) (fun n h => Arena.get_setShape_ne h shape) hn (by rw [Arena.get_setShape_self hl shape]; exact hc)

/-- Fills the slots of a node. -/
theorem Inv.setShape (hI : p.Inv) (hl : p.Loose id) (hn : (p.exprs.get id).type = none)
    (hc : shape.children = (p.exprs.get id).shape.children) (hd : shape.intros.Nodup)
    (hv : ∀ v ∈ shape.intros, p.Spare v) : Inv { p with exprs := p.exprs.setShape id shape } := by
  have self := Arena.get_setShape_self hl.1 shape
  have other : ∀ n, n ≠ id → (p.exprs.setShape id shape).get n = p.exprs.get n :=
    fun n h => Arena.get_setShape_ne h shape
  refine hI.of_node (by simp) other hl hn (by rw [self]; exact hc) ?_ ?_
  · intro τ hτ
    rw [self,hn] at hτ
    cases hτ
  have old : ∀ n v, v ∈ ((p.exprs.setShape id shape).get n).shape.intros →
      n = id ∧ p.Spare v ∨ n ≠ id ∧ v ∈ (p.exprs.get n).shape.intros := by
    intro n v hm
    by_cases h : n = id
    · subst h
      rw [self] at hm
      exact .inl ⟨rfl,hv v hm⟩
    · rw [other n h] at hm
      exact .inr ⟨h,hm⟩
  have ho := hI.vars
  refine ⟨fun n v hm => ?_,fun n => ?_,fun n m v hn' hm => ?_,ho.param_lt,ho.param_nodup, fun f d hk v hp n hm => ?_⟩
  · rcases old n v hm with ⟨_,hs⟩ | ⟨_,hm⟩
    · exact hs.1
    · exact ho.intro_lt n v hm
  · by_cases h : n = id
    · subst h
      simp only [self]
      exact hd
    · simp only [other n h]
      exact ho.intro_nodup n
  · rcases old n v hn' with ⟨rfl,hs⟩ | ⟨_,hn''⟩ <;> rcases old m v hm with ⟨rfl,hs'⟩ | ⟨_,hm'⟩
    · rfl
    · exact absurd hm' (hs.2.1 m)
    · exact absurd hn'' (hs'.2.1 n)
    · exact ho.intro_unique n m v hn'' hm'
  · rcases old n v hm with ⟨_,hs⟩ | ⟨_,hm⟩
    · exact hs.2.2 f d hk hp
    · exact ho.param_intro f d hk v hp n hm

theorem Step.setShape (h : p.Step lo hi q) (hl : q.Loose id) (hn : (q.exprs.get id).type = none)
    (hc : shape.children = (q.exprs.get id).shape.children) (hlo : lo ≤ id.index) (hhi : id.index < hi)
    (hv : ∀ v ∈ shape.intros, p.entities.size ≤ v.index) :
    p.Step lo hi { q with exprs := q.exprs.setShape id shape } := by
  have self := Arena.get_setShape_self hl.1 shape
  refine h.of_node (by simp) (fun n hne => Arena.get_setShape_ne hne shape) hl hn ?_ hlo hhi ?_
  · rw [self]
    exact hc
  · rw [self]
    exact fun v hm => .inr (hv v hm)

/-- Notes the type of a node. -/
theorem Inv.setType (hI : p.Inv) (hl : p.Loose id) (hn : (p.exprs.get id).type = none)
    (ht : p.NodeTyped (p.exprs.get id).shape τ) (hg : τ.Good p.entities) :
    p.Moves id.index (id.index + 1) { p with exprs := p.exprs.setType id τ } ∧
      Typed { p with exprs := p.exprs.setType id τ } id τ := by
  have self := Arena.get_setType_self hl.1 τ
  have other : ∀ n, n ≠ id → (p.exprs.setType id τ).get n = p.exprs.get n := fun n h => Arena.get_setType_ne h τ
  have shapes : ∀ n, ((p.exprs.setType id τ).get n).shape = (p.exprs.get n).shape := by
    intro n
    by_cases h : n = id
    · subst h
      rw [self]
    · rw [other n h]
  refine ⟨⟨hI.of_node (by simp) other hl hn (by rw [shapes]) ?_ ?_,
    (Step.refl ..).of_node (by simp) other hl hn (by rw [shapes]) (Nat.le_refl _) (Nat.lt_succ_self _)
      (by rw [shapes]; exact fun v hv => .inl hv)⟩,?_⟩
  · intro σ hσ
    rw [self] at hσ ⊢
    cases hσ
    exact ⟨ht,hg⟩
  · obtain ⟨h1,h2,h3,h4,h5,h6⟩ := hI.vars
    constructor <;> simp only [shapes] <;> assumption
  · simp only [Typed,self]

end Node

end Program

end FormCompiler
