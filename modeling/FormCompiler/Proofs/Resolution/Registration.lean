import FormCompiler.Proofs.Resolution.Order

/-! Names and what they stand for. Names are bound and exported in any order, and some of it is refused; still a name
stands in one scope for a single entity or for functions only, and a lookup finds what lies nearest. -/

namespace FormCompiler

open Check ScopeTable List

variable {l : List EntityId} {id a b : EntityId} {parent scope : ScopeId}

/-! ### Binding a name -/

namespace ScopeTable

variable {t : ScopeTable} {entities : EntityTable} {s : ScopeId} {name other : String}

/-- Why a name cannot be bound: it stands for something else here, and not all of that and the new one are functions. -/
def Taken (t : ScopeTable) (entities : EntityTable) (scope : ScopeId) (name : String) (id : EntityId) : Prop :=
  id ∉ t.here scope name ∧ t.here scope name ≠ [] ∧
    ∃ other ∈ id :: t.here scope name, (entities.get other).isFunction = false

/-- A registration is refused when the name is taken, and otherwise it binds the name unless that is done already. -/
theorem registerAs_cases (t : ScopeTable) (entities : EntityTable) (scope : ScopeId) (name : String) (id : EntityId)
    (location : Location) : (t.Taken entities scope name id ∧
      t.registerAs entities scope name id location = .error (.here location (.duplicateBinding name))) ∨
    (¬ t.Taken entities scope name id ∧ t.registerAs entities scope name id location =
      .ok (if id ∈ t.here scope name then t else t.bind scope name id)) := by
  unfold registerAs Taken
  by_cases hm : id ∈ t.here scope name
  · exact .inr (by simp [hm])
  · by_cases hf : ∀ other ∈ id :: t.here scope name, (entities.get other).isFunction = true
    · have hn : ¬ ∃ other ∈ id :: t.here scope name, (entities.get other).isFunction = false := by
        rintro ⟨other,ho,hb⟩
        simp [hf other ho] at hb
      refine .inr ⟨fun h => hn h.2.2,?_⟩
      simp only [contains_eq_mem,hm,decide_false,Bool.false_eq_true,if_false,all_eq_true.mpr hf, Bool.or_true,if_true]
    · obtain ⟨other,ho,hb⟩ : ∃ other ∈ id :: t.here scope name, (entities.get other).isFunction = false := by
        simpa only [not_forall,exists_prop,Bool.not_eq_true] using hf
      have ha : ((id :: t.here scope name).all fun other => (entities.get other).isFunction) = false := by
        rw [all_eq_false]
        exact ⟨other,ho,by simp [hb]⟩
      by_cases he : t.here scope name = []
      · exact .inr ⟨fun h => h.2.1 he,by simp [he]⟩
      · refine .inl ⟨⟨hm,he,other,ho,hb⟩,?_⟩
        have hi : (t.here scope name).isEmpty = false := by simpa using he
        simp only [contains_eq_mem,hm,decide_false,Bool.false_eq_true,if_false,hi,ha,Bool.or_self]

/-! ### Lookups -/

/-- The scopes from one up to the root, each the parent of the one before it. -/
inductive Lineage (t : ScopeTable) : ScopeId → List ScopeId → Prop
  | top {s : ScopeId} : s.index < t.size → (t.get s).parent = none → Lineage t s [s]
  | step {s parent : ScopeId} {chain : List ScopeId} :
      s.index < t.size → (t.get s).parent = some parent → Lineage t parent chain → Lineage t s (s :: chain)

/-- In a scope a name stands for one entity that is no function, or for functions, each of them once. -/
structure Unmixed (t : ScopeTable) (entities : EntityTable) : Prop where
  older : ∀ s parent, (t.get s).parent = some parent → parent.index < s.index
  exist : ∀ s name id, id ∈ t.here s name → id.index < entities.size
  nodup : ∀ s name, (t.here s name).Nodup
  sorted : ∀ s name, (∃ id, t.here s name = [id] ∧ (entities.get id).isFunction = false) ∨
    ∀ id ∈ t.here s name, (entities.get id).isFunction = true

/-- What a name stands for in the first scope of a chain where it is not only a function. -/
def Nearest (t : ScopeTable) (entities : EntityTable) (chain : List ScopeId) (name : String) (id : EntityId) : Prop :=
  ∃ near x far, chain = near ++ x :: far ∧ t.here x name = [id] ∧ (entities.get id).isFunction = false ∧
    ∀ y ∈ near, ∀ other ∈ t.here y name, (entities.get other).isFunction = true

/-- The functions of a name along a chain, as often as they are bound. -/
def functionsAlong (t : ScopeTable) (entities : EntityTable) (chain : List ScopeId) (name : String) : List EntityId :=
  chain.flatMap fun x => (t.here x name).filter fun id => (entities.get id).isFunction

private theorem Unmixed.lineage_within (h : t.Unmixed entities) {n : Nat} (hs : s.index < t.size) (hn : s.index < n) :
    t.Lineage s (t.ancestorsWithin n s) := by
  induction n generalizing s with
  | zero => omega
  | succ n ih =>
    unfold ancestorsWithin
    cases hp : (t.get s).parent with
    | none => exact .top hs hp
    | some parent =>
      have hlt := h.older s parent hp
      exact .step hs hp (ih (by omega) (by omega))

private theorem Unmixed.lineage (h : t.Unmixed entities) (hs : s.index < t.size) : t.Lineage s (t.ancestors s) :=
  h.lineage_within hs hs

private theorem Unmixed.find?_here (h : t.Unmixed entities) :
    ((t.here s name).find? fun id => !(entities.get id).isFunction) = some id ↔
      t.here s name = [id] ∧ (entities.get id).isFunction = false := by
  rcases h.sorted s name with ⟨only,he,hf⟩ | hall
  · rw [he]
    constructor
    · intro hi
      obtain rfl : only = id := by simpa [hf] using hi
      exact ⟨rfl,hf⟩
    · rintro ⟨hi, -⟩
      cases hi
      simp [hf]
  · have hn : ((t.here s name).find? fun id => !(entities.get id).isFunction) = none := by
      rw [find?_eq_none]
      intro other ho
      simp [hall other ho]
    rw [hn]
    constructor
    · intro hi
      cases hi
    · rintro ⟨he,hf⟩
      have := hall id (by simp [he])
      simp [hf] at this

private theorem Unmixed.resolve?_eq_some (h : t.Unmixed entities) :
    t.resolve? entities s name = some id ↔ t.Nearest entities (t.ancestors s) name id := by
  simp only [resolve?,Nearest,findSome?_eq_some_iff,h.find?_here,find?_eq_none,Bool.not_eq_true', Bool.not_eq_false]
  constructor
  · rintro ⟨near,x,far,hc,⟨he,hf⟩,hnear⟩
    exact ⟨near,x,far,hc,he,hf,hnear⟩
  · rintro ⟨near,x,far,hc,he,hf,hnear⟩
    exact ⟨near,x,far,hc,⟨he,hf⟩,hnear⟩

/-! ### What the calls keep -/

private theorem Unmixed.fresh (entities : EntityTable) : ({} : ScopeTable).Unmixed entities := by
  have hget : ∀ s, ∃ kind, ({} : ScopeTable).get s = { parent := none, kind } := by
    intro s
    by_cases h : s.index = 0
    · exact ⟨.root,by simp [get,Array.getD_eq_getD_getElem?,h]⟩
    · exact ⟨default,get_of_size_le (by simp [size]; omega)⟩
  have hhere : ∀ s name, ({} : ScopeTable).here s name = [] := by
    intro s name
    obtain ⟨kind,hk⟩ := hget s
    simp [here,hk,Scope.bound]
  refine ⟨?_,?_,?_,?_⟩
  · intro s parent hp
    obtain ⟨kind,hk⟩ := hget s
    simp [hk] at hp
  · simp [hhere]
  · simp [hhere]
  · simp [hhere]

private theorem Unmixed.push (h : t.Unmixed entities) (hp : parent.index < t.size) (kind : ScopeKind) :
    (t.push parent kind).2.Unmixed entities where
  older s other ho := by
    rw [get_push] at ho
    split at ho
    · cases ho
      omega
    · exact h.older s other ho
  exist s name id hid := h.exist s name id (by simpa [here_push] using hid)
  nodup s name := by simpa [here_push] using h.nodup s name
  sorted s name := by simpa [here_push] using h.sorted s name

private theorem Unmixed.addExport (h : t.Unmixed entities) : (t.addExport scope id).Unmixed entities where
  older s parent hp := by
    rw [get_addExport] at hp
    split at hp <;> exact h.older s parent hp
  exist s name id hid := h.exist s name id (by simpa [here_addExport] using hid)
  nodup s name := by simpa [here_addExport] using h.nodup s name
  sorted s name := by simpa [here_addExport] using h.sorted s name

theorem Unmixed.bind (h : t.Unmixed entities) (hs : scope.index < t.size) (hid : id.index < entities.size)
    (hm : id ∉ t.here scope name) (hfree : ¬ t.Taken entities scope name id) :
    (t.bind scope name id).Unmixed entities where
  older s parent hp := h.older s parent (by rwa [parent_bind] at hp)
  exist s other j hj := by
    rw [here_bind hs,mem_append] at hj
    rcases hj with hj | hj
    · exact h.exist s other j hj
    · split at hj
      · rwa [mem_singleton.mp hj]
      · cases hj
  nodup s other := by
    rw [here_bind hs]
    split
    · rename_i he
      rw [he.1,he.2]
      exact nodup_append.mpr ⟨h.nodup scope name,by simp,fun a ha b hb hab => by simp_all⟩
    · simpa using h.nodup s other
  sorted s other := by
    rw [here_bind hs]
    split
    · rename_i he
      rw [he.1,he.2]
      -- a free name is new, or all that it stands for are functions
      by_cases hn : t.here scope name = []
      · rw [hn,nil_append]
        cases hf : (entities.get id).isFunction with
        | false => exact .inl ⟨id,rfl,hf⟩
        | true => exact .inr (by simp [hf])
      · refine .inr fun j hj => ?_
        by_contra hf
        have hmem : j ∈ id :: t.here scope name := by simpa [or_comm] using hj
        exact hfree ⟨hm,hn,j,hmem,by simpa using hf⟩
    · simpa using h.sorted s other

/-- Entities may be added and filled in, as long as functions stay functions. -/
theorem Unmixed.of_entities (h : t.Unmixed entities) {later : EntityTable} (hsize : entities.size ≤ later.size)
    (hsame : ∀ id : EntityId, id.index < entities.size → (later.get id).isFunction = (entities.get id).isFunction) :
    t.Unmixed later where
  older := h.older
  exist s name id hid := Nat.lt_of_lt_of_le (h.exist s name id hid) hsize
  nodup := h.nodup
  sorted s name := by
    rcases h.sorted s name with ⟨id,he,hf⟩ | hall
    · exact .inl ⟨id,he,by rw [hsame id (h.exist s name id (by simp [he])),hf]⟩
    · exact .inr fun id hid => by rw [hsame id (h.exist s name id hid),hall id hid]

end ScopeTable

/-! ### Each function once -/

private theorem idxOf_lt_cons {x : EntityId} (ha : x ≠ a) (hb : x ≠ b) :
    (x :: l).idxOf a < (x :: l).idxOf b ↔ l.idxOf a < l.idxOf b := by
  rw [idxOf_cons_ne l ha,idxOf_cons_ne l hb,Nat.succ_lt_succ_iff]

private theorem idxOf_lt_of_filter {keep : EntityId → Bool} (ha : keep a = true)
    (hb : keep b = true) (h : (l.filter keep).idxOf a < (l.filter keep).idxOf b) : l.idxOf a < l.idxOf b := by
  induction l with
  | nil => exact h
  | cons x l ih =>
    by_cases hx : keep x = true
    · rw [filter_cons_of_pos hx] at h
      by_cases hxb : x = b
      · simp [hxb] at h
      · by_cases hxa : x = a
        · simp [hxa,idxOf_cons_ne l (hxa ▸ hxb)]
        · exact (idxOf_lt_cons hxa hxb).mpr (ih ((idxOf_lt_cons hxa hxb).mp h))
    · rw [filter_cons_of_neg hx] at h
      have hne {c : EntityId} (hc : keep c = true) : x ≠ c := fun he => hx (he ▸ hc)
      exact (idxOf_lt_cons (hne ha) (hne hb)).mpr (ih h)

/-- Of what occurs more than once, the first occurrence stays. -/
theorem pairwise_eraseDups (l : List EntityId) : l.eraseDups.Pairwise fun a b => l.idxOf a < l.idxOf b := by
  match l with
  | [] => exact .nil
  | x :: l =>
    have hother : ∀ a ∈ (l.filter fun b => !b == x).eraseDups, x ≠ a := by
      rintro _ ha rfl
      simp at ha
    rw [eraseDups_cons]
    refine pairwise_cons.mpr ⟨fun b hb => by simp [idxOf_cons_ne l (hother b hb)],?_⟩
    refine (pairwise_eraseDups (l.filter fun b => !b == x)).imp_of_mem fun {a b} ha hb h => ?_
    refine (idxOf_lt_cons (hother a ha) (hother b hb)).mpr ?_
    rw [mem_eraseDups,mem_filter] at ha hb
    exact idxOf_lt_of_filter ha.2 hb.2 h
termination_by l.length
decreasing_by exact Nat.lt_succ_of_le (length_filter_le _ _)

private theorem ScopeTable.overloads_spec (t : ScopeTable) (entities : EntityTable) (s : ScopeId) (name : String) :
    (∀ id, id ∈ t.overloads entities s name ↔ id ∈ t.functionsAlong entities (t.ancestors s) name) ∧
      (t.overloads entities s name).Pairwise fun a b =>
        (t.functionsAlong entities (t.ancestors s) name).idxOf a <
          (t.functionsAlong entities (t.ancestors s) name).idxOf b :=
  ⟨fun _ => mem_eraseDups,pairwise_eraseDups _⟩

/-! ### Calls in any order -/

/-- A call that changes the table of scopes. -/
inductive ScopeCall where
  | push (parent : ScopeId) (kind : ScopeKind)
  | register (scope : ScopeId) (id : EntityId)
  | registerAs (scope : ScopeId) (name : String) (id : EntityId) (location : Location)
  | addExport (scope : ScopeId) (id : EntityId)

namespace ScopeCall

def run : ScopeCall → Check Unit
  | push parent kind => discard (Check.pushScope parent kind)
  | register scope id => Check.register scope id
  | registerAs scope name id location => Check.registerAs scope name id location
  | addExport scope id => Check.addExport scope id

def Valid (p : Program) : ScopeCall → Prop
  | push parent _ => parent.index < p.scopes.size
  | register scope id | registerAs scope _ id _ | addExport scope id =>
    scope.index < p.scopes.size ∧ id.index < p.entities.size

/-- Where a call binds a name, the name, and what it is bound to. -/
def binding? (entities : EntityTable) : ScopeCall → Option (ScopeId × String × EntityId)
  | register scope id => some (scope, (entities.get id).name, id)
  | registerAs scope name id _ => some (scope, name, id)
  | push .. | addExport .. => none

/-- What a call does that is not refused. -/
structure Done (c : ScopeCall) (p q : Program) : Prop where
  bound : ∀ s name id, id ∈ q.scopes.here s name ↔
    id ∈ p.scopes.here s name ∨ c.binding? p.entities = some (s, name, id)
  kept : ∀ s name, p.scopes.here s name <+: q.scopes.here s name
  exports : ∀ s id, id ∈ q.scopes.exports s ↔ id ∈ p.scopes.exports s ∨ c = .addExport s id
  parent : ∀ s, s.index < p.scopes.size → (q.scopes.get s).parent = (p.scopes.get s).parent
  pushed : ∀ parent kind, c = .push parent kind → q.scopes.get ⟨p.scopes.size⟩ = { parent := some parent, kind }

end ScopeCall

namespace Program

def SameLookups (p q : Program) : Prop :=
  ∀ s name, q.scopes.here s name = p.scopes.here s name ∧
    q.scopes.resolve? q.entities s name = p.scopes.resolve? p.entities s name ∧
    q.scopes.overloads q.entities s name = p.scopes.overloads p.entities s name ∧
    q.scopes.exports s = p.scopes.exports s ∧
    q.scopes.exported q.entities s name = p.scopes.exported p.entities s name

/-- Programs whose table of scopes comes from a fresh one by calls, refused or not. Between the calls entities are added
and filled in, but a function stays one and nothing else becomes one. -/
inductive ScopeHistory : Program → Prop
  | fresh {p : Program} : p.scopes = {} → ScopeHistory p
  | call {p q : Program} (c : ScopeCall) : ScopeHistory p → c.Valid p → c.run.EndsIn p q → ScopeHistory q
  | between {p q : Program} : ScopeHistory p → q.scopes = p.scopes → p.entities.size ≤ q.entities.size →
      (∀ id : EntityId, id.index < p.entities.size →
        (q.entities.get id).isFunction = (p.entities.get id).isFunction) → ScopeHistory q

end Program

namespace ScopeCall

variable {c : ScopeCall} {p q : Program} {name : String}

/-- Registering under the own name or another is one thing: it is refused when the name is taken. -/
theorem run_binding (hb : c.binding? p.entities = some (scope, name, id)) : (p.scopes.Taken p.entities scope name id ∧
      ∃ location, c.run p = .error (.here location (.duplicateBinding name)) p) ∨
    (¬ p.scopes.Taken p.entities scope name id ∧ c.run p = .ok () { p with
      scopes := if id ∈ p.scopes.here scope name then p.scopes else p.scopes.bind scope name id }) := by
  obtain ⟨location,hrun⟩ : ∃ location, c.run p = Check.registerAs scope name id location p := by
    cases c with
    | push | addExport => cases hb
    | register =>
      cases hb
      exact ⟨(p.entities.get id).location,rfl⟩
    | registerAs _ _ _ location =>
      cases hb
      exact ⟨location,rfl⟩
  have hshow : Check.registerAs scope name id location p =
      match p.scopes.registerAs p.entities scope name id location with
      | .ok scopes => .ok () { p with scopes }
      | .error d => .error d p := by
    show (EStateM.bind _ _) p = _
    cases h : p.scopes.registerAs p.entities scope name id location <;> rfl
  rw [hrun,hshow]
  rcases p.scopes.registerAs_cases p.entities scope name id location with ⟨ht,he⟩ | ⟨hf,he⟩
  · exact .inl ⟨ht,location,by rw [he]⟩
  · exact .inr ⟨hf,by rw [he]⟩

/-- Only a registration is refused, and then nothing was changed. -/
theorem run_error {d : Diagnostic} (h : c.run p = .error d q) : q = p ∧ ∃ scope name id location,
    c.binding? p.entities = some (scope, name, id) ∧ p.scopes.Taken p.entities scope name id ∧
      d = .here location (.duplicateBinding name) := by
  cases hb : c.binding? p.entities with
  | none =>
    cases c with
    | push | addExport => cases h
    | register | registerAs => cases hb
  | some b =>
    obtain ⟨scope,name,id⟩ := b
    rcases run_binding hb with ⟨ht,location,he⟩ | ⟨-,he⟩
    · rw [he] at h
      cases h
      exact ⟨rfl,scope,name,id,location,rfl,ht,rfl⟩
    · rw [he] at h
      cases h

private theorem done_of_push {kind : ScopeKind} :
    Done (.push parent kind) p { p with scopes := (p.scopes.push parent kind).2 } where
  bound s name id := by simp [here_push,binding?]
  kept s name := by simp [here_push]
  exports s id := by
    simp only [exports,get_push,reduceCtorEq,or_false]
    split
    · rw [get_of_size_le (by omega)]
      rfl
    · rfl
  parent s hs := by rw [get_push_of_lt hs]
  pushed parent kind h := by
    cases h
    exact get_push_self _ _

private theorem done_of_addExport (hs : scope.index < p.scopes.size) :
    Done (.addExport scope id) p { p with scopes := p.scopes.addExport scope id } where
  bound s name id := by simp [here_addExport,binding?]
  kept s name := by simp [here_addExport]
  exports s j := by
    rw [exports_addExport,addExport.injEq,mem_append]
    split
    · rename_i h
      simp [h.1,eq_comm]
    · rename_i h
      by_cases he : scope = s ∧ id = j
      · obtain ⟨rfl,rfl⟩ := he
        simpa [hs] using h
      · simp [he]
  parent s _ := by
    rw [get_addExport]
    split <;> rfl
  pushed _ _ h := by cases h

private theorem done_of_binding (hb : c.binding? p.entities = some (scope, name, id)) (hs : scope.index < p.scopes.size)
    : Done c p { p with
      scopes := if id ∈ p.scopes.here scope name then p.scopes else p.scopes.bind scope name id } := by
  have hexport : ∀ s j, c ≠ .addExport s j := by
    rintro s j rfl
    cases hb
  have hpush : ∀ parent kind, c ≠ .push parent kind := by
    rintro parent kind rfl
    cases hb
  split
  · rename_i hm
    refine ⟨fun s other j => ?_,fun _ _ => prefix_rfl,by simp [hexport],fun _ _ => rfl,by simp [hpush]⟩
    rw [hb,Option.some.injEq,Prod.mk.injEq,Prod.mk.injEq]
    refine ⟨.inl,?_⟩
    rintro (h | ⟨rfl,rfl,rfl⟩)
    · exact h
    · exact hm
  · refine ⟨fun s other j => ?_,fun s other => ?_,by simp [hexport,exports_bind],
      fun _ _ => parent_bind,by simp [hpush]⟩
    · rw [hb,here_bind hs,mem_append,Option.some.injEq,Prod.mk.injEq,Prod.mk.injEq]
      refine or_congr_right ?_
      split <;> grind
    · rw [here_bind hs]
      exact prefix_append _ _

/-- A call that is not refused does what it is for, and mixes nothing that a name stands for. -/
theorem run_ok (hv : c.Valid p) {u : Unit} (h : c.run p = .ok u q) : (q.entities = p.entities ∧ c.Done p q) ∧
    (p.scopes.Unmixed p.entities → q.scopes.Unmixed q.entities) := by
  have binds {scope : ScopeId} {name : String} {id : EntityId} (hs : scope.index < p.scopes.size)
      (hid : id.index < p.entities.size) (hb : c.binding? p.entities = some (scope, name, id)) :
      (q.entities = p.entities ∧ c.Done p q) ∧ (p.scopes.Unmixed p.entities → q.scopes.Unmixed q.entities) := by
    rcases run_binding hb with ⟨-,_,he⟩ | ⟨hf,he⟩
    all_goals
      rw [he] at h
      cases h
    refine ⟨⟨rfl,done_of_binding hb hs⟩,fun hu => ?_⟩
    split
    · exact hu
    · rename_i hm
      exact hu.bind hs hid hm hf
  cases c with
  | push parent kind =>
    cases h
    exact ⟨⟨rfl,done_of_push⟩,fun hu => hu.push hv kind⟩
  | addExport scope id =>
    cases h
    exact ⟨⟨rfl,done_of_addExport hv.1⟩,fun hu => hu.addExport⟩
  | register scope id => exact binds hv.1 hv.2 rfl
  | registerAs scope name id location => exact binds hv.1 hv.2 rfl

end ScopeCall

namespace Program

variable {p : Program}

private theorem ScopeHistory.unmixed (hp : p.ScopeHistory) : p.scopes.Unmixed p.entities := by
  induction hp with
  | fresh h =>
    rw [h]
    exact .fresh _
  | call c _ hv hends ih =>
    rcases hends with ⟨u,h⟩ | ⟨d,h⟩
    · exact (ScopeCall.run_ok hv h).2 ih
    · obtain ⟨rfl, -⟩ := ScopeCall.run_error h
      exact ih
  | between _ hs hsize hsame ih =>
    rw [hs]
    exact ih.of_entities hsize hsame

/-- Whatever was registered and exported, refused or not: a name is bound in a scope to one entity that is no function or
to functions, each once; a lookup finds the nearest entity that is no function, and all functions from the inside
outwards, each at its first place; a registration is refused just when the name is taken, and then no lookup has
changed. -/
theorem lookups_of_history (hp : p.ScopeHistory) : (∀ s name, (p.scopes.here s name).Nodup ∧
      ((∃ id, p.scopes.here s name = [id] ∧ (p.entities.get id).isFunction = false) ∨
        ∀ id ∈ p.scopes.here s name, (p.entities.get id).isFunction = true)) ∧
    (∀ s, s.index < p.scopes.size → ∃ chain, p.scopes.Lineage s chain ∧ ∀ name,
      (∀ id, p.scopes.resolve? p.entities s name = some id ↔ p.scopes.Nearest p.entities chain name id) ∧
      (∀ id, id ∈ p.scopes.overloads p.entities s name ↔ id ∈ p.scopes.functionsAlong p.entities chain name) ∧
      (p.scopes.overloads p.entities s name).Pairwise fun a b =>
        (p.scopes.functionsAlong p.entities chain name).idxOf a <
          (p.scopes.functionsAlong p.entities chain name).idxOf b) ∧
    ∀ c : ScopeCall, c.Valid p →
      (∀ q, c.run p = .ok () q → q.entities = p.entities ∧ c.Done p q) ∧
      (∀ d q, c.run p = .error d q → p.SameLookups q) ∧
      ((∃ d q, c.run p = .error d q) ↔ ∃ scope name id, c.binding? p.entities = some (scope, name, id) ∧
        p.scopes.Taken p.entities scope name id) ∧
      ∀ scope name id, c.binding? p.entities = some (scope, name, id) → ∀ d q, c.run p = .error d q →
        ∃ location, d = .here location (.duplicateBinding name) := by
  have hu := hp.unmixed
  refine ⟨fun s name => ⟨hu.nodup s name,hu.sorted s name⟩,fun s hs => ?_,fun c hv => ⟨?_,?_,?_,?_⟩⟩
  · exact ⟨p.scopes.ancestors s,hu.lineage hs,fun name =>
      ⟨fun _ => hu.resolve?_eq_some,p.scopes.overloads_spec p.entities s name⟩⟩
  · intro q h
    exact (ScopeCall.run_ok hv h).1
  · intro d q h
    obtain ⟨rfl, -⟩ := ScopeCall.run_error h
    exact fun _ _ => ⟨rfl,rfl,rfl,rfl,rfl⟩
  · constructor
    · rintro ⟨d,q,h⟩
      obtain ⟨-,scope,name,id, -,hb,ht, -⟩ := ScopeCall.run_error h
      exact ⟨scope,name,id,hb,ht⟩
    · rintro ⟨scope,name,id,hb,ht⟩
      rcases ScopeCall.run_binding hb with ⟨-,location,he⟩ | ⟨hf, -⟩
      · exact ⟨_,_,he⟩
      · exact (hf ht).elim
  · intro scope name id hb d q h
    obtain ⟨-,scope',name',id',location,hb', -,hd⟩ := ScopeCall.run_error h
    rw [hb] at hb'
    cases hb'
    exact ⟨location,hd⟩

private def called (p : Program) (c : ScopeCall) : Program :=
  match c.run p with
  | .ok _ q | .error _ q => q

private theorem endsIn_called (p : Program) (c : ScopeCall) : c.run.EndsIn p (p.called c) := by
  unfold called
  cases h : c.run p with
  | ok u q => exact .inl ⟨u,h⟩
  | error d q => exact .inr ⟨d,h⟩

private def unbound : Program := { Program.initial with scopes := {} }

/-- A type in the root, functions of its name in a module and in a function there, and the type again, refused. -/
private def sampleCalls : List ScopeCall :=
  [.registerAs root "f" Program.objectId .builtin,.push root .module,
    .registerAs ⟨1⟩ "f" ⟨8⟩ .builtin,.registerAs ⟨1⟩ "f" ⟨9⟩ .builtin,.registerAs ⟨1⟩ "f" Program.objectId .builtin,
    .push ⟨1⟩ .function,.registerAs ⟨2⟩ "f" ⟨10⟩ .builtin,.registerAs ⟨2⟩ "f" ⟨8⟩ .builtin,.addExport ⟨1⟩ ⟨8⟩]

private instance (p : Program) : (c : ScopeCall) → Decidable (c.Valid p)
  | .push .. => inferInstanceAs (Decidable (_ < _))
  | .register .. | .registerAs .. | .addExport .. => inferInstanceAs (Decidable (_ ∧ _))

private def allValid : Program → List ScopeCall → Bool
  | _, [] => true
  | p, c :: calls => decide (c.Valid p) && allValid (p.called c) calls

private theorem ScopeHistory.calls {calls : List ScopeCall} (hp : p.ScopeHistory) (h : allValid p calls = true) :
    (calls.foldl called p).ScopeHistory := by
  induction calls generalizing p with
  | nil => exact hp
  | cons c calls ih =>
    rw [allValid,Bool.and_eq_true,decide_eq_true_eq] at h
    exact ih (.call c hp h.1 (endsIn_called p c)) h.2

theorem lookups_of_history_sample : ∃ p : Program, p.ScopeHistory ∧
    p.scopes.resolve? p.entities ⟨2⟩ "f" = some objectId ∧ p.scopes.overloads p.entities ⟨2⟩ "f" = [⟨10⟩,⟨8⟩,⟨9⟩] ∧
    (∃ chain, p.scopes.Lineage ⟨2⟩ chain ∧ p.scopes.Nearest p.entities chain "f" objectId) ∧
    ∀ d q, (ScopeCall.registerAs ⟨1⟩ "f" objectId .builtin).run p = .error d q → p.SameLookups q := by
  have hvalid : allValid unbound sampleCalls = true := by decide +kernel
  have hfound : (sampleCalls.foldl called unbound).scopes.resolve? (sampleCalls.foldl called unbound).entities ⟨2⟩ "f" =
      some objectId := by decide +kernel
  have hp : (sampleCalls.foldl called unbound).ScopeHistory := .calls (.fresh rfl) hvalid
  obtain ⟨-,hlookup,hcalls⟩ := lookups_of_history hp
  obtain ⟨chain,hchain,hname⟩ := hlookup ⟨2⟩ (by decide +kernel)
  exact ⟨_,hp,hfound,by decide +kernel,⟨chain,hchain,((hname "f").1 _).mp hfound⟩,
    (hcalls (.registerAs ⟨1⟩ "f" objectId .builtin) (by constructor <;> decide +kernel)).2.1⟩

end Program

end FormCompiler
