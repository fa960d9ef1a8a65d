import FormCompiler.Resolve

/-! What each change of a table does to what is read from it. -/

namespace FormCompiler

open List

variable {α β : Type}

theorem mem_of_lookup [BEq α] [LawfulBEq α] {l : List (α × β)} {a : α} {b : β} (h : l.lookup a = some b) :
    (a, b) ∈ l := by
  obtain ⟨l₁,l₂,rfl,_⟩ := lookup_eq_some_iff.mp h
  simp

theorem lookup_of_mem [BEq α] [LawfulBEq α] {l : List (α × β)} {a : α} {b : β} (hn : (l.map (·.1)).Nodup)
    (hm : (a, b) ∈ l) : l.lookup a = some b := by
  induction l with
  | nil => cases hm
  | cons x l ih =>
    obtain ⟨hx,hn⟩ := nodup_cons.mp hn
    rcases mem_cons.mp hm with rfl | hm
    · simp
    · have hne : a ≠ x.1 := by
        rintro rfl
        exact hx (mem_map.mpr ⟨_,hm,rfl⟩)
      rw [lookup_cons,beq_false_of_ne hne]
      exact ih hn hm

theorem mem_of_mapM {f : α → Option β} {l : List α} {l' : List β} (h : l.mapM f = some l') {b : β} (hb : b ∈ l') :
    ∃ a ∈ l, f a = some b := by
  induction l generalizing l' with
  | nil =>
    cases h
    cases hb
  | cons a l ih =>
    simp only [mapM_cons,Option.bind_eq_bind,Option.bind_eq_some_iff] at h
    obtain ⟨c,hc,rest,hr,h⟩ := h
    cases h
    rcases mem_cons.mp hb with rfl | hb
    · exact ⟨a,by simp,hc⟩
    · obtain ⟨x,hx,he⟩ := ih hr hb
      exact ⟨x,by simp [hx],he⟩

namespace EntityTable

variable (t : EntityTable)

/-- What the entity is; entities that do not exist are primitive types. -/
def kind (id : EntityId) : EntityKind := (t.get id).kind

variable {t} {id j : EntityId} {d : FunctionDef}

theorem object?_eq_some {d : ObjectDef} : t.object? id = some d ↔ t.kind id = .object d := by
  unfold object? Entity.object? kind
  split <;> simp_all

theorem function?_eq_some : t.function? id = some d ↔ t.kind id = .function d := by
  unfold function? Entity.function? kind
  split <;> simp_all

theorem isFunction_iff : (t.get id).isFunction = true ↔ ∃ d, t.kind id = .function d := by
  unfold Entity.isFunction kind
  split <;> simp_all

theorem kind_of_size_le (h : t.size ≤ id.index) : t.kind id = .primitive default := by
  have hn : t.entries[id.index]? = none := Array.getElem?_eq_none h
  simp only [kind,get,Array.getD_eq_getD_getElem?,hn]
  rfl

theorem lt_size_of_kind (h : t.kind id ≠ .primitive default) : id.index < t.size := by
  apply Classical.byContradiction
  intro hn
  exact h (kind_of_size_le (Nat.le_of_not_lt hn))

theorem mem_ids : id ∈ t.ids ↔ id.index < t.size := by
  simp only [ids,mem_map,mem_range]
  exact ⟨fun ⟨_,h,he⟩ => he ▸ h,fun h => ⟨id.index,h,rfl⟩⟩

theorem mem_concreteObjects {d : ObjectDef} :
    (id, d) ∈ t.concreteObjects ↔ t.kind id = .object d ∧ d.typeParams = [] ∧ d.stage = .done := by
  simp only [concreteObjects,mem_filterMap]
  constructor
  · rintro ⟨id',_,h⟩
    cases ho : t.object? id' with
    | none => simp [ho] at h
    | some e =>
      simp only [ho] at h
      split at h
      · rename_i hc
        cases h
        simp only [ObjectDef.isGeneric,Bool.and_eq_true,Bool.not_not,decide_eq_true_eq,List.isEmpty_iff] at hc
        exact ⟨object?_eq_some.mp ho,hc⟩
      · cases h
  · rintro ⟨hk,htp,hd⟩
    refine ⟨id,mem_ids.mpr (lt_size_of_kind (by simp [hk])),?_⟩
    simp [object?_eq_some.mpr hk,ObjectDef.isGeneric,htp,hd]

@[simp] theorem size_alloc (name : String) (location : Location) (kind : EntityKind) :
    (t.alloc name location kind).2.size = t.size + 1 := by
  simp [alloc,size]

theorem get_alloc_of_lt (h : id.index < t.size) (name : String) (location : Location)
    (kind : EntityKind) : (t.alloc name location kind).2.get id = t.get id := by
  have hs : id.index < t.entries.size := h
  simp only [get,alloc,Array.getD_eq_getD_getElem?]
  rw [Array.getElem?_push_lt hs,Array.getElem?_eq_getElem hs]

@[simp] theorem get_alloc_self (name : String) (location : Location) (kind : EntityKind) :
    (t.alloc name location kind).2.get ⟨t.size⟩ = ⟨name,location,kind⟩ := by
  simp [get,alloc,size,Array.getD_eq_getD_getElem?]

theorem kind_alloc_of_lt (h : id.index < t.size) (name : String) (location : Location)
    (kind : EntityKind) : (t.alloc name location kind).2.kind id = t.kind id := by
  simp only [EntityTable.kind,get_alloc_of_lt h]

@[simp] theorem kind_alloc_self (name : String) (location : Location) (kind : EntityKind) :
    (t.alloc name location kind).2.kind ⟨t.size⟩ = kind := by
  simp [EntityTable.kind]

theorem kind_alloc_cases (t : EntityTable) (name : String) (location : Location) (kind : EntityKind)
    (id : EntityId) : (t.alloc name location kind).2.kind id = t.kind id ∨
      id = ⟨t.size⟩ ∧ (t.alloc name location kind).2.kind id = kind := by
  rcases Nat.lt_trichotomy id.index t.size with h | h | h
  · exact .inl (kind_alloc_of_lt h ..)
  · obtain ⟨i⟩ := id
    cases h
    exact .inr ⟨rfl,kind_alloc_self ..⟩
  · refine .inl ?_
    rw [kind_of_size_le (by simp; omega),kind_of_size_le (by omega)]

@[simp] theorem size_modifyKind (f : EntityKind → EntityKind) : (t.modifyKind id f).size = t.size := by
  simp [modifyKind,size]

private theorem get_modifyKind_ne (h : j ≠ id) (f : EntityKind → EntityKind) : (t.modifyKind id f).get j = t.get j := by
  have hi : id.index ≠ j.index := fun he => h (by cases id; cases j; simp_all)
  simp only [get,modifyKind,Array.getD_eq_getD_getElem?,Array.getElem?_modify,hi,if_false]

private theorem get_modifyKind_self (h : id.index < t.size) (f : EntityKind → EntityKind) :
    (t.modifyKind id f).get id = { t.get id with kind := f (t.get id).kind } := by
  have hs : id.index < t.entries.size := h
  simp only [get,modifyKind,Array.getD_eq_getD_getElem?,Array.getElem?_modify,if_true]
  rw [Array.getElem?_eq_getElem hs]
  rfl

@[simp] theorem name_modifyKind (f : EntityKind → EntityKind) : ((t.modifyKind id f).get j).name = (t.get j).name := by
  by_cases hj : j = id
  · subst hj
    by_cases hs : j.index < t.size
    · rw [get_modifyKind_self hs]
    · have hn : t.entries[j.index]? = none := Array.getElem?_eq_none (Nat.le_of_not_lt hs)
      simp [get,modifyKind,Array.getD_eq_getD_getElem?,Array.getElem?_modify,hn]
  · rw [get_modifyKind_ne hj]

theorem kind_modifyKind_ne (h : j ≠ id) (f : EntityKind → EntityKind) : (t.modifyKind id f).kind j = t.kind j := by
  simp only [kind,get_modifyKind_ne h]

theorem kind_modifyKind_self (h : id.index < t.size) (f : EntityKind → EntityKind) :
    (t.modifyKind id f).kind id = f (t.kind id) := by
  simp only [kind,get_modifyKind_self h]

theorem kind_modifyKind_cases (t : EntityTable) (id : EntityId) (f : EntityKind → EntityKind) (j : EntityId) :
    (t.modifyKind id f).kind j = t.kind j ∨ j = id ∧ (t.modifyKind id f).kind j = f (t.kind id) := by
  by_cases hj : j = id
  · subst hj
    by_cases hlt : j.index < t.size
    · exact .inr ⟨rfl,kind_modifyKind_self hlt f⟩
    · refine .inl ?_
      rw [kind_of_size_le (by simpa using hlt),kind_of_size_le (by simpa using hlt)]
  · exact .inl (kind_modifyKind_ne hj f)

theorem kind_modifyObject_self {d : ObjectDef} (h : t.kind id = .object d) (f : ObjectDef → ObjectDef) :
    (t.modifyObject id f).kind id = .object (f d) := by
  rw [modifyObject,kind_modifyKind_self (lt_size_of_kind (by simp [h])),h]

theorem kind_modifyObject_cases {d : ObjectDef} (h : t.kind id = .object d) (f : ObjectDef → ObjectDef) (j : EntityId) :
    (t.modifyObject id f).kind j = t.kind j ∨ j = id ∧ (t.modifyObject id f).kind j = .object (f d) := by
  refine (t.kind_modifyKind_cases id _ j).imp_right fun ⟨hj,he⟩ => ⟨hj,he.trans ?_⟩
  rw [h]

/-- There is nothing to change in an entity that is not an object. -/
theorem modifyObject_of_not_object (h : ∀ d, t.kind id ≠ .object d) (f : ObjectDef → ObjectDef) :
    t.modifyObject id f = t := by
  obtain ⟨entries⟩ := t
  simp only [modifyObject,modifyKind,EntityTable.mk.injEq]
  apply Array.ext
  · simp
  · intro i hi hi'
    by_cases hid : id.index = i
    · subst hid
      have hk : (EntityTable.mk entries).kind id = (entries[id.index]).kind := by
        simp [kind,get,Array.getD_eq_getD_getElem?,hi']
      rw [hk] at h
      simp only [Array.getElem_modify,if_true]
    · simp [Array.getElem_modify,hid]

theorem kind_modifyObject_function (f : ObjectDef → ObjectDef) :
    (t.modifyObject id f).kind j = .function d ↔ t.kind j = .function d := by
  by_cases h : j = id
  · subst h
    by_cases hj : j.index < t.size
    · rw [modifyObject,kind_modifyKind_self hj]
      cases t.kind j <;> simp
    · rw [kind_of_size_le (by simpa [modifyObject] using hj),kind_of_size_le (by simpa using hj)]
  · rw [modifyObject,kind_modifyKind_ne h]

theorem kind_modifyFunction_self (h : t.kind id = .function d) (f : FunctionDef → FunctionDef) :
    (t.modifyFunction id f).kind id = .function (f d) := by
  rw [modifyFunction,kind_modifyKind_self (lt_size_of_kind (by simp [h])),h]

theorem kind_modifyFunction_cases (h : t.kind id = .function d) (f : FunctionDef → FunctionDef) (j : EntityId) :
    (t.modifyFunction id f).kind j = t.kind j ∨ j = id ∧ (t.modifyFunction id f).kind j = .function (f d) := by
  refine (t.kind_modifyKind_cases id _ j).imp_right fun ⟨hj,he⟩ => ⟨hj,he.trans ?_⟩
  rw [h]

theorem kind_modifyAlias_self {d : AliasDef} (h : t.kind id = .typeAlias d) (f : AliasDef → AliasDef) :
    (t.modifyAlias id f).kind id = .typeAlias (f d) := by
  rw [modifyAlias,kind_modifyKind_self (lt_size_of_kind (by simp [h])),h]

theorem kind_modifyAlias_function (f : AliasDef → AliasDef) :
    (t.modifyAlias id f).kind j = .function d ↔ t.kind j = .function d := by
  by_cases h : j = id
  · subst h
    by_cases hj : j.index < t.size
    · rw [modifyAlias,kind_modifyKind_self hj]
      cases t.kind j <;> simp
    · rw [kind_of_size_le (by simpa [modifyAlias] using hj),kind_of_size_le (by simpa using hj)]
  · rw [modifyAlias,kind_modifyKind_ne h]

end EntityTable

namespace Arena

variable {a : Arena} {id j first root : ExprId} {subst : Subst}

theorem ext_of_index (h : id.index = j.index) : id = j := by
  cases id; cases j; simp_all

@[simp] theorem size_setShape (shape : ExprShape) : (a.setShape id shape).size = a.size := by
  simp [setShape,size]

@[simp] theorem size_setType (type : Ty) : (a.setType id type).size = a.size := by
  simp [setType,size]

private theorem get_modify_ne (h : j ≠ id) (f : Expr → Expr) :
    (⟨a.nodes.modify id.index f⟩ : Arena).get j = a.get j := by
  have hi : id.index ≠ j.index := fun he => h (ext_of_index he.symm)
  simp only [get,Array.getD_eq_getD_getElem?,Array.getElem?_modify,hi,if_false]

private theorem get_modify_self (h : id.index < a.size) (f : Expr → Expr) :
    (⟨a.nodes.modify id.index f⟩ : Arena).get id = f (a.get id) := by
  have hs : id.index < a.nodes.size := h
  simp only [get,Array.getD_eq_getD_getElem?,Array.getElem?_modify,if_true]
  rw [Array.getElem?_eq_getElem hs]
  rfl

theorem get_setShape_ne (h : j ≠ id) (shape : ExprShape) : (a.setShape id shape).get j = a.get j :=
  get_modify_ne h _

theorem get_setShape_self (h : id.index < a.size) (shape : ExprShape) :
    (a.setShape id shape).get id = { a.get id with shape } := get_modify_self h _

theorem get_setType_ne (h : j ≠ id) (type : Ty) : (a.setType id type).get j = a.get j :=
  get_modify_ne h _

theorem get_setType_self (h : id.index < a.size) (type : Ty) :
    (a.setType id type).get id = { a.get id with type := some type } := get_modify_self h _

@[simp] theorem size_alloc (shape : ExprShape) (location : Location) :
    (a.alloc shape location).2.size = a.size + 1 := by
  simp [alloc,size]

theorem get_alloc_of_lt (h : j.index < a.size) (shape : ExprShape) (location : Location) :
    (a.alloc shape location).2.get j = a.get j := by
  have hs : j.index < a.nodes.size := h
  simp only [get,alloc,Array.getD_eq_getD_getElem?]
  rw [Array.getElem?_push_lt hs,Array.getElem?_eq_getElem hs]

@[simp] theorem get_alloc_self (shape : ExprShape) (location : Location) :
    (a.alloc shape location).2.get a.next = { shape, location } := by
  simp [get,alloc,next,size,Array.getD_eq_getD_getElem?]

theorem get_of_size_le (h : a.size ≤ j.index) : a.get j = default := by
  have hn : a.nodes[j.index]? = none := Array.getElem?_eq_none h
  simp [get,Array.getD_eq_getD_getElem?,hn]

theorem lt_size_of_type {τ : Ty} (h : (a.get j).type = some τ) : j.index < a.size := by
  apply Classical.byContradiction
  intro hn
  rw [get_of_size_le (Nat.le_of_not_lt hn)] at h
  cases h

theorem get_cloneRange_of_lt (h : j.index < a.size) : (a.cloneRange first root subst).2.get j = a.get j := by
  have hs : j.index < a.nodes.size := h
  simp only [get,cloneRange,Array.getD_eq_getD_getElem?]
  rw [Array.getElem?_append_left hs]

theorem size_cloneRange (hr : root.index < a.size) (hf : first.index ≤ root.index) :
    (a.cloneRange first root subst).2.size = a.size + (root.index + 1 - first.index) := by
  have hs : root.index < a.nodes.size := hr
  simp only [cloneRange,size,Array.size_append,Array.size_map,Array.size_extract]
  omega

/-- A copied node stands as far after the old end as its original after `first`. -/
theorem get_cloneRange_shift (hr : root.index < a.size) (hf : first.index ≤ j.index) (hj : j.index ≤ root.index) :
    (a.cloneRange first root subst).2.get (j.shift (a.size - first.index)) =
      (a.get j).copy (a.size - first.index) subst := by
  have hs : root.index < a.nodes.size := hr
  have hlt : j.index < a.nodes.size := by omega
  have hi : j.index + (a.size - first.index) - a.nodes.size = j.index - first.index := by
    simp only [size]; omega
  have hge : a.nodes.size ≤ j.index + (a.size - first.index) := by simp only [size]; omega
  simp only [get,cloneRange,ExprId.shift,Array.getD_eq_getD_getElem?]
  rw [Array.getElem?_append_right hge,hi,Array.getElem?_map,Array.getElem?_extract,
    if_pos (by omega),show first.index + (j.index - first.index) = j.index by omega,
    Array.getElem?_eq_getElem hlt]
  rfl

end Arena

private theorem lookup_bindName (name other : String) (id : EntityId) (l : List (String × List EntityId)) :
    ((bindName name id l).lookup other).getD [] = (l.lookup other).getD [] ++ if other = name then [id] else [] := by
  induction l with
  | nil => by_cases h : other = name <;> simp [bindName,lookup_cons,h,beq_eq_false_iff_ne.mpr]
  | cons head l ih =>
    obtain ⟨first,ids⟩ := head
    by_cases hf : first = name
    · subst hf
      by_cases h : other = first <;> simp [bindName,lookup_cons,h,beq_eq_false_iff_ne.mpr]
    · by_cases h : other = first
      · subst h
        simp [bindName,hf]
      · simp [bindName,lookup_cons,hf,beq_eq_false_iff_ne.mpr h,ih]

namespace ScopeTable

variable {t : ScopeTable} {s scope parent : ScopeId} {name other : String} {id : EntityId}

theorem get_push_of_lt (h : s.index < t.size) (parent : ScopeId) (kind : ScopeKind) :
    (t.push parent kind).2.get s = t.get s := by
  have hs : s.index < t.scopes.size := h
  simp only [get,push,Array.getD_eq_getD_getElem?]
  rw [Array.getElem?_push_lt hs,Array.getElem?_eq_getElem hs]

@[simp] theorem get_push_self (parent : ScopeId) (kind : ScopeKind) :
    (t.push parent kind).2.get ⟨t.size⟩ = { parent := some parent, kind } := by
  simp [get,push,size,Array.getD_eq_getD_getElem?]

@[simp] theorem size_push (parent : ScopeId) (kind : ScopeKind) : (t.push parent kind).2.size = t.size + 1 := by
  simp [push,size]

@[simp] theorem size_bind (scope : ScopeId) (name : String) (id : EntityId) : (t.bind scope name id).size = t.size := by
  simp [bind,size]

theorem get_bind_ne (h : s ≠ scope) (name : String) (id : EntityId) : (t.bind scope name id).get s = t.get s := by
  have hi : scope.index ≠ s.index := fun he => h (by cases scope; cases s; simp_all)
  simp only [get,bind,Array.getD_eq_getD_getElem?,Array.getElem?_modify,hi,if_false]

private theorem get_bind_self (h : s.index < t.size) (name : String) (id : EntityId) :
    (t.bind s name id).get s = { t.get s with bindings := bindName name id (t.get s).bindings } := by
  have hs : s.index < t.scopes.size := h
  simp only [get,bind,Array.getD_eq_getD_getElem?,Array.getElem?_modify,if_true]
  rw [Array.getElem?_eq_getElem hs]
  rfl

theorem get_of_size_le (h : t.size ≤ s.index) : t.get s = default := by
  have hn : t.scopes[s.index]? = none := Array.getElem?_eq_none h
  simp [get,Array.getD_eq_getD_getElem?,hn]

private theorem get_bind : (t.bind scope name id).get s =
    if s = scope ∧ s.index < t.size then { t.get s with bindings := bindName name id (t.get s).bindings } else t.get s := by
  by_cases he : s = scope
  · subst he
    by_cases hs : s.index < t.size
    · rw [get_bind_self hs,if_pos ⟨rfl,hs⟩]
    · rw [if_neg (by simp [hs]),get_of_size_le (by simpa using hs),get_of_size_le (by simpa using hs)]
  · rw [get_bind_ne he,if_neg (by simp [he])]

@[simp] theorem parent_bind : ((t.bind scope name id).get s).parent = (t.get s).parent := by
  rw [get_bind]
  split <;> rfl

@[simp] theorem kind_bind : ((t.bind scope name id).get s).kind = (t.get s).kind := by
  rw [get_bind]
  split <;> rfl

@[simp] theorem exports_bind : (t.bind scope name id).exports s = t.exports s := by
  unfold exports
  rw [get_bind]
  split <;> rfl

theorem here_bind (hs : scope.index < t.size) :
    (t.bind scope name id).here s other = t.here s other ++ if s = scope ∧ other = name then [id] else [] := by
  by_cases he : s = scope
  · subst he
    simp [here,Scope.bound,get_bind_self hs,lookup_bindName]
  · simp [here,get_bind_ne he,he]

theorem here_bind_appends : ∃ more, (t.bind scope name id).here s other = t.here s other ++ more ∧
    ∀ j ∈ more, j = id ∧ s = scope ∧ other = name := by
  by_cases hs : scope.index < t.size
  · refine ⟨_,here_bind hs,fun j hj => ?_⟩
    split at hj
    · exact ⟨mem_singleton.mp hj,‹_›⟩
    · cases hj
  · refine ⟨[],?_,by simp⟩
    rw [here,get_bind,if_neg (by rintro ⟨rfl,h⟩; exact hs h),append_nil,here]

theorem mem_here_bind {j : EntityId} (h : j ∈ (t.bind scope name id).here s other) :
    j ∈ t.here s other ∨ j = id ∧ s = scope ∧ other = name := by
  obtain ⟨more,he,hmore⟩ : ∃ more, (t.bind scope name id).here s other = t.here s other ++ more ∧ _ := here_bind_appends
  rw [he] at h
  exact (mem_append.mp h).imp_right (hmore j)

theorem get_push (kind : ScopeKind) : (t.push parent kind).2.get s =
    if s.index = t.size then { parent := some parent, kind } else t.get s := by
  split
  · obtain rfl : s = ⟨t.size⟩ := by cases s; simp_all
    exact get_push_self parent kind
  · by_cases hs : s.index < t.size
    · exact get_push_of_lt hs parent kind
    · rw [get_of_size_le (by simp; omega),get_of_size_le (by omega)]

theorem here_push (kind : ScopeKind) : (t.push parent kind).2.here s name = t.here s name := by
  unfold here
  rw [get_push]
  split
  · rw [get_of_size_le (by omega)]
    rfl
  · rfl

theorem get_addExport : (t.addExport scope id).get s =
    if s = scope ∧ s.index < t.size ∧ id ∉ t.exports s then { t.get s with exports := t.exports s ++ [id] }
    else t.get s := by
  by_cases he : s = scope
  · subst he
    by_cases hs : s.index < t.size
    · have hs' : s.index < t.scopes.size := hs
      simp only [get,addExport,exports,Array.getD_eq_getD_getElem?,Array.getElem?_modify,if_true,
        Array.getElem?_eq_getElem hs',Option.map_some,Option.getD_some,hs,true_and,contains_eq_mem]
      by_cases hm : id ∈ t.scopes[s.index].exports <;> simp [hm]
    · have hn : t.scopes[s.index]? = none := Array.getElem?_eq_none (Nat.le_of_not_lt hs)
      simp [get,addExport,Array.getD_eq_getD_getElem?,Array.getElem?_modify,hn,hs]
  · have hi : scope.index ≠ s.index := fun h => he (by cases scope; cases s; simp_all)
    simp [get,addExport,Array.getD_eq_getD_getElem?,Array.getElem?_modify,hi,he]

theorem exports_addExport : (t.addExport scope id).exports s =
    t.exports s ++ if s = scope ∧ s.index < t.size ∧ id ∉ t.exports s then [id] else [] := by
  rw [exports,get_addExport]
  split
  · rfl
  · simp [exports]

theorem here_addExport : (t.addExport scope id).here s name = t.here s name := by
  unfold here
  rw [get_addExport]
  split <;> rfl

/-- Binding a name either changes nothing or adds it. -/
theorem bind_of_registerAs {entities : EntityTable} {location : Location} {u : ScopeTable}
    (h : t.registerAs entities scope name id location = .ok u) : u = t ∨ u = t.bind scope name id := by
  unfold registerAs at h
  simp only at h
  split at h
  · cases h
    exact .inl rfl
  · split at h
    · cases h
      exact .inr rfl
    · cases h

end ScopeTable

end FormCompiler
