import FormCompiler.Proofs.Lowering.Growth
import FormCompiler.Proofs.Resolution.Invariant

/-! Object types in the module. Parents come before their children, so each struct stands behind that of
its parent; the fields of a struct are those of the layout behind the reference to the ancestors. -/

namespace FormCompiler

open EntityTable List

open Wasm (FieldDef Instr TypeDef ValueType)

namespace Lower

variable {objects : List (EntityId × List EntityId)} {defs fields : List FieldDef} {m : Wasm.Module} {p : Program}
  {s t u : Emission} {id : EntityId} {chain : List EntityId} {d : Wasm.StructDef} {count i : Nat} {v : Unit}

/-! ### The order of declaration -/

private theorem declaredBefore_trans (a b c : EntityId × List EntityId) (hab : declaredBefore a b = true)
    (hbc : declaredBefore b c = true) : declaredBefore a c = true := by
  simp only [declaredBefore,Bool.or_eq_true,Bool.and_eq_true,decide_eq_true_eq] at *
  omega

private theorem declaredBefore_total (a b : EntityId × List EntityId) :
    (declaredBefore a b || declaredBefore b a) = true := by
  simp only [declaredBefore,Bool.or_eq_true,Bool.and_eq_true,decide_eq_true_eq]
  omega

private theorem insertInOrder_perm (x : EntityId × List EntityId) (l : List (EntityId × List EntityId)) :
    (insertInOrder x l).Perm (x :: l) := by
  induction l with
  | nil => exact .refl _
  | cons y l ih =>
    rw [insertInOrder]
    split
    · exact .refl _
    · exact (ih.cons y).trans (.swap x y l)

private theorem insertInOrder_pairwise (x : EntityId × List EntityId) {l : List (EntityId × List EntityId)}
    (h : l.Pairwise fun a b => declaredBefore a b = true) :
    (insertInOrder x l).Pairwise fun a b => declaredBefore a b = true := by
  induction l with
  | nil => exact pairwise_singleton _ _
  | cons y l ih =>
    obtain ⟨hy,hl⟩ := pairwise_cons.mp h
    rw [insertInOrder]
    split
    · rename_i hxy
      refine pairwise_cons.mpr ⟨fun z hz => ?_,h⟩
      rcases mem_cons.mp hz with rfl | hz
      · exact hxy
      · exact declaredBefore_trans x y z hxy (hy z hz)
    · rename_i hxy
      refine pairwise_cons.mpr ⟨fun z hz => ?_,ih hl⟩
      rcases mem_cons.mp ((insertInOrder_perm x l).mem_iff.mp hz) with rfl | hz
      · have htotal := declaredBefore_total z y
        simpa [hxy] using htotal
      · exact hy z hz

private theorem foldr_insertInOrder (l : List (EntityId × List EntityId)) : (l.foldr insertInOrder []).Perm l ∧
      (l.foldr insertInOrder []).Pairwise fun a b => declaredBefore a b = true := by
  induction l with
  | nil => exact ⟨.refl _,.nil⟩
  | cons x l ih => exact ⟨(insertInOrder_perm x _).trans (ih.1.cons x),insertInOrder_pairwise x ih.2⟩

/-- The objects of a program are those with a known layout, each with its chain. -/
theorem mem_objectsInOrder (hI : p.Inv) : (id, chain) ∈ objectsInOrder p ↔ Chain p.entities id chain := by
  simp only [objectsInOrder,(foldr_insertInOrder _).1.mem_iff,mem_map,Prod.mk.injEq,Prod.exists]
  have hspec := fun d hk hd => (Ancestry.chain_spec hI.founded hI.memo id).2.2 d hk hd
  constructor
  · rintro ⟨_,d,hm,rfl,rfl⟩
    obtain ⟨hk,_,hd⟩ := mem_concreteObjects.mp hm
    exact hspec d hk hd
  · intro hc
    obtain ⟨d,hk,hd⟩ := hc.isDone
    exact ⟨id,d,mem_concreteObjects.mpr ⟨hk,(hI.objectOk hk).plain hd,hd⟩,rfl,(hspec d hk hd).unique hc⟩

private theorem map_filterMap_sublist {α β : Type} {f : α → Option (α × β)}
    (hf : ∀ a b, f a = some b → b.1 = a) (l : List α) : List.Sublist ((l.filterMap f).map (·.1)) l := by
  induction l with
  | nil => exact .slnil
  | cons a l ih =>
    cases ha : f a with
    | none =>
      rw [filterMap_cons_none ha]
      exact ih.cons a
    | some b =>
      rw [filterMap_cons_some ha,map_cons,hf a b ha]
      exact ih.cons_cons a

private theorem objectsInOrder_nodup (p : Program) : ((objectsInOrder p).map (·.1)).Nodup := by
  have hperm := (foldr_insertInOrder (p.entities.concreteObjects.map fun o =>
    (o.1, (p.ancestry.chain p.entities o.1).1))).1.map (·.1)
  refine hperm.nodup_iff.mpr ?_
  have hids : p.entities.ids.Nodup := by
    refine List.Nodup.map (fun a b hab => ?_) nodup_range
    cases hab
    rfl
  have hsub : List.Sublist (p.entities.concreteObjects.map (·.1)) p.entities.ids := by
    refine map_filterMap_sublist (fun a b h => ?_) p.entities.ids
    cases ho : p.entities.object? a with
    | none => simp [ho] at h
    | some d =>
      simp only [ho] at h
      split at h <;> cases h
      rfl
  rw [map_map]
  exact hids.sublist hsub

/-- A parent is declared before its children. -/
theorem parent_before (hI : p.Inv) {k : Nat} {above : EntityId} {d : ObjectDef}
    (hk : (objectsInOrder p)[k]? = some (id, chain)) (hd : p.entities.kind id = .object d)
    (hp : d.parent = some above) : ∃ j < k, ∃ chain', (objectsInOrder p)[j]? = some (above, chain') := by
  have hc := (mem_objectsInOrder hI).mp (mem_of_getElem? hk)
  obtain ⟨l,hl,rfl⟩ : ∃ l, Chain p.entities above l ∧ chain = id :: l := by
    cases hc with
    | base hk' _ hp' =>
      cases hd.symm.trans hk'
      rw [hp] at hp'
      cases hp'
    | step hk' _ hp' hl =>
      cases hd.symm.trans hk'
      cases hp.symm.trans hp'
      exact ⟨_,hl,rfl⟩
  obtain ⟨j,hj⟩ := mem_iff_getElem?.mp ((mem_objectsInOrder hI).mpr hl)
  refine ⟨j,Nat.lt_of_not_le fun hle => ?_,l,hj⟩
  rcases Nat.eq_or_lt_of_le hle with rfl | hlt
  · rw [hk] at hj
    cases hj
  · have hsorted := (foldr_insertInOrder
      (p.entities.concreteObjects.map fun o => (o.1, (p.ancestry.chain p.entities o.1).1))).2
    obtain ⟨hk',he⟩ := List.getElem?_eq_some_iff.mp hk
    obtain ⟨hj',he'⟩ := List.getElem?_eq_some_iff.mp hj
    have hbefore := pairwise_iff_getElem.mp hsorted k j hk' hj' hlt
    change declaredBefore (objectsInOrder p)[k] (objectsInOrder p)[j] = true at hbefore
    rw [he,he'] at hbefore
    simp only [declaredBefore,length_cons,Bool.or_eq_true,Bool.and_eq_true,decide_eq_true_eq] at hbefore
    omega

/-! ### Declaring structs -/

def superOf (p : Program) (structs : List (EntityId × Nat)) (id : EntityId) : Option Nat :=
  ((p.entities.object? id).bind (·.parent)).bind fun parent => structs.lookup parent

/-- Object types have been looked at, and nothing else. -/
private structure Untouched (s : Emission) : Prop where
  funcs : s.funcs = []
  queue : s.queue = []
  tester : s.extendsFunction = none
  entries : s.module.funcs = #[]

private structure Declared (p : Program) (count : Nat) (s : Emission) : Prop extends Untouched s where
  le : count ≤ (objectsInOrder p).length
  idsArray : s.idsArray = some 0
  lookup : ∀ id n, s.structs.lookup id = some n ↔
    ∃ k chain, k < count ∧ n = k + 1 ∧ (objectsInOrder p)[k]? = some (id, chain)
  size : s.module.types.size = count + 1
  ids : s.module.types[0]? = some (.array ⟨"array_0",.i32,false⟩)
  struct : ∀ k id chain, k < count → (objectsInOrder p)[k]? = some (id, chain) →
    ∃ name, s.module.types[k + 1]? = some (.struct ⟨name,[],superOf p s.structs id⟩)
  globals : s.module.globals = #[]
  chains : s.chains = []

/-- Numbers of objects are unique. -/
theorem index_unique {j k : Nat} {c c' : List EntityId} (hj : (objectsInOrder p)[j]? = some (id, c))
    (hk : (objectsInOrder p)[k]? = some (id, c')) : j = k := by
  have hj' : ((objectsInOrder p).map (·.1))[j]? = some id := by simp [hj]
  have hk' : ((objectsInOrder p).map (·.1))[k]? = some id := by simp [hk]
  obtain ⟨h1,h2⟩ := List.getElem?_eq_some_iff.mp hj'
  obtain ⟨h3,h4⟩ := List.getElem?_eq_some_iff.mp hk'
  exact (objectsInOrder_nodup p).getElem_inj_iff.mp (h2.trans h4.symm)

private theorem declareStruct_ok (hI : p.Inv) (hs : Declared p count s)
    (hk : (objectsInOrder p)[count]? = some (id, chain)) (h : declareStruct id p s = .ok (v, t)) :
    Declared p (count + 1) t := by
  have h2 := read_bind_ok.mp h
  have h4 := get_bind_ok.mp h2
  obtain ⟨_,_,h5,h6⟩ := bind_ok.mp h4
  obtain ⟨rfl,rfl⟩ := displayName_ok.mp h5
  have h8 := modifyModule_bind_ok.mp h6
  cases modify_ok.mp h8
  have hnew : s.structs.lookup id = none := by
    refine Option.eq_none_iff_forall_ne_some.mpr fun n hn => ?_
    obtain ⟨k,c,hlt,_,hk'⟩ := (hs.lookup id n).mp hn
    exact absurd (index_unique hk' hk) (by omega)
  have hkeep : ∀ x n, s.structs.lookup x = some n → ((id, s.module.types.size) :: s.structs).lookup x = some n := by
    intro x n hx
    have hne : x ≠ id := by
      rintro rfl
      rw [hnew] at hx
      cases hx
    rw [lookup_cons,beq_eq_false_iff_ne.mpr hne]
    exact hx
  -- parents are among the objects declared before, so later declarations do not change what is found
  have hsuper : ∀ k x c, k ≤ count → (objectsInOrder p)[k]? = some (x, c) →
      superOf p ((id, s.module.types.size) :: s.structs) x = superOf p s.structs x := by
    intro k x c hle hx
    unfold superOf
    cases ho : p.entities.object? x with
    | none => rfl
    | some d =>
      cases hp : d.parent with
      | none => simp [hp]
      | some above =>
        obtain ⟨j,hlt,c',hj⟩ := parent_before hI hx (object?_eq_some.mp ho) hp
        have hl := (hs.lookup above (j + 1)).mpr ⟨j,c',by omega,rfl,hj⟩
        simp [hp,hl,hkeep above _ hl]
  refine ⟨⟨hs.funcs,hs.queue,hs.tester,hs.entries⟩,(List.getElem?_eq_some_iff.mp hk).1,hs.idsArray,
    fun x n => ?_,?_,?_,?_,hs.globals,hs.chains⟩
  · constructor
    · intro hx
      rw [lookup_cons] at hx
      split at hx
      · rename_i he
        cases beq_iff_eq.mp he
        exact ⟨count,chain,Nat.lt_succ_self _,(Option.some.inj hx).symm.trans hs.size,hk⟩
      · obtain ⟨k,c,hlt,hn,hc⟩ := (hs.lookup x n).mp hx
        exact ⟨k,c,by omega,hn,hc⟩
    · rintro ⟨k,c,hlt,rfl,hc⟩
      rcases Nat.lt_succ_iff_lt_or_eq.mp hlt with hlt | rfl
      · exact hkeep x _ ((hs.lookup x _).mpr ⟨k,c,hlt,rfl,hc⟩)
      · rw [hk] at hc
        cases hc
        rw [← hs.size]
        exact lookup_cons_self
  · simp [Wasm.Module.addStruct,hs.size]
  · exact Emission.getElem?_push_of_some hs.ids
  · intro k x c hlt hx
    show ∃ name, (s.module.types.push _)[k + 1]? = some (.struct ⟨name,[],
      superOf p ((id, s.module.types.size) :: s.structs) x⟩)
    rw [hsuper k x c (by omega) hx]
    rcases Nat.lt_succ_iff_lt_or_eq.mp hlt with hlt | rfl
    · obtain ⟨name,hname⟩ := hs.struct k x c hlt hx
      exact ⟨name,Emission.getElem?_push_of_some hname⟩
    · rw [hk] at hx
      cases hx
      rw [← hs.size]
      exact ⟨_,Array.getElem?_push_size⟩

private theorem declareStructs_ok (hI : p.Inv) (hs : Declared p count s) (ho : (objectsInOrder p).drop count = objects)
    (h : declareStructs objects p s = .ok (v, t)) : Declared p (objectsInOrder p).length t := by
  induction objects generalizing s count with
  | nil =>
    cases h
    rw [← Nat.le_antisymm hs.le (drop_eq_nil_iff.mp ho)]
    exact hs
  | cons object objects ih =>
    obtain ⟨_,u,h1,h2⟩ := bind_ok.mp h
    have hk : (objectsInOrder p)[count]? = some object := by
      rw [← head?_drop,ho]
      rfl
    refine ih (declareStruct_ok hI hs hk h1) ?_ h2
    rw [← tail_drop,ho]
    rfl

/-! ### Defining structs -/

def fieldDef? (s : Emission) (field : Field) : Option FieldDef :=
  (s.stored? field.type).map fun type => ⟨field.name,type,false⟩

def StructFields (p : Program) (s : Emission) (ids : Nat) (id : EntityId) (fields : List FieldDef) : Prop :=
  ∃ defs, fields = ⟨"__ancestors",.ref ids,false⟩ :: defs ∧
    List.Forall₂ (fun field def_ => fieldDef? s field = some def_)
      (((p.entities.object? id).map (·.fields)).getD []) defs

def chainGlobalOf (p : Program) (ids : Nat) (object : EntityId × List EntityId) : Wasm.Global :=
  ⟨"__chain_" ++ p.entities.displayName object.1,.ref ids,
    .arrayNewFixed ids (object.2.map fun ancestor => .i32Const (runtimeId ancestor))⟩

/-- All objects have their structs, and the first `count` of them have their fields. -/
private structure Defined (p : Program) (count : Nat) (s : Emission) : Prop where
  le : count ≤ (objectsInOrder p).length
  consistent : s.Consistent p
  funcs : s.funcs = []
  queue : s.queue = []
  entries : s.module.funcs = #[]
  idsArray : s.idsArray = some 0
  lookup : ∀ id n, s.structs.lookup id = some n ↔ ∃ k chain, n = k + 1 ∧ (objectsInOrder p)[k]? = some (id, chain)
  ids : s.module.types[0]? = some (.array ⟨"array_0",.i32,false⟩)
  struct : ∀ k id chain, (objectsInOrder p)[k]? = some (id, chain) →
    ∃ name fields, s.module.types[k + 1]? = some (.struct ⟨name,fields,superOf p s.structs id⟩) ∧
      (k < count → StructFields p s 0 id fields)
  only : ∀ (i : Nat) d, s.module.types[i]? = some (.struct d) → ∃ k, i = k + 1 ∧ k < (objectsInOrder p).length
  globals : s.module.globals.toList = ((objectsInOrder p).take count).map (chainGlobalOf p 0)
  chains : ∀ id n, s.chains.lookup id = some n ↔ n < count ∧ ∃ chain, (objectsInOrder p)[n]? = some (id, chain)

private theorem fieldDefs_ok {fields : List Field} (h : fieldDefs fields p s = .ok (defs, t)) :
    s.Quiet p t ∧ List.Forall₂ (fun field def_ => fieldDef? t field = some def_) fields defs := by
  induction fields generalizing s defs with
  | nil =>
    obtain ⟨rfl,rfl⟩ := pure_ok.mp h
    exact ⟨.refl p s,.nil⟩
  | cons field fields ih =>
    obtain ⟨type,u,h1,h2⟩ := bind_ok.mp h
    obtain ⟨rest,h3,rfl⟩ := bind_pure_ok.mp h2
    obtain ⟨q1,htype⟩ := storedType_ok h1
    obtain ⟨q2,hrest⟩ := ih h3
    exact ⟨q1.trans q2,.cons (by simp [fieldDef?,q2.stored? htype]) hrest⟩

private theorem Defined.quiet (hs : Defined p count s) (q : s.Quiet p t) : Defined p count t where
  le := hs.le
  consistent := q.consistent hs.consistent
  funcs := q.same.trans hs.funcs
  queue := q.queue.trans hs.queue
  entries := q.defined.trans hs.entries
  idsArray := q.idsArray.trans hs.idsArray
  lookup := q.structs ▸ hs.lookup
  ids := q.types _ _ hs.ids
  struct k id chain hk := by
    obtain ⟨name,fields,ht,hf⟩ := hs.struct k id chain hk
    refine ⟨name,fields,by rw [q.structs]; exact q.types _ _ ht,fun hlt => ?_⟩
    obtain ⟨defs,he,hdefs⟩ := hf hlt
    refine ⟨defs,he,hdefs.imp fun field def_ hd => ?_⟩
    obtain ⟨type,htype,rfl⟩ := Option.map_eq_some_iff.mp hd
    simp [fieldDef?,q.stored? htype]
  only i d hd := hs.only i d (q.arrays i d hd)
  globals := q.globals ▸ hs.globals
  chains := q.chains ▸ hs.chains

private theorem setFields_types (hi : m.types[i]? = some (.struct d)) (j : Nat) :
    (m.setFields i fields).types[j]? = if j = i then some (.struct { d with fields }) else m.types[j]? := by
  have hlt := (Array.getElem?_eq_some_iff.mp hi).1
  simp only [Wasm.Module.setFields,Wasm.Module.struct?,hi,Array.getElem?_setIfInBounds]
  by_cases he : i = j
  · subst he
    simp [hlt]
  · simp [he,Ne.symm he]

/-- Giving a struct its fields changes no representation. -/
private theorem setFields_stored (hi : s.module.types[i]? = some (.struct d)) (hs : t.structs = s.structs)
    (ht : t.module.types = (s.module.setFields i fields).types) {τ : Ty} {type : ValueType}
    (h : s.stored? τ = some type) : t.stored? τ = some type := by
  refine Emission.stored?_of_types hs (fun j e hj => ?_) h
  rw [ht,setFields_types hi]
  by_cases he : j = i
  · subst he
    rw [hi] at hj
    cases hj
    exact ⟨.struct { d with fields },by simp,fun _ => rfl⟩
  · exact ⟨e,by simp [he,hj],fun _ => rfl⟩

private theorem StructFields.imp {ids : Nat} (h : StructFields p s ids id fields)
    (hst : ∀ {τ type}, s.stored? τ = some type → t.stored? τ = some type) : StructFields p t ids id fields := by
  obtain ⟨defs,he,hdefs⟩ := h
  refine ⟨defs,he,hdefs.imp fun field def_ hd => ?_⟩
  obtain ⟨type,hτ,rfl⟩ := Option.map_eq_some_iff.mp hd
  simp [fieldDef?,hst hτ]

private theorem setFields_consistent {global : Wasm.Global} {chains : List (EntityId × Nat)}
    (hi : s.module.types[i]? = some (.struct d)) (hf : s.funcs = []) (hc : s.Consistent p) :
    Emission.Consistent p { s with
      module := { s.module.setFields i fields with
        globals := (s.module.setFields i fields).globals.push global }
      chains := chains } := by
  have hsize : (s.module.setFields i fields).types.size = s.module.types.size := by
    simp [Wasm.Module.setFields,Wasm.Module.struct?,hi]
  have hfuncs : (s.module.setFields i fields).funcs = s.module.funcs := by
    simp only [Wasm.Module.setFields]
    split <;> rfl
  refine ⟨fun x n hx => ?_,fun j e hj => ?_,?_,?_,hc.queue,hc.known,?_⟩
  · exact hsize ▸ hc.structs x n hx
  · rw [setFields_types hi] at hj
    split at hj
    · cases hj
    · have hknown := hc.arrays j e hj
      cases he : e.element with
      | ref n =>
        rw [he] at hknown
        show decide (n < (s.module.setFields i fields).types.size) = true
        rw [hsize]
        exact hknown
      | _ => rfl
  · intro x n hx
    simp [hf] at hx
  · intro x y n hx
    simp [hf] at hx
  · intro n hn
    rw [show ({ s.module.setFields i fields with
      globals := (s.module.setFields i fields).globals.push global } : Wasm.Module).funcs = s.module.funcs
      from hfuncs]
    exact hc.tester n hn

private theorem Defined.define (hs : Defined p count s) (hk : (objectsInOrder p)[count]? = some (id, chain))
    (hdefs : List.Forall₂ (fun field def_ => fieldDef? s field = some def_)
      (((p.entities.object? id).map (·.fields)).getD []) defs)
    (hm : m = s.module.setFields (count + 1) (⟨"__ancestors",.ref 0,false⟩ :: defs)) (ht : t = { s with
      module := { m with globals := m.globals.push (chainGlobalOf p 0 (id, chain)) }
      chains := (id, m.globals.size) :: s.chains }) : Defined p (count + 1) t := by
  obtain ⟨name,fields,htype,_⟩ := hs.struct count id chain hk
  have hglobals : m.globals = s.module.globals := by
    rw [hm]
    simp only [Wasm.Module.setFields]
    split <;> rfl
  have hcount : s.module.globals.size = count := by
    have := congrArg List.length hs.globals
    simpa [Nat.min_eq_left hs.le] using this
  have htypes : ∀ j, m.types[j]? = if j = count + 1 then some (.struct ⟨name,
      ⟨"__ancestors",.ref 0,false⟩ :: defs,superOf p s.structs id⟩) else s.module.types[j]? := fun j =>
    hm ▸ setFields_types htype j
  have hst : ∀ {τ type}, s.stored? τ = some type → t.stored? τ = some type := fun hτ =>
    setFields_stored htype (by rw [ht]) (by rw [ht,hm]) hτ
  have hfuncs : m.funcs = s.module.funcs := by
    rw [hm]
    simp only [Wasm.Module.setFields]
    split <;> rfl
  subst ht
  refine ⟨(List.getElem?_eq_some_iff.mp hk).1,?_,hs.funcs,hs.queue,hfuncs.trans hs.entries,hs.idsArray,
    hs.lookup,?_,?_,?_,?_,?_⟩
  · rw [hm]
    exact setFields_consistent htype hs.funcs hs.consistent
  · rw [htypes]
    simpa using hs.ids
  · intro k y c hy
    obtain ⟨name',fields',ht',hf'⟩ := hs.struct k y c hy
    rw [htypes]
    by_cases he : k = count
    · subst he
      rw [hk] at hy
      cases hy
      exact ⟨name,_,if_pos rfl,fun _ => StructFields.imp ⟨defs,rfl,hdefs⟩ hst⟩
    · exact ⟨name',fields',by simpa [he] using ht',fun hlt => (hf' (by omega)).imp hst⟩
  · intro i d hd
    rw [htypes] at hd
    split at hd
    · rename_i he
      exact ⟨count,he,(List.getElem?_eq_some_iff.mp hk).1⟩
    · exact hs.only i d hd
  · rw [Array.toList_push,hglobals,hs.globals,take_add_one,hk]
    simp
  · intro y n
    rw [hglobals,hcount,lookup_cons]
    constructor
    · intro hy
      split at hy
      · rename_i he
        cases beq_iff_eq.mp he
        cases hy
        exact ⟨Nat.lt_succ_self _,chain,hk⟩
      · obtain ⟨hlt,c,hc⟩ := (hs.chains y n).mp hy
        exact ⟨by omega,c,hc⟩
    · rintro ⟨hlt,c,hc⟩
      by_cases he : y = id
      · subst he
        simp [index_unique hc hk]
      · rw [beq_eq_false_iff_ne.mpr he]
        refine (hs.chains y n).mpr ⟨?_,c,hc⟩
        rcases Nat.lt_succ_iff_lt_or_eq.mp hlt with hlt | rfl
        · exact hlt
        · rw [hk] at hc
          cases hc
          exact absurd rfl he

private theorem defineStruct_ok (hs : Defined p count s) (hk : (objectsInOrder p)[count]? = some (id, chain))
    (h : defineStruct 0 id chain p s = .ok (v, t)) : Defined p (count + 1) t := by
  have h2 := read_bind_ok.mp h
  obtain ⟨defs,u,h3,h4⟩ := bind_ok.mp h2
  obtain ⟨q,hdefs⟩ := fieldDefs_ok h3
  have hu := hs.quiet q
  obtain ⟨index,_,h5,h6⟩ := bind_ok.mp h4
  obtain ⟨hindex,rfl⟩ := structIndex_ok.mp h5
  have h8 := modifyModule_bind_ok.mp h6
  obtain ⟨_,_,h9,h10⟩ := bind_ok.mp h8
  obtain ⟨rfl,rfl⟩ := displayName_ok.mp h9
  have h12 := modifyModule_bind_ok.mp h10
  cases modify_ok.mp h12
  obtain ⟨k,c,rfl,hk'⟩ := (hu.lookup id index).mp hindex
  cases index_unique hk' hk
  exact hu.define hk hdefs rfl rfl

private theorem defineStructs_ok (hs : Defined p count s)
    (ho : (objectsInOrder p).drop count = objects) (h : defineStructs 0 objects p s = .ok (v, t)) :
    Defined p (objectsInOrder p).length t := by
  induction objects generalizing s count with
  | nil =>
    cases h
    rw [← Nat.le_antisymm hs.le (drop_eq_nil_iff.mp ho)]
    exact hs
  | cons object objects ih =>
    obtain ⟨_,u,h1,h2⟩ := bind_ok.mp h
    have hk : (objectsInOrder p)[count]? = some object := by
      rw [← head?_drop,ho]
      rfl
    refine ih (defineStruct_ok hs hk h1) ?_ h2
    rw [← tail_drop,ho]
    rfl

/-! ### All objects -/

/-- The emission once all object types are declared, for a program with objects of its own. -/
structure Populated (p : Program) (s : Emission) : Prop where
  idsArray : s.idsArray = some 0
  lookup : ∀ id n, s.structs.lookup id = some n ↔ ∃ k chain, n = k + 1 ∧ (objectsInOrder p)[k]? = some (id, chain)
  ids : s.module.types[0]? = some (.array ⟨"array_0",.i32,false⟩)
  struct : ∀ k id chain, (objectsInOrder p)[k]? = some (id, chain) →
    ∃ name fields, s.module.types[k + 1]? = some (.struct ⟨name,fields,superOf p s.structs id⟩) ∧
      StructFields p s 0 id fields
  only : ∀ (i : Nat) d, s.module.types[i]? = some (.struct d) → ∃ k, i = k + 1 ∧ k < (objectsInOrder p).length
  globals : s.module.globals.toList = (objectsInOrder p).map (chainGlobalOf p 0)
  chains : ∀ id n, s.chains.lookup id = some n ↔ ∃ chain, (objectsInOrder p)[n]? = some (id, chain)

/-- The same for a program with none. -/
structure Unpopulated (p : Program) (s : Emission) : Prop where
  base : ∀ x ∈ objectsInOrder p, x.1 = Program.objectId
  idsArray : s.idsArray = none
  structs : s.structs = []
  globals : s.module.globals = #[]
  only : ∀ (i : Nat) d, s.module.types[i]? ≠ some (.struct d)

def Objects (p : Program) (s : Emission) : Prop := Populated p s ∨ Unpopulated p s

/-- An object with a struct: the program has objects of its own. -/
theorem Objects.populated {object : EntityId} {n : Nat} (h : Objects p s) (hn : s.structs.lookup object = some n) :
    Populated p s := by
  rcases h with h | h
  · exact h
  · rw [h.structs] at hn
    cases hn

theorem Objects.later (h : Objects p s) (hl : s.Later t) : Objects p t := by
  rcases h with h | h
  · refine .inl ⟨hl.idsArray.trans h.idsArray,hl.structs ▸ h.lookup,hl.types _ _ h.ids,fun k id chain hk => ?_,
      fun i d hd => h.only i d (hl.arrays i d hd),hl.globals ▸ h.globals,hl.chains ▸ h.chains⟩
    obtain ⟨name,fields,ht,hf⟩ := h.struct k id chain hk
    exact ⟨name,fields,by rw [hl.structs]; exact hl.types _ _ ht,hf.imp hl.stored?⟩
  · exact .inr ⟨h.base,hl.idsArray.trans h.idsArray,hl.structs.trans h.structs,
      hl.globals.trans h.globals,fun i d hd => h.only i d (hl.arrays i d hd)⟩

private theorem consistent_empty (p : Program) : Emission.Consistent p {} where
  structs _ _ h := nomatch h
  arrays _ _ h := by simp at h
  entry _ _ h := nomatch h
  unshared _ _ _ h := nomatch h
  queue := nodup_nil
  known _ h := nomatch h
  tester _ h := nomatch h

private theorem arrayType_empty : Wasm.Module.arrayType {} .i32 false =
    (0, { types := #[.array ⟨"array_0",.i32,false⟩] }) := by
  have hname : toString "array_" ++ Nat.repr 0 = "array_0" := by decide
  simpa [Wasm.Module.arrayType] using hname

/-- Declaring the object types gives the program's objects their structs and adds no function. -/
theorem declareObjects_ok (hI : p.Inv) (h : declareObjects p {} = .ok (v, t)) :
    Objects p t ∧ t.Consistent p ∧ t.funcs = [] ∧ t.queue = [] ∧ t.module.funcs = #[] := by
  have h2 := read_bind_ok.mp h
  split at h2
  · rename_i hall
    cases h2
    refine ⟨.inr ⟨fun x hx => ?_,rfl,rfl,rfl,by simp⟩,consistent_empty p,rfl,rfl,rfl⟩
    simpa using all_eq_true.mp hall x hx
  · have h4 := modifyModule_bind_ok.mp h2
    have h6 := modify_bind_ok.mp h4
    obtain ⟨_,x,h7,h8⟩ := bind_ok.mp h6
    have hd : Declared p 0 { ({} : Emission) with
        module := (Wasm.Module.arrayType {} .i32 false).2
        idsArray := some (Wasm.Module.arrayType {} .i32 false).1 } :=
      { funcs := rfl, queue := rfl, tester := rfl, entries := by simp [arrayType_empty]
        le := Nat.zero_le _, idsArray := by simp [arrayType_empty]
        lookup := fun id n => ⟨fun h => (nomatch h),fun ⟨_,_,h,_⟩ => absurd h (Nat.not_lt_zero _)⟩
        size := by simp [arrayType_empty], ids := by simp [arrayType_empty]
        struct := fun _ _ _ h => absurd h (Nat.not_lt_zero _)
        globals := by simp [arrayType_empty], chains := rfl }
    have hdx := declareStructs_ok hI hd rfl h7
    have hdef : Defined p 0 x := by
      refine ⟨Nat.zero_le _,?_,hdx.funcs,hdx.queue,hdx.entries,hdx.idsArray,fun id n => ?_,hdx.ids,
        fun k id chain hk => ?_,fun i d hi => ?_,by simp [hdx.globals],fun id n => by simp [hdx.chains]⟩
      · refine ⟨fun id n hn => ?_,fun i d hi => ?_,by simp [hdx.funcs],by simp [hdx.funcs],
          by simp [hdx.queue],by simp [hdx.queue],by simp [hdx.tester]⟩
        · obtain ⟨k,chain,hk,rfl,_⟩ := (hdx.lookup id n).mp hn
          rw [hdx.size]
          omega
        · -- the array of ancestors is the only array yet
          rcases Nat.eq_zero_or_pos i with rfl | hpos
          · cases hdx.ids.symm.trans hi
            rfl
          · have hlt := (Array.getElem?_eq_some_iff.mp hi).1
            rw [hdx.size] at hlt
            obtain ⟨k,rfl⟩ : ∃ k, i = k + 1 := ⟨i - 1,by omega⟩
            obtain ⟨y,hy⟩ : ∃ y, (objectsInOrder p)[k]? = some y := ⟨_,getElem?_eq_getElem (by omega)⟩
            obtain ⟨name,hn⟩ := hdx.struct k y.1 y.2 (by omega) hy
            cases hn.symm.trans hi
      · rw [hdx.lookup]
        constructor
        · rintro ⟨k,chain,_,rfl,hk⟩
          exact ⟨k,chain,rfl,hk⟩
        · rintro ⟨k,chain,rfl,hk⟩
          exact ⟨k,chain,(List.getElem?_eq_some_iff.mp hk).1,rfl,hk⟩
      · obtain ⟨name,hn⟩ := hdx.struct k id chain (List.getElem?_eq_some_iff.mp hk).1 hk
        exact ⟨name,[],hn,fun h => absurd h (Nat.not_lt_zero _)⟩
      · have hlt := (Array.getElem?_eq_some_iff.mp hi).1
        rw [hdx.size] at hlt
        rcases Nat.eq_zero_or_pos i with rfl | hpos
        · cases hdx.ids.symm.trans hi
        · exact ⟨i - 1,by omega,by omega⟩
    have ht := defineStructs_ok hdef rfl (by simpa [arrayType_empty] using h8)
    refine ⟨.inl ⟨ht.idsArray,ht.lookup,ht.ids,fun k id chain hk => ?_,ht.only,by simpa using ht.globals,
      fun id n => ?_⟩,ht.consistent,ht.funcs,ht.queue,ht.entries⟩
    · obtain ⟨name,fields,h9,h10⟩ := ht.struct k id chain hk
      exact ⟨name,fields,h9,h10 (List.getElem?_eq_some_iff.mp hk).1⟩
    · rw [ht.chains]
      exact ⟨fun h => h.2,fun ⟨chain,hk⟩ => ⟨(List.getElem?_eq_some_iff.mp hk).1,chain,hk⟩⟩

end Lower

end FormCompiler
