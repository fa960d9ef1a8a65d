import FormCompiler.Proofs.Resolution.Declared

/-! Imports bind names, and nothing else. What a `use` may bind is said of the program it starts from: a module that
can be seen, or what a module makes visible that is reached over visible modules alone. -/

namespace FormCompiler

open Check

variable {P : ScopeId → String → EntityId → Prop} {p q : Program} {use : PendingUse} {name : String} {id : EntityId}

namespace Program

variable {r : Program}

/-- A module that a name stands for in a scope. -/
def SeesModule (p : Program) (scope : ScopeId) (name : String) (id : EntityId) (inner : ScopeId) : Prop :=
  p.scopes.resolve? p.entities scope name = some id ∧ p.entities.kind id = .module inner

/-- A path from module to module, each visible from outside the one before it. -/
inductive Descends (p : Program) : ScopeId → List String → ScopeId → Prop
  | nil {scope : ScopeId} : Descends p scope [] scope
  | cons {scope inner last : ScopeId} {segment : String} {path : List String} {id : EntityId} :
      id ∈ p.scopes.exports scope → (p.entities.get id).name = segment → p.entities.kind id = .module inner →
      Descends p inner path last → Descends p scope (segment :: path) last

inductive Binds (P : ScopeId → String → EntityId → Prop) (p : Program) : Program → Prop
  | refl : Binds P p p
  | bind {q : Program} {scope : ScopeId} {name : String} {id : EntityId} : Binds P p q → P scope name id →
      Binds P p { q with scopes := q.scopes.bind scope name id }

namespace Binds

theorem entities (h : p.Binds P q) : q.entities = p.entities := by
  induction h with
  | refl => rfl
  | bind _ _ ih => exact ih

theorem exports (h : p.Binds P q) (x : ScopeId) : q.scopes.exports x = p.scopes.exports x := by
  induction h with
  | refl => rfl
  | bind _ _ ih => exact ScopeTable.exports_bind.trans ih

theorem mem_here (h : p.Binds P q) {x : ScopeId} (hm : id ∈ q.scopes.here x name) :
    id ∈ p.scopes.here x name ∨ P x name id := by
  induction h with
  | refl => exact .inl hm
  | bind _ hP ih =>
    rcases ScopeTable.mem_here_bind hm with hm | ⟨rfl,rfl,rfl⟩
    · exact ih hm
    · exact .inr hP

private theorem scans (h : p.Binds P q) : p.Scans q := by
  induction h with
  | refl => exact .refl p
  | bind _ _ ih => exact ih.trans (.bind _ _ _)

private theorem fresh (h : p.Binds P q) (hF : p.Fresh) (hP : ∀ x name id, P x name id → p.Declared id) : q.Fresh := by
  induction h with
  | refl => exact hF
  | bind h hb ih =>
    have hd := h.scans.declared (hP _ _ _ hb)
    exact (ih.bind _ _ hd.1 fun _ => hd).fresh

end Binds

end Program

/-- What a `use` may bind under a name. -/
inductive PendingUse.Grants (use : PendingUse) (p : Program) : String → EntityId → Prop
  | module {name : String} {id : EntityId} {inner : ScopeId} : use.path = [name] → p.SeesModule use.scope name id inner →
      Grants use p (use.alias?.getD name) id
  | member {first last : String} {middle : List String} {module id : EntityId} {outer home : ScopeId} :
      use.path = first :: (middle ++ [last]) → p.SeesModule use.scope first module outer → p.Descends outer middle home →
      id ∈ p.scopes.exports home → Grants use p (Import.importedName p use.alias? last id) id

/-- The modules on the way of a `use` are visible, each from where it is looked for. -/
def PendingUse.Follows (use : PendingUse) (p : Program) : Prop :=
  ∀ first middle last, use.path = first :: (middle ++ [last]) →
    ∃ module outer home, p.SeesModule use.scope first module outer ∧ p.Descends outer middle home

private theorem PendingUse.Grants.declared (h : use.Grants p name id) (hF : p.Fresh) : p.Declared id := by
  cases h with
  | module _ hs =>
    refine ⟨EntityTable.lt_size_of_kind (by simp [hs.2]),fun d hk => ?_⟩
    simp [hs.2] at hk
  | member _ _ _ hm => exact hF.exported _ id hm

namespace Import

private theorem kind_of_module? {t : EntityTable} {inner : ScopeId} (h : (t.get id).module? = some inner) :
    t.kind id = .module inner := by
  unfold Entity.module? at h
  unfold EntityTable.kind
  split at h <;> simp_all

private theorem visibleModule_ends (scope : ScopeId) (name : String) (location : Location) :
    Ends (visibleModule scope name location) p (fun r q => q = p ∧ p.SeesModule scope name r.1 r.2) fun _ q => q = p := by
  refine .run rfl ?_
  split
  · exact rfl
  · split
    · exact rfl
    · exact ⟨rfl,‹_›,kind_of_module? ‹_›⟩

private theorem descend_ends (location : Location) (path : List String) (scope : ScopeId) :
    Ends (descend location scope path) p (fun r q => q = p ∧ p.Descends scope path r) fun _ q => q = p := by
  induction path generalizing scope with
  | nil => exact ⟨rfl,.nil⟩
  | cons segment path ih =>
    refine .run rfl ?_
    split
    · rename_i inner hm
      obtain ⟨id,hid,hmodule⟩ := List.exists_of_findSome?_eq_some hm
      obtain ⟨hexport,hname⟩ := List.mem_filter.mp hid
      refine (ih inner).mono (fun r q _ h => ⟨h.1,?_⟩) fun _ _ h => h
      exact .cons hexport (of_decide_eq_true hname) (kind_of_module? hmodule) h.2
    · exact rfl

private theorem registerAs_binds {scope : ScopeId} {location : Location} (h : p.Binds P q) (hP : P scope name id) :
    Ends (registerAs scope name id location) q (fun _ r => p.Binds P r) fun _ r => p.Binds P r := by
  refine .run rfl ?_
  cases hs : q.scopes.registerAs q.entities scope name id location with
  | error d => exact h
  | ok scopes =>
    rcases ScopeTable.bind_of_registerAs hs with rfl | rfl
    · exact h
    · exact h.bind hP

private theorem registerAll_binds {last : String} {ids : List EntityId} (h : p.Binds P q)
    (hP : ∀ id ∈ ids, P use.scope (importedName p use.alias? last id) id) :
    Ends (registerAll use last ids) q (fun _ r => p.Binds P r) fun _ r => p.Binds P r := by
  induction ids generalizing q with
  | nil => exact h
  | cons id ids ih =>
    have hname : importedName q use.alias? last id = importedName p use.alias? last id := by
      simp only [importedName,h.entities]
    refine .run rfl ((registerAs_binds h (hname ▸ hP id (by simp))).bind fun _ r _ hr => ?_)
    exact ih hr fun j hj => hP j (by simp [hj])

/-- A `use` binds what it may, also where it is refused. -/
theorem bind_binds (use : PendingUse) : Ends (Import.bind use) p
      (fun _ q => p.Binds (fun x name id => x = use.scope ∧ use.Grants p name id) q ∧ use.Follows p)
      fun _ q => p.Binds (fun x name id => x = use.scope ∧ use.Grants p name id) q := by
  unfold Import.bind
  split
  · exact .refl
  · rename_i name hpath
    refine ((visibleModule_ends _ _ _).mono (fun _ _ _ h => h) fun _ _ h => h ▸ .refl).bind fun r q _ h => ?_
    obtain ⟨rfl,hs⟩ := h
    refine (registerAs_binds .refl ⟨rfl,.module hpath hs⟩).mono (fun _ _ _ h => ⟨h,?_⟩) fun _ _ h => h
    intro first middle last he
    simp [hpath] at he
  · rename_i first second path hpath
    refine ((visibleModule_ends _ _ _).mono (fun _ _ _ h => h) fun _ _ h => h ▸ .refl).bind fun r q _ h => ?_
    obtain ⟨rfl,hs⟩ := h
    refine ((descend_ends _ _ _).mono (fun _ _ _ h => h) fun _ _ h => h ▸ .refl).bind fun home q _ h => ?_
    obtain ⟨rfl,hd⟩ := h
    refine .run rfl ?_
    dsimp only
    generalize hlast : (second :: path).getLast (by simp) = last at *
    have hsplit : use.path = first :: ((second :: path).dropLast ++ [last]) := by
      rw [hpath,← hlast,List.dropLast_append_getLast]
    have hfollows : use.Follows q := by
      intro first' middle' last' he
      obtain ⟨rfl,hrest⟩ := List.cons_eq_cons.mp (hsplit.symm.trans he)
      obtain ⟨rfl, -⟩ := List.append_inj' hrest rfl
      exact ⟨_,_,_,hs,hd⟩
    generalize himported : (if last = "all" then q.scopes.exports home
      else q.scopes.exported q.entities home last) = imported
    have hexported : ∀ id ∈ imported, id ∈ q.scopes.exports home := by
      intro id hid
      rw [← himported] at hid
      split at hid
      · exact hid
      · exact List.mem_of_mem_filter hid
    split
    · exact .refl
    · exact (registerAll_binds .refl fun id hid => ⟨rfl,.member hsplit hs hd (hexported id hid)⟩).mono
        (fun _ _ _ h => ⟨h,hfollows⟩) fun _ _ h => h

end Import

def Program.Imports : Program → Program → Prop :=
  Relation.ReflTransGen fun p q => ∃ use : PendingUse, p.Binds (fun x name id => x = use.scope ∧ use.Grants p name id) q

namespace Program.Imports

theorem scans (h : p.Imports q) : p.Scans q := by
  induction h with
  | refl => exact .refl p
  | tail _ h ih => exact ih.trans h.choose_spec.scans

theorem fresh (h : p.Imports q) (hF : p.Fresh) : q.Fresh := by
  induction h with
  | refl => exact hF
  | tail _ h ih => exact h.choose_spec.fresh ih fun _ _ _ hg => hg.2.declared ih

end Program.Imports

namespace Import

theorem imports_bindEach (uses : List PendingUse) :
    Ends (bindEach uses) p (fun _ q => p.Imports q) fun _ q => p.Imports q := by
  induction uses generalizing p with
  | nil => exact Relation.ReflTransGen.refl
  | cons use uses ih =>
    have hbind : Ends (Import.bind use) p (fun _ q => p.Imports q) fun _ q => p.Imports q :=
      (bind_binds use).mono (fun _ _ _ h => .single ⟨use,h.1⟩) fun _ _ h => .single ⟨use,h⟩
    exact hbind.bind fun _ q _ h => ih.mono (fun _ _ _ k => h.trans k) fun _ _ k => h.trans k

theorem imports_bindAll : Ends bindAll p (fun _ q => Program.Imports { p with pendingUses := [] } q)
    fun _ q => Program.Imports { p with pendingUses := [] } q :=
  .run rfl (.run rfl (imports_bindEach _))

end Import

end FormCompiler
