import FormCompiler.Proofs.Resolution.Filling
import FormCompiler.Proofs.Resolution.Moves

/-! Which scopes get names while a program is resolved. An expression adds names to the scope it stands in and to scopes
of its own. Nothing else adds a name to a scope that is there, not even the body of another function. -/

namespace FormCompiler

open Check ScopeTable

namespace Program

variable {kind : ScopeKind} {parent scope : ScopeId} {id : ExprId}

/-- The scopes that were there have not changed. -/
structure Confines (p q : Program) : Prop where
  size : p.scopes.size ≤ q.scopes.size
  kept : ∀ s : ScopeId, s.index < p.scopes.size → q.scopes.get s = p.scopes.get s

variable {p q r : Program}

namespace Confines

variable {α : Type} {x y : Check α} {R : α → Program → Prop} {a : α}

theorem trans (h : p.Confines q) (k : q.Confines r) : p.Confines r where
  size := Nat.le_trans h.size k.size
  kept s hs := (k.kept s (Nat.lt_of_lt_of_le hs h.size)).trans (h.kept s hs)

theorem of_eq (h : q.scopes = p.scopes) : p.Confines q := ⟨Nat.le_of_eq (by rw [h]),fun _ _ => by rw [h]⟩

/-- A question about types. -/
theorem of_types (hx : Runs (fun _ => False) none x y R) (hO : p.Orderly) (h : y p = .ok a q) : p.Confines q :=
  of_eq ((hx p (Prepared.of_orderly hO).quiet).ends.of_ok h).1.still.scopes

/-- An action that adds names only to scopes of its own. -/
theorem of_runs (hx : Runs (fun _ => False) (some p.scopes.size) x y R) (hO : p.Orderly) (h : y p = .ok a q) :
    p.Confines q := by
  obtain ⟨hsize,hget⟩ := ((hx p ⟨hO,p.avoids_none,by simp⟩).ends.of_ok h).1.confined
  exact ⟨hsize,hget⟩

/-- Names added to a scope that is new change none that was there. -/
theorem inner (h : Check.pushScope parent kind p = .ok scope q)
    (hO : q.Orderly) (hx : Runs (fun _ => False) (some scope.index) x y R) (k : y q = .ok a r) : p.Confines r := by
  obtain ⟨rfl,rfl⟩ := Check.pushScope_ok.mp h
  obtain ⟨hsize,hget⟩ := ((hx _ ⟨hO,Program.avoids_none _,by simp⟩).ends.of_ok k).1.confined
  simp only [size_push] at hsize
  exact ⟨by omega,fun s hs => (hget s hs).trans (get_push_of_lt hs ..)⟩

end Confines

/-! ### What can be seen afterwards -/

variable {v : EntityId}

/-- What can be seen from a scope depends on no scope that is younger. -/
theorem Confines.view (hc : p.Confines q) (hw : p.scopes.WellFormed p.entities) (hg : p.Grows q)
    (hs : scope.index < p.scopes.size) : q.view scope = p.view scope := by
  refine hg.view hw hs fun name x hx => ?_
  rw [here,here,hc.kept x (Nat.lt_of_le_of_lt (hw.le_of_mem_ancestors hx) hs)]

/-- From a new scope one sees what one sees from the scope around it. -/
theorem view_pushScope (hw : p.scopes.WellFormed p.entities)
    (hp : parent.index < p.scopes.size) (h : Check.pushScope parent kind p = .ok scope q) :
    q.view scope = p.view parent := by
  obtain ⟨rfl,rfl⟩ := Check.pushScope_ok.mp h
  have hsize : (p.scopes.push parent kind).2.size = p.scopes.size + 1 := by simp
  funext name
  unfold Program.view resolve?
  simp only [ancestors,hsize,ancestorsWithin,get_push_self,List.findSome?_cons]
  rw [hw.ancestors_grows (.push parent kind) hp hp hp]
  simp only [here,get_push_self,Scope.bound,List.lookup_nil,Option.getD_none,List.find?_nil]
  congr 1
  refine findSome?_congr_mem fun x hx => ?_
  rw [get_push_of_lt (Nat.lt_of_le_of_lt (hw.le_of_mem_ancestors hx) hp)]

/-- A new variable hides those of its name. -/
theorem view_register {u : Unit} (hw : p.scopes.WellFormed p.entities) (hs : p.Local scope) (hg : p.Grows q)
    (hk : (p.entities.kind v).isVar = true) (hv : ∀ name, v ∉ p.scopes.here scope name)
    (h : Check.register scope v p = .ok u q) : q.view scope = q.shadow (p.view scope) [v] := by
  obtain ⟨t,ht,rfl⟩ := Check.register_ok.mp h
  have hplain : (p.entities.get v).isFunction = false := by
    simp only [EntityTable.kind] at hk
    unfold Entity.isFunction
    split <;> simp_all [EntityKind.isVar]
  obtain ⟨hfree,rfl⟩ : p.scopes.here scope (p.entities.get v).name = [] ∧
      t = p.scopes.bind scope (p.entities.get v).name v := by
    unfold ScopeTable.register ScopeTable.registerAs at ht
    simp only [List.contains_eq_mem,hv,decide_false,Bool.false_eq_true,if_false,List.all_cons,hplain,
      Bool.false_and,Bool.or_false,List.isEmpty_iff] at ht
    split at ht
    · exact ⟨‹_›,(Except.ok.inj ht).symm⟩
    · cases ht
  obtain ⟨n,hn⟩ := Nat.exists_eq_add_of_lt (Nat.lt_of_le_of_lt (Nat.zero_le _) hs.1)
  funext name
  simp only [shadow,List.foldl_cons,List.foldl_nil,Function.update_apply]
  split
  · rename_i he
    subst he
    simp [Program.view,resolve?,ancestors,hn,ancestorsWithin,here_bind hs.1,hfree,hplain,hk,Option.filter]
  · rename_i he
    unfold Program.view
    rw [hg.resolve?_of_here hw hs.1 name fun x _ => by simp [here_bind hs.1,he]]

/-- A variable is made and gets its name. -/
theorem Inv.declareVar (hI : p.Inv) (hs : p.Local scope) {τ : Ty} {mutable : Bool} {name : String}
    {location : Location} {u : Unit} (hg : τ.Good p.entities)
    (h1 : Check.allocEntity name location (.var τ mutable) p = .ok v q) (h2 : Check.register scope v q = .ok u r) :
    p.Calm r ∧ r.entities.kind v = .var τ mutable ∧ r.Spare v ∧ p.entities.size ≤ v.index ∧
      r.view scope = r.shadow (p.view scope) [v] := by
  obtain ⟨m1,hv,hspare,hnew⟩ := hI.allocVar hg h1
  have hs1 := m1.grows.local hs
  have hscopes : q.scopes = p.scopes := by rw [(Check.allocEntity_ok.mp h1).2]
  have m2 := m1.inv.register hs1 hspare.1 h2
  refine ⟨m1.trans m2,m2.grows.var hv,m2.step.spare hspare,hnew,?_⟩
  rw [view_register m1.inv.scopes hs1 m2.grows (by rw [hv]; rfl) (fun name hm => ?_) h2,
    (Confines.of_eq hscopes).view hI.scopes m1.grows hs.1]
  rw [hscopes] at hm
  have := hI.scopes.bound _ _ _ hm
  omega

/-- Expressions were resolved one after the other in a scope: their names stand for what could be seen from it and for
what they have added, and one sees what they have added now. -/
def Enters (p : Program) (scope : ScopeId) (ids : List ExprId) (q : Program) : Prop :=
  q.Scoped (p.view scope) ids (q.view scope)

namespace Enters

variable {ids : List ExprId}

theorem nil : p.Enters scope [] p := Scoped.nil

theorem cons (h : p.Enters scope [id] q) (hg : q.Grows r) (k : q.Enters scope ids r) :
    p.Enters scope (id :: ids) r := (hg.scoping h).then k

/-- Names are added to no scope on the way. -/
theorem calm (h : p.Enters scope ids q) (hI : q.Inv) (hs : q.Local scope) (hg : q.Grows r)
    (hc : q.Confines r) : p.Enters scope ids r := by
  unfold Enters
  rw [hc.view hI.scopes hg hs.1]
  exact hg.scoping h

theorem after (h : q.Enters scope ids r) (hI : p.Inv) (hs : p.Local scope) (hg : p.Grows q)
    (hc : p.Confines q) : p.Enters scope ids r := by
  unfold Enters
  rw [← hc.view hI.scopes hg hs.1]
  exact h

end Enters

/-- A node whose parts were resolved in a scope and then in scopes inside it. -/
structure Lays (p : Program) (scope : ScopeId) (shape : ExprShape) (q : Program) : Prop where
  uses : ∀ use ∈ shape.uses, p.view scope use.1 = some use.2
  parts : ∃ mid, q.Scoped (p.view scope) shape.straight mid ∧
    (∀ part ∈ shape.inner, q.Nested mid part.1 part.2) ∧ q.view scope = q.shadow mid shape.adds

namespace Lays

variable {shape : ExprShape}

theorem of_parts (h : p.Enters scope shape.straight q) (hg : q.Grows r)
    (hview : r.view scope = r.shadow (q.view scope) shape.adds)
    (huses : ∀ use ∈ shape.uses, p.view scope use.1 = some use.2)
    (hinner : ∀ part ∈ shape.inner, r.Nested (q.view scope) part.1 part.2) : p.Lays scope shape r :=
  ⟨huses,q.view scope,hg.scoping h,hinner,hview⟩

/-- The slots of a node or its type are filled in. -/
theorem grows (h : p.Lays scope shape q) (hg : q.Grows r) (he : r.entities = q.entities) (hs : r.scopes = q.scopes) :
    p.Lays scope shape r := by
  obtain ⟨mid,hstraight,hinner,hview⟩ := h.parts
  have hshadow : r.shadow = q.shadow := by
    unfold shadow
    rw [he]
  refine ⟨h.uses,mid,hg.scoping hstraight,fun part hp => ?_,?_⟩
  · obtain ⟨out,k⟩ := hinner part hp
    exact ⟨out,hshadow ▸ hg.scoping k⟩
  · unfold Program.view
    rw [he,hs,hshadow]
    exact hview

/-- The node itself, once its type is noted. -/
theorem enters (h : p.Lays scope shape q) {τ : Ty} (ht : q.Typed id τ) (hI : q.Inv)
    (hshape : (q.exprs.get id).shape = shape) : p.Enters scope [id] q := by
  subst hshape
  obtain ⟨mid,hstraight,hinner,hview⟩ := h.parts
  choose! exits hexits using hinner
  refine Scoped.cons exits ht (hI.vars.intro_lt id) h.uses hstraight hexits ?_
  rw [← hview]
  exact .nil

end Lays

end Program

end FormCompiler
