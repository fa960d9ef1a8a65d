import FormCompiler.Proofs.Resolution.Scanning

/-! Imports respect privacy. Declarations bind a name only in the scope they stand in, and a module makes visible only
what stands in it under `pub`; imports add what they are granted. So every name of a module is explained. -/

namespace FormCompiler

open Check ScopeTable

variable {forms : List Form} {p q : Program}

namespace Program

variable {pub : Location → Prop}

/-- Outside the root scope names are bound where their entities are declared, and what a scope makes visible is its own
and stands at a place in `pub`. -/
structure Domestic (pub : Location → Prop) (p : Program) : Prop where
  bound : ∀ x name id, x ≠ root → id ∈ p.scopes.here x name → p.Stands x id
  exported : ∀ x id, id ∈ p.scopes.exports x → p.Stands x id ∧ pub (p.entities.get id).location

namespace Domestic

section

variable {valid : Prop} (h : p.Domestic pub)
include h

theorem mono {pub' : Location → Prop} (hpub : ∀ place, pub place → pub' place) : p.Domestic pub' :=
  ⟨h.bound,fun x id hm => ⟨(h.exported x id hm).1,hpub _ (h.exported x id hm).2⟩⟩

/-- It is enough to look at what is new in the scopes. -/
theorem scans (hS : p.Scans q) (hb : ∀ x name id, id ∈ q.scopes.here x name → id ∈ p.scopes.here x name ∨ q.Stands x id)
    (he : ∀ x id, id ∈ q.scopes.exports x → id ∈ p.scopes.exports x ∨
      q.Stands x id ∧ pub (q.entities.get id).location) : q.Domestic pub := by
  refine ⟨fun x name id hx hm => ?_,fun x id hm => ?_⟩
  · rcases hb x name id hm with hm | hm
    · exact (h.bound x name id hx hm).scans hS
    · exact hm
  · rcases he x id hm with hm | hm
    · obtain ⟨hs,hp⟩ := h.exported x id hm
      exact ⟨hs.scans hS,by rwa [hS.entity id hs.lt_size]⟩
    · exact hm

private theorem sameScopes (hS : p.Scans q) (hs : q.scopes = p.scopes) : q.Domestic pub :=
  h.scans hS (fun _ _ _ hm => .inl (hs ▸ hm)) fun _ _ hm => .inl (hs ▸ hm)

private theorem change (hc : p.Change valid pub q) : q.Domestic pub := by
  have hS := hc.scans
  cases hc with
  | read ha => exact h.sameScopes hS (by obtain ⟨a,rfl⟩ := ha.rest; rfl)
  | wait uses impls => exact h.sameScopes hS rfl
  | alloc name location hk hb => exact h.sameScopes hS rfl
  | define name location hr hb hd => exact h.sameScopes hS (by obtain ⟨a,rfl⟩ := hr.appends.rest; rfl)
  | push parent hp =>
    refine h.scans hS (fun x name id hm => .inl (by rwa [here_push] at hm)) fun x id hm => .inl ?_
    rw [exports,get_push] at hm
    split at hm
    · cases hm
    · exact hm
  | bind name hs =>
    refine h.scans hS (fun x n id hm => ?_) fun x id hm => .inl (by simpa using hm)
    rcases mem_here_bind hm with hm | ⟨rfl,rfl, -⟩
    · exact .inl hm
    · exact .inr (hs.scans hS)
  | addExport hs hp =>
    refine h.scans hS (fun x name id hm => .inl (by rwa [here_addExport] at hm)) fun x id hm => ?_
    rw [exports_addExport,List.mem_append] at hm
    refine hm.imp_right fun hm => ?_
    split at hm
    · rename_i hx
      obtain rfl := List.mem_singleton.mp hm
      obtain rfl := hx.1
      exact ⟨hs.scans hS,hp⟩
    · cases hm

private theorem changes (hc : p.Changes valid pub q) : q.Domestic pub := by
  induction hc with
  | refl => exact h
  | tail _ hc ih => exact ih.change hc

end

private theorem initial : Program.initial.Domestic pub := by
  have hsize : Program.initial.scopes.size = 1 := by decide +kernel
  have hempty : ∀ x, x ≠ root → Program.initial.scopes.get x = default := by
    intro x hx
    refine get_of_size_le ?_
    cases x with | mk i => cases i with
      | zero => exact absurd rfl hx
      | succ i => simp [hsize]
  have hroot : Program.initial.scopes.exports root = [] := by decide +kernel
  refine ⟨fun x name id hx hm => ?_,fun x id hm => ?_⟩
  · rw [here,hempty x hx] at hm
    cases hm
  · by_cases hx : x = root
    · rw [hx,hroot] at hm
      cases hm
    · rw [exports,hempty x hx] at hm
      cases hm

end Domestic

/-- A program that was scanned, before imports: modules were added to what the language provides, and the declarations
of `forms` to modules. -/
inductive Written : List Form → Program → Prop
  | initial : Written [] Program.initial
  | addModule {forms : List Form} {p q : Program} {name : String} {scope : ScopeId} : Written forms p →
      addRootModule name p = .ok scope q → Written forms q
  | declare {forms more : List Form} {p q : Program} {scope : ScopeId} : Written forms p → p.scopes.Has scope →
      Declaration.addAll scope more p = .ok () q → Written (forms ++ more) q

/-- A place in the forms where `pub` makes something visible. -/
def Public (forms : List Form) (place : Location) : Prop := ∃ form ∈ forms, form.Publishes place

private theorem Written.domestic (hp : p.Written forms) : p.Domestic (Public forms) := by
  induction hp with
  | initial => exact .initial
  | @addModule forms p q name scope _ h ih =>
    have hadd : Changing False (Public forms) (addRootModule name) p _ := changes_addRootModule False.elim
    exact ih.changes (hadd.of_ok h).1
  | @declare forms more p q scope _ _ h ih =>
    have hadd : Changing False (Public (forms ++ more)) (Declaration.addAll scope more) p _ :=
      Declaration.changes_addAll False.elim fun form hf place hpub => ⟨form,by simp [hf],hpub⟩
    refine (ih.mono fun place hpub => ?_).changes (hadd.of_ok h).1
    obtain ⟨form,hf,hpub⟩ := hpub
    exact ⟨form,by simp [hf],hpub⟩

end Program

/-! ### One import after another -/

namespace Import

variable {uses : List PendingUse}

private theorem bindEach_imports (h : bindEach uses p = .ok () q) : p.Imports q := (imports_bindEach uses).of_ok h

/-- What is bound in the end was bound before, or some `use` was granted it where it was its turn. -/
theorem mem_here_bindEach (h : bindEach uses p = .ok () q) {x : ScopeId} {name : String} {id : EntityId}
    (hm : id ∈ q.scopes.here x name) : id ∈ p.scopes.here x name ∨ ∃ before use after r,
      uses = before ++ use :: after ∧ bindEach before p = .ok () r ∧ use.scope = x ∧ use.Grants r name id := by
  induction uses generalizing p with
  | nil =>
    cases h
    exact .inl hm
  | cons use uses ih =>
    obtain ⟨_,r,hu,hr⟩ := bind_ok.mp h
    rcases ih hr with hm | ⟨before,later,after,s,rfl,hs,hx,hg⟩
    · rcases ((bind_binds use).of_ok hu).1.mem_here hm with hm | ⟨hx,hg⟩
      · exact .inl hm
      · exact .inr ⟨[],use,uses,p,rfl,rfl,hx.symm,hg⟩
    · exact .inr ⟨use :: before,later,after,s,rfl,bind_ok.mpr ⟨_,r,hu,hs⟩,hx,hg⟩

private theorem follows_bindEach {before after : List PendingUse} {use : PendingUse}
    (h : bindEach (before ++ use :: after) p = .ok () q) : ∃ r, bindEach before p = .ok () r ∧ use.Follows r := by
  induction before generalizing p with
  | nil =>
    obtain ⟨_,r,hu,_⟩ := bind_ok.mp h
    exact ⟨p,rfl,((bind_binds use).of_ok hu).2⟩
  | cons first before ih =>
    obtain ⟨_,r,hu,hr⟩ := bind_ok.mp h
    obtain ⟨s,hs,hf⟩ := ih hr
    exact ⟨s,bind_ok.mpr ⟨_,r,hu,hs⟩,hf⟩

private theorem bindAll_ok (h : bindAll p = .ok () q) :
    bindEach p.pendingUses { p with pendingUses := [] } = .ok () q := h

end Import

namespace Program

private theorem Imports.entities (h : p.Imports q) : q.entities = p.entities := by
  induction h with
  | refl => rfl
  | tail _ h ih => exact h.choose_spec.entities.trans ih

private theorem Imports.exports (h : p.Imports q) (x : ScopeId) : q.scopes.exports x = p.scopes.exports x := by
  induction h with
  | refl => rfl
  | tail _ h ih => exact (h.choose_spec.exports x).trans ih

/-- Why an entity may have a name in a scope of `q`, where the imports of `p` were bound. -/
inductive Rightful (forms : List Form) (p q : Program) (x : ScopeId) (name : String) (id : EntityId) : Prop
  /-- It is declared there. -/
  | own : q.Stands x id → Rightful forms p q x name id
  /-- The module it is declared in makes it visible, and it stands under `pub`. -/
  | visible {home : ScopeId} : q.Stands home id → id ∈ q.scopes.exports home →
      Public forms (q.entities.get id).location → Rightful forms p q x name id
  /-- It is a module that a `use` of one name saw from there, when it was its turn. -/
  | module {before after : List PendingUse} {use : PendingUse} {r : Program} {written : String} {inner : ScopeId} :
      p.pendingUses = before ++ use :: after → Import.bindEach before { p with pendingUses := [] } = .ok () r →
      use.scope = x → use.path = [written] → name = use.alias?.getD written → r.SeesModule x written id inner →
      Rightful forms p q x name id

/-- Every name in a module is rightful, and a `use` of several names goes over visible modules alone. -/
theorem Written.bindAll_respects_privacy (hp : p.Written forms) (h : Import.bindAll p = .ok () q) :
    (∀ x name id, x ≠ root → id ∈ q.scopes.here x name → Rightful forms p q x name id) ∧
      ∀ before use after, p.pendingUses = before ++ use :: after →
        ∃ r, Import.bindEach before { p with pendingUses := [] } = .ok () r ∧ use.Follows r := by
  have hall := Import.bindAll_ok h
  have hS := (Scans.wait [] p.pendingImpls).trans (Import.bindEach_imports hall).scans
  refine ⟨fun x name id hx hm => ?_,fun before use after huses => ?_⟩
  · rcases Import.mem_here_bindEach hall hm with hm | ⟨before,use,after,r,huses,hr,rfl,hg⟩
    · exact .own ((hp.domestic.bound x name id hx hm).scans hS)
    · cases hg with
      | module hpath hs => exact .module huses hr rfl hpath rfl hs
      | member _ _ _ hexport =>
        rw [(Import.bindEach_imports hr).exports] at hexport
        obtain ⟨hstands,hpub⟩ := hp.domestic.exported _ id hexport
        refine .visible (hstands.scans hS) ?_ ?_
        · rwa [(Import.bindEach_imports hall).exports]
        · rwa [(Import.bindEach_imports hall).entities]
  · exact Import.follows_bindEach (huses ▸ hall)

private def usesModules : String :=
  "(mod a (pub (fn f (parameters) 1)) (pub (mod b (pub (fn g (parameters) 2)) (fn h (parameters) 3))))" ++
    "(mod c (use (:: a b all)) (use a short) (use (:: short f) renamed))"

/-- Whether a module gets a function over a path, a module, and a function of that module under a new name. -/
private def imports (source : String) : Bool :=
  match Form.read "main.vast" source with
  | .error _ => false
  | .ok forms =>
    okAnd (fun scope p => decide (scope.index < p.scopes.size) && okAnd (fun _ p => okAnd (fun _ q =>
          ["g","short","renamed"].all fun name => !(q.scopes.here ⟨4⟩ name).isEmpty) (Import.bindAll p))
        (Declaration.addAll scope forms p)) (addRootModule "src" initial)

theorem bindAll_respects_privacy_sample : ∃ forms p q, p.Written forms ∧ Import.bindAll p = .ok () q ∧
    (∀ name ∈ ["g","short","renamed"], ∃ id ∈ q.scopes.here ⟨4⟩ name, Rightful forms p q ⟨4⟩ name id) ∧
    ∀ before use after, p.pendingUses = before ++ use :: after →
      ∃ r, Import.bindEach before { p with pendingUses := [] } = .ok () r ∧ use.Follows r := by
  obtain ⟨source,h⟩ : ∃ source, imports source = true := ⟨usesModules,by decide +kernel⟩
  unfold imports at h
  split at h
  · cases h
  obtain ⟨scope,p,hp,h⟩ := okAnd_iff.mp h
  obtain ⟨hs,h⟩ := Bool.and_eq_true_iff.mp h
  obtain ⟨_,p',hp',h⟩ := okAnd_iff.mp h
  obtain ⟨_,q,hq,h⟩ := okAnd_iff.mp h
  have hscope : scope.index < p.scopes.size := of_decide_eq_true hs
  have hwritten := (Written.initial.addModule hp).declare hscope hp'
  obtain ⟨hrightful,hfollows⟩ := Written.bindAll_respects_privacy hwritten hq
  refine ⟨_,p',q,hwritten,hq,fun name hname => ?_,hfollows⟩
  obtain ⟨id,hid⟩ := List.exists_mem_of_ne_nil _ (by simpa using List.all_eq_true.mp h name hname)
  exact ⟨id,hid,hrightful _ name id (by decide) hid⟩

end Program

end FormCompiler
