import FormCompiler.Inspect
import FormCompiler.Proofs.Resolution.Scanning

/-! Instances of generic definitions are kept under their arguments. An instance is made, resolved and only then kept,
and making it may ask for others; still there is never a second one for the same arguments, whatever is done to the
program and whether it is refused or not. -/

namespace FormCompiler

open Check EntityTable Solver

variable {k : EntityKind} {S : Solver} {p q r : Program}

/-! ### What can be done to a program -/

namespace Program

/-- Everything that is done to a program: reading, binding imports, resolution, and afterwards questions about types and
instantiation, with any budget. -/
inductive Operation : (α : Type) → Check α → Prop
  | addModule (name : String) : Operation _ (addRootModule name)
  | declare (scope : ScopeId) (forms : List Form) : Operation _ (Declaration.addAll scope forms)
  | bindImports : Operation _ Import.bindAll
  | resolve : Operation _ resolveProgram
  | typeOf (n : Nat) (scope : ScopeId) (t : TypeExpr) : Operation _ ((upTo n).resolveType scope t)
  | instantiate (n : Nat) (generic : EntityId) (args : List Ty) (location : Location) :
      Operation _ ((upTo n).instantiate generic args location)

/-- One program comes from another by some operations, each refused or not. -/
inductive Leads (p : Program) : Program → Prop
  | refl : Leads p p
  | step {q r : Program} {α : Type} {x : Check α} : Leads p q → Operation α x → x.EndsIn q r → Leads p r

/-- A program that can come about. -/
def Reachable (p : Program) : Prop := Program.initial.Leads p

end Program

theorem Solver.Follows.instantiate (hS : S.Follows (fun _ => False) S) (generic : EntityId) (args : List Ty)
    (location : Location) (p : Program) (hO : p.Orderly) : Ends (S.instantiate generic args location) p
      (fun id q => p.Reaches none q ∧ (args, id) ∈ (q.entities.kind generic).instances)
      (fun _ q => p.Leaves none q) := by
  refine .run rfl ?_
  split
  · refine (hS.instantiateFunction generic location (fun τ _ => τ.avoids_none) p (.of_orderly hO)).ends.mono ?_ ?_
    · exact fun _ _ _ k => k.2
    · exact fun _ _ k => k.2
  · refine (hS.instantiateObject generic location (fun τ _ => τ.avoids_none) p (Program.Prepared.of_orderly hO).quiet).ends.mono ?_ ?_
    · exact fun _ _ _ k => ⟨k.2.1,k.2.2.2⟩
    · exact fun _ _ k => k.2

namespace Program

/-- Every operation advances the program. -/
theorem Operation.leaves {α : Type} {x : Check α} (ho : Operation α x) (hO : p.Orderly) (hx : x.EndsIn p q) :
    p.Leaves none q := by
  have scanning : Scanning x → p.Leaves none q := fun hs => Scans.leaves hO ((hs p).endsIn hx)
  cases ho with
  | addModule name => exact scanning (scanning_addRootModule name)
  | declare scope forms => exact scanning (Declaration.scanning_addAll forms scope)
  | bindImports => exact scanning Import.scanning_bindAll
  | resolve => exact ((settling_resolveProgram p hO).mono (fun _ _ _ h => h.toLeaves) fun _ _ h => h).endsIn hx
  | typeOf n scope t =>
    have ht := ((follows_upTo (Nat.le_refl n)).respectsTypes (some 0)).resolveType scope t.avoids_none
    exact ((ht.settling p hO).mono (fun _ _ _ h => h.toLeaves) fun _ _ h => h).endsIn hx
  | instantiate n g args location =>
    exact (((follows_upTo (Nat.le_refl n)).instantiate g args location p hO).mono (fun _ _ _ h => h.1.toLeaves)
      fun _ _ h => h).endsIn hx

/-- What holds after one operation holds after any number of them. -/
theorem Leads.leaves (hO : p.Orderly) (h : p.Leads q) : p.Leaves none q := by
  induction h with
  | refl => exact .refl hO
  | step _ ho hx ih => exact ih.trans (ho.leaves ih.orderly hx)

theorem Reachable.orderly (hp : p.Reachable) : p.Orderly := (Leads.leaves Scanned.initial.fresh.orderly hp).orderly

theorem Scanned.reachable (hp : p.Scanned) : p.Reachable := by
  induction hp with
  | initial => exact .refl
  | addModule _ h ih => exact ih.step (.addModule _) (.inl ⟨_,h⟩)
  | declare _ _ h ih => exact ih.step (.declare _ _) (.inl ⟨_,h⟩)
  | bindImports _ h ih => exact ih.step .bindImports (.inl ⟨_,h⟩)

/-! ### What is kept -/

/-- The instances of each definition have different arguments and are different entities, each is the instance it is
kept as, and none is kept for two definitions. -/
structure CachesInstances (p : Program) : Prop where
  keys : ∀ g, ((p.entities.kind g).instances.map (·.1)).Nodup
  ids : ∀ g, ((p.entities.kind g).instances.map (·.2)).Nodup
  kept : ∀ g args id, (args, id) ∈ (p.entities.kind g).instances → (p.entities.kind id).IsInstance g args
  unique : ∀ g g' args args' id, (args, id) ∈ (p.entities.kind g).instances →
    (args', id) ∈ (p.entities.kind g').instances → g = g'

end Program

namespace EntityKind

def typeParams : EntityKind → List String
  | object d => d.typeParams
  | function d => d.typeParams
  | _ => []

theorem IsInstance.unique {g g' : EntityId} {args args' : List Ty}
    (h : k.IsInstance g args) (h' : k.IsInstance g' args') : g = g' ∧ args = args' := by
  cases k with
  | object | function => exact ⟨Option.some.inj (h.1.symm.trans h'.1),h.2.symm.trans h'.2⟩
  | _ => cases h

theorem Like.typeParams {l : EntityKind} (h : k.Like l) : l.typeParams = k.typeParams := by
  cases h with
  | object h => exact h.typeParams
  | function h => exact h.typeParams
  | _ => rfl

end EntityKind

namespace Program

variable {id g : EntityId} {args : List Ty}

theorem Orderly.cachesInstances (hO : p.Orderly) : p.CachesInstances where
  keys g := (hO.sane g).keys
  ids g := by
    refine (List.Nodup.of_map _ (hO.sane g).keys).map_on ?_
    rintro ⟨args,id⟩ hx ⟨args',_⟩ hy rfl
    rw [((hO.kept g args id hx).unique (hO.kept g args' id hy)).2]
  kept := hO.kept
  unique g g' args args' id h h' := ((hO.kept g args id h).unique (hO.kept g' args' id h')).1

/-- The definition exists and has as many parameters as there are arguments. -/
structure Applies (p : Program) (g : EntityId) (args : List Ty) : Prop where
  lt_size : g.index < p.entities.size
  arity : (p.entities.kind g).typeParams.length = args.length

theorem Applies.of_kind (hk : p.entities.kind g = k) (hn : k ≠ .primitive default)
    (ha : k.typeParams.length = args.length) : p.Applies g args where
  lt_size := lt_size_of_kind (hk ▸ hn)
  arity := hk ▸ ha

theorem Applies.of_advances {x : Option EntityId} (h : p.Applies g args) (hq : p.Advances x q) : q.Applies g args where
  lt_size := Nat.lt_of_lt_of_le h.lt_size hq.entities
  arity := by
    rw [(hq.like g h.lt_size).typeParams]
    exact h.arity

/-- Only a definition with the right number of parameters gives an instance. -/
theorem applies_of_instantiate {location : Location}
    (h : S.instantiate g args location p = .ok id q) : p.Applies g args := by
  have hends : Ends (S.instantiate g args location) p (fun _ _ => p.Applies g args) fun _ _ => True := by
    have rest {α : Type} (x : Check α) (hp : p.Applies g args) :
        Ends x p (fun _ _ => p.Applies g args) fun _ _ => True := by
      unfold Ends
      split
      · exact hp
      · trivial
    refine .run rfl ?_
    split
    · refine .run rfl ?_
      split
      · trivial
      · next d hd =>
        exact .expectArity (fun ha => rest _ (.of_kind (function?_eq_some.mp hd) (by simp) ha)) fun _ _ => trivial
    · refine .run rfl ?_
      split
      · trivial
      · next d hd =>
        exact .expectArity (fun ha => rest _ (.of_kind (object?_eq_some.mp hd) (by simp) ha)) fun _ _ => trivial
  exact hends.of_ok h

/-- What is kept is found again, and nothing changes. -/
theorem Orderly.instantiate_kept (hO : p.Orderly) (S : Solver)
    (hm : (args, id) ∈ (p.entities.kind g).instances) (ha : p.Applies g args) (location : Location) :
    S.instantiate g args location p = .ok id p := by
  have arity (name : String) (n : Nat) (hn : n = args.length) :
      Check.expectArity name n args.length location p = .ok () p := by
    unfold Check.expectArity
    rw [if_pos hn]
    rfl
  have hends : Ends (S.instantiate g args location) p (fun i q => i = id ∧ q = p) fun _ _ => False := by
    have harity := ha.arity
    have hlookup := lookup_of_mem (hO.sane g).keys hm
    refine .run rfl ?_
    cases hk : p.entities.kind g with
    | object d =>
      have hf : (p.entities.get g).isFunction = false := by
        unfold kind at hk
        simp only [Entity.isFunction,hk]
      rw [hk] at harity hlookup
      rw [if_neg (by simp [hf])]
      refine .run rfl ?_
      rw [show (p.entities.get g).object? = some d from object?_eq_some.mpr hk]
      refine .run (arity _ _ harity) ?_
      rw [show cached? d.instances args = some id from hlookup]
      exact ⟨rfl,rfl⟩
    | function d =>
      have hf : (p.entities.get g).isFunction = true := by
        unfold kind at hk
        simp only [Entity.isFunction,hk]
      rw [hk] at harity hlookup
      rw [if_pos hf]
      refine .run rfl ?_
      rw [show (p.entities.get g).function? = some d from function?_eq_some.mpr hk]
      refine .run (arity _ _ harity) ?_
      rw [show cached? d.instances args = some id from hlookup]
      exact ⟨rfl,rfl⟩
    | _ => simp [hk,EntityKind.instances] at hm
  cases h : S.instantiate g args location p with
  | ok i q =>
    obtain ⟨rfl,rfl⟩ := hends.of_ok h
    rfl
  | error d q => exact (hends.of_error h).elim

/-- Instances are kept functionally and injectively in every program that can come about, and what instantiation gave
once it gives ever after, changing nothing. -/
theorem instances_cached (hp : p.Reachable) : p.CachesInstances ∧
    ∀ n g args location id q, (upTo n).instantiate g args location p = .ok id q →
      ∀ r, q.Leads r → ∀ m location', (upTo m).instantiate g args location' r = .ok id r := by
  have hO := hp.orderly
  refine ⟨hO.cachesInstances,fun n g args location id q h r hr m location' => ?_⟩
  obtain ⟨hq,hm⟩ := ((follows_upTo (Nat.le_refl n)).instantiate g args location p hO).of_ok h
  have hl := hr.leaves hq.orderly
  exact hl.orderly.instantiate_kept _ (hl.advances.kept hm)
    ((applies_of_instantiate h).of_advances (hq.toLeaves.trans hl).advances) location'

def usesGenerics : String :=
  "(obj Box (type_params T) (: value T)) (fn id (type_params T) (parameters (: v T)) v)" ++
    "(pub (fn f (parameters) (value (Box (type_args i32) (object (: value (id 1)))))))"

/-- Whether, after a source is resolved, two more instances can be had, one of them using the other. -/
private def givesMore (source : String) : Bool :=
  okAnd (fun scope p => okAnd (fun _ q =>
    match Inspect.named? q scope "Box", Inspect.named? q scope "id" with
    | some box, some idFunction =>
      okAnd (fun made r => okAnd (fun _ s =>
          (s.entities.kind box).instances.length == 2 && (s.entities.kind idFunction).instances.length == 2)
        ((upTo 50).instantiate idFunction [.object made] .builtin r))
      ((upTo 50).instantiate box [.prim .f32] .builtin q)
    | _, _ => false) (resolveProgram p)) (scan [] "main.vast" source initial)

theorem instances_cached_sample : ∃ (q r s : Program) (box idFunction made copy : EntityId), q.Reachable ∧
    (upTo 50).instantiate box [.prim .f32] .builtin q = .ok made r ∧
    (upTo 50).instantiate idFunction [.object made] .builtin r = .ok copy s ∧
    (s.entities.kind box).instances.length = 2 ∧ (s.entities.kind idFunction).instances.length = 2 ∧
    q.CachesInstances ∧ (upTo 7).instantiate box [.prim .f32] .builtin s = .ok made s := by
  obtain ⟨source,h⟩ : ∃ source, givesMore source = true := ⟨usesGenerics,by decide +kernel⟩
  obtain ⟨scope,p,hp,h⟩ := okAnd_iff.mp h
  obtain ⟨_,q,hq,h⟩ := okAnd_iff.mp h
  split at h
  · rename_i box idFunction _ _
    obtain ⟨made,r,hmade,h⟩ := okAnd_iff.mp h
    obtain ⟨copy,s,hcopy,h⟩ := okAnd_iff.mp h
    rw [Bool.and_eq_true,beq_iff_eq,beq_iff_eq] at h
    have hreachable : q.Reachable := (scanned_of_scan hp).reachable.step .resolve (.inl ⟨(),hq⟩)
    have hleads : r.Leads s := .step .refl (.instantiate 50 idFunction [.object made] .builtin) (.inl ⟨copy,hcopy⟩)
    have hcached := instances_cached hreachable
    exact ⟨q,r,s,box,idFunction,made,copy,hreachable,hmade,hcopy,h.1,h.2,hcached.1,
      hcached.2 50 box _ _ made r hmade s hleads 7 .builtin⟩
  · cases h

end Program

end FormCompiler
