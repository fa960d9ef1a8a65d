import FormCompiler.Proofs.Resolution.Instances

/-! Replacing type parameters by types and then resolving a type expression is the same as reading it with the parameters
denoting these types. So the types in an instance are those of its definition, read with its arguments. -/

namespace FormCompiler

open Check

namespace Solver

section

variable (S : Solver) (types : Subst) (scope : ScopeId)

mutual

/-- The type an expression stands for in a scope where some names denote given types. The heads of applications are
looked up in the scope. -/
def readType : TypeExpr → Check Ty
  | .resolved type => return type
  | .named name location =>
    match types.lookup name with
    | some type => return type
    | none => S.resolveType scope (.named name location)
  | .apply name args location => do
    let (id, kind) ← typeEntity scope name location
    let args ← readTypes args
    match kind with
    | .arrayType =>
      match args with
      | [element] => return .array element
      | _ => fail location (.invalidGenericArgs name 1 args.length)
    | .object d =>
      if d.isGeneric then return .object (← S.instantiateObject id args location)
      else fail location (.invalidGenericArgs name 0 args.length)
    | .primitive _ | .typeAlias _ => fail location (.invalidGenericArgs name 0 args.length)
    | _ => fail location (.unresolvedType name)

def readTypes : List TypeExpr → Check (List Ty)
  | [] => return []
  | t :: ts => do
    let type ← readType t
    return type :: (← readTypes ts)

end

mutual

private theorem resolveType_substitute : ∀ t :
    TypeExpr, S.resolveType scope (t.substitute types) = S.readType types scope t
  | .resolved type => by rw [TypeExpr.substitute,resolveType,readType]
  | .named name location => by
    rw [TypeExpr.substitute,readType]
    cases types.lookup name with
    | none => rfl
    | some type => exact resolveType.eq_1 ..
  | .apply name args location => by
    rw [TypeExpr.substitute,readType,← resolveTypes_substituteAll args]
    exact resolveType.eq_3 ..

private theorem resolveTypes_substituteAll : ∀ ts : List TypeExpr,
    S.resolveTypes scope (TypeExpr.substituteAll types ts) = S.readTypes types scope ts
  | [] => by rw [TypeExpr.substituteAll,resolveTypes,readTypes]
  | t :: ts => by
    rw [TypeExpr.substituteAll,resolveTypes,readTypes,resolveType_substitute t,resolveTypes_substituteAll ts]

end

end

variable {S : Solver} {p : Program} {scope : ScopeId}

/-- The types of aliases that have one are found again. -/
def Recalls (S : Solver) (p : Program) : Prop :=
  ∀ id d τ, p.entities.kind id = .typeAlias d → d.stage = .done → d.resolved = some τ → S.aliased id p = .ok τ p

private theorem recalls_solver (q p : Program) : q.solver.Recalls p := by
  intro id d τ hk hs hr
  obtain ⟨n,hn⟩ : ∃ n, q.budget = n + 1 := Nat.exists_eq_succ_of_ne_zero (by simp [Program.budget])
  refine entity_bind_ok.mpr (?_ : _ = _)
  simp [Entity.alias?,show (p.entities.get id).kind = .typeAlias d from hk,hs,hr]

private theorem instantiateObject_cached (hI : p.Inv) {generic id : EntityId} {d : ObjectDef} {args : List Ty}
    (hk : p.entities.kind generic = .object d) (hl : d.instances.lookup args = some id) (location : Location) :
    S.instantiateObject generic args location p = .ok id p := by
  have ha := ((hI.objectOk hk).instances args id hl).2.1
  refine entity_bind_ok.mpr ?_
  have hd : (p.entities.get generic).object? = some d := EntityTable.object?_eq_some.mpr hk
  simp only [hd]
  refine bind_ok.mpr ⟨(),p,expectArity_ok.mpr ⟨ha,rfl⟩,?_⟩
  simp [Check.cached?,hl]

mutual

/-- What has a meaning already is found without a change. -/
theorem resolveType_of_meaning? (hS : S.Recalls p) (hI : p.Inv) : ∀ {t : TypeExpr} {τ : Ty},
    p.meaning? scope t = some τ → S.resolveType scope t p = .ok τ p
  | .resolved type, τ, h => by
    cases h
    rfl
  | .named name location, τ, h => by
    simp only [Program.meaning?,Option.bind_eq_bind,Option.bind_eq_some_iff] at h
    obtain ⟨id,hname,h⟩ := h
    refine bind_ok.mpr ⟨(id, p.entities.kind id),p,by simp [typeEntity,bind_ok,hname]; rfl,?_⟩
    cases hk : p.entities.kind id with
    | object d =>
      simp only [hk] at h
      split at h
      · cases h
        exact bind_ok.mpr ⟨(),p,expectArity_ok.mpr ⟨‹_›,rfl⟩,rfl⟩
      · cases h
    | typeAlias d =>
      simp only [hk] at h
      split at h
      · exact hS id d τ hk ‹_› h
      · cases h
    | _ => simp_all
  | .apply name args location, τ, h => by
    simp only [Program.meaning?,Option.bind_eq_bind,Option.bind_eq_some_iff] at h
    obtain ⟨id,hname,types,htypes,h⟩ := h
    refine bind_ok.mpr ⟨(id, p.entities.kind id),p,by simp [typeEntity,bind_ok,hname]; rfl,?_⟩
    refine bind_ok.mpr ⟨types,p,resolveTypes_of_meanings? hS hI htypes,?_⟩
    cases hk : p.entities.kind id with
    | object d =>
      simp only [hk,Option.map_eq_some_iff] at h
      obtain ⟨i,hi,rfl⟩ := h
      simp only [((hI.objectOk hk).instances types i hi).1,if_true]
      exact bind_ok.mpr ⟨i,p,instantiateObject_cached hI hk hi location,rfl⟩
    | arrayType =>
      split at h <;> simp_all
    | _ => simp_all

private theorem resolveTypes_of_meanings? (hS : S.Recalls p) (hI : p.Inv) : ∀ {ts : List TypeExpr} {τs : List Ty},
    p.meanings? scope ts = some τs → S.resolveTypes scope ts p = .ok τs p
  | [], τs, h => by
    cases h
    rfl
  | t :: ts, τs, h => by
    simp only [Program.meanings?,Option.bind_eq_bind,Option.bind_eq_some_iff] at h
    obtain ⟨τ,hτ,rest,hrest,h⟩ := h
    cases h
    exact bind_ok.mpr ⟨τ,p,resolveType_of_meaning? hS hI hτ,
      bind_ok.mpr ⟨rest,p,resolveTypes_of_meanings? hS hI hrest,rfl⟩⟩

end

end Solver

/-- Resolving an expression whose parameters were replaced does what reading the expression does, whatever comes of it.
So in an accepted program the declared fields and the parameters of an instance have the types of the definition, read
with its parameters denoting the arguments. -/
theorem instances_read :
    (∀ (S : Solver) types scope t, S.resolveType scope (t.substitute types) = S.readType types scope t) ∧
    ∀ library file source exports p, checkSource library file source Program.initial = .ok exports p →
      (∀ generic d args id, p.entities.kind generic = .object d → d.instances.lookup args = some id →
        ∃ e, p.entities.kind id = .object e ∧ e.stage = .done ∧ ∀ name t, (name, t) ∈ d.fieldExprs →
          ∃ τ, ⟨name,τ⟩ ∈ e.fields ∧ p.solver.readType (d.typeParams.zip args) d.scope t p = .ok τ p) ∧
      ∀ generic d args id, p.entities.kind generic = .function d → d.instances.lookup args = some id →
        ∃ e, p.entities.kind id = .function e ∧ p.solver.readTypes (d.typeParams.zip args) d.scope
          (d.params.map (·.declared)) p = .ok e.paramTypes p := by
  refine ⟨fun S types scope => S.resolveType_substitute types scope,fun library file source exports p hc => ?_⟩
  have hI := (Program.wellResolved_of_checkSource hc).1.inv
  have hS := Solver.recalls_solver p p
  refine ⟨fun generic d args id hk hl => ?_,fun generic d args id hk hl => ?_⟩
  · obtain ⟨_,_,e,hke,hi⟩ := (hI.objectOk hk).instances args id hl
    refine ⟨e,hke,hi.stage,fun name t hm => ?_⟩
    obtain ⟨τ,hτ,hfield⟩ := (hI.objectOk hke).declared hi.stage
      (name, t.substitute (d.typeParams.zip args)) (by rw [hi.fieldExprs]; exact List.mem_map.mpr ⟨_,hm,rfl⟩)
    rw [hi.scope] at hτ
    exact ⟨τ,hfield,Solver.resolveType_substitute .. ▸ Solver.resolveType_of_meaning? hS hI hτ⟩
  · obtain ⟨e,hke,hi⟩ := (hI.functionOk hk).instances args id hl
    have hτ := ((hI.functionOk hke).signed hi.signature).types
    rw [hi.scope,hi.params] at hτ
    refine ⟨e,hke,?_⟩
    rw [← Solver.resolveTypes_substituteAll,TypeExpr.substituteAll_eq_map,List.map_map]
    exact Solver.resolveTypes_of_meanings? hS hI hτ

private def hasInstances : Bool :=
  okAnd (fun _ p =>
    (p.entities.object? ⟨61⟩).any (fun d => (d.instances.lookup [.prim .i32]).isSome && d.fieldExprs.length == 1) &&
    (p.entities.function? ⟨62⟩).any fun f => (f.instances.lookup [.prim .i32]).isSome && f.params.length == 1)
    (checkSource [] "main.vast" Program.usesGenerics Program.initial)

theorem instances_read_sample : ∃ exports p d e f g boxed copy,
    checkSource [] "main.vast" Program.usesGenerics Program.initial = .ok exports p ∧
    p.entities.kind ⟨61⟩ = .object d ∧ d.instances.lookup [.prim .i32] = some boxed ∧ p.entities.kind boxed = .object e ∧
    (∃ name t τ, d.fieldExprs = [(name, t)] ∧ ⟨name,τ⟩ ∈ e.fields ∧
      p.solver.readType (d.typeParams.zip [.prim .i32]) d.scope t p = .ok τ p) ∧
    p.entities.kind ⟨62⟩ = .function f ∧ f.instances.lookup [.prim .i32] = some copy ∧ f.params.length = 1 ∧
    p.entities.kind copy = .function g ∧ p.solver.readTypes (f.typeParams.zip [.prim .i32]) f.scope
      (f.params.map (·.declared)) p = .ok g.paramTypes p := by
  have h : hasInstances = true := by decide +kernel
  obtain ⟨exports,p,hp,h⟩ := okAnd_iff.mp h
  simp only [Bool.and_eq_true,beq_iff_eq,Option.any_eq_true,EntityTable.object?_eq_some,EntityTable.function?_eq_some,
    Option.isSome_iff_exists] at h
  obtain ⟨⟨d,hd,⟨boxed,hboxed⟩,hfields⟩,f,hf,⟨copy,hcopy⟩,hparams⟩ := h
  obtain ⟨hobjects,hfunctions⟩ := instances_read.2 _ _ _ _ _ hp
  obtain ⟨e,he,_,hread⟩ := hobjects _ d _ boxed hd hboxed
  obtain ⟨g,hg,hreads⟩ := hfunctions _ f _ copy hf hcopy
  obtain ⟨⟨name,t⟩,ht⟩ := List.length_eq_one_iff.mp hfields
  obtain ⟨τ,hτ,hresult⟩ := hread name t (by simp [ht])
  exact ⟨exports,p,d,e,f,g,boxed,copy,hp,hd,hboxed,he,⟨name,t,τ,ht,hτ,hresult⟩,hf,hcopy,hparams,hg,hreads⟩

end FormCompiler
