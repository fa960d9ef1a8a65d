import FormCompiler.Proofs.Resolution.Scopes

/-! Questions about types keep the invariant, and their answers are right: a type that can stand for
another is below it, a join is above both, an instance exists and is kept. -/

namespace FormCompiler

open Check EntityTable List

variable {location : Location} {u : Unit} {d : ObjectDef} {p q : Program} {lo hi : Nat}

namespace Program

variable {ancestor a id : EntityId} {σ τ : Ty}

/-! ### The tree of types -/

private theorem Inv.plain (hI : p.Inv) (hk : p.entities.kind id = .object d) (hd : d.stage = .done) :
    d.typeParams = [] := by
  have ho := hI.entities id
  rw [hk] at ho
  exact ObjectOk.plain ho hd

private theorem Inv.good_parent (hI : p.Inv) {b : EntityId} (h : p.entities.Parent a b) :
    (Ty.object b).Good p.entities := by
  obtain ⟨d,hk,hp⟩ := h
  obtain ⟨l,hl⟩ := hI.founded a d b hk hp
  obtain ⟨e,hk',he⟩ := hl.isDone
  exact ⟨e,hk',hI.plain hk' he⟩

private theorem Inv.good_extends (hI : p.Inv) {b : EntityId} (hg : (Ty.object a).Good p.entities)
    (h : p.entities.Extends a b) : (Ty.object b).Good p.entities := by
  cases h with
  | refl => exact hg
  | tail _ hp => exact hI.good_parent hp

theorem Below.refl (τ : Ty) : p.Below τ τ := .inl rfl

theorem Below.trans {a b c : Ty} (h : p.Below a b) (k : p.Below b c) : p.Below a c := by
  rcases h with rfl | ⟨x,y,rfl,rfl,h⟩
  · exact k
  · rcases k with rfl | ⟨y',z,hy,rfl,k⟩
    · exact .inr ⟨x,y,rfl,rfl,h⟩
    · cases hy
      exact .inr ⟨x,z,rfl,rfl,Relation.ReflTransGen.trans h k⟩

theorem Inv.distance? (hI : p.Inv) {r : Option Nat}
    (h : Check.distance? id ancestor p = .ok r q) : p.Calm q ∧ q.entities = p.entities ∧
      (r.isSome = true ↔ p.entities.Extends id ancestor) := by
  simp only [Check.distance?,modifyGet_ok,Ancestry.distance?] at h
  obtain ⟨rfl,rfl⟩ := h
  obtain ⟨he,hm,_⟩ := Ancestry.chain_spec hI.founded hI.memo id
  exact ⟨hI.setAncestry he,rfl,by rw [isSome_idxOf?,hm]⟩

theorem Inv.extends? (hI : p.Inv) {b : Bool} (h : Check.extends? id ancestor p = .ok b q) :
    p.Calm q ∧ q.entities = p.entities ∧ (b = true ↔ p.entities.Extends id ancestor) := by
  obtain ⟨r,q',hd,h⟩ := bind_ok.mp h
  cases h
  exact hI.distance? hd

private theorem Inv.isAssignable (hI : p.Inv) {b : Bool} (hg : σ.Good p.entities)
    (h : Check.isAssignable σ τ p = .ok b q) : p.Calm q ∧ q.entities = p.entities ∧ (b = true → q.Below σ τ) := by
  unfold Check.isAssignable at h
  split at h
  · rename_i hc
    cases h
    refine ⟨.refl hI,rfl,fun _ => ?_⟩
    simp only [Bool.or_eq_true,decide_eq_true_eq] at hc
    rcases hc with rfl | rfl
    · exact .refl σ
    · exact hg.elim
  · split at h
    · rename_i sub sup _
      obtain ⟨hm,he,hs⟩ := hI.extends? h
      refine ⟨hm,he,fun hr => .inr ⟨sub,sup,rfl,rfl,?_⟩⟩
      exact he ▸ hs.mp hr
    · cases h
      exact ⟨.refl hI,rfl,fun h => nomatch h⟩

theorem Inv.expectAssignable (hI : p.Inv) (hg : σ.Good p.entities)
    (h : Check.expectAssignable σ τ location p = .ok u q) : p.Calm q ∧ q.entities = p.entities ∧ q.Below σ τ := by
  obtain ⟨b,q',ha,h⟩ := bind_ok.mp h
  obtain ⟨hm,he,hb⟩ := hI.isAssignable hg ha
  cases b with
  | true =>
    cases h
    exact ⟨hm,he,hb rfl⟩
  | false => simp [bind_ok] at h

theorem Inv.finishedType (hI : p.Inv) (hF : p.Formed) (hg : τ.Good p.entities) : τ.Finished p.entities := by
  rintro x rfl
  obtain ⟨d,hk,ht⟩ := hg
  exact hI.founded.chain hk (hF x d hk ht)

theorem Inv.good_assignable (hI : p.Inv) (hg : σ.Good p.entities) (h : p.entities.Assignable σ τ) :
    τ.Good p.entities ∧ p.Below σ τ := by
  rcases h with rfl | rfl | ⟨x,y,rfl,rfl,h⟩
  · exact ⟨hg,.refl _⟩
  · exact hg.elim
  · exact ⟨hI.good_extends hg h,.inr ⟨x,y,rfl,rfl,h⟩⟩

theorem Inv.join? (hI : p.Inv) {a b : Ty} (h : Check.join? a b p = .ok (some τ) q) :
    p.Calm q ∧ q.entities = p.entities ∧ p.entities.IsJoin [a,b] τ := by
  simp only [Check.join?,modifyGet_ok] at h
  obtain ⟨hj,rfl⟩ := h
  refine ⟨hI.setAncestry ?_,rfl,?_⟩
  · unfold Ancestry.join?
    split
    · split
      · exact hI.memo
      · obtain ⟨e1,_⟩ := Ancestry.chain_spec hI.founded hI.memo _
        exact (Ancestry.chain_spec hI.founded e1 _).1
    · exact hI.memo
  · rcases (Ancestry.join?_spec hI.founded.anchored hI.memo.keeps a b).2 with ⟨c,hc,hjoin⟩ | ⟨hc,_⟩
    · cases hj.trans hc
      exact hjoin
    · cases hj.trans hc

/-! ### What is asked of the solver -/

structure Open (p : Program) (id : ExprId) : Prop where
  loose : p.Loose id
  untyped : (p.exprs.get id).type = none
  raw : (p.exprs.get id).shape.Raw p.entities

structure Ready (p : Program) (lo : Nat) (ids : List ExprId) (hi : Nat) : Prop where
  formed : p.Formed
  tiles : p.exprs.Tiles lo ids hi
  nodes : ∀ id : ExprId, lo ≤ id.index → id.index < hi → p.Open id

theorem Step.open (h : p.Step lo hi q) {id : ExprId} (ho : p.Open id)
    (hid : id.index < lo ∨ hi ≤ id.index) : q.Open id := by
  have he := h.frame id ho.loose hid
  exact ⟨h.loose ho.loose,by rw [he]; exact ho.untyped,by rw [he]; exact h.grows.raw ho.raw⟩

end Program

/-- The solver's answers are right, and getting them keeps the invariant. -/
structure Solver.Sound (S : Solver) : Prop where
  follows : S.Follows (fun _ => False) S
  aliased : ∀ {p q id τ}, p.Inv → S.aliased id p = .ok τ q → p.Calm q ∧
    ∃ d, q.entities.kind id = .typeAlias d ∧ d.stage = .done ∧ d.resolved = some τ
  object : ∀ {p q id u}, p.Inv → S.object id p = .ok u q → p.Calm q ∧
    ∃ d, q.entities.kind id = .object d ∧ (d.typeParams = [] → d.stage = .done)
  expr : ∀ {p q lo id scope τ}, p.Inv → p.Ready lo [id] (id.index + 1) → p.Local scope → S.expr id scope p = .ok τ q →
    p.Moves lo (id.index + 1) q ∧ q.Typed id τ ∧ p.Enters scope [id] q

namespace TypeExpr

mutual

variable {t : EntityTable} {subst : Subst}

theorem Good.substitute (hs : ∀ x ∈ subst, x.2.Good t) : ∀ {e : TypeExpr}, e.Good t → (e.substitute subst).Good t
  | .named name location, _ => by
    unfold TypeExpr.substitute
    split
    · rename_i type hl
      exact .resolved (hs (name, type) (mem_of_lookup hl))
    · exact .named
  | .apply name args location, .apply h => by
    exact .apply (Good.substituteAll hs h)
  | .resolved type, h => by
    exact h

private theorem Good.substituteAll (hs : ∀ x ∈ subst, x.2.Good t) :
    ∀ {es : List TypeExpr}, (∀ e ∈ es, e.Good t) → ∀ e ∈ substituteAll subst es, e.Good t
  | [], _, e, he => by cases he
  | e :: es, h, x, hx => by
    rcases mem_cons.mp hx with rfl | hx
    · exact Good.substitute hs (h e (by simp))
    · exact Good.substituteAll hs (fun y hy => h y (by simp [hy])) x hx

end

end TypeExpr

namespace Program

variable {scope : ScopeId} {e : ObjectDef} {id generic parent : EntityId} {fields : List Field} {args : List Ty}
  {name : String} {τ : Ty}

/-- What an action leaves unfinished was unfinished before, so objects keep their layouts and new ones have one. -/
theorem Reaches.formed (h : p.Reaches none q) (hp : p.Formed) : q.Formed := by
  intro id e hk ht
  by_contra hn
  obtain ⟨-,hlike,hs⟩ := h.unfinished id (by simp) (by rw [hk]; exact hn)
  rw [hk] at hlike hs
  obtain ⟨d,hd,hl⟩ := hlike.to_object
  rw [hd] at hs
  exact hn (hs.symm.trans (hp id d hd (hl.typeParams.symm.trans ht)))

/-- A question about types that keeps the invariant. -/
theorem Calm.of_runs {α : Type} {x y : Check α} {R : α → Program → Prop} {a : α}
    (hx : Check.Runs (fun _ => False) none x y R) (hO : p.Orderly) (h : y p = .ok a q) (hg : p.Grows q)
    (hI : q.Orderly → q.Inv) : p.Calm q := by
  obtain ⟨he,hr,_⟩ := (hx p (Prepared.of_orderly hO).quiet).ends.of_ok h
  exact ⟨hI hr.orderly,hg,he.still.exprs,he.still.functions,hr.formed⟩

theorem Inv.of_counters (hI : p.Inv) {keys : List (EntityId × List Ty)} {depth : Nat} :
    p.Calm { p with instantiating := keys, instanceDepth := depth } :=
  .of_tables (hI.of_tables rfl rfl (.refl _) hI.scopes (.inl rfl)) rfl rfl (.refl _)

theorem Inv.varOk (hI : p.Inv) (hv : p.VarOf id τ) : τ.Good p.entities := by
  obtain ⟨m,hk⟩ := hv
  have ho := hI.entities id
  rwa [hk] at ho

private theorem objectInstance_ok (hI : p.Inv) (hk : p.entities.kind generic = .object d)
    (ha : ∀ τ ∈ args, τ.Good p.entities) : p.ObjectOk id (Solver.objectInstance generic d args) := by
  have ho := hI.objectOk hk
  have hs : ∀ x ∈ d.typeParams.zip args, x.2.Good p.entities := fun x hx => ha x.2 (of_mem_zip hx).2
  exact {
    scope := ho.scope
    declared := fun h => nomatch h
    appliedArgs := ha
    pending := fun _ => rfl
    unfinished := fun _ => rfl
    plain := fun _ => rfl
    names := nodup_nil
    fields := fun _ hf => nomatch hf
    base := fun h => nomatch h
    inherited := fun _ h => nomatch h
    instances := fun _ _ hl => nomatch hl
    parentExpr := by
      intro t ht
      obtain ⟨t',ht',rfl⟩ := Option.map_eq_some_iff.mp ht
      exact (ho.parentExpr t' ht').substitute hs
    fieldExprs := by
      intro field hf
      obtain ⟨f',hf',rfl⟩ := mem_map.mp hf
      exact (ho.fieldExprs f' hf').substitute hs }

private theorem ObjectOk.addInstance (ho : p.ObjectOk generic d)
    (hg : d.isGeneric = true) (ha : d.typeParams.length = args.length) (hk : p.entities.kind id = .object e)
    (hi : e.Declares d.scope (d.fieldExprs.map fun (name, t) => (name, t.substitute (d.typeParams.zip args)))) :
    p.ObjectOk generic { d with instances := d.instances ++ [(args, id)] } where
  __ := ho
  instances args' i hl := by
    simp only [lookup_append,Option.or_eq_some_iff] at hl
    rcases hl with hl | ⟨_,hl⟩
    · exact ho.instances args' i hl
    · rw [lookup_cons] at hl
      split at hl
      · cases hl
        rename_i heq
        cases beq_iff_eq.mp heq
        exact ⟨hg,ha,e,hk,hi⟩
      · cases hl

variable {S : Solver}

/-- An instance of a generic object is kept under its arguments. -/
theorem Inv.instantiateObject (hS : S.Sound) (hI : p.Inv) (hk : p.entities.kind generic = .object d)
    (hg : d.isGeneric = true) (ha : ∀ τ ∈ args, τ.Good p.entities) (h : S.instantiateObject generic args location p = .ok id q) :
    p.Calm q ∧ (Ty.object id).Good q.entities ∧
      ∃ e, q.entities.kind generic = .object e ∧ e.instances.lookup args = some id := by
  have hruns := hS.follows.instantiateObject generic location fun τ (_ : τ ∈ args) => τ.avoids_none
  obtain ⟨_,hr,_,hm⟩ := (hruns p (Prepared.of_orderly hI.orderly).quiet).ends.of_ok h
  obtain ⟨e,hke,_⟩ := hr.advances.object hk
  have hkept : e.instances.lookup args = some id := by
    have hkeys := (hr.orderly.sane generic).keys
    rw [hke] at hm hkeys
    exact lookup_of_mem hkeys hm
  suffices hcalm : p.Calm q ∧ (Ty.object id).Good q.entities from ⟨hcalm.1,hcalm.2,e,hke,hkept⟩
  have hall := h
  have h1 := entity_bind_ok.mp h
  have hd : (p.entities.get generic).object? = some d := object?_eq_some.mpr hk
  simp only [hd] at h1
  obtain ⟨_,_,hx,h2⟩ := bind_ok.mp h1
  obtain ⟨harity,rfl⟩ := expectArity_ok.mp hx
  unfold Check.cached? at h2
  cases hl : d.instances.lookup args with
  | some i =>
    simp only [hl] at h2
    obtain ⟨rfl,rfl⟩ := pure_ok.mp h2
    obtain ⟨_,_,e,hke,hi⟩ := (hI.objectOk hk).instances args i hl
    exact ⟨.refl hI,e,hke,hi.typeParams⟩
  | none =>
    simp only [hl] at h2
    obtain ⟨_,p0,hn,h3⟩ := bind_ok.mp h2
    obtain ⟨_,_,hp0⟩ := enterInstance_ok hn
    obtain ⟨i,p1,hal,h4⟩ := bind_ok.mp h3
    obtain ⟨_,p2,hdepth,h5⟩ := bind_ok.mp h4
    obtain ⟨p3,hkey,rfl⟩ := afterwards_ok.mp hdepth
    obtain ⟨p4,hob,rfl⟩ := afterwards_ok.mp hkey
    obtain ⟨_,p5,hmod,h6⟩ := bind_ok.mp h5
    rw [modifyObject_ok] at hmod
    obtain ⟨rfl,rfl⟩ := pure_ok.mp h6
    have he0 : p0.entities = p.entities := by rw [hp0]
    have m0 : p.Calm p0 := by
      rw [hp0]
      exact hI.of_counters
    have I0 := m0.inv
    -- the new entity, its layout, and then it is kept
    obtain ⟨I1,g1,hki⟩ := I0.allocObject (objectInstance_ok I0 (he0 ▸ hk) (he0 ▸ ha)) rfl rfl hal
    obtain ⟨m2,e,hke,hdone⟩ := hS.object I1 hob
    obtain ⟨e',hke',ge⟩ := m2.grows.object hki
    cases hke.symm.trans hke'
    have m3 : p4.Calm { p4 with instantiating := p4.instantiating.tail, instanceDepth := p4.instanceDepth - 1 } :=
      m2.inv.of_counters
    have g3 := (m0.grows.trans (g1.trans m2.grows)).trans m3.grows
    obtain ⟨c,hkc,gc⟩ := g3.object hk
    have hinst := ObjectDef.Declares.mk ge.scope ge.typeParams (hdone ge.typeParams) ge.fieldExprs
    simp only [Solver.objectInstance,← gc.scope,← gc.fieldExprs,← gc.typeParams] at hinst
    have hgrow : c.Grows { c with instances := c.instances ++ [(args, i)] } :=
      { ObjectDef.Grows.refl c with
        instances := fun args' j hj => by simp [lookup_append,hj] }
    have g4 : Grows { p4 with instantiating := p4.instantiating.tail, instanceDepth := p4.instanceDepth - 1 } { p4 with
        entities := p4.entities.modifyObject generic fun d => { d with instances := d.instances ++ [(args, i)] }
        instantiating := p4.instantiating.tail, instanceDepth := p4.instanceDepth - 1 } :=
      .modifyKind (by simp only [hkc]; exact .object hgrow)
    rw [hmod] at hr hall ⊢
    refine ⟨.of_runs hruns hI.orderly hall (g3.trans g4) fun hO => ?_,g4.good ⟨e,hke,ge.typeParams⟩⟩
    exact m3.inv.modifyObject hkc hgrow ((m3.inv.objectOk hkc).addInstance (by simpa [ObjectDef.isGeneric,gc.typeParams] using hg)
      (gc.typeParams ▸ harity) hke hinst) (fun _ h => .inl h) hO

theorem typeEntity_ok {r : EntityId × EntityKind} (h : Solver.typeEntity scope name location p = .ok r q) :
    p.scopes.resolve? p.entities scope name = some r.1 ∧ r.2 = p.entities.kind r.1 ∧ p = q := by
  have h1 := get_bind_ok.mp h
  cases hr : p.scopes.resolve? p.entities scope name with
  | none => simp [hr] at h1
  | some id =>
    simp only [hr] at h1
    cases h1
    exact ⟨rfl,rfl,rfl⟩

private theorem Inv.resolveNamed (hS : S.Sound) (hI : p.Inv)
    (h : S.resolveType scope (.named name location) p = .ok τ q) : p.Calm q ∧ τ.Good q.entities ∧
      (p.scopes.Static scope → q.meaning? scope (.named name location) = some τ) := by
  obtain ⟨⟨id,kind⟩,_,ht,h1⟩ := bind_ok.mp h
  obtain ⟨hr,hk,rfl⟩ := typeEntity_ok ht
  simp only at hr hk h1
  subst hk
  cases hk : p.entities.kind id with
  | primitive prim =>
    simp only [hk] at h1
    cases h1
    exact ⟨.refl hI,trivial,fun _ => by simp [meaning?,hr,hk]⟩
  | object d =>
    simp only [hk] at h1
    obtain ⟨_,_,ha,h2⟩ := bind_ok.mp h1
    obtain ⟨hl,rfl⟩ := expectArity_ok.mp ha
    cases h2
    have hp := length_eq_zero_iff.mp hl
    exact ⟨.refl hI,⟨d,hk,hp⟩,fun _ => by simp [meaning?,hr,hk,hp]⟩
  | typeAlias d =>
    simp only [hk] at h1
    obtain ⟨m,e,hk',hd,he⟩ := hS.aliased hI h1
    refine ⟨m,(m.inv.aliasOk hk').resolved τ hd he,fun hs => ?_⟩
    simp [meaning?,m.grows.resolve? hI.scopes hs,hr,hk',hd,he]
  | _ => simp [hk] at h1

mutual

/-- The type an expression stands for is good, and in a module it is its meaning. -/
theorem Inv.resolveType (hS : S.Sound) : ∀ (t : TypeExpr) {p q : Program} {τ : Ty}, p.Inv → t.Good p.entities →
      S.resolveType scope t p = .ok τ q → p.Calm q ∧ τ.Good q.entities ∧
        (p.scopes.Static scope → q.meaning? scope t = some τ)
  | .resolved type, p, q, τ, hI, .resolved hg, h => by
    cases h
    exact ⟨.refl hI,hg,fun _ => rfl⟩
  | .named name location, p, q, τ, hI, _, h => hI.resolveNamed hS h
  | .apply name args location, p, q, τ, hI, .apply hg, h => by
    obtain ⟨⟨id,kind⟩,_,ht,h1⟩ := bind_ok.mp h
    obtain ⟨hr,hk,rfl⟩ := typeEntity_ok ht
    simp only at hr hk h1
    subst hk
    obtain ⟨types,p1,hts,h2⟩ := bind_ok.mp h1
    obtain ⟨m1,hgood,hmean⟩ := Inv.resolveTypes hS args hI hg hts
    cases hk : p.entities.kind id with
    | arrayType =>
      simp only [hk] at h2
      split at h2
      · rename_i element
        obtain ⟨rfl,rfl⟩ := pure_ok.mp h2
        refine ⟨m1,hgood element (by simp),fun hs => ?_⟩
        have hk1 : p1.entities.kind id = .arrayType := by
          have hg := m1.grows.kind id (resolve?_lt hI.scopes hr)
          rw [hk] at hg
          generalize p1.entities.kind id = k at hg
          cases hg
          rfl
        simp [meaning?,m1.grows.resolve? hI.scopes hs,hr,hmean hs,hk1]
      · simp at h2
    | object d =>
      simp only [hk] at h2
      split at h2
      · obtain ⟨i,p2,hin,h3⟩ := bind_ok.mp h2
        cases h3
        obtain ⟨c,hc,gc⟩ := m1.grows.object hk
        obtain ⟨m2,hi,e,he,hl⟩ := m1.inv.instantiateObject hS hc
          (by simpa [ObjectDef.isGeneric,gc.typeParams] using ‹d.isGeneric = true›) hgood hin
        refine ⟨m1.trans m2,hi,fun hs => ?_⟩
        have hst := hs.grows m1.grows.scopes
        simp [meaning?,(m1.trans m2).grows.resolve? hI.scopes hs,hr,
          m2.grows.meanings? m1.inv.scopes hst (hmean hs),he,hl]
      · simp at h2
    | _ => simp [hk] at h2

theorem Inv.resolveTypes (hS : S.Sound) :
    ∀ (ts : List TypeExpr) {p q : Program} {τs : List Ty}, p.Inv → (∀ t ∈ ts, t.Good p.entities) →
      S.resolveTypes scope ts p = .ok τs q → p.Calm q ∧ (∀ τ ∈ τs, τ.Good q.entities) ∧
        (p.scopes.Static scope → q.meanings? scope ts = some τs)
  | [], p, q, τs, hI, _, h => by
    cases h
    exact ⟨.refl hI,by simp,fun _ => rfl⟩
  | t :: ts, p, q, τs, hI, hg, h => by
    obtain ⟨τ,p1,h1,h2⟩ := bind_ok.mp h
    obtain ⟨rest,p2,h3,h4⟩ := bind_ok.mp h2
    cases h4
    obtain ⟨m1,g1,n1⟩ := Inv.resolveType hS t hI (hg t (by simp)) h1
    obtain ⟨m2,g2,n2⟩ := Inv.resolveTypes hS ts m1.inv (fun u hu => m1.grows.goodExpr (hg u (by simp [hu]))) h3
    refine ⟨m1.trans m2,?_,fun hs => ?_⟩
    · intro σ hσ
      rcases mem_cons.mp hσ with rfl | hσ
      · exact m2.grows.good g1
      · exact g2 σ hσ
    · have hst := hs.grows m1.grows.scopes
      simp [meanings?,m2.grows.meaning? m1.inv.scopes hst (n1 hs),n2 hst]

end

/-! ### Aliases and layouts -/

/-- The path to an alias that has no type yet. -/
private theorem Inv.followAlias (hS : S.Sound) (hI : p.Inv) {d : AliasDef} (hk : p.entities.kind id = .typeAlias d)
    (hopen : ∀ τ, d.stage = .done → d.resolved ≠ some τ) (h : (do
      Check.modifyAlias id fun d => { d with resolved := none, stage := .inProgress }
      let type ← S.resolveType d.scope d.target
      Check.modifyAlias id fun d => { d with resolved := some type, stage := .done }
      return type : Check Ty) p = .ok τ q) : p.Grows q ∧ (q.Orderly → q.Inv) ∧
      ∃ d, q.entities.kind id = .typeAlias d ∧ d.stage = .done ∧ d.resolved = some τ := by
  obtain ⟨_,p1,hm1,h2⟩ := bind_ok.mp h
  obtain ⟨type,p2,ht,h3⟩ := bind_ok.mp h2
  obtain ⟨_,hm2,rfl⟩ := bind_pure_ok.mp h3
  rw [modifyAlias_ok] at hm1 hm2
  have ho := hI.aliasOk hk
  have hg1 : d.Grows { d with resolved := none, stage := .inProgress } := ⟨fun τ hd hr => absurd hr (hopen τ hd)⟩
  have hk1 : p1.entities.kind id = .typeAlias { d with resolved := none, stage := .inProgress } := by
    rw [hm1]
    exact kind_modifyAlias_self hk _
  have I1 : p1.Inv := by
    rw [hm1]
    exact hI.modifyAlias hk hg1 ⟨ho.target,by simp⟩
      (Reaches.modifyAlias (f := fun d => { d with resolved := none, stage := .inProgress }) hI.orderly hk
        (by simp)).orderly
  have g1 : p.Grows p1 := by
    rw [hm1]
    exact .modifyKind (by rw [hk]; exact .typeAlias hg1)
  obtain ⟨m2,hgood,_⟩ := I1.resolveType hS _ (g1.goodExpr ho.target) ht
  -- nobody else works on the alias
  have hr2 := ((hS.follows.respectsTypes none).resolveType d.scope d.target.avoids_none).reaches I1.orderly ht
  obtain ⟨e,hk2,hfixed⟩ := hr2.advances.alias_fixed (by simp) hk1
  obtain ⟨hs2,_⟩ := hfixed (by simp)
  have hg3 : e.Grows { e with resolved := some type, stage := .done } := by
    refine ⟨fun σ hd hr => ⟨rfl,?_⟩⟩
    rw [hs2] at hd
    cases hd
  have ho2 := m2.inv.aliasOk hk2
  rw [hm2]
  refine ⟨(g1.trans m2.grows).trans (.modifyKind (by rw [hk2]; exact .typeAlias hg3)),fun hO => ?_,_,
    kind_modifyAlias_self hk2 _,rfl,rfl⟩
  refine m2.inv.modifyAlias hk2 hg3 ⟨ho2.target,?_⟩ hO
  rintro _ _ ⟨⟩
  exact hgood

theorem Inv.resolveAlias (hS : S.Sound) (hI : p.Inv) (h : S.resolveAlias id p = .ok τ q) : p.Calm q ∧
      ∃ d, q.entities.kind id = .typeAlias d ∧ d.stage = .done ∧ d.resolved = some τ := by
  suffices hq : p.Grows q ∧ (q.Orderly → q.Inv) ∧
      ∃ d, q.entities.kind id = .typeAlias d ∧ d.stage = .done ∧ d.resolved = some τ from
    ⟨.of_runs (hS.follows.resolveAlias id) hI.orderly h hq.1 hq.2.1,hq.2.2⟩
  have h1 := entity_bind_ok.mp h
  cases ha : (p.entities.get id).alias? with
  | none => simp [ha] at h1
  | some d =>
    simp only [ha] at h1
    have hk := kind_of_alias? ha
    match hs : d.stage, hr : d.resolved with
    | .done, some type =>
      simp only [hs,hr] at h1
      cases h1
      exact ⟨.refl p,fun _ => hI,d,hk,hs,hr⟩
    | .inProgress, _ => simp [hs] at h1
    | .pending, _ =>
      simp only [hs] at h1
      exact hI.followAlias hS hk (by simp [hs]) h1
    | .done, none =>
      simp only [hs,hr] at h1
      exact hI.followAlias hS hk (by simp [hr]) h1

private theorem Inv.parentOf (hS : S.Sound) (hI : p.Inv) (hg : ∀ t, d.parentExpr = some t → t.Good p.entities)
    (h : S.parentOf d location p = .ok parent q) : p.Calm q ∧ (Ty.object parent).Good q.entities := by
  unfold Solver.parentOf at h
  cases he : d.parentExpr with
  | none =>
    simp only [he] at h
    cases h
    obtain ⟨e,hk,_,ht⟩ := hI.base
    exact ⟨.refl hI,e,hk,ht⟩
  | some t =>
    simp only [he] at h
    obtain ⟨τ,p1,h1,h2⟩ := bind_ok.mp h
    obtain ⟨m,hgood,_⟩ := hI.resolveType hS t (hg t he) h1
    cases τ with
    | object id =>
      cases h2
      exact ⟨m,hgood⟩
    | _ => simp [bind_ok] at h2

structure Layout (p : Program) (fields : List Field) : Prop where
  names : (fields.map (·.name)).Nodup
  types : ∀ field ∈ fields, field.type.Good p.entities ∧ field.type.hasValue = true

private theorem Grows.layout (h : p.Grows q) (hl : p.Layout fields) : q.Layout fields :=
  ⟨hl.names,fun x hx => ⟨h.good (hl.types x hx).1,(hl.types x hx).2⟩⟩

private theorem Layout.add (hl : p.Layout fields) {type : Ty} (hn : fields.find? (·.name == name) = none)
    (hg : type.Good p.entities) (hv : type.hasValue = true) : p.Layout (fields ++ [⟨name,type⟩]) := by
  constructor
  · rw [map_append,nodup_append]
    refine ⟨hl.names,by simp,fun a ha b hb => ?_⟩
    obtain ⟨x,hx,rfl⟩ := mem_map.mp ha
    simp only [map_cons,map_nil,mem_singleton] at hb
    subst hb
    simpa using find?_eq_none.mp hn x hx
  · intro x hx
    rcases mem_append.mp hx with hx | hx
    · exact hl.types x hx
    · rw [mem_singleton] at hx
      subst hx
      exact ⟨hg,hv⟩

private theorem Inv.layout (hS : S.Sound) {exprs : List (String × TypeExpr)} {layout : List Field} (hI : p.Inv)
    (hg : ∀ field ∈ exprs, field.2.Good p.entities) (hl : p.Layout fields)
    (h : S.layout scope location fields exprs p = .ok layout q) :
    p.Calm q ∧ q.Layout layout ∧ fields <+: layout ∧ (p.scopes.Static scope →
      ∀ x ∈ exprs, ∃ τ, q.meaning? scope x.2 = some τ ∧ ⟨x.1,τ⟩ ∈ layout) := by
  induction exprs generalizing p fields with
  | nil =>
    cases h
    exact ⟨.refl hI,hl,prefix_rfl,by simp⟩
  | cons head exprs ih =>
    obtain ⟨name,t⟩ := head
    obtain ⟨type,p1,h1,h2⟩ := bind_ok.mp h
    obtain ⟨m1,hgood,hmean⟩ := hI.resolveType hS t (hg (name, t) (by simp)) h1
    -- the type of the first field is the meaning it had before the others were read
    have hall {q : Program} {layout : List Field} (m2 : p1.Calm q) (hs : p.scopes.Static scope)
        (hm : ⟨name,type⟩ ∈ layout) (hr : p1.scopes.Static scope →
          ∀ x ∈ exprs, ∃ τ, q.meaning? scope x.2 = some τ ∧ ⟨x.1,τ⟩ ∈ layout) :
        ∀ x ∈ (name, t) :: exprs, ∃ τ, q.meaning? scope x.2 = some τ ∧ ⟨x.1,τ⟩ ∈ layout := by
      have hst := hs.grows m1.grows.scopes
      exact forall_mem_cons.mpr ⟨⟨type,m2.grows.meaning? m1.inv.scopes hst (hmean hs),hm⟩,hr hst⟩
    have hrest : ∀ field ∈ exprs, field.2.Good p1.entities := fun x hx => m1.grows.goodExpr (hg x (by simp [hx]))
    have hl1 := m1.grows.layout hl
    cases hv : type.hasValue with
    | false => simp [hv,bind_ok] at h2
    | true =>
      simp only [hv,if_true] at h2
      cases hf : fields.find? (·.name == name) with
      | some field =>
        simp only [hf] at h2
        by_cases ht : field.type = type
        · simp only [ht,if_true] at h2
          obtain ⟨m2,hl2,hp,hr⟩ := ih m1.inv hrest hl1 h2
          refine ⟨m1.trans m2,hl2,hp,fun hs => hall m2 hs (hp.subset ?_) hr⟩
          have hname : field.name = name := by simpa using find?_some hf
          subst hname ht
          exact mem_of_find?_eq_some hf
        · simp [ht,bind_ok] at h2
      | none =>
        simp only [hf] at h2
        obtain ⟨m2,hl2,hp,hr⟩ := ih m1.inv hrest (hl1.add hf hgood hv) h2
        exact ⟨m1.trans m2,hl2,(prefix_append ..).trans hp,fun hs => hall m2 hs (hp.subset (by simp)) hr⟩

private theorem ObjectOk.start (ho : p.ObjectOk id d) (hs : d.stage = .pending) :
    p.ObjectOk id { d with stage := .inProgress } where
  __ := ho
  pending h := nomatch h
  unfinished _ := ho.unfinished (by simp [hs])
  declared h := nomatch h
  plain h := nomatch h
  base h := nomatch h
  inherited _ h := nomatch h

private theorem ObjectOk.setParent (ho : p.ObjectOk id d) (hs : d.stage = .inProgress) :
    p.ObjectOk id { d with parent := some parent } where
  __ := ho
  pending h := absurd (hs.symm.trans h) (by simp)
  declared h := absurd (hs.symm.trans h) (by simp)
  base h := absurd (hs.symm.trans h) (by simp)
  inherited _ h := absurd (hs.symm.trans h) (by simp)

private theorem ObjectOk.finish (ho : p.ObjectOk id d) (ht : d.typeParams = [])
    (hp : d.parent = some parent) (hk : p.entities.kind parent = .object e) (he : e.stage = .done)
    (hf : e.fields <+: fields) (hl : p.Layout fields)
    (hd : ∀ x ∈ d.fieldExprs, ∃ τ, p.meaning? d.scope x.2 = some τ ∧ ⟨x.1,τ⟩ ∈ fields) :
    p.ObjectOk id { d with fields, stage := .done } where
  __ := ho
  declared _ := hd
  pending h := nomatch h
  unfinished h := absurd rfl h
  plain _ := ht
  names := hl.names
  fields := hl.types
  base _ h := absurd (hp.symm.trans h) (by simp)
  inherited above _ h := by
    cases hp.symm.trans h
    exact ⟨e,hk,he,hf⟩

/-- The steps that give a pending object its parent and its layout. -/
private theorem Inv.layOut (hS : S.Sound) (hI : p.Inv) (hk : p.entities.kind id = .object d)
    (hs : d.stage = .pending) (hplain : d.typeParams = []) (h : (do
      Check.modifyObject id fun d => { d with stage := .inProgress }
      let parent ← S.parentOf d location
      S.object parent
      Check.modifyObject id fun d => { d with parent := some parent }
      let inherited := ((← Check.object? parent).map (·.fields)).getD []
      let fields ← S.layout d.scope location inherited d.fieldExprs
      Check.modifyObject id fun d => { d with fields, stage := .done } : Check Unit) p = .ok u q) :
    p.Grows q ∧ (q.Orderly → q.Inv) ∧ ∃ e, q.entities.kind id = .object e ∧ e.stage = .done := by
  obtain ⟨_,p1,hm1,h1⟩ := bind_ok.mp h
  obtain ⟨parent,p2,hpar,h2⟩ := bind_ok.mp h1
  obtain ⟨_,p3,hob,h3⟩ := bind_ok.mp h2
  obtain ⟨_,p4,hm4,h4⟩ := bind_ok.mp h3
  obtain ⟨_,_,hget,h5⟩ := bind_ok.mp h4
  obtain ⟨rfl,rfl⟩ := Check.object?_ok.mp hget
  obtain ⟨fields,p5,hlay,hm6⟩ := bind_ok.mp h5
  rw [modifyObject_ok] at hm1 hm4 hm6
  have hT := hS.follows.respectsTypes none
  have ho := hI.objectOk hk
  -- the object is marked
  have g1 : d.Grows { d with stage := .inProgress } :=
    { ObjectDef.Grows.refl d with done := fun h => absurd (hs.symm.trans h) (by simp) }
  have hk1 : p1.entities.kind id = .object { d with stage := .inProgress } := by
    rw [hm1]
    exact kind_modifyObject_self hk _
  have I1 : p1.Inv := by
    rw [hm1]
    exact hI.modifyObject hk g1 (ho.start hs) (fun _ h => .inl h)
      (Reaches.modifyObject (f := fun d => { d with stage := .inProgress }) hI.orderly hk).orderly
  have gr1 : p.Grows p1 := by
    rw [hm1]
    exact .modifyKind (by rw [hk]; exact .object g1)
  -- the parent is found and finished, and nobody else works on the object
  obtain ⟨m2,hgood⟩ := I1.parentOf hS (fun t ht => gr1.goodExpr (ho.parentExpr t ht)) hpar
  obtain ⟨m3,e,hke,hdone⟩ := hS.object m2.inv hob
  have hr3 := ((hT.parentOf (d.avoids_none id) location).reaches I1.orderly hpar).trans
    ((hS.follows.object parent).reaches m2.inv.orderly hob)
  obtain ⟨c,hkc,_,hfixed⟩ := hr3.advances.object_fixed (by simp) hk1
  obtain ⟨hcs,hcp,_⟩ := hfixed (by simp)
  obtain ⟨e0,hke0,ht0⟩ := hgood
  obtain ⟨e',hke',ge⟩ := m3.grows.object hke0
  cases hke.symm.trans hke'
  have hed : e.stage = .done := hdone (ge.typeParams.trans ht0)
  have hcn : c.parent = none := hcp.trans (ho.pending hs)
  have g4 : c.Grows { c with parent := some parent } :=
    { ObjectDef.Grows.refl c with
      parent := fun above h => absurd (hcn.symm.trans h) (by simp)
      done := fun h => absurd (hcs.symm.trans h) (by simp) }
  have hk4 : p4.entities.kind id = .object { c with parent := some parent } := by
    rw [hm4]
    exact kind_modifyObject_self hkc _
  have I4 : p4.Inv := by
    rw [hm4]
    refine m3.inv.modifyObject hkc g4 ((m3.inv.objectOk hkc).setParent hcs) ?_
      (Reaches.modifyObject (f := fun d => { d with parent := some parent }) m3.inv.orderly hkc).orderly
    rintro _ ⟨⟩
    exact .inr (m3.inv.founded.chain hke hed)
  have gr4 : p3.Grows p4 := by
    rw [hm4]
    exact .modifyKind (by rw [hkc]; exact .object g4)
  -- the layout extends that of the parent
  obtain ⟨e4,hke4,ge4⟩ := gr4.object hke
  obtain ⟨hed4,_,_⟩ := ge4.done hed
  have hinh : ((p4.entities.object? parent).map (·.fields)).getD [] = e4.fields := by
    simp [object?_eq_some.mpr hke4]
  have hoe := I4.objectOk hke4
  rw [hinh] at hlay
  have gr14 := gr1.trans ((m2.grows.trans m3.grows).trans gr4)
  obtain ⟨m5,hl5,hpre,hdec⟩ := I4.layout hS (fun x hx => gr14.goodExpr (ho.fieldExprs x hx)) ⟨hoe.names,hoe.fields⟩ hlay
  have hr5 := (hT.layout d.scope location d.fieldExprs (fun field _ => field.2.avoids_none)
    fun field _ => field.type.avoids_none).reaches I4.orderly hlay
  obtain ⟨f,hkf,_,hfixed5⟩ := hr5.advances.object_fixed (by simp) hk4
  obtain ⟨hfs,hfp,_⟩ := hfixed5 (by simp [hcs])
  replace hfs : f.stage = .inProgress := hfs.trans hcs
  obtain ⟨e5,hke5,ge5⟩ := m5.grows.object hke4
  obtain ⟨hed5,_,hef5⟩ := ge5.done hed4
  have gr15 := gr14.trans m5.grows
  obtain ⟨f',hf',gf⟩ := gr15.object hk
  cases hkf.symm.trans hf'
  have g6 : f.Grows { f with fields, stage := .done } :=
    { ObjectDef.Grows.refl f with done := fun h => absurd (hfs.symm.trans h) (by simp) }
  have ho6 := (m5.inv.objectOk hkf).finish (gf.typeParams.trans hplain) hfp hke5 hed5 (hef5 ▸ hpre) hl5
    (gf.scope ▸ gf.fieldExprs ▸ hdec (ho.scope.grows gr14.scopes))
  rw [hm6]
  exact ⟨gr15.trans (.modifyKind (by rw [hkf]; exact .object g6)),
    m5.inv.modifyObject hkf g6 ho6 fun _ h => .inl h,_,kind_modifyObject_self hkf _,rfl⟩

theorem Inv.resolveObject (hS : S.Sound) (hI : p.Inv) (h : S.resolveObject id p = .ok u q) : p.Calm q ∧
      ∃ d, q.entities.kind id = .object d ∧ (d.typeParams = [] → d.stage = .done) := by
  suffices hq : p.Grows q ∧ (q.Orderly → q.Inv) ∧
      ∃ d, q.entities.kind id = .object d ∧ (d.typeParams = [] → d.stage = .done) from
    ⟨.of_runs (hS.follows.resolveObject id) hI.orderly h hq.1 hq.2.1,hq.2.2⟩
  have h1 := entity_bind_ok.mp h
  cases ho : (p.entities.get id).object? with
  | none => simp [ho] at h1
  | some d =>
    have hk : p.entities.kind id = .object d := object?_eq_some.mp ho
    simp only [ho] at h1
    cases hs : d.stage with
    | done =>
      simp only [hs] at h1
      cases h1
      exact ⟨.refl p,fun _ => hI,d,hk,fun _ => hs⟩
    | inProgress => simp [hs] at h1
    | pending =>
      simp only [hs] at h1
      by_cases hg : d.isGeneric = true
      · simp only [hg,if_true] at h1
        cases h1
        refine ⟨.refl p,fun _ => hI,d,hk,fun ht => ?_⟩
        simp [ObjectDef.isGeneric,ht] at hg
      · simp only [hg,Bool.false_eq_true,if_false] at h1
        have hplain : d.typeParams = [] := by simpa [ObjectDef.isGeneric] using hg
        obtain ⟨hg,hinv,e,hke,hed⟩ := hI.layOut hS hk hs hplain h1
        exact ⟨hg,hinv,e,hke,fun _ => hed⟩

end Program

end FormCompiler
