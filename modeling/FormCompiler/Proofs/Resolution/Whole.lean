import FormCompiler.Proofs.Resolution.Expressions

/-! Resolution of a whole program. In the end no body waits and none is under way, and a match on types
without a default names, for every object that can exist, a type above it. -/

namespace FormCompiler

open Check EntityTable

namespace Program

variable {location : Location} {operand id : EntityId} {p q : Program} {S : Solver} {u : Unit}
  {ids tested : List EntityId}

/-- Whatever object a match on types without a default is given, one of its arms tests for a type above
that of the object. -/
def Covered (p : Program) : Prop :=
  ∀ id m operand tested, (p.exprs.get id).shape = .select m → m.default = none → m.isTypeGuard = true →
    p.Typed m.operand (.object operand) → testedTypes? m.arms = some tested →
    ∀ object d, p.entities.kind object = .object d → d.typeParams = [] → d.stage = .done →
      p.entities.Extends object operand → ∃ t ∈ tested, p.entities.Extends object t

/-- The body of a function that is neither generic nor provided is resolved. -/
def Settled (p : Program) (f : EntityId) : Prop :=
  ∀ d, p.entities.kind f = .function d → d.typeParams = [] → d.intrinsic? = none → d.bodyStage = .done

def Busy (p : Program) (f : EntityId) : Prop :=
  ∃ d, p.entities.kind f = .function d ∧ d.bodyStage = .inProgress

/-- Where operations are provided, arrays are known by their name. -/
def ArraysNamed (p : Program) : Prop :=
  p.scopes.Static ScopeTable.root ∧ ∀ element location,
    p.meaning? ScopeTable.root (.apply "FixedArray" [.resolved element] location) = some (.array element)

/-- A program after resolution. -/
structure WellResolved (p : Program) : Prop where
  inv : p.Inv
  arrays : p.ArraysNamed
  settled : ∀ f, p.Settled f
  covered : p.Covered

theorem Grows.settled (h : p.Grows q) {f : EntityId} (hf : f.index < p.entities.size)
    (hs : p.Settled f) : q.Settled f := by
  intro e hk hplain hop
  obtain ⟨d,hk',hg⟩ := h.kind_function hf hk
  refine hg.bodyStage (hs d hk' (hg.typeParams ▸ hplain) ?_)
  rwa [FunctionDef.intrinsic?,← hg.body]

/-- Whoever starts a body also finishes it. -/
theorem Reaches.idle (h : p.Reaches none q) (hp : ∀ f, ¬ p.Busy f) (f : EntityId) : ¬ q.Busy f := by
  rintro ⟨e,hk,hs⟩
  obtain ⟨hf,hlike,he⟩ := h.unfinished f (by simp) (by simp [hk,EntityKind.stage,hs])
  rw [hk] at hlike he
  obtain ⟨d,hd⟩ := hlike.to_function
  rw [hd] at he
  exact hp f ⟨d,hd,he.trans hs⟩

/-! ### Types and methods -/

private theorem Inv.resolveTypeEntity (hS : S.Sound) (hI : p.Inv) (h : S.resolveTypeEntity id p = .ok u q) : p.Calm q ∧
      ∀ d, p.entities.kind id = .object d → d.typeParams = [] → ∃ e, q.entities.kind id = .object e ∧ e.stage = .done := by
  have h1 := entity_bind_ok.mp h
  cases hk : (p.entities.get id).kind with
  | object d =>
    simp only [hk] at h1
    split at h1
    · rename_i hgeneric
      cases h1
      refine ⟨.refl hI,fun d' hk' hplain => ?_⟩
      cases hk.symm.trans hk'
      simp [ObjectDef.isGeneric,hplain] at hgeneric
    · obtain ⟨c,e,hke,hdone⟩ := hS.object hI h1
      refine ⟨c,fun d' hk' hplain => ⟨e,hke,hdone ?_⟩⟩
      obtain ⟨e',hke',hg⟩ := c.grows.object hk'
      cases hke.symm.trans hke'
      exact hg.typeParams.trans hplain
  | typeAlias d =>
    simp only [hk] at h1
    obtain ⟨τ,h2,_⟩ := bind_pure_ok.mp h1
    exact ⟨(hS.aliased hI h2).1,fun d' hk' => by cases hk.symm.trans hk'⟩
  | _ =>
    simp only [hk] at h1
    cases h1
    exact ⟨.refl hI,fun d' hk' => by cases hk.symm.trans hk'⟩

private theorem Inv.resolveTypeEntities (hS : S.Sound) :
    ∀ {p q : Program}, p.Inv → S.resolveTypeEntities ids p = .ok u q → p.Calm q ∧
      ∀ id ∈ ids, ∀ d, p.entities.kind id = .object d → d.typeParams = [] →
        ∃ e, q.entities.kind id = .object e ∧ e.stage = .done := by
  induction ids with
  | nil =>
    intro p q hI h
    cases h
    exact ⟨.refl hI,by simp⟩
  | cons id ids ih =>
    intro p q hI h
    obtain ⟨_,p1,h1,h2⟩ := bind_ok.mp h
    obtain ⟨c1,hfirst⟩ := hI.resolveTypeEntity hS h1
    obtain ⟨c2,hrest⟩ := ih c1.inv h2
    refine ⟨c1.trans c2,fun j hj d hk hplain => ?_⟩
    rcases List.mem_cons.mp hj with rfl | hj
    · obtain ⟨e,hke,hdone⟩ := hfirst d hk hplain
      obtain ⟨e',hke',hg⟩ := c2.grows.object hke
      exact ⟨e',hke',(hg.done hdone).1⟩
    · obtain ⟨e,hke,hg⟩ := c1.grows.object hk
      exact hrest j hj e hke (hg.typeParams.trans hplain)

/-- Once all types that were declared are resolved, every object has its layout: others were made on the way. -/
theorem Inv.formAll (hS : S.Sound) (hI : p.Inv) (h : S.resolveTypeEntities p.entities.ids p = .ok u q) :
    p.Calm q ∧ q.Formed := by
  obtain ⟨c,hall⟩ := hI.resolveTypeEntities hS h
  refine ⟨c,fun id e hk hplain => ?_⟩
  apply Classical.byContradiction
  intro hn
  have hr := ((hS.follows.respectsTypes none).resolveTypeEntities p.entities.ids).reaches hI.orderly h
  obtain ⟨hid,hlike, -⟩ := hr.unfinished id (by simp) (by rw [hk]; exact hn)
  obtain ⟨d,hd,hl⟩ := (hk ▸ hlike).to_object
  obtain ⟨e',hke',hdone⟩ := hall id (mem_ids.mpr hid) d hd (hl.typeParams.symm.trans hplain)
  cases hk.symm.trans hke'
  exact hn hdone

private theorem Inv.implOwner (hS : S.Sound) (hI : p.Inv) {scope : ScopeId} {name : String}
    (h : S.implOwner scope name location p = .ok id q) : p.Calm q := by
  obtain ⟨⟨named,kind⟩,_,ht,h1⟩ := bind_ok.mp h
  obtain ⟨_,_,rfl⟩ := typeEntity_ok ht
  cases kind with
  | object d =>
    simp only [pure_bind] at h1
    obtain ⟨_,_,h2,h3⟩ := bind_ok.mp h1
    obtain ⟨_,rfl⟩ := Check.object?_ok.mp h2
    cases h3
    exact .refl hI
  | typeAlias d =>
    obtain ⟨τ,p1,h2,h3⟩ := bind_ok.mp h1
    have c1 := (hS.aliased hI h2).1
    cases τ with
    | object object =>
      simp only [pure_bind] at h3
      obtain ⟨_,_,h4,h5⟩ := bind_ok.mp h3
      obtain ⟨_,rfl⟩ := Check.object?_ok.mp h4
      cases h5
      exact c1
    | _ => simp [bind_ok] at h3
  | _ => simp [bind_ok] at h1

/-- Methods are not part of what is resolved. -/
private theorem ObjectOk.setMethods {d : ObjectDef} (ho : p.ObjectOk id d) (methods : List EntityId) :
    p.ObjectOk id { d with methods } :=
  { ho with }

private theorem Inv.addMethods (hI : p.Inv) (owner : EntityId) (methods : List EntityId) : p.Calm { p with
      entities := p.entities.modifyObject owner fun d => { d with methods := d.methods ++ methods } } := by
  by_cases ho : ∃ d, p.entities.kind owner = .object d
  · obtain ⟨d,hk⟩ := ho
    have hg : d.Grows { d with methods := d.methods ++ methods } := { ObjectDef.Grows.refl d with }
    exact .of_runs (Solver.Follows.addMethods owner methods) hI.orderly rfl (.modifyKind (by rw [hk]; exact .object hg))
      (hI.modifyObject hk hg ((hI.objectOk hk).setMethods _) fun _ h => .inl h)
  · rw [modifyObject_of_not_object (not_exists.mp ho)]
    exact .refl hI

private theorem Inv.attach (hS : S.Sound) (hI : p.Inv) {block : PendingImpl} (h : S.attach block p = .ok u q) :
    p.Calm q := by
  have named : ∀ {name location}, (do
      let owner ← S.implOwner block.scope name location
      Check.modifyObject owner fun d => { d with methods := d.methods ++ block.methods } : Check Unit) p
        = .ok u q → p.Calm q := by
    intro name location hr
    obtain ⟨owner,p1,h1,h2⟩ := bind_ok.mp hr
    cases modifyObject_ok.mp h2
    have c1 := hI.implOwner hS h1
    exact c1.trans (c1.inv.addMethods owner block.methods)
  unfold Solver.attach at h
  cases ht : block.target with
  | named name location => exact named (by simpa only [ht] using h)
  | apply name args location => exact named (by simpa only [ht] using h)
  | resolved τ =>
    simp only [ht] at h
    cases h
    exact .refl hI

private theorem Inv.attachEach (hS : S.Sound) {blocks : List PendingImpl} :
    ∀ {p q : Program}, p.Inv → S.attachEach blocks p = .ok u q → p.Calm q := by
  induction blocks with
  | nil =>
    intro p q hI h
    cases h
    exact .refl hI
  | cons block blocks ih =>
    intro p q hI h
    obtain ⟨_,p1,h1,h2⟩ := bind_ok.mp h
    have c1 := hI.attach hS h1
    exact c1.trans (ih c1.inv h2)

private theorem Inv.attachMethods (hS : S.Sound) (hI : p.Inv) (h : S.attachMethods p = .ok u q) : p.Calm q := by
  have h1 := get_bind_ok.mp h
  obtain ⟨_,p1,h2,h3⟩ := bind_ok.mp h1
  cases modify_ok.mp h2
  have c1 : p.Calm { p with pendingImpls := [] } :=
    .of_tables (hI.of_tables rfl rfl (.refl _) hI.scopes (.inl rfl)) rfl rfl (.refl _)
  exact c1.trans (c1.inv.attachEach hS h3)

/-! ### Bodies -/

private theorem Inv.resolveFunctionEntity (hS : S.Sound) (hI : p.Inv) (hF : p.Formed) (hidle : ∀ f, ¬ p.Busy f)
    (h : S.resolveFunctionEntity id p = .ok u q) : p.Moves 0 0 q ∧ q.Settled id := by
  obtain ⟨_,_,hf,h1⟩ := bind_ok.mp h
  obtain ⟨rfl,rfl⟩ := Check.function?_ok.mp hf
  cases hd : p.entities.function? id with
  | none =>
    simp only [hd] at h1
    cases h1
    refine ⟨.refl hI,fun d hk => ?_⟩
    rw [function?_eq_some.mpr hk] at hd
    cases hd
  | some d =>
    have hk := function?_eq_some.mp hd
    simp only [hd] at h1
    split at h1
    · rename_i hskip
      cases h1
      refine ⟨.refl hI,fun e hk' hplain hop => ?_⟩
      cases hk.symm.trans hk'
      simp [FunctionDef.isGeneric,hplain,hop] at hskip
    · rename_i hskip
      have hplain : d.typeParams = [] := by
        simp [FunctionDef.isGeneric] at hskip
        exact hskip.1
      obtain ⟨m,e,hke,_,hdone⟩ := hI.resolveBody hS hF hk hplain h1
      refine ⟨m,fun e' hk' _ _ => ?_⟩
      cases hke.symm.trans hk'
      exact hdone fun hb => hidle id ⟨d,hk,hb⟩

private theorem Inv.resolveFunctionEntities (hS : S.Sound) :
    ∀ {p q : Program}, p.Inv → p.Formed → (∀ f, ¬ p.Busy f) → (∀ f ∈ ids, f.index < p.entities.size) →
      S.resolveFunctionEntities ids p = .ok u q →
      p.Moves 0 0 q ∧ ∀ f ∈ ids, q.Settled f := by
  induction ids with
  | nil =>
    intro p q hI _ _ _ h
    cases h
    exact ⟨.refl hI,by simp⟩
  | cons id ids ih =>
    intro p q hI hF hidle hlt h
    obtain ⟨_,p1,h1,h2⟩ := bind_ok.mp h
    obtain ⟨m1,hs⟩ := hI.resolveFunctionEntity hS hF hidle h1
    have hsize := m1.grows.entities
    have hr1 := (((hS.follows.respects 0).resolveFunctionEntity id).settling p hI.orderly).of_ok h1
    obtain ⟨m2,hss⟩ := ih m1.inv (m1.step.formed hF) (hr1.idle hidle)
      (fun f hf => Nat.lt_of_lt_of_le (hlt f (List.mem_cons_of_mem _ hf)) hsize) h2
    refine ⟨m1.trans m2,fun f hf => ?_⟩
    rcases List.mem_cons.mp hf with rfl | hf
    · exact m2.grows.settled (Nat.lt_of_lt_of_le (hlt f (by simp)) hsize) hs
    · exact hss f hf

/-! ### Coverage -/

/-- A question about ancestors changes nothing but what is remembered of them. -/
private theorem Inv.anyExtends {b : Bool} : ∀ {p q : Program}, p.Inv → tested.anyM (Check.extends? id) p = .ok b q →
      p.Calm q ∧ q.entities = p.entities ∧ (b = true → ∃ t ∈ tested, p.entities.Extends id t) := by
  induction tested with
  | nil =>
    intro p q hI h
    cases h
    exact ⟨.refl hI,rfl,by simp⟩
  | cons t tested ih =>
    intro p q hI h
    obtain ⟨found,p1,h1,h2⟩ := bind_ok.mp h
    obtain ⟨c1,he1,hext⟩ := hI.extends? h1
    cases found with
    | true =>
      cases h2
      exact ⟨c1,he1,fun _ => ⟨t,by simp,hext.mp rfl⟩⟩
    | false =>
      obtain ⟨c2,he2,hany⟩ := ih c1.inv h2
      refine ⟨c1.trans c2,he2.trans he1,fun hb => ?_⟩
      obtain ⟨t',ht',hx⟩ := hany hb
      exact ⟨t',by simp [ht'],he1 ▸ hx⟩

private theorem Inv.uncovered : ∀ {p q : Program} {missing : List EntityId}, p.Inv →
      FormCompiler.uncovered operand tested ids p = .ok missing q →
      p.Calm q ∧ q.entities = p.entities ∧ (missing = [] → ∀ id ∈ ids, p.entities.Extends id operand → ∃ t ∈ tested, p.entities.Extends id t) := by
  induction ids with
  | nil =>
    intro p q missing hI h
    cases h
    exact ⟨.refl hI,rfl,by simp⟩
  | cons id ids ih =>
    intro p q missing hI h
    obtain ⟨below,p1,h1,h2⟩ := bind_ok.mp h
    obtain ⟨c1,he1,hbelow⟩ := hI.extends? h1
    obtain ⟨covered,p2,h3,h4⟩ := bind_ok.mp h2
    obtain ⟨c2,he2,hcov⟩ := c1.inv.anyExtends h3
    obtain ⟨rest,p3,h5,h6⟩ := bind_ok.mp h4
    obtain ⟨c3,he3,hrest⟩ := ih c2.inv h5
    obtain ⟨hmissing,rfl⟩ := pure_ok.mp h6
    have he : p2.entities = p.entities := he2.trans he1
    refine ⟨c1.trans (c2.trans c3),he3.trans he,fun hnone j hj hx => ?_⟩
    have hskip : (below && !covered) = false ∧ rest = [] := by
      cases hc : (below && !covered) <;> simp_all
    rcases List.mem_cons.mp hj with rfl | hj
    · have hb := hbelow.mpr hx
      simp only [hb,Bool.true_and,Bool.not_eq_false'] at hskip
      exact he1 ▸ hcov hskip.1
    · rw [he] at hrest
      exact hrest hskip.2 j hj hx

private theorem Inv.checkExhaustive (hI : p.Inv) (h : checkExhaustive operand tested location p = .ok u q) :
    p.Calm q ∧ q.entities = p.entities ∧ ∀ object d, p.entities.kind object = .object d →
      d.typeParams = [] → d.stage = .done → p.entities.Extends object operand →
      ∃ t ∈ tested, p.entities.Extends object t := by
  have h1 := get_bind_ok.mp h
  obtain ⟨missing,p1,h2,h3⟩ := bind_ok.mp h1
  obtain ⟨c,he,hcov⟩ := hI.uncovered h2
  split at h3
  · rename_i hnone
    cases h3
    exact ⟨c,he,fun object d hk hplain hd hx =>
      hcov (List.isEmpty_iff.mp hnone) object (List.mem_map_of_mem (mem_concreteObjects.mpr ⟨hk,hplain,hd⟩)) hx⟩
  · simp [bind_ok] at h3

private def CoveredAt (p : Program) (id : ExprId) : Prop :=
  ∀ m operand tested, (p.exprs.get id).shape = .select m → m.default = none → m.isTypeGuard = true →
    p.Typed m.operand (.object operand) → testedTypes? m.arms = some tested →
    ∀ object d, p.entities.kind object = .object d → d.typeParams = [] → d.stage = .done →
      p.entities.Extends object operand → ∃ t ∈ tested, p.entities.Extends object t

private theorem Inv.checkNode (hI : p.Inv) {id : ExprId} (h : checkNode id p = .ok u q) :
    p.Calm q ∧ q.entities = p.entities ∧ p.CoveredAt id := by
  have h1 := get_bind_ok.mp h
  cases hs : (p.exprs.get id).shape with
  | select m =>
    simp only [hs] at h1
    split at h1
    · rename_i hskip
      cases h1
      refine ⟨.refl hI,rfl,fun m' _ _ hs' hnone hguard => ?_⟩
      cases hs.symm.trans hs'
      simp [hnone,hguard] at hskip
    · cases ho : ((p.exprs.get m.operand).type).bind Ty.object? with
      | none =>
        simp only [ho] at h1
        cases h1
        refine ⟨.refl hI,rfl,fun m' _ _ hs' _ _ hop => ?_⟩
        cases hs.symm.trans hs'
        rw [Typed] at hop
        simp [hop,Ty.object?] at ho
      | some operand =>
        cases ht : testedTypes? m.arms with
        | none =>
          simp only [ho,ht] at h1
          cases h1
          refine ⟨.refl hI,rfl,fun m' _ _ hs' _ _ _ htest => ?_⟩
          cases hs.symm.trans hs'
          simp [ht] at htest
        | some tested =>
          simp only [ho,ht] at h1
          obtain ⟨c,he,hcov⟩ := hI.checkExhaustive h1
          refine ⟨c,he,fun m' operand' tested' hs' _ _ hop htest => ?_⟩
          cases hs.symm.trans hs'
          cases ht.symm.trans htest
          rw [Typed] at hop
          simp only [hop,Option.bind_some,Ty.object?,Option.some.injEq] at ho
          exact ho ▸ hcov
  | _ =>
    simp only [hs] at h1
    cases h1
    refine ⟨.refl hI,rfl,fun m' _ _ hs' => ?_⟩
    rw [hs] at hs'
    cases hs'

private theorem Inv.checkNodes {ids : List ExprId} :
    ∀ {p q : Program}, p.Inv → FormCompiler.checkNodes ids p = .ok u q →
      p.Calm q ∧ q.entities = p.entities ∧ ∀ id ∈ ids, p.CoveredAt id := by
  induction ids with
  | nil =>
    intro p q hI h
    cases h
    exact ⟨.refl hI,rfl,by simp⟩
  | cons id ids ih =>
    intro p q hI h
    obtain ⟨_,p1,h1,h2⟩ := bind_ok.mp h
    obtain ⟨c1,he1,hcov⟩ := hI.checkNode h1
    obtain ⟨c2,he2,hcovs⟩ := ih c1.inv h2
    refine ⟨c1.trans c2,he2.trans he1,fun j hj => ?_⟩
    rcases List.mem_cons.mp hj with rfl | hj
    · exact hcov
    · have := hcovs j hj
      simpa only [CoveredAt,Typed,he1,c1.exprs] using this

private theorem Inv.checkCoverage (hI : p.Inv) (h : checkCoverage p = .ok u q) : p.Calm q ∧ q.Covered := by
  have h1 := get_bind_ok.mp h
  obtain ⟨c,he,hcov⟩ := hI.checkNodes h1
  refine ⟨c,fun id m operand tested hs hnone hguard hop => ?_⟩
  have hlt : id.index < p.exprs.size := by
    apply Classical.byContradiction
    intro hn
    rw [c.exprs,Arena.get_of_size_le (Nat.le_of_not_lt hn)] at hs
    cases hs
  have hmem : id ∈ (List.range p.exprs.size).map ExprId.mk := List.mem_map.mpr ⟨id.index,List.mem_range.mpr hlt,rfl⟩
  have := hcov id hmem m operand tested
  simp only [Typed,c.exprs,he] at hs hop ⊢
  exact this hs hnone hguard hop

/-- Resolution of a program in which no body is under way gives a well resolved program. -/
theorem Inv.resolveProgram (hI : p.Inv) (hidle : ∀ f, ¬ p.Busy f) (harrays : p.ArraysNamed)
    (h : resolveProgram p = .ok u q) : p.Moves 0 0 q ∧ q.WellResolved := by
  have hr := (settling_resolveProgram p hI.orderly).of_ok h
  have h1 := get_bind_ok.mp h
  obtain ⟨_,p1,h2,h3⟩ := bind_ok.mp h1
  obtain ⟨_,p2,h4,h5⟩ := bind_ok.mp h3
  obtain ⟨_,p3,h6,h7⟩ := bind_ok.mp h5
  have hS : p.solver.Sound := Solver.sound_upTo _
  obtain ⟨c1,hF⟩ := hI.formAll hS h2
  have ca := c1.inv.attachMethods hS h4
  have c2 := c1.trans ca
  have hids : ∀ f ∈ p.entities.ids, f.index < p2.entities.size := fun f hf =>
    Nat.lt_of_lt_of_le (mem_ids.mp hf) c2.grows.entities
  have hidle2 : ∀ f, ¬ p2.Busy f := by
    rintro f ⟨d,hk,hb⟩
    exact hidle f ⟨d,(c2.functions f d).mp hk,hb⟩
  obtain ⟨m3,hset⟩ := c2.inv.resolveFunctionEntities hS (ca.formed hF) hidle2 hids h6
  have m4 : p.Moves 0 0 p3 := c2.moves.trans m3
  obtain ⟨c5,hcov⟩ := m4.inv.checkCoverage h7
  have m6 : p.Moves 0 0 q := m4.trans c5.moves
  have harrays' : q.ArraysNamed := ⟨harrays.1.grows m6.grows.scopes,
    fun element location => m6.grows.meaning? hI.scopes harrays.1 (harrays.2 element location)⟩
  refine ⟨m6,m6.inv,harrays',fun f d hk hplain hop => ?_,hcov⟩
  cases hstage : d.bodyStage with
  | done => rfl
  | inProgress => exact absurd ⟨d,hk,hstage⟩ (hr.idle hidle f)
  | pending =>
    -- a body that still waits was there from the start, and then it was asked for
    have hlt := (hr.unfinished f (by simp) (by simp [hk,EntityKind.stage,hstage])).1
    have hs := c5.grows.settled (Nat.lt_of_lt_of_le hlt m4.grows.entities) (hset f (mem_ids.mpr hlt))
    exact hstage ▸ hs d hk hplain hop

end Program

end FormCompiler
