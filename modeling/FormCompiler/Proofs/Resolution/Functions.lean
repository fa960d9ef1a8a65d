import FormCompiler.Proofs.Resolution.Types

/-! Functions: a signature means what it says, a body is resolved once and fits its signature, and an
instance of a generic function has the parameters it was chosen for. -/

namespace FormCompiler

open Check EntityTable Solver List

variable {location : Location} {d e : FunctionDef} {vars : List EntityId} {S : Solver} {types : List Ty}
  {first root : ExprId} {subst : Subst} {p q : Program} {scope : ScopeId} {op : Intrinsic}

namespace Program

variable {params : List Param} {τs : List Ty}

theorem meanings?_length {ts : List TypeExpr} (h : p.meanings? scope ts = some τs) : τs.length = ts.length := by
  induction ts generalizing τs with
  | nil =>
    cases h
    rfl
  | cons t ts ih =>
    simp only [meanings?,Option.bind_eq_bind,Option.bind_eq_some_iff] at h
    obtain ⟨τ,_,rest,hr,h⟩ := h
    cases h
    simp [ih hr]

/-! ### Signatures -/

private theorem Inv.paramTypes (hS : S.Sound)
    (hI : p.Inv) (hg : ∀ x ∈ params, x.declared.Good p.entities) (hs : p.scopes.Static scope)
    (h : S.paramTypes scope params p = .ok τs q) : p.Calm q ∧ (∀ τ ∈ τs, τ.Good q.entities ∧ τ.hasValue = true) ∧
      q.meanings? scope (params.map (·.declared)) = some τs := by
  induction params generalizing p τs with
  | nil =>
    cases h
    exact ⟨.refl hI,by simp,rfl⟩
  | cons param params ih =>
    obtain ⟨τ,p1,h1,h2⟩ := bind_ok.mp h
    obtain ⟨m1,hgood,hmean⟩ := hI.resolveType hS _ (hg param (by simp)) h1
    cases hv : τ.hasValue with
    | false => simp [hv,bind_ok] at h2
    | true =>
      simp only [hv,if_true] at h2
      obtain ⟨rest,h3,rfl⟩ := bind_pure_ok.mp h2
      have hs1 := hs.grows m1.grows.scopes
      obtain ⟨m2,hrest,hmeans⟩ := ih m1.inv (fun x hx => m1.grows.goodExpr (hg x (by simp [hx]))) hs1 h3
      refine ⟨m1.trans m2,?_,?_⟩
      · intro σ hσ
        rcases mem_cons.mp hσ with rfl | hσ
        · exact ⟨m2.grows.good hgood,hv⟩
        · exact hrest σ hσ
      · simp [meanings?,m2.grows.meaning? m1.inv.scopes hs1 (hmean hs),hmeans]

private theorem Inv.paramVars (hI : p.Inv) (hl : types.length = params.length) (hg : ∀ τ ∈ types, τ.Good p.entities)
    (h : paramVars params types p = .ok vars q) :
    p.Calm q ∧ List.Forall₂ q.VarOf vars types ∧ vars.Nodup ∧ ∀ v ∈ vars, q.Spare v ∧ p.entities.size ≤ v.index := by
  induction params generalizing p types vars with
  | nil =>
    cases length_eq_zero_iff.mp hl
    cases h
    exact ⟨.refl hI,.nil,nodup_nil,by simp⟩
  | cons param params ih =>
    cases types with
    | nil => simp at hl
    | cons τ types =>
      obtain ⟨v,p1,h1,h2⟩ := bind_ok.mp h
      obtain ⟨rest,h3,rfl⟩ := bind_pure_ok.mp h2
      obtain ⟨m1,hvar,hspare,hnew⟩ := hI.allocVar (hg τ (by simp)) h1
      obtain ⟨m2,hvars,hnd,hrest⟩ := ih m1.inv (by simpa using hl) (fun σ hσ => m1.grows.good (hg σ (by simp [hσ]))) h3
      have hv : v ∉ rest := by
        intro hv
        have := (hrest v hv).2
        have := hspare.1
        omega
      refine ⟨m1.trans m2,.cons ⟨_,m2.grows.var hvar⟩ hvars,nodup_cons.mpr ⟨hv,hnd⟩,?_⟩
      intro w hw
      rcases mem_cons.mp hw with rfl | hw
      · exact ⟨m2.step.spare hspare,hnew⟩
      · obtain ⟨h1,h2⟩ := hrest w hw
        exact ⟨h1,Nat.le_trans m1.grows.entities h2⟩

private theorem Inv.declaredReturn (hS : S.Sound) (hI : p.Inv) {r : Option Ty}
    (hg : ∀ t, d.returnExpr = some t → t.Good p.entities) (hs : p.scopes.Static d.scope)
    (h : S.declaredReturn d p = .ok r q) : p.Calm q ∧ (∀ τ, r = some τ → τ.Good q.entities) ∧
      ∀ t, d.returnExpr = some t → ∃ τ, r = some τ ∧ q.meaning? d.scope t = some τ := by
  unfold Solver.declaredReturn at h
  cases he : d.returnExpr with
  | some t =>
    simp only [he] at h
    obtain ⟨τ,h1,rfl⟩ := bind_pure_ok.mp h
    obtain ⟨m,hgood,hmean⟩ := hI.resolveType hS t (hg t he) h1
    refine ⟨m,?_,?_⟩
    · rintro _ ⟨⟩
      exact hgood
    · rintro _ ⟨⟩
      exact ⟨τ,rfl,hmean hs⟩
  | none =>
    cases hb : d.body with
    | host m n =>
      simp only [he,hb] at h
      cases h
      exact ⟨.refl hI,by rintro _ ⟨⟩; trivial,by simp⟩
    | expr | intrinsic =>
      simp only [he,hb] at h
      cases h
      exact ⟨.refl hI,by simp,by simp⟩

end Program

private theorem Intrinsic.Declares.congr (h : op.Declares d)
    (hs : e.scope = d.scope) (ht : e.typeParams = d.typeParams) (ha : e.appliedArgs = d.appliedArgs)
    (hp : e.params = d.params) (hr : e.returnExpr = d.returnExpr) : op.Declares e := by
  cases h with
  | binary h1 h2 h3 h4 h5 h6 =>
    exact .binary h1 h2 h3 (ht.trans h4) (by rw [hp]; exact h5) (hr.trans h6)
  | not h1 h2 h3 => exact .not (ht.trans h1) (by rw [hp]; exact h2) (hr.trans h3)
  | arrayTemplate h1 h2 h3 h4 h5 =>
    exact .arrayTemplate h1 (hs.trans h2) (ht.trans h3) (by rw [hp]; exact h4) (hr.trans h5)
  | arrayInstance h1 h2 h3 h4 h5 h6 =>
    exact .arrayInstance h1 (hs.trans h2) (ht.trans h3) (ha.trans h4) (by rw [hp]; exact h5) (hr.trans h6)

private theorem FunctionDef.Grows.declares (h : d.Grows e) (hd : op.Declares d) : op.Declares e :=
  hd.congr h.scope h.typeParams h.appliedArgs h.params h.returnExpr

namespace Program

variable {id : EntityId} {u : Unit}

private theorem FunctionOk.sign {paramTypes : List Ty} {paramVars : List EntityId} {returnType : Option Ty}
    (ho : p.FunctionOk d) (hplain : d.typeParams = []) (hsig : d.signature ≠ .done)
    (hr : ∀ τ, returnType = some τ → τ.Good p.entities)
    (hs : p.SignatureOk { d with paramTypes, paramVars, returnType, signature := .done }) :
    p.FunctionOk { d with paramTypes, paramVars, returnType, signature := .done } where
  scope := ho.scope
  params := ho.params
  returnExpr := ho.returnExpr
  generic h := absurd hplain h
  unsigned h := absurd rfl h
  signed _ := hs
  returnType := hr
  body first root hb := by
    have hbo := ho.body first root hb
    have hp := (ho.unsigned hsig).2.2
    exact ⟨hbo.lt_size,hbo.tiles,hbo.pending,fun hd => absurd (hp.symm.trans hd) (by simp),
      fun hd => absurd (hp.symm.trans hd) (by simp)⟩
  intrinsic op hb := (ho.intrinsic op hb).congr rfl rfl rfl rfl rfl
  instances args id hl := by
    obtain ⟨e,hk,h⟩ := ho.instances args id hl
    exact ⟨e,hk,h.scope,h.typeParams,h.signature,h.params⟩

/-- Parameters become variables only where there is a body to use them. -/
private theorem Inv.bodyVars (hI : p.Inv)
    (hl : types.length = d.params.length) (hg : ∀ τ ∈ types, τ.Good p.entities ∧ τ.hasValue = true)
    (h : (if d.hasBody then Solver.paramVars d.params types else pure [] : Check (List EntityId)) p =
      .ok vars q) : p.Calm q ∧ (d.hasBody = true → List.Forall₂ q.VarOf vars types) ∧ vars.Nodup ∧
      ∀ v ∈ vars, q.Spare v ∧ p.entities.size ≤ v.index := by
  split at h
  · obtain ⟨m,hv,hrest⟩ := hI.paramVars hl (fun τ hτ => (hg τ hτ).1) h
    exact ⟨m,fun _ => hv,hrest⟩
  · rename_i hb
    cases h
    exact ⟨.refl hI,fun h => absurd h hb,nodup_nil,by simp⟩

/-- Afterwards the function has a signature, and nothing else about it has changed. -/
theorem Inv.resolveSignature (hS : S.Sound) (hI : p.Inv) (hk : p.entities.kind id = .function d)
    (hplain : d.typeParams = []) (h : S.resolveSignature id p = .ok u q) : p.Moves 0 0 q ∧ q.exprs = p.exprs ∧
      ∃ e, q.entities.kind id = .function e ∧ e.signature = .done ∧ e.bodyStage = d.bodyStage := by
  have h1 := entity_bind_ok.mp h
  have hf : (p.entities.get id).function? = some d := function?_eq_some.mpr hk
  simp only [hf] at h1
  by_cases hsig : d.signature = .done
  · simp only [hsig,if_true] at h1
    cases h1
    exact ⟨.refl hI,rfl,d,hk,hsig,rfl⟩
  simp only [hsig,if_false] at h1
  obtain ⟨types,p1,ht,h2⟩ := bind_ok.mp h1
  obtain ⟨result,p2,hr,h3⟩ := bind_ok.mp h2
  have ho := hI.functionOk hk
  obtain ⟨hnone,_⟩ := ho.unsigned hsig
  obtain ⟨m1,hgt,hmt⟩ := hI.paramTypes hS ho.params ho.scope ht
  have hs1 := ho.scope.grows m1.grows.scopes
  obtain ⟨m2,hgr,hmr⟩ := m1.inv.declaredReturn hS (fun t ht => m1.grows.goodExpr (ho.returnExpr t ht)) hs1 hr
  have hgt2 : ∀ τ ∈ types, τ.Good p2.entities ∧ τ.hasValue = true :=
    fun τ hτ => ⟨m2.grows.good (hgt τ hτ).1,(hgt τ hτ).2⟩
  have hmt2 := m2.grows.meanings? m1.inv.scopes hs1 hmt
  have hlen : types.length = d.params.length := by simpa using meanings?_length hmt
  obtain ⟨vars,p3,hv,h4⟩ := ite_bind_ok.mp h3
  obtain ⟨m3,htyped,hnd,hspare⟩ := m2.inv.bodyVars hlen hgt2 hv
  rw [modifyFunction_ok] at h4
  have m := m1.trans (m2.trans m3)
  have hk3 : p3.entities.kind id = .function d := (m.functions id d).mpr hk
  have hg : d.Grows { d with paramTypes := types, paramVars := vars, returnType := result, signature := .done } :=
    { FunctionDef.Grows.refl d with
      signature := fun h => absurd h hsig
      returnType := fun τ h => absurd (hnone.symm.trans h) (by simp) }
  have hs2 := hs1.grows m2.grows.scopes
  have hsigned : p3.SignatureOk
      { d with paramTypes := types, paramVars := vars, returnType := result, signature := .done } := {
    types := m3.grows.meanings? m2.inv.scopes hs2 hmt2
    vars := htyped
    result := fun t ht => by
      obtain ⟨τ,h1,h2⟩ := hmr t ht
      exact ⟨τ,h1,m3.grows.meaning? m2.inv.scopes hs2 h2⟩ }
  have hok := (m3.inv.functionOk hk3).sign hplain hsig (fun τ h => m3.grows.good (hgr τ h)) hsigned
  rw [h4]
  have hO := (Reaches.modifyFunction (f := fun d =>
      { d with paramTypes := types, paramVars := vars, returnType := result, signature := .done }) m3.inv.orderly hk3 (by simp)).orderly
  refine ⟨⟨m3.inv.modifyFunction hk3 hg hok (.inr ⟨hnd,fun v hv => (hspare v hv).1⟩) hO,?_⟩,m.exprs,_,
    kind_modifyFunction_self hk3 _,rfl,rfl⟩
  exact m.step.modifyFunction hk3 hg (fun h => h) fun v hv =>
    .inr (Nat.le_trans (m1.trans m2).grows.entities (hspare v hv).2)

/-! ### Bodies -/

private theorem SignatureOk.isVar (h : p.SignatureOk d) (hb : d.hasBody = true) {v : EntityId}
    (hv : v ∈ d.paramVars) : (p.entities.kind v).isVar = true := by
  have hvars := h.vars hb
  generalize d.paramVars = vars, d.paramTypes = types at hvars hv
  induction hvars with
  | nil => cases hv
  | cons hx _ ih =>
    rcases mem_cons.mp hv with rfl | hv
    · obtain ⟨_,hk⟩ := hx
      rw [hk]
      rfl
    · exact ih hv

private theorem Inv.registerAll {ids : List EntityId} (hI : p.Inv) (hs : p.Local scope)
    (hids : ∀ id ∈ ids, id.index < p.entities.size ∧ (p.entities.kind id).isVar = true ∧
      ∀ name, id ∉ p.scopes.here scope name) (hnodup : ids.Nodup) (h : registerAll scope ids p = .ok u q) :
    p.Calm q ∧ q.entities = p.entities ∧ q.view scope = q.shadow (p.view scope) ids := by
  induction ids generalizing p with
  | nil =>
    cases h
    exact ⟨.refl hI,rfl,rfl⟩
  | cons id ids ih =>
    obtain ⟨_,p1,h1,h2⟩ := bind_ok.mp h
    obtain ⟨hlt,hk,hfree⟩ := hids id (by simp)
    have m1 := hI.register hs hlt h1
    obtain ⟨t,ht,hp1⟩ := register_ok.mp h1
    have he : p1.entities = p.entities := by rw [hp1]
    have hhere : ∀ j name, j ∈ p1.scopes.here scope name → j ∈ p.scopes.here scope name ∨ j = id := by
      rw [hp1]
      rcases ScopeTable.bind_of_registerAs ht with rfl | rfl
      · exact fun _ _ => .inl
      · exact fun _ _ hj => (ScopeTable.mem_here_bind hj).imp_right (·.1)
    obtain ⟨m2,he2,hv2⟩ := ih m1.inv (m1.grows.local hs) (fun j hj => by
      obtain ⟨hlt,hk,hfree⟩ := hids j (by simp [hj])
      refine ⟨he ▸ hlt,he ▸ hk,fun name hm => ?_⟩
      rcases hhere j name hm with hm | rfl
      · exact hfree name hm
      · exact (nodup_cons.mp hnodup).1 hj) (nodup_cons.mp hnodup).2 h2
    refine ⟨m1.trans m2,he2.trans he,?_⟩
    rw [hv2,view_register hI.scopes hs m1.grows hk hfree h1]
    simp only [shadow,he2,foldl_cons,foldl_nil]

private theorem Inv.bodyReturn (hI : p.Inv) {τ ρ : Ty} {declared : Option Ty} (hg : τ.Good p.entities)
    (h : bodyReturn id location root τ declared p = .ok ρ q) :
    p.Calm q ∧ q.entities = p.entities ∧ (ρ = .void ∨ q.Below τ ρ) ∧
      (declared = none → ρ = τ) ∧ ∀ σ, declared = some σ → ρ = σ := by
  cases declared with
  | some σ =>
    simp only [Solver.bodyReturn] at h
    by_cases hv : σ = .void
    · simp only [hv,if_true] at h
      cases h
      exact ⟨.refl hI,rfl,.inl rfl,by simp,by simp [hv]⟩
    · simp only [hv,if_false] at h
      have h2 := node_bind_ok.mp h
      obtain ⟨_,h3,rfl⟩ := bind_pure_ok.mp h2
      obtain ⟨m,he,hb⟩ := hI.expectAssignable hg h3
      exact ⟨m,he,.inr hb,by simp,by simp⟩
  | none =>
    simp only [Solver.bodyReturn] at h
    by_cases hn : τ = .never
    · simp [hn,bind_ok] at h
    · simp only [hn,if_false] at h
      cases h
      exact ⟨.refl hI,rfl,.inr (.refl τ),by simp,by simp⟩

private theorem FunctionOk.restage (ho : p.FunctionOk d) (hg : d.Grows e)
    (hsig : d.signature = .done) (hplain : d.typeParams = []) (hi : e.instances = d.instances)
    (hr : e.returnType = d.returnType ∨ ∃ ρ, e.returnType = some ρ ∧ ρ.Good p.entities)
    (hbody : ∀ first root, d.body = .expr first root → p.BodyOk e first root) : p.FunctionOk e where
  scope := hg.scope ▸ ho.scope
  params := hg.params ▸ ho.params
  returnExpr := hg.returnExpr ▸ ho.returnExpr
  generic h := absurd (hg.typeParams.trans hplain) h
  unsigned h := absurd (hg.signature hsig).1 h
  signed _ := by
    obtain ⟨_,ht,hv⟩ := hg.signature hsig
    have hs := ho.signed hsig
    refine ⟨by rw [hg.scope,hg.params,ht]; exact hs.types,?_,?_⟩
    · intro hb
      rw [hv,ht]
      refine hs.vars ?_
      unfold FunctionDef.hasBody at hb ⊢
      rwa [hg.body] at hb
    · intro t he
      obtain ⟨τ,hτ,hm⟩ := hs.result t (hg.returnExpr ▸ he)
      exact ⟨τ,hg.returnType τ hτ,by rw [hg.scope]; exact hm⟩
  returnType τ hτ := by
    rcases hr with hr | ⟨ρ,hr,hgood⟩
    · exact ho.returnType τ (hr ▸ hτ)
    · cases hr.symm.trans hτ
      exact hgood
  body first root hb := hbody first root (hg.body ▸ hb)
  intrinsic op hb := hg.declares (ho.intrinsic op (hg.body ▸ hb))
  instances args id hl := by
    obtain ⟨c,hk,h⟩ := ho.instances args id (hi ▸ hl)
    exact ⟨c,hk,by rw [hg.scope]; exact h.scope,h.typeParams,h.signature,
      by rw [hg.params,hg.typeParams]; exact h.params⟩

/-- A body that is no longer pending is about to be resolved, since it shares no node with another. -/
private theorem Inv.readyBody (hI : p.Inv) (hF : p.Formed) (hk : p.entities.kind id = .function d)
    (hb : d.body = .expr first root) (hs : d.bodyStage = .inProgress) (hraw : ∀ n, d.Covers n →
      (p.exprs.get n).type = none ∧ (p.exprs.get n).shape.Raw p.entities) :
    p.Ready first.index [root] (root.index + 1) := by
  have hbo := (hI.functionOk hk).body first root hb
  refine ⟨hF,.cons hbo.tiles .nil,fun n hlo hhi => ?_⟩
  have hc : d.Covers n := ⟨first,root,hb,hlo,by omega⟩
  refine ⟨⟨by have := hbo.lt_size; omega,fun g e hg hp he => ?_⟩,(hraw n hc).1,(hraw n hc).2⟩
  cases hI.bodies id g d e n hk hg hc he
  cases hk.symm.trans hg
  exact absurd (hs.symm.trans hp) (by simp)

/-- Resolving a pending body touches no node of another. -/
private theorem Step.ofPending (h : p.Step first.index (root.index + 1) q)
    (hk : p.entities.kind id = .function d) (hp : d.bodyStage = .pending) (hb : d.body = .expr first root) :
    p.Step 0 0 q where
  __ := h
  frame n hl _ := by
    refine h.frame n hl ?_
    have := hl.2 id d hk hp
    by_cases hn : first.index ≤ n.index ∧ n.index ≤ root.index
    · exact absurd ⟨first,root,hb,hn⟩ this
    · omega

/-- The nodes of a body that was opened can be looked at. They see the parameters and no other variables. -/
private theorem Inv.openBody {p1 p2 p3 : Program} (hI : p.Inv) (hF : p.Formed) (hk : p.entities.kind id = .function d)
    (hplain : d.typeParams = []) (hsig : d.signature = .done) (hp : d.bodyStage = .pending)
    (hb : d.body = .expr first root) (h1 : Check.pushScope d.scope .function p = .ok scope p1)
    (h3 : Check.modifyFunction id (fun d => { d with bodyStage := .inProgress, bodyScope := some scope }) p1 = .ok u p2)
    (h5 : Solver.registerAll scope d.paramVars p2 = .ok u p3) :
    p.Moves 0 0 p3 ∧ p3.Ready first.index [root] (root.index + 1) ∧ p3.Local scope ∧
      p3.entities.kind id = .function { d with bodyStage := .inProgress, bodyScope := some scope } ∧
      p3.view scope = p3.shadow (fun _ => none) d.paramVars := by
  rw [modifyFunction_ok] at h3
  have ho := hI.functionOk hk
  have hbo := ho.body first root hb
  -- the body is marked
  obtain ⟨m1,hlocal⟩ := hI.pushScope ho.scope.1 rfl h1
  have hk1 : p1.entities.kind id = .function d := (m1.functions id d).mpr hk
  have g2 : d.Grows { d with bodyStage := .inProgress, bodyScope := some scope } :=
    { FunctionDef.Grows.refl d with bodyStage := fun h => absurd (hp.symm.trans h) (by simp) }
  have hk2 : p2.entities.kind id = .function { d with bodyStage := .inProgress, bodyScope := some scope } := by
    rw [h3]
    exact kind_modifyFunction_self hk1 _
  have m2 : p1.Moves 0 0 p2 := by
    rw [h3]
    refine ⟨m1.inv.modifyFunction hk1 g2 ((m1.inv.functionOk hk1).restage g2 hsig hplain rfl (.inl rfl) ?_)
      (.inl rfl) ?_,(Step.refl ..).modifyFunction hk1 g2 (fun h => nomatch h) fun v hv => .inl hv⟩
    swap
    · exact (Reaches.modifyFunction (f := fun d => { d with bodyStage := .inProgress, bodyScope := some scope })
        m1.inv.orderly hk1 (by simp [hsig])).orderly
    intro first' root' hb'
    have hbo' := (m1.inv.functionOk hk1).body first' root' hb'
    exact ⟨hbo'.lt_size,hbo'.tiles,by simp,by simp,by simp⟩
  have hx2 : p2.exprs = p1.exprs := by rw [h3]
  -- its parameters are known by their names
  have hscopes : p2.scopes = p1.scopes := by rw [h3]
  obtain ⟨m3,he3,hv3⟩ := m2.inv.registerAll (m2.grows.local hlocal) (fun v hv => by
    refine ⟨m2.inv.vars.param_lt id _ hk2 v hv,?_,fun name hm => ?_⟩
    · exact ((m2.inv.functionOk hk2).signed hsig).isVar (by simp [FunctionDef.hasBody,hb]) hv
    · obtain ⟨rfl,rfl⟩ := pushScope_ok.mp h1
      simp [hscopes,ScopeTable.here,ScopeTable.get_push_self,Scope.bound] at hm)
    (m2.inv.vars.param_nodup id _ hk2) h5
  have hk3 := he3 ▸ hk2
  have m13 : p.Moves 0 0 p3 := m1.moves.trans (m2.trans m3.moves)
  refine ⟨m13,?_,m3.grows.local (m2.grows.local hlocal),hk3,?_⟩
  · refine m3.inv.readyBody (m13.step.formed hF) hk3 hb rfl fun n hc => ?_
    have hraw := hbo.pending hp n hc
    have hx : p3.exprs = p.exprs := m3.exprs.trans (hx2.trans m1.exprs)
    rw [hx]
    exact ⟨hraw.1,m13.grows.raw hraw.2⟩
  · rw [hv3,(Confines.of_eq hscopes).view m1.inv.scopes m2.grows hlocal.1,view_pushScope hI.scopes ho.scope.1 h1,
      view_static hI.scopes ho.scope]

private theorem Inv.runBody (hS : S.Sound) (hI : p.Inv) (hF : p.Formed) (hk : p.entities.kind id = .function d)
    (hplain : d.typeParams = []) (hsig : d.signature = .done) (hp : d.bodyStage = .pending)
    (hb : d.body = .expr first root) (h : (do
      let scope ← Check.pushScope d.scope .function
      Check.modifyFunction id fun d => { d with bodyStage := .inProgress, bodyScope := some scope }
      Solver.registerAll scope d.paramVars
      let body ← S.expr root scope
      let returnType ← Solver.bodyReturn id location root body d.returnType
      Check.modifyFunction id fun d => { d with returnType := some returnType, bodyStage := .done } :
        Check Unit) p = .ok u q) : p.Moves 0 0 q ∧
      ∃ e, q.entities.kind id = .function e ∧ e.signature = .done ∧ e.bodyStage = .done := by
  obtain ⟨scope,p1,h1,h2⟩ := bind_ok.mp h
  obtain ⟨_,p2,h3,h4⟩ := bind_ok.mp h2
  obtain ⟨_,p3,h5,h6⟩ := bind_ok.mp h4
  obtain ⟨τ,p4,h7,h8⟩ := bind_ok.mp h6
  obtain ⟨ρ,p5,h9,h10⟩ := bind_ok.mp h8
  rw [modifyFunction_ok] at h10
  have ho := hI.functionOk hk
  obtain ⟨m13,hready,hlocal,hk3,hparams⟩ := hI.openBody hF hk hplain hsig hp hb h1 h3 h5
  obtain ⟨m4,ht4,hn4⟩ := hS.expr m13.inv hready hlocal h7
  have hlt := m13.inv.vars.param_lt id _ hk3
  have hnested : p4.Nested (fun _ => none) d.paramVars [root] :=
    ⟨p4.view scope,by rw [m4.grows.shadow hlt,← hparams]; exact hn4⟩
  -- the result fits what is declared
  have hgood := (m4.inv.nodes root τ ht4).2
  obtain ⟨m5,he5,hfit,hnone,hsome⟩ := m4.inv.bodyReturn hgood h9
  -- nobody else works on the body
  have hr4 := ((hS.follows.expr root (Nat.zero_le scope.index)).settling p3 m13.inv.orderly).of_ok h7
  obtain ⟨e,hk4,hfixed⟩ := hr4.advances.function_fixed (by simp) hk3
  obtain ⟨_,hret⟩ := hfixed.body (by simp)
  obtain ⟨e',hk4',ge⟩ := m4.grows.function hk3
  cases hk4.symm.trans hk4'
  have hk5 : p5.entities.kind id = .function e := he5 ▸ hk4
  have hesig : e.signature = .done := (ge.signature hsig).1
  have s15 : p.Step first.index (root.index + 1) p5 := (m13.step.any _ _).trans (m4.step.trans (m5.step.any _ _))
  have hgρ : ρ.Good p5.entities := by
    cases hd : d.returnType with
    | none =>
      rw [hnone hd]
      exact m5.grows.good hgood
    | some σ =>
      rw [hsome σ hd]
      exact s15.grows.good (ho.returnType σ hd)
  have g6 : e.Grows { e with returnType := some ρ, bodyStage := .done } :=
    { FunctionDef.Grows.refl e with
      returnType := fun σ h => by rw [hsome σ (hret.symm.trans h)]
      bodyStage := fun _ => rfl }
  rw [h10]
  refine ⟨⟨m5.inv.modifyFunction hk5 g6 ?_ (.inl rfl) ?_,?_⟩,_,kind_modifyFunction_self hk5 _,hesig,rfl⟩
  · refine (m5.inv.functionOk hk5).restage g6 hesig (ge.typeParams.trans hplain) rfl
      (.inr ⟨ρ,rfl,hgρ⟩) fun first' root' hb' => ?_
    cases hb.symm.trans (ge.body.symm.trans hb')
    have hbo' := (m5.inv.functionOk hk5).body first root hb'
    refine ⟨hbo'.lt_size,hbo'.tiles,by simp,fun _ => ⟨τ,ρ,m5.grows.typed' ht4,rfl,hfit⟩,fun _ => ?_⟩
    rw [(ge.signature hsig).2.2]
    exact ⟨fun v hv => Nat.lt_of_lt_of_le (hlt v hv) (m4.grows.trans m5.grows).entities,
      m5.grows.nested (fun v hv => Nat.lt_of_lt_of_le (hlt v hv) m4.grows.entities) hnested⟩
  · exact (Reaches.modifyFunction (f := fun d => { d with returnType := some ρ, bodyStage := .done })
      m5.inv.orderly hk5 (by simp [hesig])).orderly
  · exact (s15.modifyFunction hk5 g6 (by simp) fun v hv => .inl hv).ofPending hk hp hb

private theorem Inv.closeBody (hI : p.Inv) (hk : p.entities.kind id = .function d) (hplain : d.typeParams = [])
    (hsig : d.signature = .done) (hb : ∀ first root, d.body ≠ .expr first root)
    (h : Check.modifyFunction id (fun d => { d with bodyStage := .done }) p = .ok u q) : p.Moves 0 0 q ∧
      ∃ e, q.entities.kind id = .function e ∧ e.signature = .done ∧ e.bodyStage = .done := by
  rw [modifyFunction_ok] at h
  have hg : d.Grows { d with bodyStage := .done } := { FunctionDef.Grows.refl d with bodyStage := fun _ => rfl }
  rw [h]
  have hO := (Reaches.modifyFunction (f := fun d => { d with bodyStage := .done }) hI.orderly hk (by simp [hsig])).orderly
  exact ⟨⟨hI.modifyFunction hk hg ((hI.functionOk hk).restage hg hsig hplain rfl (.inl rfl)
    fun first root h => absurd h (hb first root)) (.inl rfl) hO,
    (Step.refl ..).modifyFunction hk hg (by simp) fun v hv => .inl hv⟩,_,
    kind_modifyFunction_self hk _,hsig,rfl⟩

/-- Afterwards the body is resolved, unless that is under way. -/
theorem Inv.resolveBody (hS : S.Sound) (hI : p.Inv) (hF : p.Formed) (hk : p.entities.kind id = .function d)
    (hplain : d.typeParams = []) (h : S.resolveBody id p = .ok u q) :
    p.Moves 0 0 q ∧ ∃ e, q.entities.kind id = .function e ∧ e.signature = .done ∧
      (d.bodyStage ≠ .inProgress → e.bodyStage = .done) := by
  obtain ⟨_,p1,h1,h2⟩ := bind_ok.mp h
  obtain ⟨m1,hx1,e,hke,hsig,hst⟩ := hI.resolveSignature hS hk hplain h1
  have h3 := entity_bind_ok.mp h2
  have hf : (p1.entities.get id).function? = some e := function?_eq_some.mpr hke
  simp only [hf] at h3
  obtain ⟨e',hke',ge⟩ := m1.grows.function hk
  cases hke.symm.trans hke'
  have hplain' : e.typeParams = [] := ge.typeParams.trans hplain
  by_cases hp : e.bodyStage = .pending
  · simp only [hp,if_true] at h3
    cases hb : e.body with
    | expr first root =>
      simp only [hb] at h3
      obtain ⟨m2,c,hkc,hcs,hcb⟩ := m1.inv.runBody hS (m1.step.formed hF) hke hplain' hsig hp hb h3
      exact ⟨m1.trans m2,c,hkc,hcs,fun _ => hcb⟩
    | intrinsic | host =>
      simp only [hb] at h3
      obtain ⟨m2,c,hkc,hcs,hcb⟩ := m1.inv.closeBody hke hplain' hsig (by simp [hb]) h3
      exact ⟨m1.trans m2,c,hkc,hcs,fun _ => hcb⟩
  · simp only [hp,if_false] at h3
    cases h3
    refine ⟨m1,e,hke,hsig,fun hni => ?_⟩
    cases hs : e.bodyStage <;> simp_all

theorem Inv.returnType (hS : S.Sound) (hI : p.Inv) (hF : p.Formed) {τ : Ty}
    (hk : p.entities.kind id = .function d) (hplain : d.typeParams = [])
    (h : S.returnType id location p = .ok τ q) : p.Moves 0 0 q ∧
      ∃ e, q.entities.kind id = .function e ∧ e.signature = .done ∧ e.returnType = some τ := by
  obtain ⟨_,p1,h1,h2⟩ := bind_ok.mp h
  obtain ⟨m1,hx1,e,hke,hsig,hst⟩ := hI.resolveSignature hS hk hplain h1
  obtain ⟨_,_,he,h3⟩ := bind_ok.mp h2
  obtain ⟨rfl,rfl⟩ := Check.function?_ok.mp he
  have hf : p1.entities.function? id = some e := function?_eq_some.mpr hke
  simp only [hf] at h3
  obtain ⟨e',hke',ge⟩ := m1.grows.function hk
  cases hke.symm.trans hke'
  cases hr : e.returnType with
  | some σ =>
    simp only [hr] at h3
    cases h3
    exact ⟨m1,e,hke,hsig,hr⟩
  | none =>
    simp only [hr] at h3
    by_cases hs : e.bodyStage = .inProgress
    · simp [hs,bind_ok] at h3
    · simp only [hs,if_false] at h3
      obtain ⟨_,p2,h4,h5⟩ := bind_ok.mp h3
      obtain ⟨m2,c,hkc,hcs,_⟩ := m1.inv.resolveBody hS (m1.step.formed hF) hke (ge.typeParams.trans hplain) h4
      obtain ⟨_,_,h6,h7⟩ := bind_ok.mp h5
      obtain ⟨rfl,rfl⟩ := Check.function?_ok.mp h6
      have hfc : p2.entities.function? id = some c := function?_eq_some.mpr hkc
      cases hcr : c.returnType with
      | none => simp [hfc,hcr,bind_ok] at h7
      | some σ =>
        simp only [hfc,Option.bind_some,hcr] at h7
        cases h7
        exact ⟨m1.trans m2,c,hkc,hcs,hcr⟩

end Program

/-! ### Copies of generic bodies -/

namespace ExprShape

variable {offset : Nat}

theorem children_copy (shape : ExprShape) :
    (shape.copy offset subst).children = shape.children.map (·.shift offset) := by
  cases shape with
  | cond test yes no => cases no <;> rfl
  | object fields => simp [copy,children,Function.comp_def]
  | select m =>
    obtain ⟨operand,bind,arms,body,binding⟩ := m
    cases body <;> simp [copy,children,Arm.copy,Function.comp_def]
  | _ => rfl

private theorem intros_copy (shape : ExprShape) : (shape.copy offset subst).intros = [] := by
  cases shape <;> simp [copy,intros,Arm.copy]

private theorem Raw.copy {t : EntityTable} {shape : ExprShape} (h : shape.Raw t)
    (hs : ∀ x ∈ subst, x.2.Good t) : (shape.copy offset subst).Raw t where
  intros := intros_copy shape
  good x hx := by
    rw [typeExprs_copy] at hx
    obtain ⟨y,hy,rfl⟩ := mem_map.mp hx
    exact (h.good y hy).substitute hs
  cases m hm := by
    cases shape with
    | select n =>
      cases hm
      have := h.cases n rfl
      simpa using this
    | _ => cases hm
  names fields hf := by
    cases shape with
    | object given =>
      cases hf
      simpa [Function.comp_def] using h.names given rfl
    | _ => cases hf

end ExprShape

namespace Arena

variable {a : Arena}

theorem cloneRange_fst (subst : Subst) :
    (a.cloneRange first root subst).1 = (⟨a.size⟩, root.shift (a.size - first.index)) := rfl

private theorem get_cloneRange_cases (subst : Subst) (hr : root.index < a.size) (hf : first.index ≤ root.index)
    (n : ExprId) : (a.cloneRange first root subst).2.get n = a.get n ∨
      ∃ j : ExprId, first.index ≤ j.index ∧ j.index ≤ root.index ∧ n = j.shift (a.size - first.index) ∧
        (a.cloneRange first root subst).2.get n = (a.get j).copy (a.size - first.index) subst := by
  by_cases h1 : n.index < a.size
  · exact .inl (get_cloneRange_of_lt h1)
  by_cases h2 : n.index < a.size + (root.index + 1 - first.index)
  · refine .inr ⟨⟨n.index - (a.size - first.index)⟩,by simp; omega,by simp; omega,?_,?_⟩
    · exact ext_of_index (by simp [ExprId.shift]; omega)
    · rw [← get_cloneRange_shift hr (by simp; omega) (by simp; omega)]
      exact congrArg _ (ext_of_index (by simp [ExprId.shift]; omega))
  · refine .inl ?_
    rw [get_of_size_le (by rw [size_cloneRange hr hf]; omega),get_of_size_le (by omega)]

private theorem Tiles.shift {b : Arena} {offset lo hi : Nat} {ids : List ExprId} (h : a.Tiles lo ids hi)
    (hc : ∀ id : ExprId, lo ≤ id.index → id.index < hi →
      (b.get (id.shift offset)).shape.children = (a.get id).shape.children.map (·.shift offset)) :
    b.Tiles (lo + offset) (ids.map (·.shift offset)) (hi + offset) := by
  induction h with
  | nil => exact .nil
  | @cons lo id ids hi hchild hrest ihc ihr =>
    have h1 := hchild.le
    have h2 := hrest.le
    refine .cons ?_ ?_
    · rw [hc id h1 (by omega)]
      exact ihc fun j hj1 hj2 => hc j hj1 (by omega)
    · have : (id.shift offset).index + 1 = id.index + 1 + offset := by
        simp [ExprId.shift]
        omega
      rw [this]
      exact ihr fun j hj1 hj2 => hc j (by omega) hj2

/-- The copy of a body lies at the end of the arena as the body lies in it. -/
theorem Tiles.cloneRange (subst : Subst) (hr : root.index < a.size)
    (h : a.Tiles first.index (a.get root).shape.children root.index) : (a.cloneRange first root subst).2.Tiles a.size
      ((a.cloneRange first root subst).2.get (root.shift (a.size - first.index))).shape.children
      (root.index + (a.size - first.index)) := by
  have hf := h.le
  have ht : (a.cloneRange first root subst).2.Tiles (first.index + (a.size - first.index)) _ _ :=
    h.shift fun n h1 h2 => by rw [get_cloneRange_shift hr h1 (by omega),Expr.copy,ExprShape.children_copy]
  rw [get_cloneRange_shift hr hf (Nat.le_refl _),Expr.copy,ExprShape.children_copy]
  rwa [show first.index + (a.size - first.index) = a.size by omega] at ht

end Arena

namespace Program

variable {body : FunctionBody} {generic id : EntityId} {args : List Ty}

structure NewBody (p : Program) (bound : Nat) (first root : ExprId) : Prop where
  lt_size : root.index < p.exprs.size
  bound_le : bound ≤ first.index
  tiles : p.exprs.Tiles first.index (p.exprs.get root).shape.children root.index
  raw : ∀ n : ExprId, first.index ≤ n.index → n.index ≤ root.index →
    (p.exprs.get n).type = none ∧ (p.exprs.get n).shape.Raw p.entities

private theorem Inv.cloneRange (hI : p.Inv) (subst : Subst)
    (hr : root.index < p.exprs.size) (hf : first.index ≤ root.index) :
    p.Moves 0 0 { p with exprs := (p.exprs.cloneRange first root subst).2 } := by
  have cases := Arena.get_cloneRange_cases subst hr hf
  have old : ∀ n : ExprId, n.index < p.exprs.size →
      (p.exprs.cloneRange first root subst).2.get n = p.exprs.get n := fun n h => Arena.get_cloneRange_of_lt h
  have intros : ∀ n v, v ∈ ((p.exprs.cloneRange first root subst).2.get n).shape.intros →
      v ∈ (p.exprs.get n).shape.intros := by
    intro n v hv
    rcases cases n with he | ⟨j,_,_,_,he⟩
    · rwa [he] at hv
    · rw [he,Expr.copy,ExprShape.intros_copy] at hv
      cases hv
  have hg : p.Grows { p with exprs := (p.exprs.cloneRange first root subst).2 } := {
    entities := Nat.le_refl _
    name := fun _ _ => rfl
    kind := fun _ _ => .same _
    scopes := .refl _
    exprs := by simp only [Arena.size_cloneRange hr hf]; omega
    children := fun n hn => by simp only [old n hn]
    typed := fun n τ ht => old n (Arena.lt_size_of_type ht) }
  have covered : ∀ {f d n}, p.entities.kind f = .function d → d.Covers n → n.index < p.exprs.size := by
    rintro f d n hk ⟨first,root,hb,_,hn⟩
    have := ((hI.functionOk hk).body first root hb).lt_size
    omega
  constructor
  · refine hI.grow hg hI.scopes ?_ (fun _ => .inl rfl) (fun _ _ _ _ _ => .inl rfl) (.inl rfl) ?_ hI.bodies ?_
      (hI.orderly.of_entities rfl)
    · intro f d hk _ _ n hn
      exact old n (covered hk hn)
    · intro n τ ht
      rcases cases n with he | ⟨j,_,_,_,he⟩
      · simp only [Typed,he] at ht
        exact .inl ht
      · simp [Typed,he,Expr.copy] at ht
    · obtain ⟨h1,h2,h3,h4,h5,h6⟩ := hI.vars
      refine ⟨fun n v hv => h1 n v (intros n v hv),fun n => ?_,fun n m v hn hm => ?_,h4,h5,
        fun f d hk v hv n hn => h6 f d hk v hv n (intros n v hn)⟩
      · rcases cases n with he | ⟨j,_,_,_,he⟩
        · simp only [he]
          exact h2 n
        · simp [he,Expr.copy,ExprShape.intros_copy]
      · exact h3 n m v (intros n v hn) (intros m v hm)
  · exact { Step.refl 0 0 p with
      grows := hg
      frame := fun n hl _ => old n hl.1
      asleep := fun f e hk hp => .inl ⟨e,hk,hp,fun n hn => old n (covered hk hn)⟩
      intros := fun n v hv => .inl (intros n v hv) }

private theorem Inv.cloneBody (hI : p.Inv) (hk : p.entities.kind generic = .function d) (hp : d.bodyStage = .pending)
    (hs : ∀ x ∈ subst, x.2.Good p.entities) (h : cloneBody subst d.body p = .ok body q) :
    p.Moves 0 0 q ∧ q.entities = p.entities ∧
      (∀ first root, body = .expr first root → q.NewBody p.exprs.size first root) ∧
      ∀ op, body = .intrinsic op → d.body = .intrinsic op := by
  cases hb : d.body with
  | expr first root =>
    simp only [hb,Solver.cloneBody,modifyGet_ok] at h
    obtain ⟨rfl,rfl⟩ := h
    have hbo := (hI.functionOk hk).body first root hb
    have hf : first.index ≤ root.index := hbo.tiles.le
    have m := hI.cloneRange subst hbo.lt_size hf
    have copied : ∀ n : ExprId, first.index ≤ n.index → n.index ≤ root.index →
        (p.exprs.cloneRange first root subst).2.get (n.shift (p.exprs.size - first.index)) =
          (p.exprs.get n).copy (p.exprs.size - first.index) subst :=
      fun n h1 h2 => Arena.get_cloneRange_shift hbo.lt_size h1 h2
    refine ⟨m,rfl,?_,by simp [Arena.cloneRange]⟩
    rintro _ _ ⟨⟩
    have hlt := hbo.lt_size
    simp only [Arena.cloneRange_fst]
    refine ⟨?_,Nat.le_refl _,hbo.tiles.cloneRange subst hlt,fun n h1 h2 => ?_⟩
    · simp only [Arena.size_cloneRange hbo.lt_size hf,ExprId.shift]
      omega
    · simp only [ExprId.shift] at h1 h2
      have hj : n = (⟨n.index - (p.exprs.size - first.index)⟩ : ExprId).shift (p.exprs.size - first.index) :=
        Arena.ext_of_index (by simp [ExprId.shift]; omega)
      have hc := copied ⟨n.index - (p.exprs.size - first.index)⟩ (by simp; omega) (by simp; omega)
      rw [← hj] at hc
      simp only [hc]
      refine ⟨rfl,((hbo.pending hp _ ⟨first,root,hb,?_,?_⟩).2.copy hs)⟩ <;> simp <;> omega
  | intrinsic | host =>
    simp only [hb,Solver.cloneBody] at h
    cases h
    exact ⟨.refl hI,rfl,by simp,by simp⟩

/-! ### Instances of generic functions -/

private theorem declares_instance (hd : op.Declares d) (hne : d.typeParams ≠ [])
    (hl : d.typeParams.length = args.length) : op.Declares (functionInstance generic d args (.intrinsic op)) := by
  cases hd with
  | binary _ _ _ h => exact absurd h hne
  | not h => exact absurd h hne
  | arrayInstance _ _ h => exact absurd h hne
  | arrayTemplate h1 h2 h3 h4 h5 =>
    rw [h3] at hl
    obtain ⟨element,rfl⟩ := length_eq_one_iff.mp hl.symm
    refine .arrayInstance h1 h2 rfl rfl ?_ ?_
    · simp [functionInstance,← h4,h3,Function.comp_def]
    · simp [functionInstance,h5,h3]

private theorem functionInstance_ok (hI : p.Inv) {bound : Nat}
    (hk : p.entities.kind generic = .function d) (hne : d.typeParams ≠ [])
    (hl : d.typeParams.length = args.length) (ha : ∀ τ ∈ args, τ.Good p.entities)
    (hbody : ∀ first root, body = .expr first root → p.NewBody bound first root)
    (hint : ∀ op, body = .intrinsic op → d.body = .intrinsic op) :
    p.FunctionOk (functionInstance generic d args body) := by
  have ho := hI.functionOk hk
  have hs : ∀ x ∈ d.typeParams.zip args, x.2.Good p.entities := fun x hx => ha x.2 (of_mem_zip hx).2
  exact {
    scope := ho.scope
    params := by
      intro x hx
      obtain ⟨y,hy,rfl⟩ := mem_map.mp hx
      exact (ho.params y hy).substitute hs
    returnExpr := by
      intro t ht
      obtain ⟨t',ht',rfl⟩ := Option.map_eq_some_iff.mp ht
      exact (ho.returnExpr t' ht').substitute hs
    generic := fun h => absurd rfl h
    unsigned := fun _ => ⟨rfl,rfl,rfl⟩
    signed := fun h => nomatch h
    returnType := fun _ h => nomatch h
    body := by
      intro first root hb
      have hn := hbody first root hb
      refine ⟨hn.lt_size,hn.tiles,fun _ n hc => ?_,(fun h => nomatch h),(fun h => nomatch h)⟩
      obtain ⟨f,r,hb',h1,h2⟩ := hc
      cases (show body = _ from hb).symm.trans hb'
      exact hn.raw n h1 h2
    intrinsic := by
      intro op hb
      cases (show body = _ from hb)
      exact declares_instance (ho.intrinsic op (hint op rfl)) hne hl
    instances := fun _ _ h => nomatch h }

private theorem FunctionOk.addInstance (ho : p.FunctionOk d)
    (hk : p.entities.kind id = .function e) (hi : d.InstanceOf args e) :
    p.FunctionOk { d with instances := d.instances ++ [(args, id)] } where
  scope := ho.scope
  params := ho.params
  returnExpr := ho.returnExpr
  generic := ho.generic
  unsigned := ho.unsigned
  signed h := ⟨(ho.signed h).types,(ho.signed h).vars,(ho.signed h).result⟩
  returnType := ho.returnType
  body first root hb :=
    have hbo := ho.body first root hb
    ⟨hbo.lt_size,hbo.tiles,hbo.pending,hbo.done,hbo.lexical⟩
  intrinsic op hb := (ho.intrinsic op hb).congr rfl rfl rfl rfl rfl
  instances args' i hl := by
    simp only [lookup_append,Option.or_eq_some_iff] at hl
    rcases hl with hl | ⟨_,hl⟩
    · obtain ⟨c,hc,hi'⟩ := ho.instances args' i hl
      exact ⟨c,hc,hi'.scope,hi'.typeParams,hi'.signature,hi'.params⟩
    · rw [lookup_cons] at hl
      split at hl
      · rename_i he
        cases hl
        cases eq_of_beq he
        exact ⟨e,hk,hi.scope,hi.typeParams,hi.signature,hi.params⟩
      · cases hl

/-- Noting an instance changes nothing else. -/
private theorem Inv.keepInstance (hI : p.Inv) {u : Unit} (hO : q.Orderly)
    (hk : p.entities.kind generic = .function d) (hke : p.entities.kind id = .function e) (hi : d.InstanceOf args e)
    (h : Check.modifyFunction generic (fun d => { d with instances := d.instances ++ [(args, id)] }) p =
      .ok u q) : p.Moves 0 0 q := by
  rw [modifyFunction_ok] at h
  have hg : d.Grows { d with instances := d.instances ++ [(args, id)] } := { FunctionDef.Grows.refl d with }
  rw [h] at hO ⊢
  exact ⟨hI.modifyFunction hk hg ((hI.functionOk hk).addInstance hke hi) (.inl rfl) hO,
    (Step.refl ..).modifyFunction hk hg (fun h => h) fun v hv => .inl hv⟩

/-- A new function that waits with a body of new nodes. -/
private theorem Moves.allocFunction {r : Program} (m : p.Moves 0 0 q) {name : String}
    (he : q.entities = p.entities) (ho : q.FunctionOk d) (hv : d.paramVars = []) (hI : p.Inv)
    (hnew : ∀ n, d.Covers n → p.exprs.size ≤ n.index) (hO : r.Orderly)
    (h : Check.allocEntity name location (.function d) q = .ok id r) :
    p.Moves 0 0 r ∧ r.entities.kind id = .function d := by
  obtain ⟨rfl,rfl⟩ := allocEntity_ok.mp h
  have hg : q.Grows { q with entities := (q.entities.alloc name location (.function d)).2 } := .alloc ..
  refine ⟨⟨?_,?_⟩,kind_alloc_self ..⟩
  · refine m.inv.alloc name location (hg.functionOk m.inv.scopes (fun _ _ _ => rfl) ho) (by simp) ?_ hO
    rintro _ ⟨⟩
    refine ⟨hv,fun g e n hk hc hd => ?_⟩
    obtain ⟨first,root,hb,_,hn⟩ := hc
    have := ((hI.functionOk (he ▸ hk)).body first root hb).lt_size
    have := hnew n hd
    omega
  · refine m.step.alloc name location ?_ (by simp)
    rintro _ ⟨⟩
    exact ⟨hv,hnew⟩

/-- An instance has the parameters of the generic function, with the arguments filled in. -/
theorem Inv.instantiateFunction (hS : S.Sound) (hI : p.Inv) (hF : p.Formed)
    (hk : p.entities.kind generic = .function d) (hne : d.typeParams ≠ []) (ha : ∀ τ ∈ args, τ.Good p.entities)
    (h : S.instantiateFunction generic args location p = .ok id q) :
    p.Moves 0 0 q ∧ ∃ e, q.entities.kind id = .function e ∧ d.InstanceOf args e := by
  have h1 := entity_bind_ok.mp h
  have hf : (p.entities.get generic).function? = some d := function?_eq_some.mpr hk
  simp only [hf] at h1
  obtain ⟨_,_,hx,h2⟩ := bind_ok.mp h1
  obtain ⟨hlen,rfl⟩ := expectArity_ok.mp hx
  have ho := hI.functionOk hk
  cases hl : Check.cached? d.instances args with
  | some i =>
    simp only [hl] at h2
    obtain ⟨rfl,rfl⟩ := pure_ok.mp h2
    exact ⟨.refl hI,ho.instances args i hl⟩
  | none =>
    simp only [hl] at h2
    obtain ⟨_,p0,hn,h3⟩ := bind_ok.mp h2
    obtain ⟨hfree,_,hp0⟩ := enterInstance_ok hn
    obtain ⟨body,p1,hcl,h4⟩ := bind_ok.mp h3
    obtain ⟨i,p2,hal,h5⟩ := bind_ok.mp h4
    obtain ⟨_,hdepth,rfl⟩ := bind_pure_ok.mp h5
    obtain ⟨p4,hin,rfl⟩ := afterwards_ok.mp hdepth
    obtain ⟨_,p5,hkey,h7⟩ := bind_ok.mp hin
    obtain ⟨_,p7,hkeep,hbodyr⟩ := bind_ok.mp h7
    have he0 : p0.entities = p.entities := by rw [hp0]
    have m0 : p.Calm p0 := by
      rw [hp0]
      exact hI.of_counters
    have I0 := m0.inv
    have hk0 : p0.entities.kind generic = .function d := he0 ▸ hk
    have hpend : d.bodyStage = .pending := (ho.unsigned (ho.generic hne)).2.2
    -- a copy of the body, and the function
    obtain ⟨m1,he1,hnb,hint⟩ := I0.cloneBody hk0 hpend (fun x hx => he0 ▸ ha x.2 (of_mem_zip hx).2) hcl
    have hk1 : p1.entities.kind generic = .function d := he1 ▸ hk0
    have hok : p1.FunctionOk (functionInstance generic d args body) :=
      functionInstance_ok m1.inv hk1 hne hlen (fun τ hτ => m1.grows.good (he0 ▸ ha τ hτ)) hnb hint
    have hleaves : p0.Leaves none p2 := by
      obtain ⟨_,_,hrun,hclone,_⟩ := Follows.cloneBody_runs
        (fun _ τ (_ : (d.typeParams.zip args).lookup _ = some τ) => τ.avoids_none) d.body (.of_orderly I0.orderly)
      cases hcl.symm.trans hrun
      obtain ⟨rfl,rfl⟩ := allocEntity_ok.mp hal
      exact hclone.toLeaves.trans (.alloc hclone.orderly _ _ (.of_new rfl (by simp) (by simp)) rfl)
    obtain ⟨m2,hk2⟩ := m1.allocFunction he1 hok rfl I0 (by
      rintro n ⟨first,root,hb,hn,_⟩
      exact Nat.le_trans (hnb first root hb).bound_le hn) hleaves.orderly hal
    -- its signature, which ends the instantiation proper
    have hO7 : p7.Orderly := by
      have hunused : args ∉ (p.entities.kind generic).keys := by
        rw [hk]
        exact not_mem_keys_of_cached? hl
      subst hp0
      exact ((hS.follows.signInstance hk hunused hfree hleaves (.of_orderly m2.inv.orderly) hk2 ⟨rfl,rfl⟩).ends.of_ok
        (bind_ok.mpr ⟨_,_,hkey,hkeep⟩)).2.1.orderly
    obtain ⟨p6,hsigr,rfl⟩ := afterwards_ok.mp hkey
    obtain ⟨m3,_,e,hke,hsig,_⟩ := m2.inv.resolveSignature hS hk2 rfl hsigr
    obtain ⟨e',hke',ge⟩ := m3.grows.function hk2
    cases hke.symm.trans hke'
    have hinst : d.InstanceOf args e :=
      ⟨ge.scope,ge.typeParams,hsig,by rw [ge.params]; simp [functionInstance,Function.comp_def]⟩
    have m5 : p6.Calm { p6 with instantiating := p6.instantiating.tail } := m3.inv.of_counters
    have s5 := m0.step.trans ((m2.trans m3).step.trans m5.step)
    obtain ⟨c,hkc,gc⟩ := s5.grows.function hk
    have m6 := m5.inv.keepInstance hO7 hkc hke ⟨hinst.scope.trans gc.scope.symm,hinst.typeParams,hsig,
        by rw [gc.params,gc.typeParams]; exact hinst.params⟩ hkeep
    -- and its body
    obtain ⟨f,hkf,gf⟩ := m6.grows.function hke
    obtain ⟨m7,g,hkg,hgs,_⟩ := m6.inv.resolveBody hS (m6.step.formed (s5.formed hF)) hkf
      (gf.typeParams.trans hinst.typeParams) hbodyr
    obtain ⟨g',hkg',gg⟩ := m7.grows.function hkf
    cases hkg.symm.trans hkg'
    have m8 : p4.Calm { p4 with instanceDepth := p4.instanceDepth - 1 } := m7.inv.of_counters
    refine ⟨⟨m8.inv,s5.trans ((m6.trans m7).step.trans m8.step)⟩,g,hkg,?_⟩
    exact ⟨gg.scope.trans (gf.scope.trans hinst.scope),gg.typeParams.trans (gf.typeParams.trans hinst.typeParams),hgs,
      by rw [gg.params,gf.params]; exact hinst.params⟩

end Program

end FormCompiler
