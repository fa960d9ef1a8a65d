import FormCompiler.Proofs.Resolution.Calls

/-! Matches: every arm has a type below that of the match, its pattern fits the operand, and its variable
is a new one of the type the pattern tests for. Inside an arm one sees that variable and what one sees around the match. -/

namespace FormCompiler

open Check List

namespace Program

variable {body : ExprId} {before all : Option Ty} {inner scope : ScopeId} {arm' arm : Arm} {p q : Program} {S : Solver}
  {lo hi bound : Nat} {operand : Operand} {binding : Option EntityId} {seen : View} {arms arms' : List Arm} {τ σ : Ty}
  {location : Location} {m : Match}

theorem Fits.mono {id : ExprId} (h : p.Fits id σ) (hb : p.Below σ τ) : p.Fits id τ := by
  obtain ⟨ρ,ht,h⟩ := h
  exact ⟨ρ,ht,h.trans hb⟩

theorem ArmTyped.mono {τ' : Ty} (h : p.ArmTyped σ τ arm) (hb : p.Below τ τ') : p.ArmTyped σ τ' arm := by
  cases h with
  | literal hp hσ hv hf => exact .literal hp hσ hv (hf.mono hb)
  | type hp ht hv hf hg => exact .type hp ht hv (hf.mono hb) hg

theorem Inv.joined (hI : p.Inv) {a b : Ty} (ha : a.Good p.entities) (hb : b.Good p.entities)
    (h : joined a b location p = .ok τ q) : p.Calm q ∧ τ.Good q.entities ∧ q.Below a τ ∧ q.Below b τ ∧
      q.entities.IsJoin [a,b] τ := by
  obtain ⟨r,p1,h1,h2⟩ := bind_ok.mp h
  cases r with
  | none => simp [bind_ok] at h2
  | some σ =>
    cases h2
    obtain ⟨m,he,hjoin⟩ := hI.join? h1
    rw [← he] at ha hb hjoin
    obtain ⟨hg,h1⟩ := m.inv.good_assignable ha (hjoin.above a (by simp))
    exact ⟨m,hg,h1,(m.inv.good_assignable hb (hjoin.above b (by simp))).2,hjoin⟩

theorem Merges.append {before : List Ty} {ids others : List ExprId} (h : p.Merges before ids σ)
    (h' : p.Merges [σ] others τ) : p.Merges before (ids ++ others) τ := by
  obtain ⟨types,ht,hf,hj⟩ := h
  obtain ⟨types',ht',hf',hj'⟩ := h'
  refine ⟨types ++ types',rel_append ht ht',fun ρ hρ => ?_,?_⟩
  · rw [← append_assoc] at hρ
    rcases mem_append.mp hρ with hρ | hρ
    · exact hf ρ hρ
    · exact hf' ρ (mem_append_right _ hρ)
  · rw [← append_assoc]
    exact hj.append hj'

private theorem Inv.joinedArm (hI : p.Inv) (hF : p.Formed) {next : Ty}
    (hb : ∀ σ, before = some σ → σ.Good p.entities) (ht : p.Typed body next)
    (h : joinedArm before next location p = .ok τ q) :
    p.Calm q ∧ τ.Good q.entities ∧ (∀ σ, before = some σ → q.Below σ τ) ∧ q.Below next τ ∧
      q.Merges before.toList [body] τ := by
  have hn := (hI.nodes _ _ ht).2
  cases before with
  | none =>
    obtain ⟨rfl,rfl⟩ := pure_ok.mp h
    refine ⟨.refl hI,hn,by simp,.refl next,[next],.cons ht .nil,?_,.singleton next⟩
    simpa using hI.finishedType hF hn
  | some σ =>
    obtain ⟨m,hg,h1,h2,hj⟩ := hI.joined (hb σ rfl) hn h
    refine ⟨m,hg,?_,h2,[next],.cons (m.grows.typed' ht) .nil,?_,hj⟩
    · rintro _ ⟨⟩
      exact h1
    · simpa using ⟨m.grows.finished (hI.finishedType hF (hb σ rfl)),m.grows.finished (hI.finishedType hF hn)⟩

private theorem Inv.bindOperand (hI : p.Inv) {name : String} {id : EntityId} (hs : p.Local scope)
    (hg : τ.Good p.entities) (h : bindOperand scope name τ location p = .ok id q) :
    p.Calm q ∧ q.VarOf id τ ∧ q.Spare id ∧ p.entities.size ≤ id.index ∧
      q.view scope = q.shadow (p.view scope) [id] := by
  obtain ⟨v,p1,h1,h2⟩ := bind_ok.mp h
  obtain ⟨_,h3,rfl⟩ := bind_pure_ok.mp h2
  obtain ⟨m,hv,hrest⟩ := hI.declareVar hs hg h1 h3
  exact ⟨m,⟨_,hv⟩,hrest⟩

/-- The variable an arm or the default knows the operand by: none, or a new one. -/
structure NewVar (p : Program) (bound : Nat) (binding : Option EntityId) (τ : Ty) : Prop where
  typed : ∀ v, binding = some v → p.VarOf v τ
  spare : ∀ v, binding = some v → p.Spare v
  fresh : ∀ v, binding = some v → bound ≤ v.index

private theorem NewVar.none (bound : Nat) (τ : Ty) : p.NewVar bound none τ := ⟨by simp,by simp,by simp⟩

private theorem NewVar.step (h : p.NewVar bound binding τ) (hs : p.Step lo hi q) : q.NewVar bound binding τ :=
  ⟨fun v hv => hs.grows.varOf (h.typed v hv),fun v hv => hs.spare (h.spare v hv),h.fresh⟩

private theorem NewVar.nested (h : p.NewVar bound binding τ)
    (hview : p.view inner = p.shadow seen binding.toList) (hg : p.Grows q) (hn : p.Enters inner [body] q) :
    q.Nested seen binding.toList [body] :=
  ⟨q.view inner,by rw [hg.shadow fun v hv => (h.spare v (by simpa using hv)).1,← hview]; exact hn⟩

/-- The operand of a match as it is known to its arms. -/
structure OperandOk (p : Program) (m : Match) (operand : Operand) : Prop where
  good : operand.type.Good p.entities
  guard : m.isTypeGuard = true → ∃ id, operand.type = .object id

private theorem Grows.operandOk (h : p.Grows q) (ho : p.OperandOk m operand) :
    q.OperandOk m operand := ⟨h.good ho.good,ho.guard⟩

private theorem operandOf_ok (hg : τ.Good p.entities) (h : operandOf m τ p = .ok operand q) :
    p = q ∧ operand.type = τ ∧ p.OperandOk m operand := by
  have h2 := node_bind_ok.mp h
  by_cases hgd : m.isTypeGuard = true
  · simp only [hgd,if_true] at h2
    cases τ with
    | object id =>
      cases h2
      exact ⟨rfl,rfl,hg,fun _ => ⟨id,rfl⟩⟩
    | _ => simp [bind_ok] at h2
  · simp only [hgd,Bool.false_eq_true,if_false] at h2
    generalize (!m.arms.isEmpty && !_ : Bool) = refused at h2
    cases refused with
    | true => simp [bind_ok] at h2
    | false =>
      cases h2
      exact ⟨rfl,rfl,hg,fun h => absurd h hgd⟩

inductive PatternOk (p : Program) (operand : Operand) (arm : Arm) : Option Ty → Option Ty → Prop
  | literal {l bound} : arm.pattern = .literal l → operand.type = .prim l.prim →
      (∀ τ, bound = some τ → τ = operand.type) → PatternOk p operand arm none bound
  | type {t object} : arm.pattern = .type t → (Ty.object object).Good p.entities →
      PatternOk p operand arm (some (.object object)) (some (.object object))

private theorem Inv.resolvePattern (hS : S.Sound) (hI : p.Inv) {r : Option Ty × Option Ty}
    (hg : ∀ t, arm.pattern = .type t → t.Good p.entities) (h : S.resolvePattern scope operand arm p = .ok r q) :
    p.Calm q ∧ q.PatternOk operand arm r.1 r.2 := by
  unfold Solver.resolvePattern at h
  cases hp : arm.pattern with
  | literal l =>
    simp only [hp] at h
    by_cases ht : Ty.prim l.prim = operand.type
    · simp only [ht,if_true] at h
      cases h
      refine ⟨.refl hI,.literal hp ht.symm fun τ hτ => ?_⟩
      obtain ⟨_,_,rfl⟩ := Option.map_eq_some_iff.mp hτ
      rfl
    · simp [ht,bind_ok] at h
  | type t =>
    simp only [hp] at h
    cases ho : operand.object with
    | none => simp [ho] at h
    | some object =>
      simp only [ho] at h
      obtain ⟨τ,p1,h1,h2⟩ := bind_ok.mp h
      obtain ⟨m1,hgood,_⟩ := hI.resolveType hS t (hg t hp) h1
      cases τ with
      | object tested =>
        obtain ⟨b1,p2,h3,h4⟩ := bind_ok.mp h2
        obtain ⟨b2,p3,h5,h6⟩ := bind_ok.mp h4
        obtain ⟨m2,_⟩ := m1.inv.extends? h3
        obtain ⟨m3,_⟩ := m2.inv.extends? h5
        have m := m1.trans (m2.trans m3)
        cases hb : b1 || b2 with
        | false => simp [hb,bind_ok] at h6
        | true =>
          simp only [hb,if_true] at h6
          cases h6
          exact ⟨m,.type hp ((m2.trans m3).grows.good hgood)⟩
      | _ => simp [bind_ok] at h2

private theorem Inv.armBinding (hI : p.Inv) {patternType bound : Option Ty} (h : (match operand.name, bound with
      | some name, some type => some <$> FormCompiler.bindOperand inner name type arm.location
      | _, _ => pure arm.binding : Check (Option EntityId)) p = .ok binding q) (hs : p.Local inner)
    (hg : operand.type.Good p.entities) (hp : p.PatternOk operand arm patternType bound)
    (hraw : arm.binding = none) :
    p.Calm q ∧ q.NewVar p.entities.size binding (patternType.getD operand.type) ∧
      q.view inner = q.shadow (p.view inner) binding.toList := by
  cases hn : operand.name with
  | none =>
    simp only [hn] at h
    cases h
    rw [hraw]
    exact ⟨.refl hI,.none _ _,rfl⟩
  | some name =>
    cases bound with
    | none =>
      simp only [hn] at h
      cases h
      rw [hraw]
      exact ⟨.refl hI,.none _ _,rfl⟩
    | some τ =>
      simp only [hn] at h
      obtain ⟨v,h1,rfl⟩ := map_ok.mp h
      obtain ⟨hτ,hgood⟩ : τ = patternType.getD operand.type ∧ τ.Good p.entities := by
        cases hp with
        | literal _ _ hb =>
          cases hb τ rfl
          exact ⟨rfl,hg⟩
        | type _ hgood => exact ⟨rfl,hgood⟩
      obtain ⟨m,hv,hsp,hnew,hview⟩ := hI.bindOperand hs hgood h1
      rw [← hτ]
      refine ⟨m,⟨?_,?_,?_⟩,hview⟩ <;> rintro _ ⟨⟩
      · exact hv
      · exact hsp
      · exact hnew

structure ArmOk (p : Program) (seen : View) (bound : Nat) (σ τ : Ty) (arm arm' : Arm) : Prop where
  body : arm'.body = arm.body
  pattern : arm'.pattern = arm.pattern
  typed : p.ArmTyped σ τ arm'
  spare : ∀ v, arm'.binding = some v → p.Spare v ∧ bound ≤ v.index
  lexical : p.Nested seen arm'.binding.toList [arm'.body]

private theorem Inv.resolveArm (hS : S.Sound) (hI : p.Inv) {r : Arm × Ty}
    (hr : p.Ready lo [arm.body] (arm.body.index + 1)) (hs : p.Local scope) (hg : operand.type.Good p.entities)
    (hpat : ∀ t, arm.pattern = .type t → t.Good p.entities) (hraw : arm.binding = none)
    (h : S.resolveArm scope operand arm p = .ok r q) :
    p.Moves lo (arm.body.index + 1) q ∧ q.ArmOk (p.view scope) p.entities.size operand.type r.2 arm r.1 ∧
      q.Typed arm.body r.2 := by
  obtain ⟨inner,p1,h1,h2⟩ := bind_ok.mp h
  obtain ⟨⟨patternType,bound⟩,p2,h3,h4⟩ := bind_ok.mp h2
  obtain ⟨m1,hinner⟩ := hI.pushScope hs.1 rfl h1
  obtain ⟨binding,p3,h5,h6⟩ : ∃ binding p3, (match operand.name, bound with
      | some name, some type => some <$> FormCompiler.bindOperand inner name type arm.location
      | _, _ => pure arm.binding : Check (Option EntityId)) p2 = .ok binding p3 ∧
      (do
        let type ← S.expr arm.body inner
        return ({ arm with binding, patternType }, type) : Check (Arm × Ty)) p3 = .ok r q := by
    cases hn : operand.name <;> cases bound <;> simp only [hn] at h4 ⊢ <;> exact bind_ok.mp h4
  obtain ⟨m2,hp⟩ := m1.inv.resolvePattern hS (fun t ht => m1.grows.goodExpr (hpat t ht)) h3
  obtain ⟨m3,hv,hview⟩ := m2.inv.armBinding h5 (m2.grows.local hinner) ((m1.trans m2).grows.good hg) hp hraw
  obtain ⟨τ,p4,h7,h8⟩ := bind_ok.mp h6
  cases h8
  have m13 := m1.trans (m2.trans m3)
  obtain ⟨m4,ht,hn⟩ := hS.expr m3.inv (hr.calm m13) (m3.grows.local (m2.grows.local hinner)) h7
  have hv4 := hv.step m4.step
  have hc : p1.Confines p2 := .of_types ((hS.follows.respectsTypes none).resolvePattern scope
    operand.type.avoids_none fun t _ => t.avoids_none) m1.inv.orderly h3
  rw [hc.view m1.inv.scopes m2.grows hinner.1,view_pushScope hI.scopes hs.1 h1] at hview
  have hnested := hv.nested hview m4.grows hn
  refine ⟨m13.moves.trans m4,⟨rfl,rfl,?_,fun v hb => ⟨hv4.spare v hb,?_⟩,hnested⟩,ht⟩
  · cases hp with
    | literal hpl hσ _ => exact .literal hpl hσ hv4.typed ⟨τ,ht,.refl τ⟩
    | type hpt hgood => exact .type hpt rfl hv4.typed ⟨τ,ht,.refl τ⟩ (m4.grows.good (m3.grows.good hgood))
  · exact Nat.le_trans (m1.trans m2).grows.entities (hv4.fresh v hb)

structure ArmsOk (p : Program) (seen : View) (bound : Nat) (σ : Ty) (all : Option Ty)
    (arms arms' : List Arm) : Prop where
  bodies : arms'.map (·.body) = arms.map (·.body)
  patterns : arms'.map (·.pattern) = arms.map (·.pattern)
  typed : ∀ τ, all = some τ → ∀ arm ∈ arms', p.ArmTyped σ τ arm
  spare : ∀ v ∈ arms'.filterMap (·.binding), p.Spare v ∧ bound ≤ v.index
  nodup : (arms'.filterMap (·.binding)).Nodup
  lexical : ∀ arm ∈ arms', p.Nested seen arm.binding.toList [arm.body]

private theorem ArmsOk.cons {mid : Nat} (h : p.ArmOk seen bound σ τ arm arm') (hs : p.ArmsOk seen mid σ all arms arms')
    (hb : ∀ ρ, all = some ρ → p.Below τ ρ) (hle : bound ≤ mid) (hlt : ∀ v, arm'.binding = some v → v.index < mid) :
    p.ArmsOk seen bound σ all (arm :: arms) (arm' :: arms') where
  bodies := by simp [h.body,hs.bodies]
  patterns := by simp [h.pattern,hs.patterns]
  typed ρ hρ a ha := by
    rcases mem_cons.mp ha with rfl | ha
    · exact h.typed.mono (hb ρ hρ)
    · exact hs.typed ρ hρ a ha
  spare v hv := by
    simp only [filterMap_cons] at hv
    split at hv
    · exact ⟨(hs.spare v hv).1,Nat.le_trans hle (hs.spare v hv).2⟩
    · rename_i w hw
      rcases mem_cons.mp hv with rfl | hv
      · exact h.spare v hw
      · exact ⟨(hs.spare v hv).1,Nat.le_trans hle (hs.spare v hv).2⟩
  nodup := by
    simp only [filterMap_cons]
    split
    · exact hs.nodup
    · rename_i w hw
      refine nodup_cons.mpr ⟨fun hm => ?_,hs.nodup⟩
      have := (hs.spare w hm).2
      have := hlt w hw
      omega
  lexical a ha := by
    rcases mem_cons.mp ha with rfl | ha
    · exact h.lexical
    · exact hs.lexical a ha

private theorem ArmOk.step (h : p.ArmOk seen bound σ τ arm arm') (hs : p.Step lo hi q) :
    q.ArmOk seen bound σ τ arm arm' :=
  ⟨h.body,h.pattern,hs.grows.armTyped h.typed,fun v hv => ⟨hs.spare (h.spare v hv).1,(h.spare v hv).2⟩,
    hs.grows.nested (fun v hv => (h.spare v (by simpa using hv)).1.1) h.lexical⟩

private theorem Inv.resolveArms (hS : S.Sound) {r : List Arm × Option Ty} (hI : p.Inv)
    (hr : p.Ready lo (arms.map (·.body)) hi) (hs : p.Local scope) (hg : operand.type.Good p.entities)
    (hpat : ∀ arm ∈ arms, ∀ t, arm.pattern = .type t → t.Good p.entities)
    (hraw : ∀ arm ∈ arms, arm.binding = none) (hb : ∀ τ, before = some τ → τ.Good p.entities)
    (h : S.resolveArms scope operand before arms p = .ok r q) :
    p.Moves lo hi q ∧ q.ArmsOk (p.view scope) p.entities.size operand.type r.2 arms r.1 ∧
      (∀ τ, r.2 = some τ → τ.Good q.entities ∧ (∀ σ, before = some σ → q.Below σ τ) ∧
        q.Merges before.toList (arms.map (·.body)) τ) ∧
      (r.2 = none → before = none ∧ arms = []) := by
  induction arms generalizing p lo before r with
  | nil =>
    cases h
    refine ⟨.refl hI,⟨rfl,rfl,by simp,by simp,by simp,by simp⟩,fun τ hτ => ⟨hb τ hτ,?_,?_⟩,
      fun h => ⟨h,rfl⟩⟩ <;> cases hτ
    · rintro _ ⟨⟩
      exact .refl _
    · exact ⟨[],.nil,by simpa using hI.finishedType hr.formed (hb τ rfl),.singleton τ⟩
  | cons arm arms ih =>
    simp only [map_cons] at hr
    obtain ⟨⟨arm',τ⟩,p1,h1,h2⟩ := bind_ok.mp h
    obtain ⟨ρ,p2,h3,h4⟩ := bind_ok.mp h2
    obtain ⟨⟨arms',all⟩,h5,rfl⟩ := bind_pure_ok.mp h4
    obtain ⟨hhead,hlo,hhi⟩ := hr.head
    obtain ⟨m1,harm,htyped⟩ := hI.resolveArm hS hhead hs hg (hpat arm (by simp)) (hraw arm (by simp)) h1
    obtain ⟨m2,hgρ,hbefore,hτρ,hmerges⟩ := m1.inv.joinedArm (m1.step.formed hr.formed)
      (fun σ hσ => m1.grows.good (hb σ hσ)) htyped h3
    have m12 := m1.trans m2.moves
    have hc1 : p.Confines p1 := .of_runs ((hS.follows.respects p.scopes.size).resolveArm operand.type.avoids_none
      trivial fun t _ => t.avoids_none) hI.orderly h1
    have hc2 : p1.Confines p2 := .of_types ((hS.follows.respectsTypes none).joinedArm
      (fun τ _ => τ.avoids_none) τ.avoids_none _) m1.inv.orderly h3
    obtain ⟨m3,harms,hall,hnone⟩ := ih m12.inv (hr.tail m12) (m12.grows.local hs) (m12.grows.good hg)
      (fun a ha t ht => m12.grows.goodExpr (hpat a (by simp [ha]) t ht)) (fun a ha => hraw a (by simp [ha]))
      (by rintro _ ⟨⟩; exact hgρ) h5
    rw [(hc1.trans hc2).view hI.scopes m12.grows hs.1] at harms
    refine ⟨(m12.mono (by omega)).trans (m3.mono (by omega)),?_,fun κ hκ => ?_,fun hn => ?_⟩
    · refine ArmsOk.cons ((harm.step m2.step).step m3.step) harms (fun κ hκ => ?_) m12.grows.entities fun v hv => ?_
      · exact (m3.grows.below hτρ).trans ((hall κ hκ).2.1 ρ rfl)
      · exact (m2.step.spare (harm.spare v hv).1).1
    · refine ⟨(hall κ hκ).1,fun σ hσ => ?_,(m3.grows.merges hmerges).append (hall κ hκ).2.2⟩
      exact (m3.grows.below (hbefore σ hσ)).trans ((hall κ hκ).2.1 ρ rfl)
    · cases (hnone hn).1

private theorem Inv.resolveDefault (hS : S.Sound) (hI : p.Inv) {r : Option EntityId × Ty}
    (hr : p.Ready lo [body] (body.index + 1)) (hs : p.Local scope) (hg : operand.type.Good p.entities)
    (h : S.resolveDefault scope operand body p = .ok r q) :
    p.Moves lo (body.index + 1) q ∧ q.NewVar p.entities.size r.1 operand.type ∧ q.Typed body r.2 ∧
      q.Nested (p.view scope) r.1.toList [body] := by
  obtain ⟨inner,p1,h1,h2⟩ := bind_ok.mp h
  obtain ⟨m1,hinner⟩ := hI.pushScope hs.1 rfl h1
  have hg1 := m1.grows.good hg
  obtain ⟨binding,p2,m2,hv,hview,h3⟩ : ∃ binding p2, p1.Calm p2 ∧ p2.NewVar p1.entities.size binding operand.type ∧
      p2.view inner = p2.shadow (p1.view inner) binding.toList ∧
      (do return (binding, ← S.expr body inner) : Check (Option EntityId × Ty)) p2 = .ok r q := by
    cases he : operand.explicit with
    | none =>
      simp only [he] at h2
      obtain ⟨binding,p2,h3,h4⟩ := bind_ok.mp h2
      cases h3
      exact ⟨none,p1,.refl m1.inv,.none _ _,rfl,h4⟩
    | some name =>
      simp only [he] at h2
      have h4 := node_bind_ok.mp h2
      obtain ⟨binding,p2,h5,h6⟩ := bind_ok.mp h4
      obtain ⟨v,h7,rfl⟩ := map_ok.mp h5
      obtain ⟨m2,hv,hsp,hnew,hview⟩ := m1.inv.bindOperand hinner hg1 h7
      refine ⟨some v,p2,m2,⟨?_,?_,?_⟩,hview,h6⟩ <;> rintro _ ⟨⟩
      · exact hv
      · exact hsp
      · exact hnew
  obtain ⟨τ,h4,rfl⟩ := bind_pure_ok.mp h3
  have m := m1.trans m2
  obtain ⟨m3,ht,hn⟩ := hS.expr m2.inv (hr.calm m) (m2.grows.local hinner) h4
  have hv3 := hv.step m3.step
  rw [view_pushScope hI.scopes hs.1 h1] at hview
  exact ⟨m.moves.trans m3,⟨hv3.typed,hv3.spare,fun v hb => Nat.le_trans m1.grows.entities (hv3.fresh v hb)⟩,
    ht,hv.nested hview m3.grows hn⟩

structure MatchOk (p : Program) (bound : Nat) (m m' : Match) (τ : Ty) : Prop where
  typed : ∃ σ, p.MatchTyped m' σ τ
  good : τ.Good p.entities
  children : (ExprShape.select m').children = (ExprShape.select m).children
  nodup : (ExprShape.select m').intros.Nodup
  spare : ∀ v ∈ (ExprShape.select m').intros, p.Spare v ∧ bound ≤ v.index

private theorem guard_of_patterns (h : arms'.map (·.pattern) = arms.map (·.pattern)) :
    arms'.any (·.pattern.isType) = arms.any (·.pattern.isType) := by
  have := congrArg (List.any · Pattern.isType) h
  simpa [any_map,Function.comp_def] using this

private theorem ArmsOk.step (h : p.ArmsOk seen bound σ all arms arms') (hs : p.Step lo hi q)
    (hall : ∀ ρ, all = some ρ → q.Below ρ τ) (hnone : all = none → arms = []) :
    q.ArmsOk seen bound σ (some τ) arms arms' where
  bodies := h.bodies
  patterns := h.patterns
  typed ρ hρ arm ha := by
    cases hρ
    cases all with
    | none =>
      have hb := h.bodies
      rw [hnone rfl] at hb
      cases map_eq_nil_iff.mp hb
      cases ha
    | some κ => exact (hs.grows.armTyped (h.typed κ rfl arm ha)).mono (hall κ rfl)
  spare v hv := ⟨hs.spare (h.spare v hv).1,(h.spare v hv).2⟩
  nodup := h.nodup
  lexical arm ha := hs.grows.nested
    (fun v hv => (h.spare v (mem_filterMap.mpr ⟨arm,ha,by simpa using hv⟩)).1.1) (h.lexical arm ha)

private theorem ArmsOk.matchTyped (h : p.ArmsOk seen bound operand.type (some τ) m.arms arms)
    (ho : p.OperandOk m operand) (ht : p.Typed m.operand operand.type)
    (hb : ∀ v, binding = some v → p.VarOf v operand.type) (hd : ∀ body, m.default = some body → p.Fits body τ)
    (hm : p.Merges [] (m.arms.map (·.body) ++ m.default.toList) τ) :
    p.MatchTyped { m with arms, defaultBinding := binding } operand.type τ where
  operand := ht
  arms := h.typed τ rfl
  default := hd
  defaultBinding := hb
  guard hg := ho.guard ((guard_of_patterns h.patterns).symm.trans hg)
  merges := by
    rw [← h.bodies] at hm
    exact hm

/-- The operand stands where the match does, the arms and the default in scopes of their own. -/
private theorem ArmsOk.lays {r : Program} (h : r.ArmsOk (q.view scope) bound σ all m.arms arms)
    (hn : p.Enters scope [m.operand] q) (hI : q.Inv) (hs : q.Local scope) (hg : q.Grows r) (hc : q.Confines r)
    (hd : ∀ body, m.default = some body → r.Nested (q.view scope) binding.toList [body]) :
    p.Lays scope (.select { m with arms, defaultBinding := binding }) r := by
  refine .of_parts hn hg (hc.view hI.scopes hg hs.1) (by simp [ExprShape.uses]) fun part hp => ?_
  simp only [ExprShape.inner,mem_append,mem_map,Option.mem_toList] at hp
  rcases hp with ⟨arm,ha,rfl⟩ | ⟨body,hb,rfl⟩
  · exact h.lexical arm ha
  · exact hd body hb

theorem Inv.resolveMatch (hS : S.Sound) (hI : p.Inv) {r : Match × Ty}
    (hr : p.Ready lo (ExprShape.select m).children hi) (hs : p.Local scope)
    (hraw : (ExprShape.select m).Raw p.entities) (h : S.resolveMatch location scope m p = .ok r q) :
    p.Moves lo hi q ∧ q.MatchOk p.entities.size m r.1 r.2 ∧ p.Lays scope (.select r.1) q := by
  obtain ⟨σ,p1,h1,h2⟩ := bind_ok.mp h
  obtain ⟨operand,_,h3,h4⟩ := bind_ok.mp h2
  obtain ⟨⟨arms,type⟩,p2,h5,h6⟩ := bind_ok.mp h4
  have hraw0 := hraw.intros
  simp only [ExprShape.intros,append_eq_nil_iff,filterMap_eq_nil_iff,Option.toList_eq_nil_iff] at hraw0
  -- the operand
  obtain ⟨hhead,hlo,hhi⟩ := hr.head
  obtain ⟨m1,hσ,hn⟩ := hS.expr hI hhead hs h1
  have hs1 := m1.grows.local hs
  obtain ⟨rfl,rfl,hop⟩ := operandOf_ok (m1.inv.nodes _ _ hσ).2 h3
  -- the arms
  obtain ⟨mid,hr1,hmid1,hmid2,hr2⟩ := (hr.tail m1).split
  obtain ⟨m2,harms,hall,hnone⟩ := m1.inv.resolveArms hS hr1 hs1 hop.good (by
    intro arm ha t ht
    refine m1.grows.goodExpr (hraw.good t ?_)
    simp only [ExprShape.typeExprs,mem_filterMap]
    exact ⟨arm,ha,by simp [ht]⟩) hraw0.1 (by simp) h5
  have m12 : p.Moves lo mid p2 := (m1.mono (by omega)).trans (m2.mono (by omega))
  have hσ2 := m2.grows.typed' hσ
  have hc2 : p1.Confines p2 := .of_runs ((hS.follows.respects p1.scopes.size).resolveArms operand.type.avoids_none
    m.arms (fun _ _ => trivial) (fun _ _ t _ => t.avoids_none) (fun τ _ => τ.avoids_none)) m1.inv.orderly h5
  cases hd : m.default with
  | none =>
    simp only [hd] at h6
    obtain ⟨rfl,rfl⟩ := pure_ok.mp h6
    cases type with
    | none =>
      have := hraw.cases m rfl
      simp [hd,(hnone rfl).2] at this
    | some τ =>
      have ht : p2.MatchTyped { m with arms } operand.type τ :=
        harms.matchTyped (m2.grows.operandOk hop) hσ2 (by simp [hraw0.2]) (by simp [hd])
          (by simpa [hd] using (hall τ rfl).2.2)
      have hlays : p.Lays scope (.select { m with arms }) p2 := harms.lays hn m1.inv hs1 m2.grows hc2 (by simp [hd])
      refine ⟨m12.mono (by omega),⟨⟨_,by simpa only [hd,Option.getD_some] using ht⟩,(hall τ rfl).1,?_,?_,?_⟩,
        by simpa only [hd] using hlays⟩
      · simp [ExprShape.children,harms.bodies,hd]
      · simpa [ExprShape.intros,hraw0.2] using harms.nodup
      · intro v hv
        simp only [ExprShape.intros,hraw0.2,Option.toList_none,append_nil] at hv
        exact ⟨(harms.spare v hv).1,Nat.le_trans m1.grows.entities (harms.spare v hv).2⟩
  | some body =>
    simp only [hd] at h6
    obtain ⟨⟨binding,bodyType⟩,p3,h7,h8⟩ := bind_ok.mp h6
    obtain ⟨τ,h9,rfl⟩ := bind_pure_ok.mp h8
    have hr3 : p2.Ready mid [body] hi := by simpa [hd] using hr2 m2
    obtain ⟨hhead3,hlo3,hhi3⟩ := hr3.head
    obtain ⟨m3,hvar,htb,hnested⟩ := m2.inv.resolveDefault hS hhead3 (m12.grows.local hs) (m2.grows.good hop.good) h7
    obtain ⟨m4,hgood,hbefore,hbody,hmerges⟩ := m3.inv.joinedArm (m3.step.formed hr3.formed)
      (fun κ hκ => m3.grows.good (hall κ hκ).1) htb h9
    have m34 := m3.trans m4.moves
    have harms4 := harms.step m34.step hbefore fun hn => (hnone hn).2
    have hvar4 := hvar.step m4.step
    have hor : (binding.or m.defaultBinding) = binding := by simp [hraw0.2]
    have ht : q.MatchTyped { m with arms, defaultBinding := binding.or m.defaultBinding } operand.type τ := by
      refine harms4.matchTyped ((m2.grows.trans m34.grows).operandOk hop) (m34.grows.typed' hσ2) ?_ ?_ ?_
      · rw [hor]
        exact hvar4.typed
      · rintro _ hb
        cases hd.symm.trans hb
        exact ⟨_,m4.grows.typed' htb,hbody⟩
      · rw [hd]
        cases type with
        | none => simpa [(hnone rfl).2] using hmerges
        | some κ => exact (m34.grows.merges (hall κ rfl).2.2).append hmerges
    have hlays : p.Lays scope (.select { m with arms, defaultBinding := binding.or m.defaultBinding }) q := by
      refine harms4.lays hn m1.inv hs1 (m2.grows.trans m34.grows) (hc2.trans ?_) fun b hb => ?_
      · have hc3 : p2.Confines p3 := .of_runs ((hS.follows.respects p2.scopes.size).resolveDefault
          operand.type.avoids_none trivial) m2.inv.orderly h7
        exact hc3.trans (.of_types ((hS.follows.respectsTypes none).joinedArm (fun τ _ => τ.avoids_none)
          bodyType.avoids_none _) m3.inv.orderly h9)
      · cases hd.symm.trans hb
        rw [hor]
        rw [hc2.view m1.inv.scopes m2.grows hs1.1] at hnested
        exact m4.grows.nested (fun v hv => (hvar.spare v (by simpa using hv)).1) hnested
    refine ⟨(m12.mono (by omega)).trans (m34.mono (by omega)),
      ⟨⟨_,by simpa only [hd] using ht⟩,hgood,?_,?_,?_⟩,by simpa only [hd] using hlays⟩
    · simp [ExprShape.children,harms.bodies,hd]
    · simp only [ExprShape.intros,hor]
      refine nodup_append.mpr ⟨harms4.nodup,by cases binding <;> simp,fun v hv w hw => ?_⟩
      rintro rfl
      have h1 := ((harms.spare v hv).1).1
      have h2 := hvar.fresh v (by simpa using hw)
      omega
    · intro v hv
      simp only [ExprShape.intros,hor,mem_append] at hv
      rcases hv with hv | hv
      · exact ⟨(harms4.spare v hv).1,Nat.le_trans m1.grows.entities (harms4.spare v hv).2⟩
      · have hv' : binding = some v := by simpa using hv
        exact ⟨hvar4.spare v hv',Nat.le_trans m12.grows.entities (hvar4.fresh v hv')⟩

end Program

end FormCompiler
