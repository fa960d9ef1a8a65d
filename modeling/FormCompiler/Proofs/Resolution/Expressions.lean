import FormCompiler.Proofs.Resolution.Matches

/-! Expressions: each node gets a type that its parts justify. One lemma for each kind of node, then the
solver as a whole by induction on how deep questions may nest. -/

namespace FormCompiler

open Check ExprShape Solver

namespace Program

variable {declared : Option TypeExpr} {location : Location} {test init : ExprId} {name : String} {p q r : Program}
  {S : Solver} {lo hi : Nat}

structure Resolved (p : Program) (lo : Nat) (scope : ScopeId) (id : ExprId) (τ : Ty) (q : Program) : Prop extends
    moves : p.Moves lo (id.index + 1) q where
  loose : q.Loose id
  untyped : (q.exprs.get id).type = none
  typed : q.NodeTyped (q.exprs.get id).shape τ
  good : τ.Good q.entities
  laid : p.Lays scope (q.exprs.get id).shape q

variable {scope : ScopeId} {id : ExprId} {τ : Ty}

/-- Filling the slots of a node after its parts are resolved. -/
private theorem Moves.fill {shape : ExprShape} (m : p.Moves lo id.index q) (ho : q.Open id)
    (hlo : lo ≤ id.index) (hc : shape.children = (q.exprs.get id).shape.children)
    (hd : shape.intros.Nodup) (hv : ∀ v ∈ shape.intros, q.Spare v ∧ p.entities.size ≤ v.index)
    (ht : q.NodeTyped shape τ) (hg : τ.Good q.entities) (hl : p.Lays scope shape q)
    (h : r = { q with exprs := q.exprs.setShape id shape }) :
    p.Resolved lo scope id τ r := by
  subst h
  have self := Arena.get_setShape_self ho.loose.1 shape
  have hg' : q.Grows { q with exprs := q.exprs.setShape id shape } := .setShape ho.loose.1 ho.untyped hc
  refine ⟨⟨m.inv.setShape ho.loose ho.untyped hc hd (fun v hm => (hv v hm).1),?_⟩,?_,?_,?_,hg,?_⟩
  · exact (m.step.mono (by omega)).setShape ho.loose ho.untyped hc hlo (by omega) fun v hm => (hv v hm).2
  · exact ⟨by simpa using ho.loose.1,ho.loose.2⟩
  · simp only [self]
    exact ho.untyped
  · simp only [self]
    exact hg'.nodeTyped ht
  · simp only [self]
    exact hl.grows hg' rfl rfl

private theorem Inv.resolveSequence (hS : S.Sound) {ids : List ExprId} {last : Ty} (hI : p.Inv)
    (hr : p.Ready lo ids hi) (hs : p.Local scope) (hl : last.Good p.entities)
    (h : S.resolveSequence scope last ids p = .ok τ q) :
    p.Moves lo hi q ∧ q.SeqTyped last ids τ ∧ τ.Good q.entities ∧ p.Enters scope ids q := by
  induction ids generalizing p lo last with
  | nil =>
    cases h
    exact ⟨.refl hI,rfl,hl,.nil⟩
  | cons id ids ih =>
    obtain ⟨σ,p1,h1,h2⟩ := bind_ok.mp h
    obtain ⟨hhead,hlo,hhi⟩ := hr.head
    obtain ⟨m1,ht,hn⟩ := hS.expr hI hhead hs h1
    obtain ⟨m2,hseq,hg,hns⟩ := ih m1.inv (hr.tail m1) (m1.grows.local hs) (m1.inv.nodes _ _ ht).2 h2
    exact ⟨(m1.mono (by omega)).trans (m2.mono (by omega)),⟨σ,m2.grows.typed' ht,hseq⟩,hg,hn.cons m2.grows hns⟩

private theorem Inv.resolveCondition (hS : S.Sound) (hI : p.Inv) {u : Unit}
    (hr : p.Ready lo [test] (test.index + 1)) (hs : p.Local scope) (h : S.resolveCondition scope test p = .ok u q) :
    p.Moves lo (test.index + 1) q ∧ q.Fits test .bool ∧ p.Enters scope [test] q := by
  obtain ⟨σ,p1,h1,h2⟩ := bind_ok.mp h
  have h4 := node_bind_ok.mp h2
  obtain ⟨m1,ht,hn⟩ := hS.expr hI hr hs h1
  obtain ⟨m2,_,hb⟩ := m1.inv.expectAssignable (m1.inv.nodes _ _ ht).2 h4
  exact ⟨m1.trans m2.moves,⟨σ,m2.grows.typed' ht,hb⟩,hn.calm m1.inv (m1.grows.local hs) m2.grows
    (.of_types ((hS.follows.respectsTypes none).expectAssignable _ _ _) m1.inv.orderly h4)⟩

private theorem Inv.definedType (hS : S.Sound) (hI : p.Inv) (hr : p.Ready lo [init] (init.index + 1))
    (hs : p.Local scope)
    (hd : ∀ t, declared = some t → t.Good p.entities) (h : S.definedType scope declared init p = .ok τ q) :
    p.Moves lo (init.index + 1) q ∧ q.Fits init τ ∧ τ.Good q.entities ∧ p.Enters scope [init] q := by
  have hT := hS.follows.respectsTypes none
  obtain ⟨σ,p1,h1,h2⟩ := bind_ok.mp h
  obtain ⟨m1,ht,hn⟩ := hS.expr hI hr hs h1
  have hg := (m1.inv.nodes _ _ ht).2
  cases declared with
  | none =>
    obtain ⟨rfl,rfl⟩ := pure_ok.mp h2
    exact ⟨m1,⟨σ,ht,.refl σ⟩,hg,hn⟩
  | some t =>
    obtain ⟨wanted,p2,h3,h4⟩ := bind_ok.mp h2
    have h6 := node_bind_ok.mp h4
    obtain ⟨_,h7,rfl⟩ := bind_pure_ok.mp h6
    obtain ⟨m2,hw,_⟩ := m1.inv.resolveType hS t (m1.grows.goodExpr (hd t rfl)) h3
    obtain ⟨m3,_,hb⟩ := m2.inv.expectAssignable (m2.grows.good hg) h7
    exact ⟨m1.trans (m2.moves.trans m3.moves),⟨σ,m3.grows.typed' (m2.grows.typed' ht),hb⟩,m3.grows.good hw,
      hn.calm m1.inv (m1.grows.local hs) (m2.grows.trans m3.grows)
        ((Confines.of_types (hT.resolveType scope t.avoids_none) m1.inv.orderly h3).trans
          (.of_types (hT.expectAssignable _ _ _) m2.inv.orderly h7))⟩

private theorem variableNamed_ok {x : EntityId × Ty × Bool}
    (h : variableNamed scope name location p = .ok x q) : p = q ∧ p.entities.kind x.1 = .var x.2.1 x.2.2 ∧ p.view scope name = some x.1 := by
  have h2 := get_bind_ok.mp h
  cases hr : p.scopes.resolve? p.entities scope name with
  | none => simp [hr] at h2
  | some v =>
    simp only [hr] at h2
    cases hk : (p.entities.get v).kind with
    | var τ mutable =>
      simp only [hk] at h2
      cases h2
      exact ⟨rfl,hk,by simp [Program.view,hr,EntityTable.kind,hk,EntityKind.isVar]⟩
    | _ => simp [hk] at h2

/-- While its parts are resolved, a node stays as it was. -/
private theorem Ready.still (hr : p.Ready lo [id] (id.index + 1)) (m : p.Moves lo id.index q) :
    q.Open id ∧ q.exprs.get id = p.exprs.get id ∧ lo ≤ id.index :=
  ⟨m.step.open hr.self (by omega),m.step.frame id hr.self.loose (by omega),hr.head.2.1⟩

private theorem Moves.resolved (m : p.Moves lo id.index q) (hr : p.Ready lo [id] (id.index + 1))
    (ht : q.NodeTyped (p.exprs.get id).shape τ) (hg : τ.Good q.entities) (hl : p.Lays scope (p.exprs.get id).shape q) :
    p.Resolved lo scope id τ q := by
  obtain ⟨ho,he,_⟩ := hr.still m
  exact ⟨m.mono (by omega),ho.loose,ho.untyped,he ▸ ht,hg,he ▸ hl⟩

section Nodes

variable {old : Option EntityId}

/-- A branch in a scope of its own. -/
private theorem Inv.resolveBranch (hS : S.Sound) (hI : p.Inv) {body : ExprId}
    (hr : p.Ready lo (body :: []) (body.index + 1)) (hs : p.Local scope) (h : (do
      let inner ← Check.pushScope scope .block
      S.expr body inner : Check Ty) p = .ok τ q) :
    p.Moves lo (body.index + 1) q ∧ q.Typed body τ ∧ q.Nested (p.view scope) [] [body] ∧
      q.view scope = p.view scope := by
  obtain ⟨inner,p1,h1,h2⟩ := bind_ok.mp h
  obtain ⟨m1,hinner⟩ := hI.pushScope hs.1 rfl h1
  obtain ⟨m2,ht,hn⟩ := hS.expr m1.inv (hr.calm m1) hinner h2
  have hc : p.Confines q := .inner h1 m1.inv.orderly (hS.follows.expr body (Nat.le_refl inner.index)) h2
  exact ⟨m1.moves.trans m2,ht,⟨q.view inner,view_pushScope hI.scopes hs.1 h1 ▸ hn⟩,
    hc.view hI.scopes (m1.grows.trans m2.grows) hs.1⟩

variable (hS : S.Sound) (hI : p.Inv) (hr : p.Ready lo [id] (id.index + 1)) (hs : p.Local scope)
  (h : S.resolveShape id scope location (p.exprs.get id).shape p = .ok τ q)
include hS hI hr hs h

omit hS hs in
private theorem Inv.resolveName (hshape : (p.exprs.get id).shape = .name name old) : p.Resolved lo scope id τ q := by
  simp only [hshape,resolveShape] at h
  obtain ⟨⟨v,σ,mutable⟩,_,h1,h2⟩ := bind_ok.mp h
  obtain ⟨_,h3,rfl⟩ := bind_pure_ok.mp h2
  obtain ⟨rfl,hv,hview⟩ := variableNamed_ok h1
  have m : p.Moves lo id.index p := .refl hI
  exact m.fill hr.self hr.head.2.1 (by rw [hshape]; rfl) (by simp [intros])
    (by simp [intros]) (.name ⟨_,hv⟩) (hI.varOk ⟨_,hv⟩)
    (.of_parts .nil (.refl p) rfl (by simpa [uses] using hview) (by simp [ExprShape.inner]))
    (setShape_ok.mp h3)

private theorem Inv.resolveBlock {body : List ExprId} {old : Option ScopeId}
    (hshape : (p.exprs.get id).shape = .block body old) : p.Resolved lo scope id τ q := by
  simp only [hshape,resolveShape] at h
  obtain ⟨inner,p1,h1,h2⟩ := bind_ok.mp h
  obtain ⟨σ,p2,h3,h4⟩ := bind_ok.mp h2
  obtain ⟨_,h5,rfl⟩ := bind_pure_ok.mp h4
  have hparts := hr.parts
  rw [hshape] at hparts
  obtain ⟨m1,hinner⟩ := hI.pushScope hs.1 rfl h1
  obtain ⟨m2,hseq,hg,hn⟩ := m1.inv.resolveSequence hS (hparts.calm m1) hinner
    (show Ty.void.Good p1.entities from trivial) h3
  have m : p.Moves lo id.index p2 := m1.moves.trans m2
  obtain ⟨ho,he,hlo⟩ := hr.still m
  have hc : p.Confines p2 :=
    .inner h1 m1.inv.orderly ((hS.follows.respects inner.index).resolveSequence (Nat.le_refl _) body
      (fun _ _ => trivial) (show Ty.void.Avoids _ from trivial)) h3
  exact m.fill ho hlo (by rw [he,hshape]; rfl) (by simp [intros]) (by simp [intros])
    (.block hseq) hg (.of_parts .nil m.grows (hc.view hI.scopes m.grows hs.1) (by simp [uses]) (by
        simp only [ExprShape.inner,List.mem_singleton]
        rintro _ rfl
        exact ⟨p2.view inner,view_pushScope hI.scopes hs.1 h1 ▸ hn⟩))
    (setShape_ok.mp h5)

private theorem Inv.resolveDefine {mutable : Bool}
    (hshape : (p.exprs.get id).shape = .define name declared init mutable old) : p.Resolved lo scope id τ q := by
  simp only [hshape,resolveShape] at h
  obtain ⟨σ,p1,h1,h2⟩ := bind_ok.mp h
  have hparts := hr.parts
  have hraw := hr.self.raw
  rw [hshape] at hparts hraw
  obtain ⟨hhead,_,hhi⟩ := hparts.head
  obtain ⟨m1,hfit,hg,hn⟩ := hI.definedType hS hhead hs (fun t ht => hraw.good t (by simp [typeExprs,ht])) h1
  cases hval : σ.hasValue with
  | false => simp [hval,bind_ok] at h2
  | true =>
    simp only [hval,if_true] at h2
    obtain ⟨v,p2,h3,h4⟩ := bind_ok.mp h2
    obtain ⟨_,p3,h5,h6⟩ := bind_ok.mp h4
    obtain ⟨_,h7,rfl⟩ := bind_pure_ok.mp h6
    obtain ⟨m2,hvar,hspare,hnew,hview⟩ := m1.inv.declareVar (m1.grows.local hs) hg h3 h5
    have m : p.Moves lo id.index p3 := (m1.mono (by omega)).trans m2.moves
    obtain ⟨ho,he,hlo⟩ := hr.still m
    refine m.fill ho hlo (by rw [he,hshape]; rfl) (by simp [intros]) ?_
      (.define (m2.grows.fits hfit) hvar hval) trivial
      (.of_parts hn m2.grows hview (by simp [uses]) (by simp [ExprShape.inner]))
      (setShape_ok.mp h7)
    intro w hw
    cases List.mem_singleton.mp hw
    exact ⟨hspare,Nat.le_trans m1.grows.entities hnew⟩

private theorem Inv.resolveAssign {value : ExprId} (hshape : (p.exprs.get id).shape = .assign name value old) :
    p.Resolved lo scope id τ q := by
  simp only [hshape,resolveShape] at h
  obtain ⟨⟨v,wanted,mutable⟩,_,h1,h2⟩ := bind_ok.mp h
  obtain ⟨rfl,hv,hview⟩ := variableNamed_ok h1
  cases mutable with
  | false => simp [bind_ok] at h2
  | true =>
    obtain ⟨σ,p1,h3,h4⟩ := bind_ok.mp h2
    have h6 := node_bind_ok.mp h4
    obtain ⟨_,p2,h7,h8⟩ := bind_ok.mp h6
    obtain ⟨_,h9,rfl⟩ := bind_pure_ok.mp h8
    have hparts := hr.parts
    rw [hshape] at hparts
    obtain ⟨hhead,_,hhi⟩ := hparts.head
    obtain ⟨m1,ht,hn⟩ := hS.expr hI hhead hs h3
    obtain ⟨m2,_,hb⟩ := m1.inv.expectAssignable (m1.inv.nodes _ _ ht).2 h7
    have m : p.Moves lo id.index p2 := (m1.mono (by omega)).trans m2.moves
    obtain ⟨ho,he,hlo⟩ := hr.still m
    exact m.fill ho hlo (by rw [he,hshape]; rfl) (by simp [intros]) (by simp [intros])
      (.assign (m.grows.var hv) ⟨σ,m2.grows.typed' ht,hb⟩) trivial
      (.of_parts (hn.calm m1.inv (m1.grows.local hs) m2.grows
        (.of_types ((hS.follows.respectsTypes none).expectAssignable _ _ _) m1.inv.orderly h7)) (.refl p2) rfl
        (by simpa [uses] using hview) (by simp [ExprShape.inner])) (setShape_ok.mp h9)

private theorem Inv.resolveCallNode {args : List ExprId} {typeArgs : List TypeExpr} {old : Option CallTarget}
    (hshape : (p.exprs.get id).shape = .call name args typeArgs old) : p.Resolved lo scope id τ q := by
  simp only [hshape,resolveShape] at h
  obtain ⟨⟨target,σ⟩,p1,h1,h2⟩ := bind_ok.mp h
  obtain ⟨_,h3,rfl⟩ := bind_pure_ok.mp h2
  have hparts := hr.parts
  have hraw := hr.self.raw
  rw [hshape] at hparts hraw
  obtain ⟨m,hc,hg,hn⟩ := hI.resolveCall hS hparts hs hraw.good h1
  obtain ⟨ho,he,hlo⟩ := hr.still m
  exact m.fill ho hlo (by rw [he,hshape]; rfl) (by simp [intros]) (by simp [intros])
    (.call hc) hg (.of_parts hn (.refl p1) rfl (by simp [uses]) (by simp [ExprShape.inner]))
    (setShape_ok.mp h3)

private theorem Inv.resolveSelect {m : Match} (hshape : (p.exprs.get id).shape = .select m) :
    p.Resolved lo scope id τ q := by
  simp only [hshape,resolveShape] at h
  obtain ⟨⟨m',σ⟩,p1,h1,h2⟩ := bind_ok.mp h
  obtain ⟨_,h3,rfl⟩ := bind_pure_ok.mp h2
  have hparts := hr.parts
  have hraw := hr.self.raw
  rw [hshape] at hparts hraw
  obtain ⟨mv,hm,hl⟩ := hI.resolveMatch hS hparts hs hraw h1
  obtain ⟨ho,he,hlo⟩ := hr.still mv
  obtain ⟨ρ,ht⟩ := hm.typed
  exact mv.fill ho hlo (by rw [he,hshape]; exact hm.children) hm.nodup hm.spare (.select ht) hm.good hl
    (setShape_ok.mp h3)

private theorem Inv.resolveCond {yes : ExprId} {no : Option ExprId}
    (hshape : (p.exprs.get id).shape = .cond test yes no) : p.Resolved lo scope id τ q := by
  simp only [hshape,resolveShape] at h
  obtain ⟨_,p1,h1,h2⟩ := bind_ok.mp h
  obtain ⟨inner,p2,h3,h4⟩ := bind_ok.mp h2
  obtain ⟨σ,p3,h5,h6⟩ := bind_ok.mp h4
  have hparts := hr.parts
  rw [hshape] at hparts
  obtain ⟨hhead,hlo1,_⟩ := hparts.head
  obtain ⟨m1,hfit,hn⟩ := hI.resolveCondition hS hhead hs h1
  have hparts1 := hparts.tail m1
  have hs1 := m1.grows.local hs
  obtain ⟨hhead1,hlo2,_⟩ := hparts1.head
  obtain ⟨m2,hyes,hc2,hv2⟩ := m1.inv.resolveBranch hS hhead1 hs1 (bind_ok.mpr ⟨inner,p2,h3,h5⟩)
  have hparts2 := hparts1.tail m2
  cases no with
  | none =>
    obtain ⟨rfl,rfl⟩ := pure_ok.mp h6
    have m : p.Moves lo id.index p3 := (m1.mono (by omega)).trans (m2.mono (by omega))
    refine m.resolved hr ?_ trivial ?_ <;> rw [hshape]
    · exact .when (m2.grows.fits hfit) hyes
    · exact .of_parts hn m2.grows hv2 (by simp [ExprShape.uses]) (by simpa [ExprShape.inner] using hc2)
  | some no =>
    obtain ⟨inner',p4,h7,h8⟩ := bind_ok.mp h6
    obtain ⟨ρ,p5,h9,h10⟩ := bind_ok.mp h8
    obtain ⟨hhead2,hlo3,hhi3⟩ := hparts2.head
    obtain ⟨m3,hno,hc3,hv3⟩ := m2.inv.resolveBranch hS hhead2 (m2.grows.local hs1) (bind_ok.mpr ⟨inner',p4,h7,h9⟩)
    have hgyes := m3.grows.good (m2.inv.nodes _ _ hyes).2
    have hgno := (m3.inv.nodes _ _ hno).2
    have hF3 := m3.step.formed hparts2.formed
    obtain ⟨m4,hg,hb1,hb2,hj⟩ := m3.inv.joined hgyes hgno h10
    have m : p.Moves lo id.index q :=
      (m1.mono (by omega)).trans ((m2.mono (by omega)).trans ((m3.mono (by omega)).trans m4.moves))
    have g34 := m3.grows.trans m4.grows
    refine m.resolved hr ?_ hg ?_ <;> rw [hshape]
    · have hyes4 := g34.typed' hyes
      have hno4 := m4.grows.typed' hno
      refine .cond (g34.fits (m2.grows.fits hfit)) ⟨σ,hyes4,hb1⟩ ⟨ρ,hno4,hb2⟩
        ⟨[σ,ρ],.cons hyes4 (.cons hno4 .nil),?_,hj⟩
      simpa using ⟨m4.grows.finished (m3.inv.finishedType hF3 hgyes),m4.grows.finished (m3.inv.finishedType hF3 hgno)⟩
    · have hc : p5.Confines q :=
        .of_types ((hS.follows.respectsTypes none).joined σ.avoids_none ρ.avoids_none _) m3.inv.orderly h10
      have hv4 := hc.view m3.inv.scopes m4.grows (m3.grows.local (m2.grows.local hs1)).1
      refine .of_parts hn (m2.grows.trans g34) (hv4.trans (hv3.trans hv2)) (by simp [uses]) ?_
      simpa [ExprShape.inner] using ⟨g34.nested (by simp) hc2,m4.grows.nested (by simp) (hv2 ▸ hc3)⟩

private theorem Inv.resolveLoop {body : ExprId} (hshape : (p.exprs.get id).shape = .loop test body) :
    p.Resolved lo scope id τ q := by
  simp only [hshape,resolveShape] at h
  obtain ⟨_,p1,h1,h2⟩ := bind_ok.mp h
  obtain ⟨inner,p2,h3,h4⟩ := bind_ok.mp h2
  obtain ⟨σ,h5,rfl⟩ := bind_pure_ok.mp h4
  have hparts := hr.parts
  rw [hshape] at hparts
  obtain ⟨hhead,hlo1,_⟩ := hparts.head
  obtain ⟨m1,hfit,hn⟩ := hI.resolveCondition hS hhead hs h1
  have hparts1 := hparts.tail m1
  obtain ⟨hhead1,hlo2,hhi2⟩ := hparts1.head
  obtain ⟨m2,hbody,hc2,hv2⟩ := m1.inv.resolveBranch hS hhead1 (m1.grows.local hs) (bind_ok.mpr ⟨inner,p2,h3,h5⟩)
  have m : p.Moves lo id.index q := (m1.mono (by omega)).trans (m2.mono (by omega))
  refine m.resolved hr ?_ trivial ?_ <;> rw [hshape]
  · exact .loop (m2.grows.fits hfit) hbody
  · exact .of_parts hn m2.grows hv2 (by simp [ExprShape.uses]) (by simpa [ExprShape.inner] using hc2)

private theorem Inv.resolveShape : p.Resolved lo scope id τ q := by
  cases hshape : (p.exprs.get id).shape with
  | literal l =>
    rw [hshape] at h
    cases h
    have m : p.Moves lo id.index p := .refl hI
    refine m.resolved hr ?_ trivial ?_ <;> rw [hshape]
    · exact .literal l
    · exact .of_parts .nil (.refl p) rfl (by simp [uses]) (by simp [ExprShape.inner])
  | name n old => exact hI.resolveName hr h hshape
  | block body old => exact hI.resolveBlock hS hr hs h hshape
  | define n declared init mutable old => exact hI.resolveDefine hS hr hs h hshape
  | assign n value old => exact hI.resolveAssign hS hr hs h hshape
  | call n args typeArgs old => exact hI.resolveCallNode hS hr hs h hshape
  | object fields =>
    rw [hshape] at h
    simp [Solver.resolveShape] at h
  | cond test yes no => exact hI.resolveCond hS hr hs h hshape
  | loop test body => exact hI.resolveLoop hS hr hs h hshape
  | select m => exact hI.resolveSelect hS hr hs h hshape

end Nodes

private theorem Inv.resolveExpr (hS : S.Sound) (hI : p.Inv) (hr : p.Ready lo [id] (id.index + 1)) (hs : p.Local scope)
    (h : S.resolveExpr id scope p = .ok τ q) : p.Moves lo (id.index + 1) q ∧ q.Typed id τ ∧ p.Enters scope [id] q := by
  have h2 := node_bind_ok.mp h
  obtain ⟨σ,p1,h3,h4⟩ := bind_ok.mp h2
  obtain ⟨_,h5,rfl⟩ := bind_pure_ok.mp h4
  cases modify_ok.mp h5
  have hn := hI.resolveShape hS hr hs h3
  obtain ⟨m2,ht⟩ := hn.inv.setType hn.loose hn.untyped hn.typed hn.good
  have hlo := hr.head.2.1
  have hl := hn.laid.grows m2.grows rfl rfl
  exact ⟨hn.moves.trans (m2.mono (by omega)),ht,hl.enters ht m2.inv (by simp [Arena.get_setType_self hn.loose.1])⟩

end Program

/-- Whatever the solver answers is right. -/
theorem Solver.sound_upTo (budget : Nat) : (upTo budget).Sound := by
  induction budget with
  | zero =>
    refine ⟨follows_upTo (Nat.le_refl 0),fun _ h => ?_,fun _ h => ?_,fun _ _ _ h => ?_⟩ <;> simp [upTo] at h
  | succ budget ih =>
    exact ⟨follows_upTo (Nat.le_refl _),fun hI h => hI.resolveAlias ih h,fun hI h => hI.resolveObject ih h,
      fun hI hr hs h => hI.resolveExpr ih hr hs h⟩

end FormCompiler
