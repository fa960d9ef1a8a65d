import FormCompiler.Proofs.Resolution.Order

/-! The actions that work on a definition or a node. An object is started, gets its parent and its layout; a function
gets its signature before its body; a node gets its type after its slots were filled; and resolution of a program leaves
nothing unfinished unless it is refused. -/

namespace FormCompiler

open Check EntityTable Solver Program

variable {G : EntityId → Prop} {S T : Solver} {p q : Program}

namespace Program

variable {id : ExprId} {lo : Nat}

/-- Changes of nodes that only fill their slots. -/
theorem Reaches.nodes (hO : p.Orderly) {a : Arena} (hs : a.size = p.exprs.size)
    (hb : ∀ n, (a.get n).shape.blank = (p.exprs.get n).shape.blank) :
    p.Evolves G (some lo) { p with exprs := a } ∧ p.Reaches none { p with exprs := a } :=
  ⟨.single (.nodes fun n => .inl (hb n)),.of_entities hO rfl (Nat.le_of_eq hs.symm) (fun n _ => hb n) rfl rfl⟩

/-- A node gets a type. -/
theorem Reaches.typed (h : p.Reaches none q) (id : ExprId) (τ : Ty) :
    q.Evolves G (some lo) { q with exprs := q.exprs.setType id τ } ∧
      p.Reaches none { q with exprs := q.exprs.setType id τ } := by
  refine (Reaches.nodes h.orderly (by simp) fun n => ?_).imp_right h.trans
  by_cases hn : n = id
  · subst hn
    by_cases hlt : n.index < q.exprs.size
    · rw [Arena.get_setType_self hlt]
    · rw [Arena.get_of_size_le (by simpa using hlt),Arena.get_of_size_le (by simpa using hlt)]
  · rw [Arena.get_setType_ne hn]

/-- The slots of a node are filled after its parts were asked about. -/
theorem Reaches.fill (h : p.Reaches none q) {s : ExprShape} (hid : id.index < p.exprs.size)
    (hb : s.blank = (p.exprs.get id).shape.blank) : q.Evolves G (some lo) { q with exprs := q.exprs.setShape id s } ∧
      p.Reaches none { q with exprs := q.exprs.setShape id s } := by
  refine (Reaches.nodes h.orderly (by simp) fun n => ?_).imp_right h.trans
  by_cases hn : n = id
  · subst hn
    rw [Arena.get_setShape_self (Nat.lt_of_lt_of_le hid h.advances.exprs)]
    exact hb.trans (h.advances.shape n hid).symm
  · rw [Arena.get_setShape_ne hn]

end Program

namespace Solver

/-- The second solver makes changes one by one and settles what it starts, and the first one gives the same answers
unless its budget runs out. A type that was asked about is finished. -/
structure Follows (G : EntityId → Prop) (S T : Solver) : Prop where
  aliased (id : EntityId) : Runs G none (S.aliased id) (T.aliased id) fun τ q =>
    τ.Avoids G ∧ ∃ d, q.entities.kind id = .typeAlias d ∧ d.stage = .done ∧ d.resolved = some τ
  object (id : EntityId) : Runs G none (S.object id) (T.object id) fun _ q =>
    ∃ d, q.entities.kind id = .object d ∧ (d.stage = .done ∨ d.isGeneric = true)
  expr (id : ExprId) {scope : ScopeId} {lo : Nat} : lo ≤ scope.index →
    Runs G (some lo) (S.expr id scope) (T.expr id scope) fun τ _ => τ.Avoids G

namespace Follows

variable {scope : ScopeId} (h : S.Follows G T)
include h
variable {args : List Ty} {id : EntityId}

/-! ### Types -/

theorem instantiateObject (generic : EntityId) (location : Location) (ha : ∀ τ ∈ args, τ.Avoids G) :
    Runs G none (S.instantiateObject generic args location) (T.instantiateObject generic args location) fun id q =>
      ¬ G id ∧ (args, id) ∈ (q.entities.kind generic).instances := by
  intro p hp
  have hO := hp.orderly
  refine .look (a := p.entities.get generic) rfl ?_
  split
  · exact .throw _ (.refl hO)
  · rename_i d hd
    have hk : p.entities.kind generic = .object d := object?_eq_some.mp hd
    refine .expectArity (fun harity => ?_) (.refl hO)
    split
    · rename_i hsome
      exact .pure ⟨.refl hO,(hp.avoids.object hk).instances _ _ hsome,hk ▸ mem_of_lookup hsome⟩
    · rename_i hnone
      have hn : args ∉ (p.entities.kind generic).keys := by
        rw [hk]
        exact not_mem_keys_of_cached? hnone
      refine .enterInstance (fun hfree => ?_) (.refl hO)
      -- The instance is added and its layout found while the key is locked.
      let pA := p.entering generic args
      let pB : Program := { pA with entities := (p.entities.alloc (p.entities.get generic).name
          (p.entities.get generic).location (.object (objectInstance generic d args))).2 }
      have hA : pA.Leaves none pB := .alloc (p := pA) (hO.of_entities rfl) _ _ (.of_new rfl (by simp) (by simp)) rfl
      have hC : pA.Evolves G none pB := .single (.alloc _ _ ((hp.avoids.object hk).instance ha hp.avoids.size)
        (by rintro _ ⟨⟩; exact ⟨generic,d,args,hk,harity,rfl⟩) (by simp) (by simp))
      have hE : p.Evolves G none pA := .tables rfl rfl rfl rfl
      have hB : pB.Prepared G none := hp.evolve (hE.trans hC) hA.orderly
      refine .run rfl hC (.bind (R := fun _ q => p.Reaches none q ∧ args ∉ (q.entities.kind generic).keys ∧
        (q.entities.kind ⟨p.entities.size⟩).IsInstance generic args)
        (.leavingDepth (.leavingKey ((h.object ⟨p.entities.size⟩ pB hB).mono ?_ ?_))) ?_)
      · rintro _ r ⟨hr,e,he,hdone⟩
        have hl := hA.trans hr.toLeaves
        obtain ⟨e',he',hlike⟩ := hr.advances.object (kind_alloc_self (t := p.entities) ..)
        cases he'.symm.trans he
        replace hdone : e.stage = .done :=
          hdone.resolve_right (by simp [ObjectDef.isGeneric,hlike.typeParams,objectInstance])
        refine ⟨⟨hl.leaveKey.leaveDepth,?_⟩,?_,?_⟩
        · exact .of_alloc (hr.settles.congr rfl rfl) (by simp only [he]; exact hdone)
        · exact hl.advances.locked generic args (lt_size_of_kind (by simp [pA,hk])) List.mem_cons_self hn
        · exact he ▸ ⟨hlike.genericOf,hlike.appliedArgs⟩
      · exact fun r hr => (hA.trans hr).leaveKey.leaveDepth
      · rintro _ q - - ⟨hq,hn',hi⟩
        obtain ⟨e,he,_⟩ := hq.advances.object hk
        refine .run rfl (.single (.object he (.keep hp.avoids.size))) (.pure ⟨hq.trans (.keepObject hq.orderly
          (by rw [hq.advances.instantiating]; exact hfree) hn' hi he),hp.avoids.size,?_⟩)
        rw [kind_modifyObject_self he]
        exact List.mem_append_right _ (List.mem_singleton_self _)

theorem respectsTypes (lo : Option Nat) : RespectsTypes G (fun _ x y A => Runs G lo x y fun a _ => A a) S T where
  base := .pure fun _ hp => hp.base
  pure ha := .pure fun _ _ => ha
  fail _ _ _ _ := .throw _
  bind hx hf := hx.bind hf
  get p hp := .same ⟨.refl p,.refl hp.orderly,hp.avoids⟩
  var name location τ mutable hτ p hp :=
    .same ⟨.single (.alloc name location hτ (by simp) (by simp) (by simp)),.allocVar hp.orderly name location τ mutable,trivial⟩
  distance? id ancestor := .of_tables (fun _ _ => .single (.ancestors id)) (fun _ => rfl) (fun _ => rfl) (fun _ => rfl)
    (fun _ => rfl) fun _ _ => trivial
  join? hσ hτ := by
    exact .of_tables (fun p _ => .join? p _ _) (fun _ => rfl) (fun _ => rfl) (fun _ => rfl) (fun _ => rfl)
      fun p hp _ => hp.avoids.join? hσ hτ
  aliased id := ((h.aliased id).imp fun _ _ k => k.1).widen lo
  object id := ((h.object id).imp fun _ _ _ => trivial).widen lo
  instantiateObject generic _ location ha := ((h.instantiateObject generic location ha).imp fun _ _ k => k.1).widen lo

theorem resolveAlias (id : EntityId) : Runs G none (S.resolveAlias id) (T.resolveAlias id) fun τ q =>
    τ.Avoids G ∧ ∃ d, q.entities.kind id = .typeAlias d ∧ d.stage = .done ∧ d.resolved = some τ := by
  intro p hp
  have hO := hp.orderly
  refine .look (a := p.entities.get id) rfl ?_
  split
  · exact .throw _ (.refl hO)
  · rename_i d hd
    have hk := kind_of_alias? hd
    have ha := hp.avoids.alias? hd
    split
    · rename_i hs hτ
      exact .pure ⟨.refl hO,ha.resolved _ hs hτ,d,hk,hs,hτ⟩
    · exact .throw _ (.refl hO)
    · rename_i hprogress hdone
      have hs := hO.alias_pending hk hprogress hdone
      have hpending : (p.entities.kind id).stage = .pending := by rw [hk]; exact hs
      let p1 : Program := { p with entities := p.entities.modifyAlias id fun d =>
          { d with resolved := none, stage := .inProgress } }
      have h1 : p.Reaches (some id) p1 := .modifyAlias hO hk (by simp)
      have he1 : p.Evolves G none p1 := .single (.typeAlias hk (.start hs))
      have hk1 := kind_modifyAlias_self hk fun d => { d with resolved := none, stage := .inProgress }
      refine .run rfl he1 (((h.respectsTypes none).resolveType d.scope ha.target).after h1 (hp.evolve he1 h1.orderly)
        (fun _ k => k.finishStarted hpending (by simp [hk])) fun τ q h2 hlast _ hτ => ?_)
      obtain ⟨e,hk2,hf⟩ := hlast.advances.alias_fixed (by simp) hk1
      have hk3 := kind_modifyAlias_self hk2 fun d => { d with resolved := some τ, stage := .done }
      exact .run rfl (.single (.typeAlias hk2 (.finish (hf (by simp)).1 hτ)))
        (.pure ⟨(h2.trans (.modifyAlias h2.orderly hk2 (by simp))).finishStarted hpending (by simp [hk])
          (by rw [hk3]; rfl),hτ,_,hk3,rfl,rfl⟩)

omit h in
theorem typeEntity_run {name : String} (hr : p.scopes.resolve? p.entities scope name = some id) (location : Location) :
    typeEntity scope name location p = .ok (id, p.entities.kind id) p := by
  refine Check.bind_ok.mpr ⟨p,p,rfl,?_⟩
  simp only [hr]
  rfl

/-- The type of an expression is what its outermost name stands for. -/
theorem resolveType_names (scope : ScopeId) {t : TypeExpr} (ht : t.Avoids G) :
    Runs G none (S.resolveType scope t) (T.resolveType scope t) fun τ q => ∀ id, τ = .object id → q.Names scope id t := by
  intro p hp
  have hO := hp.orderly
  have unnamed {name : String} {location : Location} {f g : EntityId × EntityKind → Check Ty}
      (hr : p.scopes.resolve? p.entities scope name = none) : Steps G none
        (typeEntity scope name location >>= f) (typeEntity scope name location >>= g) p
        (fun τ q => p.Reaches none q ∧ ∀ id, τ = .object id → q.Names scope id t) fun q => p.Leaves none q := by
    refine .bind (R := fun _ _ => False) (.same ?_) fun _ _ _ _ k => k.elim
    refine .run (a := p) rfl ?_
    simp only [hr]
    exact ⟨.refl p,.refl hO⟩
  cases ht with
  | resolved =>
    refine .pure ⟨.refl hO,?_⟩
    rintro id rfl
    exact .resolved
  | @named name location =>
    cases hr : p.scopes.resolve? p.entities scope name with
    | none => exact unnamed hr
    | some named =>
      refine .look (typeEntity_run hr location) ?_
      dsimp only
      split
      · exact .pure ⟨.refl hO,by simp⟩
      · rename_i d hk
        refine .expectArity (fun _ => .pure ⟨.refl hO,?_⟩) (.refl hO)
        rintro _ ⟨⟩
        exact .plain hr hk
      · exact .throw _ (.refl hO)
      · refine ((h.aliased named p hp).widen none).mono ?_ fun _ k => k
        rintro _ q ⟨hstill,hq,_,d,hk,hs,hτ⟩
        refine ⟨hq,?_⟩
        rintro _ rfl
        exact .aliased ((hstill.resolve? _ _).trans hr) hk hs hτ
      · exact .throw _ (.refl hO)
  | @apply name args location ha =>
    cases hr : p.scopes.resolve? p.entities scope name with
    | none => exact unnamed hr
    | some generic =>
      refine .look (typeEntity_run hr location) (((h.respectsTypes none).resolveTypes scope ha).quietly (.refl hO) hp
        (fun _ k => k) fun types q hq _ hstill hpq htypes => ?_)
      split
      · split
        · exact .pure ⟨hq,by simp⟩
        · exact .throw _ hq.toLeaves
      · split
        · refine (h.instantiateObject generic location htypes).quietly hq hpq (fun _ k => k)
            fun id r hr' hlast hstill' _ k => .pure ⟨hr',?_⟩
          rintro _ ⟨⟩
          exact .applied ((hstill'.resolve? _ _).trans ((hstill.resolve? _ _).trans hr)) (hr'.orderly.kept _ _ _ k.2)
        · exact .throw _ hq.toLeaves
      · exact .throw _ hq.toLeaves
      · exact .throw _ hq.toLeaves
      · exact .throw _ hq.toLeaves

/-- The parent of an object is the one that it names. -/
theorem parentOf_names {d : ObjectDef} (ha : d.Avoids G id) (location : Location) :
    Runs G none (S.parentOf d location) (T.parentOf d location) fun parent q => q.NamesParent d parent := by
  intro p hp
  unfold parentOf NamesParent
  cases ht : d.parentExpr with
  | none => exact .pure ⟨.refl hp.orderly,rfl⟩
  | some t =>
    refine (h.resolveType_names d.scope (ha.parentExpr t ht)).after (.refl hp.orderly) hp (fun _ k => k)
      fun τ q hq _ _ hnames => ?_
    split
    · exact .pure ⟨hq,hnames _ rfl⟩
    · exact .look rfl (.throw _ hq.toLeaves)

theorem resolveObject (id : EntityId) : Runs G none (S.resolveObject id) (T.resolveObject id) fun _ q =>
    ∃ d, q.entities.kind id = .object d ∧ (d.stage = .done ∨ d.isGeneric = true) := by
  intro p hp
  have hO := hp.orderly
  refine .look (a := p.entities.get id) rfl ?_
  split
  · exact .throw _ (.refl hO)
  · rename_i d hd
    have hk : p.entities.kind id = .object d := object?_eq_some.mp hd
    have ha := hp.avoids.object hk
    split
    · rename_i hs
      exact .pure ⟨.refl hO,d,hk,.inl hs⟩
    · exact .throw _ (.refl hO)
    · rename_i hs
      split
      · rename_i hg
        exact .pure ⟨.refl hO,d,hk,.inr hg⟩
      · rename_i hg
        replace hg : d.isGeneric = false := eq_false_of_ne_true hg
        have hT := h.respectsTypes none
        have hpending : (p.entities.kind id).stage = .pending := by rw [hk]; exact hs
        have stop : ∀ r, p.Leaves (some id) r → p.Leaves none r := fun _ k => k.finishStarted hpending (by simp [hk])
        let p1 : Program := { p with entities := p.entities.modifyObject id fun d => { d with stage := .inProgress } }
        have h1 : p.Reaches (some id) p1 := .modifyObject hO hk
        have he1 : p.Evolves G none p1 := .single (.object hk (.start hs hg))
        have hk1 := kind_modifyObject_self hk fun d => { d with stage := .inProgress }
        refine .run rfl he1 (((hT.parentOf ha _).and (h.parentOf_names ha _)).after h1 (hp.evolve he1 h1.orderly) stop
          fun parent q2 h2 hlast2 hq2 hparent => ?_)
        obtain ⟨habove,hnamed⟩ := hparent
        refine (h.object parent).quietly h2 hq2 stop fun _ q3 h3 hlast3 hstill3 hq3 hfinished => ?_
        obtain ⟨above,hup,hdone⟩ := hfinished
        obtain ⟨e3,hk3,hlike3,hf3⟩ := (hlast2.trans hlast3).advances.object_fixed (by simp) hk1
        have hs3 : e3.stage = .inProgress := (hf3 (by simp)).1
        have hg3 : e3.isGeneric = false := by rw [ObjectDef.isGeneric,hlike3.typeParams]; exact hg
        have hne : parent ≠ id := by
          rintro rfl
          cases hup.symm.trans hk3
          rcases hdone with hdone | hdone
          · cases hs3.symm.trans hdone
          · cases hg3.symm.trans hdone
        let q4 : Program := { q3 with entities := q3.entities.modifyObject id fun d => { d with parent := some parent } }
        have h4 : p.Reaches (some id) q4 := h3.trans (.modifyObject h3.orderly hk3)
        have hnamed3 := hnamed.still hstill3 hlast3.advances hlike3.parentExpr hlike3.scope
        have he4 : q3.Evolves G none q4 := .single (.object hk3 (.parent hs3 hg3 habove hnamed3 hup hdone))
        have hk4 := kind_modifyObject_self hk3 fun d => { d with parent := some parent }
        have hup4 : q4.entities.kind parent = .object above := (kind_modifyKind_ne hne _).trans hup
        refine .run rfl he4 (.look rfl ?_)
        rw [show q4.entities.object? parent = some above from object?_eq_some.mpr hup4]
        refine (hT.layout d.scope _ d.fieldExprs ha.fieldExprs (hq3.avoids.object hup).fields).after h4
          (hq3.evolve he4 h4.orderly) stop fun fields q5 h5 hlast5 hq5 hlaid => ?_
        obtain ⟨hinherited,hfields,hok⟩ := hlaid
        obtain ⟨e5,hk5,hlike5,hf5⟩ := hlast5.advances.object_fixed (by simp) hk4
        obtain ⟨hs5,hparent5, -⟩ := hf5 (by simp [hs3])
        obtain ⟨above5,hup5,hlike,hfixed⟩ := hlast5.advances.object_fixed (by simp) hup4
        have hk6 := kind_modifyObject_self hk5 fun d => { d with fields, stage := .done }
        refine .same ⟨.single (.object hk5 (.finish (hs5.trans hs3) ?_ hparent5 hup5 hfields fun hplain => ?_)),
          (h5.trans (.modifyObject h5.orderly hk5)).finishStarted
            hpending (by simp [hk]) (by rw [hk6]; rfl),_,hk6,.inl rfl⟩
        · rw [ObjectDef.isGeneric,hlike5.typeParams]
          exact hg3
        · rw [ObjectDef.isGeneric,hlike.typeParams] at hplain
          replace hdone := hdone.resolve_right (by simpa [ObjectDef.isGeneric] using hplain)
          obtain ⟨hs', -,hf'⟩ := hfixed (by simp [hdone])
          rw [hf']
          exact ⟨hs'.trans hdone,hinherited,hok⟩

/-! ### Functions -/

variable {lo : Nat}

theorem resolveSignature (id : EntityId) : Runs G (some lo) (S.resolveSignature id) (T.resolveSignature id)
    fun _ q => ∃ d, q.entities.kind id = .function d ∧ d.signature = .done := by
  intro p hp
  have hO := hp.orderly
  refine .look (a := p.entities.get id) rfl ?_
  split
  · exact .throw _ (.refl hO)
  · rename_i d hd
    have hk : p.entities.kind id = .function d := function?_eq_some.mp hd
    have ha := hp.avoids.function hk
    split
    · rename_i hs
      exact .pure ⟨.refl hO,d,hk,hs⟩
    · rename_i hs
      obtain ⟨hreturn,hbody⟩ := (hO.sane id).unsigned d hk hs
      have hT := h.respectsTypes none
      refine (hT.paramTypes d.scope d.params ha.params).quietly (.refl hO) hp (fun _ k => k) fun types q1 h1 _ s1 hq1 ht => ?_
      refine (hT.declaredReturn ha).quietly h1 hq1 (fun _ k => k) fun declared q2 h2 _ s2 hq2 hdeclared => ?_
      have hk2 := (s2.functions id d).mpr ((s1.functions id d).mpr hk)
      -- Nothing happens to the function itself meanwhile.
      have sign (vars : List EntityId) (q : Program) (hq : p.Reaches none q) (hk' : q.entities.kind id = .function d) :
          Steps G (some lo) (modifyFunction id fun d => { d with
              paramTypes := types, paramVars := vars, returnType := declared, signature := .done })
            (modifyFunction id fun d => { d with
              paramTypes := types, paramVars := vars, returnType := declared, signature := .done }) q
            (fun _ r => p.Reaches none r ∧ ∃ d, r.entities.kind id = .function d ∧ d.signature = .done)
            fun r => p.Leaves none r := by
        have hk3 := kind_modifyFunction_self hk' fun d =>
          { d with paramTypes := types, paramVars := vars, returnType := declared, signature := .done }
        refine .same ⟨.single (.function hk' (.sign hs hreturn hdeclared)),?_,_,hk3,rfl⟩
        exact ((hq.except (some id)).trans (.modifyFunction hq.orderly hk' (by simp))).finishFunction hk hk3
          ⟨fun h => absurd h hs,fun h => absurd hbody h⟩ fun _ => rfl
      split
      · exact (hT.paramVars d.params ht).quietly h2 hq2 (fun _ k => k) fun vars q3 h3 _ s3 _ _ =>
          sign vars q3 h3 ((s3.functions id d).mpr hk2)
      · exact .look rfl (sign [] q2 h2 hk2)

omit h in
theorem register (hs : lo ≤ scope.index) (id : EntityId) :
    Runs G (some lo) (register scope id) (register scope id) fun _ _ => True := by
  intro p hp
  refine .same ?_
  show Ends (ofExcept (p.scopes.register p.entities scope id) >>= fun scopes => modify fun p => { p with scopes }) p _ _
  cases hr : p.scopes.register p.entities scope id with
  | ok scopes =>
    refine ⟨.single (.scopes ?_ fun s hlt => ?_),.of_tables hp.orderly rfl rfl rfl rfl,trivial⟩
    · rcases ScopeTable.bind_of_registerAs hr with rfl | rfl <;> simp
    · rcases ScopeTable.bind_of_registerAs hr with rfl | rfl
      · rfl
      · exact ScopeTable.get_bind_ne (fun he => by subst he; omega) _ _
  | error d => exact ⟨.refl p,.refl hp.orderly⟩

/-- A body that was started is resolved to its end, or left in progress. -/
theorem startedBody {d e : FunctionDef} (hk : p.entities.kind id = .function d)
    (ha : d.Avoids G) (hs : d.bodyStage = .pending) (hsigned : d.signature = .done) (hr : p.Reaches (some id) q)
    (hq : q.Prepared G (some lo)) (hk' : q.entities.kind id = .function e)
    (he : e.signature = d.signature ∧ e.paramTypes = d.paramTypes ∧ e.paramVars = d.paramVars ∧
      e.returnType = d.returnType ∧ e.bodyStage = .inProgress)
    (hscope : lo ≤ scope.index) (location : Location) (root : ExprId) : Steps G (some lo) (do
        registerAll scope d.paramVars
        let body ← S.expr root scope
        let returnType ← bodyReturn id location root body d.returnType
        modifyFunction id fun d => { d with returnType := some returnType, bodyStage := .done })
      (do
        registerAll scope d.paramVars
        let body ← T.expr root scope
        let returnType ← bodyReturn id location root body d.returnType
        modifyFunction id fun d => { d with returnType := some returnType, bodyStage := .done }) q
      (fun _ r => p.Reaches none r ∧ ∀ d, r.entities.kind id = .function d → d.bodyStage ≠ .pending)
      fun r => p.Leaves none r := by
  obtain ⟨hsig,htypes,hvars,hreturn,hstage⟩ := he
  have fixed : ∀ {c : FunctionDef}, e.Fixed c → d.Fixed c := by
    intro c hc
    obtain ⟨h1,h2,h3⟩ := hc.signature (hsig.trans hsigned)
    exact ⟨fun _ => ⟨h1,h2.trans htypes,h3.trans hvars⟩,fun hn => absurd hs hn⟩
  have stop : ∀ r, q.Leaves none r → p.Leaves none r := by
    intro r hl
    obtain ⟨c,hc,hf⟩ := hl.advances.function_fixed (by simp) hk'
    refine (hr.toLeaves.trans (hl.except _)).finish ?_
    rw [hk,hc]
    exact fixed hf
  have hT := h.respectsTypes (some lo)
  refine (hT.registerAll (register hscope) d.paramVars).after (.refl hr.orderly) hq stop fun _ q1 h1 _ hq1 _ => ?_
  refine (h.expr root hscope).after h1 hq1 stop fun τ q2 h2 _ hq2 hτ => ?_
  refine (hT.bodyReturn id location root hτ ha.returnType).after h2 hq2 stop fun ρ q3 h3 _ _ hρ => ?_
  obtain ⟨c,hc,hf⟩ := h3.advances.function_fixed (by simp) hk'
  obtain ⟨hsig',htypes',hvars'⟩ := (fixed hf).signature hsigned
  obtain ⟨hstage',hreturn'⟩ := hf.body (by simp [hstage])
  have hc' := kind_modifyFunction_self hc fun d => { d with returnType := some ρ, bodyStage := .done }
  refine .same ⟨.single (.function hc (.finish hsig' (hstage'.trans hstage) ?_ hρ.1)),?_,?_⟩
  · exact fun σ hσ => hρ.2 σ ((hreturn'.trans hreturn).symm.trans hσ)
  · exact ((hr.trans (h3.except (some id))).trans (.modifyFunction h3.orderly hc (by simp [hsig']))).finishFunction hk hc'
      ⟨fun _ => ⟨hsig',htypes',hvars'⟩,fun hn => absurd hs hn⟩ fun hn => absurd rfl hn
  · intro e he
    cases hc'.symm.trans he
    simp

theorem resolveBody (id : EntityId) : Runs G (some lo) (S.resolveBody id) (T.resolveBody id)
    fun _ q => ∀ d, q.entities.kind id = .function d → d.bodyStage ≠ .pending := by
  intro p hp
  refine (h.resolveSignature id).after (.refl hp.orderly) hp (fun _ k => k) fun _ q hreach _ hq ⟨d,hk,hsigned⟩ => ?_
  refine .look (a := q.entities.get id) rfl ?_
  rw [show (q.entities.get id).function? = some d from function?_eq_some.mpr hk]
  dsimp only
  split
  · rename_i hs
    split
    · rename_i first root hb
      have h1 := Reaches.startBody hq.orderly hk hsigned d.scope (some ⟨q.scopes.size⟩)
      have hlo := hq.scopes lo rfl
      have he1 : q.Evolves G (some lo) { q with scopes := (q.scopes.push d.scope .function).2 } :=
        .single (.scopes (by simp) fun s hs => ScopeTable.get_push_of_lt (by omega) ..)
      have he2 := he1.trans (.single (.function hk (f := fun d =>
        { d with bodyStage := .inProgress, bodyScope := some ⟨q.scopes.size⟩ }) (.start hsigned hs)))
      have hk1 := kind_modifyFunction_self hk
        fun d => { d with bodyStage := .inProgress, bodyScope := some ⟨q.scopes.size⟩ }
      refine .run rfl he1 (.run rfl (.single (.function hk (.start hsigned hs))) ?_)
      exact (h.startedBody hk (hq.avoids.function hk) hs hsigned h1 (hq.evolve he2 h1.orderly) hk1
        ⟨rfl,rfl,rfl,rfl,rfl⟩ hlo _ _).mono (fun _ r k => ⟨hreach.trans k.1,k.2⟩) fun r k => hreach.toLeaves.trans k
    · have hk1 := kind_modifyFunction_self hk fun d => { d with bodyStage := .done }
      have h1 : q.Reaches (some id) _ := .modifyFunction hq.orderly hk (f := fun d => { d with bodyStage := .done }) (by simp [hsigned])
      refine .same ⟨.single (.function hk (.skip hsigned hs)),hreach.trans (h1.finishFunction hk hk1
        ⟨fun h => ⟨h,rfl,rfl⟩,fun h => absurd hs h⟩ fun hn => absurd rfl hn),?_⟩
      intro e he
      cases hk1.symm.trans he
      simp
  · rename_i hs
    exact .pure ⟨hreach,by rw [hk]; rintro _ ⟨⟩; exact hs⟩

omit h in
/-- A body is copied to new nodes without types. -/
theorem cloneBody_runs {subst : Subst} (hs : ∀ name τ, subst.lookup name = some τ → τ.Avoids G) (body : FunctionBody)
    (hp : p.Prepared G (some lo)) : ∃ copy a, cloneBody subst body p = .ok copy { p with exprs := a } ∧
      p.Reaches none { p with exprs := a } ∧ p.Evolves G (some lo) { p with exprs := a } := by
  cases body with
  | expr first root =>
    refine ⟨_,(p.exprs.cloneRange first root subst).2,rfl,.of_entities hp.orderly rfl ?_
      (fun n hn => by simp only [Arena.get_cloneRange_of_lt hn]) rfl rfl,.single (.nodes fun n => ?_)⟩
    · simp [Arena.size,Arena.cloneRange]
    · rcases p.exprs.get_cloneRange first root n subst with he | ⟨j,he⟩
      · exact .inl (by rw [he])
      · refine .inr fun t ht => ?_
        rw [he,Expr.copy,ExprShape.typeExprs_copy] at ht
        obtain ⟨u,hu,rfl⟩ := List.mem_map.mp ht
        exact (hp.avoids.nodes j u hu).substitute hs
  | _ => exact ⟨_,p.exprs,rfl,.refl hp.orderly,.refl p⟩

/-- The signature of a new instance is found while its key is locked; then the instance is kept. -/
theorem signInstance {pB : Program} {generic : EntityId} {d made : FunctionDef}
    (hk : p.entities.kind generic = .function d) (hn : args ∉ (p.entities.kind generic).keys)
    (hfree : (generic, args) ∉ p.instantiating) (hB : (p.entering generic args).Leaves none pB)
    (hpB : pB.Prepared G (some lo)) (hkB : pB.entities.kind id = .function made)
    (hi : made.genericOf = some generic ∧ made.appliedArgs = args) : Steps G (some lo) (do
        leavingKey (S.resolveSignature id)
        modifyFunction generic fun d => { d with instances := d.instances ++ [(args, id)] })
      (do
        leavingKey (T.resolveSignature id)
        modifyFunction generic fun d => { d with instances := d.instances ++ [(args, id)] }) pB
      (fun _ q => Leaves { p with instanceDepth := p.instanceDepth + 1 } none q ∧ pB.Settles none q ∧
        (∃ e, q.entities.kind id = .function e ∧ made.Like e) ∧ (args, id) ∈ (q.entities.kind generic).instances)
      fun q => Leaves { p with instanceDepth := p.instanceDepth + 1 } none q := by
  refine .bind (R := fun _ q => Leaves { p with instanceDepth := p.instanceDepth + 1 } none q ∧
    args ∉ (q.entities.kind generic).keys ∧ pB.Settles none q ∧
    ∃ e, q.entities.kind id = .function e ∧ made.Like e) (.leavingKey ((h.resolveSignature id pB hpB).mono ?_ ?_)) ?_
  · rintro _ r ⟨hr,_⟩
    have hl := hB.trans hr.toLeaves
    obtain ⟨e,he,hlike⟩ := hr.advances.function hkB
    refine ⟨hl.leaveKey,?_,hr.settles.congr rfl rfl,e,he,hlike⟩
    exact hl.advances.locked generic args (lt_size_of_kind (by simp [hk])) List.mem_cons_self hn
  · exact fun r hr => (hB.trans hr).leaveKey
  · rintro _ q - - ⟨hq,hn',hsettles,c,hc,hlike⟩
    have hinstance : (q.entities.kind id).IsInstance generic args :=
      hc ▸ ⟨hlike.genericOf.trans hi.1,hlike.appliedArgs.trans hi.2⟩
    obtain ⟨e,he,_⟩ := hq.advances.function (p := { p with instanceDepth := p.instanceDepth + 1 }) hk
    have hkeep := Reaches.keepFunction hq.orderly (by rw [hq.advances.instantiating]; exact hfree) hn' hinstance he
    obtain ⟨c',hc',hlike'⟩ := hkeep.advances.function hc
    refine .same ⟨.single (.function he .keep),hq.trans hkeep.toLeaves,hsettles.trans hkeep.settles,⟨c',hc',?_⟩,?_⟩
    · obtain ⟨c'',hc'',h⟩ := ((EntityKind.Like.function hlike).trans (.function hlike')).of_function
      cases hc''
      exact h
    · rw [kind_modifyFunction_self he]
      exact List.mem_append_right _ (List.mem_singleton_self _)

theorem instantiateFunction (generic : EntityId) (location : Location) (ha : ∀ τ ∈ args, τ.Avoids G) :
    Runs G (some lo) (S.instantiateFunction generic args location) (T.instantiateFunction generic args location)
      fun id q => (args, id) ∈ (q.entities.kind generic).instances := by
  intro p hp
  have hO := hp.orderly
  refine .look (a := p.entities.get generic) rfl ?_
  split
  · exact .throw _ (.refl hO)
  · rename_i d hd
    have hk : p.entities.kind generic = .function d := function?_eq_some.mp hd
    refine .expectArity (fun _ => ?_) (.refl hO)
    split
    · rename_i hsome
      refine .pure ⟨.refl hO,?_⟩
      show _ ∈ (p.entities.kind generic).instances
      rw [hk]
      exact mem_of_lookup hsome
    · rename_i hnone
      have hn : args ∉ (p.entities.kind generic).keys := by
        rw [hk]
        exact not_mem_keys_of_cached? hnone
      refine .enterInstance (fun hfree => ?_) (.refl hO)
      let pA := p.entering generic args
      have hpA : pA.Prepared G (some lo) := hp.evolve (.tables rfl rfl rfl rfl) (hO.of_entities rfl)
      obtain ⟨body,a,hrun,hclone,heclone⟩ := cloneBody_runs (avoids_zip d.typeParams ha) d.body hpA
      let pC : Program := { pA with
        exprs := a
        entities := (p.entities.alloc (p.entities.get generic).name (p.entities.get generic).location
          (.function (functionInstance generic d args body))).2 }
      have hA : pA.Leaves none pC := hclone.toLeaves.trans (.alloc hclone.orderly _ _
        (.of_new rfl (by simp [functionInstance]) (by simp)) rfl)
      have heC : Evolves G (some lo) { pA with exprs := a } pC :=
        .single (.alloc _ _ ((hp.avoids.function hk).instance ha body) (by simp)
          (by rintro _ ⟨⟩; exact ⟨by simp,rfl⟩) (by simp))
      refine .run hrun heclone (.run rfl heC (.bind (R := fun _ q => p.Reaches none q ∧
        (args, (⟨p.entities.size⟩ : EntityId)) ∈ (q.entities.kind generic).instances) (.leavingDepth ?_)
        fun _ q _ _ k => .pure k))
      have hkA := kind_alloc_self (t := p.entities) (p.entities.get generic).name
        (p.entities.get generic).location (.function (functionInstance generic d args body))
      have hpC : pC.Prepared G (some lo) := hpA.evolve (heclone.trans heC) hA.orderly
      rw [← bind_assoc,← bind_assoc]
      refine ((h.signInstance hk hn hfree hA hpC hkA ⟨rfl,rfl⟩).mono (fun _ _ k => k) fun _ k => k.leaveDepth).bind ?_
      rintro _ q - he ⟨hq,hsettles,⟨c,hc,_⟩,hkept⟩
      refine (h.resolveBody ⟨p.entities.size⟩ q (hpC.evolve he hq.orderly)).mono ?_ fun r hr => (hq.trans hr).leaveDepth
      rintro _ r ⟨hr,hpast⟩
      refine ⟨⟨(hq.trans hr.toLeaves).leaveDepth,?_⟩,hr.advances.kept hkept⟩
      have hall := hsettles.trans hr.settles
      obtain ⟨c2,hc2,_⟩ := hr.advances.function hc
      have hdone : c2.bodyStage = .done := by
        by_contra hs
        have hsame := hall ⟨p.entities.size⟩ (by simp) (by rw [hc2]; exact hs)
        rw [hc2,show pC.entities.kind ⟨p.entities.size⟩ = _ from hkA] at hsame
        exact hpast c2 hc2 hsame.symm
      exact (Settles.of_alloc (hall.congr rfl rfl) (by simp only [hc2]; exact hdone)).congr rfl rfl

theorem respects (lo : Nat) : Respects G (fun _ x y A => Runs G (some lo) x y fun a _ => A a) S T (fun _ => True)
    (lo ≤ ·.index) where
  __ := h.respectsTypes (some lo)
  resolveSignature id := (h.resolveSignature id).imp fun _ _ _ => trivial
  resolveBody id := (h.resolveBody id).imp fun _ _ _ => trivial
  instantiateFunction generic _ location ha := (h.instantiateFunction generic location ha).imp fun _ _ _ => trivial
  pushScope parent kind := .of_tables (fun p hp => .single (.scopes (by simp) fun s hs =>
      ScopeTable.get_push_of_lt (Nat.lt_of_lt_of_le hs (hp.scopes lo rfl)) parent kind))
    (fun _ => rfl) (fun _ => rfl) (fun _ => rfl) (fun _ => rfl) fun p hp => hp.scopes lo rfl
  register := register
  expr _ hs := h.expr _ hs
  setType id τ _ hp := have hr := (Reaches.refl hp.orderly).typed id τ; .same ⟨hr.1,hr.2,trivial⟩

/-! ### Expressions -/

variable (hs : lo ≤ scope.index)
include hs

theorem resolveShape (id : ExprId) (location : Location) (hp : p.Prepared G (some lo)) :
    Steps G (some lo) (S.resolveShape id scope location (p.exprs.get id).shape)
      (T.resolveShape id scope location (p.exprs.get id).shape) p
      (fun τ q => p.Reaches none q ∧ τ.Avoids G) fun q => p.Leaves none q := by
  have h0 : p.Reaches none p := .refl hp.orderly
  rcases Nat.lt_or_ge id.index p.exprs.size with hid | hid
  swap
  · rw [Arena.get_of_size_le hid]
    exact .pure ⟨h0,trivial⟩
  have hR := h.respects lo
  have ht := hp.avoids.nodes id
  refine hR.resolveShape hs (Q := fun x y => ∀ q, p.Reaches none q → q.Prepared G (some lo) →
    Steps G (some lo) x y q (fun τ r => p.Reaches none r ∧ τ.Avoids G) fun r => p.Leaves none r) ?_ ?_ ?_ ?_ (by simp) ht
    p h0 hp
  · exact fun hτ q hq _ => .pure ⟨hq,hτ⟩
  · exact fun hx hf q hq hpq => hx.after hq hpq (fun _ k => k) fun a r hr _ hpr ha => hf a ha r hr hpr
  · intro s τ hb hτ q hq _
    have hr : q.Evolves G (some lo) _ ∧ _ := hq.fill hid hb
    exact .run rfl hr.1 (.pure ⟨hr.2,hτ⟩)
  · exact fun name args _ _ he => hR.resolveCall hs location name args (by simp) fun t hm => ht t (he ▸ hm)

theorem resolveExpr (id : ExprId) :
    Runs G (some lo) (S.resolveExpr id scope) (T.resolveExpr id scope) fun τ _ => τ.Avoids G := by
  intro p hp
  refine .look rfl ((h.resolveShape hs id _ hp).bind fun τ q _ _ hq => ?_)
  have hr : q.Evolves G (some lo) _ ∧ _ := hq.1.typed id τ
  exact .run rfl hr.1 (.pure ⟨hr.2,hq.2⟩)

end Follows

/-! ### Budgets -/

/-- Answers questions as `upTo` does, but stops at the first beginning or end of a question where `stop` says so. -/
def watched (stop : Program → Bool) : Nat → Solver
  | 0 => upTo 0
  | budget + 1 =>
    { aliased := fun id => ((watched stop budget).resolveAlias id).watched stop
      object := fun id => ((watched stop budget).resolveObject id).watched stop
      expr := fun id scope => ((watched stop budget).resolveExpr id scope).watched stop }

theorem watched_never (n : Nat) : watched (fun _ => false) n = upTo n := by
  have never {α : Type} (x : Check α) : x.watched (fun _ => false) = x := by
    funext p
    unfold Check.watched
    cases x p <;> rfl
  induction n with
  | zero => rfl
  | succ n ih => simp only [watched,upTo,ih,never]

/-- A solver without budget gives no answer, so it follows any other. -/
theorem Follows.exhausted (h : S.Follows G T) : (upTo 0).Follows G T := by
  have stops {α : Type} {lo : Option Nat} {x y : Check α} {R : α → Program → Prop} (hx : Runs G lo x y R) :
      Runs G lo (throw ⟨.unfinished,none⟩) y R := fun p hp =>
    ⟨.inr ⟨none,p,rfl,(hx p hp).ends.mono (fun _ _ _ k => k.1) fun _ _ k => k.1⟩,(hx p hp).ends⟩
  exact ⟨fun id => stops (h.aliased id),fun id => stops (h.object id),fun id _ _ hs => stops (h.expr id hs)⟩

/-- A solver that stops more often and has less budget follows the other one. -/
theorem follows_watched {stop stop' : Program → Bool} (hstop : ∀ p, stop' p = true → stop p = true) {n m : Nat}
    (hle : n ≤ m) : (watched stop n).Follows G (watched stop' m) := by
  induction m generalizing n stop with
  | zero =>
    cases Nat.le_zero.mp hle
    exact ⟨fun _ => .throw _,fun _ => .throw _,fun _ _ _ _ => .throw _⟩
  | succ m ih =>
    have next {stop : Program → Bool} (hstop : ∀ p, stop' p = true → stop p = true) {n : Nat} (hle : n ≤ m) :
        (watched stop (n + 1)).Follows G (watched stop' (m + 1)) := by
      have h := ih hstop hle
      have watched {α : Type} {lo : Option Nat} {x y : Check α} {R : α → Program → Prop} (hx : Runs G lo x y R) :
          Runs G lo (x.watched stop) (y.watched stop') R := fun p hp =>
        (hx p hp).watched (.refl hp.orderly) (fun _ _ k => k.1.toLeaves) hstop
      exact ⟨fun id => watched (h.resolveAlias id),fun id => watched (h.resolveObject id),
        fun id _ _ hs => watched (h.resolveExpr hs id)⟩
    cases n with
    | zero => exact (next (fun _ h => h) (Nat.le_refl m)).exhausted
    | succ n => exact next hstop (Nat.le_of_succ_le_succ hle)

theorem follows_upTo {n m : Nat} (hle : n ≤ m) : (upTo n).Follows G (upTo m) := by
  rw [← watched_never,← watched_never]
  exact follows_watched (fun _ h => h) hle

/-! ### Whole programs -/

/-- All declarations of the program, resolved by some solver. -/
def resolveDeclarations (S : Solver) : Check Unit := do
  let ids := (← get).entities.ids
  S.resolveTypeEntities ids
  S.attachMethods
  S.resolveFunctionEntities ids
  checkCoverage

end Solver

theorem resolveProgram_eq (p : Program) : resolveProgram p = p.solver.resolveDeclarations p := by
  generalize hS : p.solver = S
  show (do
    p.solver.resolveTypeEntities p.entities.ids
    p.solver.attachMethods
    p.solver.resolveFunctionEntities p.entities.ids
    checkCoverage : Check Unit) p = _
  rw [hS]
  rfl

namespace Solver.Follows

theorem addMethods {lo : Option Nat} (owner : EntityId) (methods : List EntityId) :
    Runs G lo (modifyObject owner fun d => { d with methods := d.methods ++ methods })
      (modifyObject owner fun d => { d with methods := d.methods ++ methods }) fun _ _ => True := by
  intro p hp
  refine .same ?_
  show p.Evolves G lo { p with entities := p.entities.modifyObject owner _ } ∧
    p.Reaches none { p with entities := p.entities.modifyObject owner _ } ∧ True
  by_cases hd : ∃ d, p.entities.kind owner = .object d
  · obtain ⟨d,hk⟩ := hd
    have h : p.Reaches (some owner) _ := .modifyObject hp.orderly hk
      (f := fun d => { d with methods := d.methods ++ methods })
    exact ⟨.single (.object hk .addMethods),h.touchObject hk (kind_modifyObject_self hk _) ⟨rfl,rfl,rfl⟩,trivial⟩
  · rw [modifyObject_of_not_object fun d hk => hd ⟨d,hk⟩]
    exact ⟨.refl p,.refl hp.orderly,trivial⟩

theorem attachMethods (h : S.Follows G T) (lo : Option Nat) : Runs G lo S.attachMethods T.attachMethods fun _ _ => True :=
  (h.respectsTypes lo).attachMethods addMethods (.of_tables (fun _ _ => .tables rfl rfl rfl rfl) (fun _ => rfl)
    (fun _ => rfl) (fun _ => rfl) (fun _ => rfl) fun _ _ => trivial)

theorem resolveDeclarations (h : S.Follows G T) (lo : Nat) :
    Runs G (some lo) S.resolveDeclarations T.resolveDeclarations fun _ _ => True :=
  have hR := h.respects lo
  hR.bind hR.get fun _ _ => hR.bind (hR.resolveTypeEntities _) fun _ _ => hR.bind (h.attachMethods (some lo)) fun _ _ =>
    hR.bind (hR.resolveFunctionEntities _) fun _ _ => hR.checkCoverage

end Solver.Follows

/-- Resolution advances every orderly program, and leaves nothing unfinished that it started. -/
theorem settling_resolveProgram : Settling resolveProgram := by
  intro p hO
  unfold Ends
  rw [resolveProgram_eq]
  exact ((follows_upTo (Nat.le_refl p.budget)).resolveDeclarations 0).settling p hO

end FormCompiler
