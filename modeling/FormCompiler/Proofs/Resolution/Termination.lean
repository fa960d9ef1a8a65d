import FormCompiler.Proofs.Resolution.Measure
import FormCompiler.Proofs.Resolution.Scanning

/-! Resolution comes to an end on every program that was read: the budget of nested questions never runs out, and a
larger budget gives the same result. A question about a type costs one place of the load; a question about an
expression costs one level of its body, and a body that is entered costs one place of the load for all its levels. -/

namespace FormCompiler

open Check EntityTable EntityKind Program

namespace Solver

variable {nodes : List ExprId} {S : Solver} {length n k h : Nat}

/-- The solver has answers to `n` nested questions: more than the load of a program for a question about a type, and
for one about an expression more than the load times the levels of a body. -/
structure Deep (length n : Nat) (S : Solver) : Prop where
  follows : S.Follows (fun _ => False) S
  aliased {k h : Nat} {nodes : List ExprId} (id : EntityId) : k + 1 ≤ n →
    Finishing length k h nodes (S.aliased id) (·.Avoids fun _ => False)
  object {k h : Nat} {nodes : List ExprId} (id : EntityId) : k + 1 ≤ n →
    Finishing length k h nodes (S.object id) fun _ => True
  expr {k h : Nat} {nodes : List ExprId} {id : ExprId} (scope : ScopeId) : id ∈ nodes →
    k * (length + 1) + h + 1 ≤ n → Finishing length k h nodes (S.expr id scope) (·.Avoids fun _ => False)

namespace Deep

variable (hS : S.Deep length n) {p : Program}
include hS

/-! ### Types -/

private theorem instantiateObject (hn : k + 1 ≤ n) (generic : EntityId) (args : List Ty) (location : Location) :
    Finishing length k h nodes (S.instantiateObject generic args location) fun _ => True := by
  refine (((hS.follows.instantiateObject generic location fun τ _ => τ.avoids_none).widen _).imp
    fun _ _ _ => trivial).finishing fun p hb => ?_
  refine .run rfl ?_
  split
  · exact .breaks _ _
  · rename_i d hd
    refine .expectArity (fun _ => ?_) fun _ hd => hd.1
    split
    · exact hb.bodied
    · refine .enterInstance (fun _ hdepth => ?_) fun _ hd => hd.1
      let pA := p.entering generic args
      have hA : pA.Leaves none { pA with entities := (p.entities.alloc (p.entities.get generic).name
          (p.entities.get generic).location (.object (objectInstance generic d args))).2 } :=
        .alloc (p := pA) (hb.orderly.of_entities rfl) _ _ (.of_new rfl (by simp) (by simp)) rfl
      have hB : Bodied length pA := hb.bodied.of_tables rfl rfl
      obtain ⟨j,rfl,hj⟩ := hb.enter hdepth hA rfl (hB.alloc _ _ (by simp))
      refine .run rfl (Ends.bind (R := fun _ q => q.Bodied length) (.afterwards (.afterwards ?_)) ?_)
      · exact (hS.object ⟨p.entities.size⟩ (by omega) _ hj).mono
          (fun _ q _ hq => hq.2.1.of_tables rfl rfl) fun _ _ hd => hd
      · exact fun _ q _ hq => hq.modifyObject generic _

private theorem respectsTypes (hn : k + 1 ≤ n) : RespectsTypes (fun _ => False)
    (fun _ x _ A => Finishing length k h nodes x A) S S :=
  have hT := hS.follows.respectsTypes (some 0)
  { base := hT.base.finishing fun _ hb => hb.bodied
    pure := fun ha => (hT.pure ha).finishing fun _ hb => hb.bodied
    fail := fun _ _ _ hc _ _ => hc.1
    bind := fun hx hf => hx.bind hf
    get := hT.get.finishing fun _ hb => hb.bodied
    var := fun name location _ mutable hτ =>
      (hT.var name location mutable hτ).finishing fun _ hb => hb.bodied.alloc name location (by simp)
    distance? := fun id ancestor => (hT.distance? id ancestor).finishing fun _ hb => hb.bodied.of_tables rfl rfl
    join? := fun hσ hτ => (hT.join? hσ hτ).finishing fun _ hb => hb.bodied.of_tables rfl rfl
    aliased := fun id => hS.aliased id hn
    object := fun id => hS.object id hn
    instantiateObject := fun generic args location _ p hb => (hS.instantiateObject hn generic args location p hb).mono
      (fun _ _ _ hq => ⟨hq.1,hq.2.1,not_false⟩) fun _ _ hd => hd }

private theorem resolveAlias (hn : k ≤ n) (id : EntityId) :
    Finishing length k h nodes (S.resolveAlias id) (·.Avoids fun _ => False) := by
  refine (((hS.follows.resolveAlias id).widen _).imp fun _ _ h => h.1).finishing fun p hb => ?_
  refine .run rfl ?_
  split
  · exact .breaks _ _
  · rename_i d hd
    have hk := kind_of_alias? hd
    split
    · exact hb.bodied
    · exact .refuses _ (by simp)
    · rename_i hprogress hdone
      have hs := hb.orderly.alias_pending hk hprogress hdone
      have h1 : p.Reaches (some id) { p with entities := p.entities.modifyAlias id fun d =>
          { d with resolved := none, stage := .inProgress } } := .modifyAlias hb.orderly hk (by simp)
      have hk1 := kind_modifyAlias_self hk fun d => { d with resolved := none, stage := .inProgress }
      obtain ⟨j,rfl,hj⟩ := hb.start h1 (hb.bodied.modifyAlias id _) (by simp [hk,stage,hs]) (by simp [hk1,stage])
      refine .run rfl (((hS.respectsTypes hn).resolveType d.scope d.target.avoids_none).andThen hj fun τ q _ _ hq _ => ?_)
      exact hq.bodied.modifyAlias id _

private theorem resolveObject (hn : k ≤ n) (id : EntityId) :
    Finishing length k h nodes (S.resolveObject id) fun _ => True := by
  refine (((hS.follows.resolveObject id).widen _).imp fun _ _ _ => trivial).finishing fun p hb => ?_
  refine .run rfl ?_
  split
  · exact .breaks _ _
  · rename_i d hd
    have hk : p.entities.kind id = .object d := object?_eq_some.mp hd
    split
    · exact hb.bodied
    · exact .refuses _ (by simp)
    · rename_i hs
      split
      · exact hb.bodied
      · have h1 : p.Reaches (some id) { p with entities := p.entities.modifyObject id fun d =>
            { d with stage := .inProgress } } :=
          .modifyObject hb.orderly hk
        have hk1 := kind_modifyObject_self hk fun d => { d with stage := .inProgress }
        obtain ⟨j,rfl,hj⟩ := hb.start h1 (hb.bodied.modifyObject id _) (by simp [hk,stage,hs]) (by simp [hk1,stage])
        have hT : RespectsTypes _ (fun _ x _ A => Finishing length j h nodes x A) S S := hS.respectsTypes hn
        refine .run rfl ((hT.parentOf (d.avoids_none id) _).andThen hj fun parent q2 _ hr2 h2 _ => ?_)
        refine (hT.object parent).andThen h2 fun _ q3 _ hr3 h3 _ => ?_
        obtain ⟨e,hk3,_,hfixed⟩ := (hr2.trans hr3).advances.object_fixed (by simp) hk1
        have hk4 := kind_modifyObject_self hk3 fun d => { d with parent := some parent }
        have hs4 : e.stage = .inProgress := (hfixed (by simp)).1
        have h4 := h3.reaches (x := some id) (.modifyObject h3.orderly hk3 (f := fun d => { d with parent := some parent })) (h3.bodied.modifyObject id _)
          (by rintro _ ⟨⟩; simp [hk4,stage,hs4])
        refine .run rfl (.run rfl ((hT.layout d.scope _ d.fieldExprs (fun field _ => field.2.avoids_none)
          fun field _ => field.type.avoids_none).andThen h4 fun fields q5 _ _ h5 _ => ?_))
        exact h5.bodied.modifyObject id _

/-! ### Functions -/

private theorem resolveSignature (hn : k + 1 ≤ n) (id : EntityId) :
    Finishing length k h nodes (S.resolveSignature id) fun _ => True := by
  refine ((hS.follows.respects 0).resolveSignature id).finishing fun p hb => ?_
  have hT : RespectsTypes _ (fun _ x _ A => Finishing length k h nodes x A) S S := hS.respectsTypes hn
  refine .run rfl ?_
  split
  · exact .breaks _ _
  · rename_i d hd
    split
    · exact hb.bodied
    · have vars : ∀ types, Finishing length k h nodes
          (if d.hasBody = true then Solver.paramVars d.params types else pure []) fun _ => True := by
        intro types
        split
        · exact hT.paramVars _ fun τ _ => τ.avoids_none
        · exact hT.pure trivial
      refine (hT.paramTypes d.scope d.params d.avoids_none.params).andThen hb fun types q1 _ _ h1 _ => ?_
      refine (hT.declaredReturn d.avoids_none).andThen h1 fun declared q2 _ _ h2 _ => ?_
      refine .ite_bind ((vars types).andThen h2 fun ids q3 _ _ h3 _ => ?_)
      exact h3.bodied.modifyFunction id fun _ => rfl

private theorem resolveBody (hn : k * (length + 1) + 1 ≤ n) (id : EntityId) :
    Finishing length k h nodes (S.resolveBody id) fun _ => True := by
  refine ((hS.follows.respects 0).resolveBody id).finishing fun p hb => ?_
  have hle : k ≤ k * (length + 1) := Nat.le_mul_of_pos_right _ (by omega)
  refine (hS.resolveSignature (by omega) id).andThen hb fun _ q hrun _ hq _ => ?_
  obtain ⟨_,_,d,hk,hsigned⟩ := (hS.follows.resolveSignature id p (.of_orderly hb.orderly)).ends.of_ok hrun
  refine .run rfl ?_
  rw [show (q.entities.get id).function? = some d from function?_eq_some.mpr hk]
  dsimp only
  split
  · rename_i hs
    split
    · rename_i first root hbody
      have h1 := Reaches.startBody hq.orderly hk hsigned d.scope (some ⟨q.scopes.size⟩)
      have hk1 := kind_modifyFunction_self hk
        fun d => { d with bodyStage := .inProgress, bodyScope := some ⟨q.scopes.size⟩ }
      have hB : Bodied length { q with scopes := (q.scopes.push d.scope .function).2 } := hq.bodied.of_tables rfl rfl
      obtain ⟨j,rfl,hj⟩ := hq.start h1 (hB.modifyFunction id fun _ => rfl) (by simp [hk,stage,hs]) (by simp [hk1,stage])
      -- From here on the nodes in question are those of the body.
      replace hj : Bounded length j length [root] _ :=
        { hj with shallow := by simpa using (hq.bodied id d hk first root hbody).shallow }
      rw [Nat.add_one_mul] at hn hle
      have hT : RespectsTypes _ (fun _ x _ A => Finishing length j length [root] x A) S S := hS.respectsTypes (by omega)
      refine .run rfl (.run rfl ((hT.registerAll (finishing_register _) d.paramVars).andThen hj
        fun _ q1 _ _ hq1 _ => ?_))
      refine (hS.expr _ (by simp) (by omega)).andThen hq1 fun τ q2 _ _ hq2 hτ => ?_
      refine (hT.bodyReturn id _ root hτ d.avoids_none.returnType).andThen hq2 fun ρ q3 _ _ hq3 _ => ?_
      exact hq3.bodied.modifyFunction id fun _ => rfl
    · exact hq.bodied.modifyFunction id fun _ => rfl
  · exact hq.bodied

/-- A bounded program is bounded after the signature of a new instance was found and the instance kept. -/
theorem signInstance {pB : Program} {generic id : EntityId} {args : List Ty} {d made : FunctionDef}
    (hn : k + 1 ≤ n) (hk : p.entities.kind generic = .function d) (hnew : args ∉ (p.entities.kind generic).keys)
    (hfree : (generic, args) ∉ p.instantiating) (hB : (p.entering generic args).Leaves none pB)
    (hkB : pB.entities.kind id = .function made) (hi : made.genericOf = some generic ∧ made.appliedArgs = args)
    (hb : pB.Bounded length k h nodes) (hnodes : ∀ n ∈ nodes, p.exprs.Shallow h n) : Ends (do
        leavingKey (S.resolveSignature id)
        modifyFunction generic fun d => { d with instances := d.instances ++ [(args, id)] }) pB
      (fun _ q => q.Bounded length k h nodes) fun d _ => d.cause ≠ .unfinished := by
  have hsign := (hS.follows.signInstance hk hnew hfree hB (.of_orderly hb.orderly) hkB hi).ends
  have hends : Ends (do
      leavingKey (S.resolveSignature id)
      modifyFunction generic fun d => { d with instances := d.instances ++ [(args, id)] }) pB
      (fun _ q => q.Bodied length) fun d _ => d.cause ≠ .unfinished := by
    refine Ends.bind (R := fun _ q => q.Bodied length) (.afterwards ((hS.resolveSignature hn id pB hb).mono
      (fun _ q _ hq => hq.2.1.of_tables rfl rfl) fun _ _ h => h)) fun _ q _ hq => ?_
    exact hq.modifyFunction generic fun _ => rfl
  refine hends.mono (fun _ q hq hbodied => ?_) fun _ _ h => h
  obtain ⟨_,hl,hsettles,_⟩ := hsign.of_ok hq
  have hd : q.instanceDepth = pB.instanceDepth := hl.advances.depth.trans hB.advances.depth.symm
  exact ⟨hl.orderly,hbodied,Nat.le_trans (load_le hd hsettles (by simp)) hb.load,
    fun n hn => hl.advances.shallow (hnodes n hn)⟩

private theorem instantiateFunction (hn : k * (length + 1) + 1 ≤ n) (generic : EntityId) (args : List Ty)
    (location : Location) : Finishing length k h nodes (S.instantiateFunction generic args location) fun _ => True := by
  refine ((hS.follows.respects 0).instantiateFunction generic location fun τ _ => τ.avoids_none).finishing fun p hb => ?_
  refine .run rfl ?_
  split
  · exact .breaks _ _
  · rename_i d hd
    have hk : p.entities.kind generic = .function d := function?_eq_some.mp hd
    refine .expectArity (fun _ => ?_) fun _ hd => hd.1
    split
    · exact hb.bodied
    · rename_i hnone
      have hnew : args ∉ (p.entities.kind generic).keys := by
        rw [hk]
        exact not_mem_keys_of_cached? hnone
      refine .enterInstance (fun hfree hdepth => ?_) fun _ hd => hd.1
      let pA := p.entering generic args
      obtain ⟨body,a,hrun,hclone, -⟩ := Follows.cloneBody_runs (p := pA)
        (fun _ τ (_ : (d.typeParams.zip args).lookup _ = some τ) => τ.avoids_none) d.body
        (.of_orderly (hb.orderly.of_entities rfl))
      have hBA : Bodied length pA := hb.bodied.of_tables rfl rfl
      obtain ⟨hBa,hfits⟩ := hBA.cloneBody _ (hb.bodied generic d hk) hrun
      have hA := hclone.toLeaves
      replace hA := hA.trans (.alloc hA.orderly (p.entities.get generic).name (p.entities.get generic).location
        (k := .function (functionInstance generic d args body))
        (.of_new rfl (by simp [functionInstance]) (by simp)) rfl)
      have hkA := kind_alloc_self (t := p.entities) (p.entities.get generic).name
        (p.entities.get generic).location (.function (functionInstance generic d args body))
      obtain ⟨j,rfl,hj⟩ := hb.enter hdepth hA rfl (hBa.alloc _ _ (by rintro _ ⟨⟩; exact hfits))
      rw [Nat.add_one_mul] at hn
      have hle : j ≤ j * (length + 1) := Nat.le_mul_of_pos_right _ (by omega)
      refine .run hrun (.run rfl (Ends.bind (R := fun _ q => q.Bodied length) (.afterwards ?_) fun _ _ _ h => h))
      rw [← bind_assoc]
      refine (hS.signInstance (by omega) hk hnew hfree hA hkA ⟨rfl,rfl⟩ hj hb.shallow).bind fun _ q _ hq => ?_
      exact (hS.resolveBody (by omega) ⟨p.entities.size⟩ q hq).mono (fun _ r _ hr => hr.2.1.of_tables rfl rfl)
        fun _ _ h => h

private theorem respects (hn : k * (length + 1) + h + 1 ≤ n) :
    Respects (fun _ => False) (fun _ x _ A => Finishing length k h nodes x A) S S (· ∈ nodes) fun _ => True :=
  have hle : k ≤ k * (length + 1) := Nat.le_mul_of_pos_right _ (by omega)
  { hS.respectsTypes (by omega) with
    pushScope := fun parent kind => (((hS.follows.respects 0).pushScope parent kind).imp fun _ _ _ => trivial).finishing
      fun _ hb => hb.bodied.of_tables rfl rfl
    register := fun _ => finishing_register _
    expr := fun hid _ => hS.expr _ hid hn
    setType := fun id τ => ((hS.follows.respects 0).setType id τ).finishing fun _ hb => hb.bodied.setType id τ
    resolveSignature := hS.resolveSignature (by omega)
    resolveBody := hS.resolveBody (by omega)
    instantiateFunction := fun generic args location _ => hS.instantiateFunction (by omega) generic args location }

/-! ### Expressions -/

private theorem resolveCall (hn : k * (length + 1) + h + 1 ≤ n) (location : Location) (scope : ScopeId) (name : String)
    (args : List ExprId) (typeArgs : List TypeExpr) :
    Finishing length k h args (S.resolveCall location scope name args typeArgs) (·.2.Avoids fun _ => False) := by
  have ht := TypeExpr.all_avoid_none typeArgs
  refine ((hS.follows.respects 0).resolveCall (Nat.zero_le _) location name args (by simp) ht).finishing fun p hb => ?_
  have hR : ∀ {nodes}, Respects _ (fun _ x _ A => Finishing length k h nodes x A) S S (· ∈ nodes) fun _ => True :=
    hS.respects hn
  have target : Ends (S.resolveTarget location scope name args typeArgs) p (fun _ q => q.Bodied length)
      fun d _ => d.cause ≠ .unfinished :=
    (hR.resolveTarget trivial location name args (fun _ h => h) ht p hb).mono (fun _ _ _ h => h.2.1) fun _ _ h => h
  unfold Solver.resolveCall
  split
  · refine .run rfl ?_
    split
    · rename_i hshape
      refine (hR.constructed scope name ht location).andThen (hb.literal hshape) fun object q _ _ hq _ => ?_
      exact (hR.construct trivial object _ (fun x hx => List.mem_map_of_mem hx) location).andThen hq
        fun _ _ _ _ hr _ => hr.bodied
    · exact target
  · exact target

private theorem resolveShape (hn : k * (length + 1) + h + 1 ≤ n) (id : ExprId) (scope : ScopeId) (location : Location)
    (hid : id.index < p.exprs.size) (hb : p.Bounded length k h (p.exprs.get id).shape.children) :
    Ends (S.resolveShape id scope location (p.exprs.get id).shape) p (fun _ q => q.Bodied length)
      fun d _ => d.cause ≠ .unfinished := by
  have hR : Respects _ (fun _ x _ A => Finishing length k h (p.exprs.get id).shape.children x A) S S _ fun _ => True :=
    hS.respects hn
  refine hR.resolveShape trivial (Q := fun x _ => ∀ q, p.Reaches none q →
    q.Bounded length k h (p.exprs.get id).shape.children → Ends x q (fun _ r => r.Bodied length) fun d _ =>
      d.cause ≠ .unfinished) ?_ ?_ ?_ ?_ (fun _ h => h) (TypeExpr.all_avoid_none _) p (.refl hb.orderly) hb
  · exact fun _ _ _ hq => hq.bodied
  · exact fun hx hf q hr hq => hx.andThen hq fun a r _ hr' hq' ha => hf a ha r (hr.trans hr') hq'
  · exact fun hs _ q hr hq => hq.bodied.fill hr.advances hid hs
  · intro name args typeArgs target he
    rw [he]
    exact hS.resolveCall hn location scope name args typeArgs

private theorem resolveExpr (hn : k * (length + 1) + h ≤ n) {id : ExprId} (hid : id ∈ nodes) (scope : ScopeId) :
    Finishing length k h nodes (S.resolveExpr id scope) (·.Avoids fun _ => False) := by
  refine (hS.follows.resolveExpr (Nat.zero_le _) id).finishing fun p hb => ?_
  have hs := hb.shallow id hid
  cases h with
  | zero => exact hs.elim
  | succ h =>
    have hparts : p.Bounded length k h (p.exprs.get id).shape.children := { hb with shallow := hs.2 }
    exact .run rfl ((hS.resolveShape (by omega) id scope _ hs.1 hparts).bind fun τ q _ hq => hq.setType id τ)

end Deep

/-- A budget is enough for as many nested questions. -/
theorem deep_upTo (length n : Nat) : (Solver.upTo n).Deep length n := by
  induction n with
  | zero => exact ⟨follows_upTo (Nat.le_refl 0),by omega,by omega,by omega⟩
  | succ n ih =>
    exact ⟨follows_upTo (Nat.le_refl (n + 1)),fun id hn => ih.resolveAlias (by omega) id,fun id hn => ih.resolveObject (by omega) id,
      fun scope hid hn => ih.resolveExpr (by omega) hid scope⟩

/-! ### Whole programs -/

namespace Deep

variable (hS : S.Deep length n)
include hS

private theorem resolveDeclarations (hn : k * (length + 1) + h + 1 ≤ n) :
    Finishing length k h nodes S.resolveDeclarations fun _ => True := by
  have hR : Respects _ (fun _ x _ A => Finishing length k h nodes x A) S S (· ∈ nodes) fun _ => True := hS.respects hn
  have add (owner : EntityId) (methods : List EntityId) : Finishing length k h nodes
      (modifyObject owner fun d => { d with methods := d.methods ++ methods }) fun _ => True :=
    (Follows.addMethods owner methods).finishing fun _ hb => hb.bodied.modifyObject owner _
  have take : Finishing length k h nodes (modify fun p => { p with pendingImpls := [] }) fun _ => True :=
    Runs.finishing (.of_tables (fun _ _ => .tables rfl rfl rfl rfl) (fun _ => rfl) (fun _ => rfl) (fun _ => rfl)
      (fun _ => rfl) fun _ _ => trivial) fun _ hb => hb.bodied.of_tables rfl rfl
  exact hR.get.bind fun _ _ => (hR.resolveTypeEntities _).bind fun _ _ => (hR.attachMethods add take).bind fun _ _ =>
    (hR.resolveFunctionEntities _).bind fun _ _ => hR.checkCoverage

end Deep

end Solver

namespace Import

variable {α : Type}

/-- No refusal of the action is for want of budget. -/
def Ending {α : Type} (x : Check α) : Prop :=
  ∀ p : Program, Ends x p (fun _ _ => True) fun d _ => d.cause ≠ .unfinished

theorem Ending.bind {β : Type} {x : Check α} {f : α → Check β} (hx : Ending x) (hf : ∀ a, Ending (f a)) :
    Ending (x >>= f) := fun p => (hx p).bind fun a q _ _ => hf a q

private theorem ending_pure (a : α) : Ending (pure a) := fun _ => trivial

private theorem ending_get : Ending get := fun _ => trivial

private theorem ending_fail (location : Location) {cause : Cause} (hc : cause ≠ .unfinished) :
    Ending (fail location cause : Check α) := fun _ => hc

private theorem ending_registerAs (scope : ScopeId) (name : String) (id : EntityId) (location : Location) :
    Ending (registerAs scope name id location) := by
  intro p
  show Ends (ofExcept (p.scopes.registerAs p.entities scope name id location) >>=
    fun scopes => modify fun p => { p with scopes }) p _ _
  cases hr : p.scopes.registerAs p.entities scope name id location with
  | ok scopes => trivial
  | error d => exact (ScopeTable.cause_registerAs hr).1

private theorem ending_descend (location : Location) (path : List String) :
    ∀ scope : ScopeId, Ending (descend location scope path) := by
  induction path with
  | nil => exact fun _ => ending_pure _
  | cons segment path ih =>
    refine fun scope => ending_get.bind fun p => ?_
    split
    · exact ih _
    · exact ending_fail _ (by simp)

private theorem ending_visibleModule (scope : ScopeId) (name : String) (location : Location) :
    Ending (visibleModule scope name location) := by
  refine ending_get.bind fun p => ?_
  split
  · exact ending_fail _ (by simp)
  · split
    · exact ending_fail _ (by simp)
    · exact ending_pure _

private theorem ending_registerAll (use : PendingUse) (last : String) (ids : List EntityId) :
    Ending (registerAll use last ids) := by
  induction ids with
  | nil => exact ending_pure _
  | cons id ids ih => exact ending_get.bind fun _ => (ending_registerAs _ _ _ _).bind fun _ => ih

private theorem ending_bind (use : PendingUse) : Ending (Import.bind use) := by
  unfold Import.bind
  split
  · exact ending_fail _ (by simp)
  · exact (ending_visibleModule _ _ _).bind fun _ => ending_registerAs _ _ _ _
  · refine (ending_visibleModule _ _ _).bind fun _ => (ending_descend _ _ _).bind fun _ => ending_get.bind fun p => ?_
    dsimp only
    generalize (if _ = "all" then _ else _ : List EntityId) = imported
    split
    · exact (ending_fail _ (by simp)).bind fun _ => ending_registerAll _ _ _
    · exact ending_registerAll _ _ _

private theorem ending_bindAll : Ending bindAll := by
  refine ending_get.bind fun p => Ending.bind (fun _ => trivial) fun _ => ?_
  induction p.pendingUses with
  | nil => exact ending_pure _
  | cons use uses ih => exact (ending_bind use).bind fun _ => ih

end Import

namespace Program

variable {p q : Program}

private theorem Fresh.bounded (hF : p.Fresh) : p.Bounded p.exprs.size (p.entities.size + 2 * instanceLimit) 0 [] where
  orderly := hF.orderly
  bodied f d hk first root hb := by
    obtain ⟨hlt,ht⟩ := (hF.function hk).body first root hb
    exact ⟨hlt,ht,by omega⟩
  load := load_of_new p
  shallow := by simp

/-- The budget covers the load of a program that was read, with all levels of its bodies. -/
theorem load_le_budget (p : Program) :
    (p.entities.size + 2 * instanceLimit) * (p.exprs.size + 1) + 0 + 1 ≤ p.budget := by
  have h : (p.entities.size + 2 * instanceLimit) * (p.exprs.size + 1) ≤
      (p.entities.size + 128) * (p.exprs.size + 10) := Nat.mul_le_mul (by simp [instanceLimit]) (by omega)
  have h' : (p.entities.size + 200) * (p.exprs.size + 10) =
      (p.entities.size + 128) * (p.exprs.size + 10) + 72 * (p.exprs.size + 10) := by rw [← Nat.add_mul]
  unfold budget
  omega

/-- Resolution of a program that was read ends: it never runs out of budget, whatever objects, aliases, functions and
instances ask for each other, and any larger budget gives the same result. -/
theorem resolution_finishes (hp : p.Scanned) :
    (∀ d q, (Import.bindAll >>= fun _ => resolveProgram) p = .error d q → d.cause ≠ .unfinished) ∧
      ∀ q, Import.bindAll p = .ok () q →
        ∀ n, q.budget ≤ n → (Solver.upTo n).resolveDeclarations q = resolveProgram q := by
  have finishes : ∀ q, Import.bindAll p = .ok () q →
      Ends (q.solver.resolveDeclarations) q (fun _ _ => True) fun d _ => d.cause ≠ .unfinished := by
    intro q hq
    have hD : q.solver.Deep q.exprs.size q.budget := Solver.deep_upTo _ _
    exact (hD.resolveDeclarations q.load_le_budget q (hp.bindImports hq).fresh.bounded).mono
      (fun _ _ _ _ => trivial) fun _ _ h => h
  refine ⟨fun d q h => ?_,fun q hq n hn => ?_⟩
  · have hends : Ends (Import.bindAll >>= fun _ => resolveProgram) p (fun _ _ => True) fun d _ => d.cause ≠ .unfinished := by
      refine (Import.ending_bindAll p).bind fun _ r hr _ => ?_
      unfold Ends
      rw [resolveProgram_eq]
      exact finishes r hr
    exact hends.of_error h
  · have hf := finishes q hq
    have hr := ((Solver.follows_upTo hn).resolveDeclarations 0 q (.of_orderly (hp.bindImports hq).fresh.orderly)).tracks
    rw [resolveProgram_eq]
    rcases hr with he | ⟨location,m,hrun, -⟩
    · exact he.symm
    · exact absurd rfl (hf.of_error hrun)

/-- An object whose layout needs larger and larger instances of it, and two functions that call each other. -/
private def nestsForever : String :=
  "(obj Nest (type_params T) (: inner (Nest (FixedArray T))))" ++
    "(fn even (parameters (: n i32)) (return_type bool) (odd n)) (fn odd (parameters (: n i32)) (even n))" ++
    "(pub (fn f (parameters (: x (Nest i32))) 1))"

private def refusesNesting (source : String) : Bool :=
  okAnd (fun _ p => okAnd (fun _ q =>
    match resolveProgram q with
    | .error ⟨.cyclicInstantiation _,_⟩ _ => true
    | _ => false) (Import.bindAll p)) (scan [] "main.vast" source initial)

theorem resolution_finishes_sample : ∃ p q r name location, p.Scanned ∧ Import.bindAll p = .ok () q ∧
    resolveProgram q = .error ⟨.cyclicInstantiation name,location⟩ r ∧
    ∀ n, q.budget ≤ n → (Solver.upTo n).resolveDeclarations q = .error ⟨.cyclicInstantiation name,location⟩ r := by
  obtain ⟨source,h⟩ : ∃ source, refusesNesting source = true := ⟨nestsForever,by decide +kernel⟩
  obtain ⟨_,p,hp,h⟩ := okAnd_iff.mp h
  obtain ⟨_,q,hq,h⟩ := okAnd_iff.mp h
  split at h
  · rename_i name location r hr
    refine ⟨p,q,r,name,location,scanned_of_scan hp,hq,hr,fun n hn => ?_⟩
    rw [← hr]
    exact (resolution_finishes (scanned_of_scan hp)).2 q hq n hn
  · cases h

end Program

end FormCompiler
