import FormCompiler.Proofs.Resolution.Advance
import FormCompiler.Proofs.Resolution.Avoiding

/-! How the actions of resolution are put together. Most of them only ask questions, one after the other, and combine
the answers. So a relation between actions that holds of the questions and is kept by sequences holds of all these
actions; only those that work on a definition or a node themselves have to be looked at one by one. What a relation says
of results goes along: the types that come out avoid what the types that go in do. -/

namespace FormCompiler

open Check List

/-- The causes of refusals in general. Only a solver runs out of budget, and only an object that is in progress when it
is asked about inherits from itself. -/
@[simp] def Cause.Ordinary (cause : Cause) : Prop :=
  cause ≠ .unfinished ∧ ∀ name, cause ≠ .cyclicInheritance name

namespace Solver

variable {scope : ScopeId} {typeArgs : List TypeExpr} {d : FunctionDef} {operand : Operand}

/-- A relation between the actions of two solvers, with what is known of their results. -/
abbrev Relation := (α : Type) → Check α → Check α → (α → Prop) → Prop

abbrev Relation.Self (P : Relation) {α : Type} (x : Check α) (A : α → Prop) : Prop := P α x x A

abbrev Relation.Asks (P : Relation) (S T : Solver) {α : Type} (x : Solver → Check α) (A : α → Prop) : Prop :=
  P α (x S) (x T) A

/-- A relation that holds of every question about types and of what needs no solver, and that is kept when actions are
put together. -/
structure RespectsTypes (G : EntityId → Prop) (P : Relation) (S T : Solver) : Prop where
  base : P.Self (pure Program.objectId) (¬ G ·)
  pure {α : Type} {a : α} {A : α → Prop} : A a → P.Self (pure a) A
  fail {α : Type} (location : Location) {cause : Cause} {A : α → Prop} : cause.Ordinary →
    P.Self (Check.fail location cause) A
  bind {α β : Type} {x y : Check α} {f g : α → Check β} {A : α → Prop} {B : β → Prop} : P α x y A →
    (∀ a, A a → P β (f a) (g a) B) → P β (x >>= f) (y >>= g) B
  get : P.Self get (·.Avoids G)
  var (name : String) (location : Location) {τ : Ty} (mutable : Bool) : τ.Avoids G →
    P.Self (allocEntity name location (.var τ mutable)) fun _ => True
  distance? (id ancestor : EntityId) : P.Self (distance? id ancestor) fun _ => True
  join? {σ τ : Ty} : σ.Avoids G → τ.Avoids G →
    P.Self (join? σ τ) fun r => ∀ ρ, r = some ρ → ρ.Avoids G
  aliased (id : EntityId) : P.Asks S T (·.aliased id) (·.Avoids G)
  object (id : EntityId) : P.Asks S T (·.object id) fun _ => True
  instantiateObject (generic : EntityId) {args : List Ty} (location : Location) : (∀ τ ∈ args, τ.Avoids G) →
    P.Asks S T (·.instantiateObject generic args location) (¬ G ·)

/-- The same with questions about functions. -/
structure RespectsFunctions (G : EntityId → Prop) (P : Relation) (S T : Solver) : Prop extends
    RespectsTypes G P S T where
  resolveSignature (id : EntityId) : P.Asks S T (·.resolveSignature id) fun _ => True
  resolveBody (id : EntityId) : P.Asks S T (·.resolveBody id) fun _ => True
  instantiateFunction (generic : EntityId) {args : List Ty} (location : Location) : (∀ τ ∈ args, τ.Avoids G) →
    P.Asks S T (·.instantiateFunction generic args location) fun _ => True

/-- The same with new scopes and names in the scopes of which `scopes` holds, with questions about the expressions of
which `ids` holds, and with types of nodes. -/
structure Respects (G : EntityId → Prop) (P : Relation) (S T : Solver) (ids : ExprId → Prop)
    (scopes : ScopeId → Prop) : Prop extends RespectsFunctions G P S T where
  pushScope (parent : ScopeId) (kind : ScopeKind) : P.Self (pushScope parent kind) scopes
  register {scope : ScopeId} (hs : scopes scope) (id : EntityId) :
    P.Self (register scope id) fun _ => True
  expr {id : ExprId} {scope : ScopeId} : ids id → scopes scope → P.Asks S T (·.expr id scope) (·.Avoids G)
  setType (id : ExprId) (τ : Ty) : P.Self (modify fun p => { p with exprs := p.exprs.setType id τ }) fun _ => True

variable {G : EntityId → Prop} {P : Relation} {S T : Solver}

namespace RespectsTypes

variable (h : RespectsTypes G P S T) {α β : Type} {c : Prop} {A : α → Prop} {B : β → Prop}
include h
variable {x y : Check α} {f g : α → Check β} {τ : Ty}

/-! ### Reading and comparing -/

theorem imp (hx : P α x y A) {C : α → Prop} (hA : ∀ a, A a → C a) : P α x y C := by
  rw [← bind_pure x,← bind_pure y]
  exact h.bind hx fun a ha => h.pure (hA a ha)

theorem broken (location : Location) (fault : SemanticFault) :
    P.Self (Check.broken location fault) A := h.fail location (by simp)

theorem entity (id : EntityId) : P.Self (entity id) fun e => e.kind.Avoids G id :=
  h.bind h.get fun _ hp => h.pure (hp.entities id)

theorem object? (id : EntityId) : P.Self (object? id) fun _ => True :=
  h.bind h.get fun _ _ => h.pure trivial

private theorem function? (id : EntityId) : P.Self (function? id) fun r => ∀ d, r = some d → d.Avoids G :=
  h.bind h.get fun _ hp => h.pure fun _ hd => hp.function (EntityTable.function?_eq_some.mp hd)

private theorem node (id : ExprId) : P.Self (node id) fun e => ∀ t ∈ e.shape.typeExprs, t.Avoids G :=
  h.bind h.get fun _ hp => h.pure (hp.nodes id)

private theorem typeName (τ : Ty) : P.Self (typeName τ) fun _ => True :=
  h.bind h.get fun _ _ => h.pure trivial

private theorem displayName (id : EntityId) : P.Self (displayName id) fun _ => True :=
  h.bind h.get fun _ _ => h.pure trivial

theorem map (f : α → β) (hx : P α x y A) : P β (f <$> x) (f <$> y) fun _ => True := by
  exact h.bind hx fun _ _ => h.pure trivial

omit h in
private theorem ite [Decidable c] {x' y' : Check α} (hx : c → P α x x' A) (hy : ¬ c → P α y y' A) :
    P α (if c then x else y) (if c then x' else y') A := by
  split
  · exact hx ‹c›
  · exact hy ‹¬c›

/-- What comes after a refusal does not matter. -/
theorem stop (location : Location) {cause : Cause} (hc : cause.Ordinary) :
    P β (Check.fail location cause >>= f) (Check.fail location cause >>= g) B :=
  h.bind (A := fun _ => False) (h.fail _ hc) fun _ hf => hf.elim

/-- A refusal that names a type. -/
theorem stopType (τ : Ty) (location : Location) {cause : String → Cause} (hc : ∀ a, (cause a).Ordinary)
    : P β (Check.typeName τ >>= fun a => Check.fail location (cause a) >>= f)
      (Check.typeName τ >>= fun a => Check.fail location (cause a) >>= g) B :=
  h.bind (h.typeName _) fun a _ => h.stop location (hc a)

/-- A refusal that names two types. -/
theorem stopTypes (σ τ : Ty) (location : Location) {cause : String → String → Cause}
    (hc : ∀ a b, (cause a b).Ordinary) :
    P β (Check.typeName σ >>= fun a => Check.typeName τ >>= fun b => Check.fail location (cause a b) >>= f)
      (Check.typeName σ >>= fun a => Check.typeName τ >>= fun b => Check.fail location (cause a b) >>= g) B :=
  h.bind (h.typeName _) fun a _ => h.stopType _ location (hc a)

private theorem extends? (id ancestor : EntityId) : P.Self (extends? id ancestor) fun _ => True :=
  h.bind (h.distance? id ancestor) fun _ _ => h.pure trivial

theorem isAssignable (source wanted : Ty) : P.Self (isAssignable source wanted) fun _ => True := by
  refine ite (fun _ => h.pure trivial) fun _ => ?_
  split
  · exact h.extends? _ _
  · exact h.pure trivial

theorem expectAssignable (source wanted : Ty) (location : Location) :
    P.Self (expectAssignable source wanted location) fun _ => True := by
  refine h.bind (h.isAssignable _ _) fun b _ => ite (fun _ => h.pure trivial) fun _ => ?_
  exact h.bind (h.typeName _) fun _ _ => h.bind (h.typeName _) fun _ _ => h.fail _ (by simp)

private theorem expectArity (name : String) (expected found : Nat) (location : Location) :
    P.Self (expectArity name expected found location) fun _ => expected = found :=
  ite (fun hc => h.pure hc) fun _ => h.fail _ (by simp)

/-! ### Types -/

private theorem typeEntity (scope : ScopeId) (name : String) (location : Location) :
    P.Self (typeEntity scope name location) fun r => r.2.Avoids G r.1 := by
  refine h.bind h.get fun p hp => ?_
  split
  · exact h.pure (hp.entities _)
  · exact h.fail _ (by simp)

mutual

theorem resolveType (scope : ScopeId) : ∀ {t : TypeExpr}, t.Avoids G → P.Asks S T (·.resolveType scope t) (·.Avoids G)
  | .resolved type, .resolved ht => by
    exact h.pure ht
  | .named name location, _ => by
    simp only [Solver.resolveType]
    refine h.bind (h.typeEntity _ _ _) fun r hr => ?_
    split
    · exact h.pure trivial
    · rename_i d hd
      rw [hd] at hr
      refine h.bind (h.expectArity _ _ _ _) fun _ hlen => h.pure (hr.plain ?_)
      simp [ObjectDef.isGeneric,length_eq_zero_iff.mp hlen]
    · exact h.fail _ (by simp)
    · exact h.aliased _
    · exact h.fail _ (by simp)
  | .apply name args location, .apply ha => by
    refine h.bind (h.typeEntity _ _ _) fun r _ => h.bind (resolveTypes scope ha) fun types ht => ?_
    split
    · split
      · have helement := ht _ (mem_singleton_self _)
        exact h.pure helement
      · exact h.fail _ (by simp)
    · exact ite (fun _ => h.bind (h.instantiateObject _ _ ht) fun _ hid => h.pure hid) fun _ => h.fail _ (by simp)
    · exact h.fail _ (by simp)
    · exact h.fail _ (by simp)
    · exact h.fail _ (by simp)

theorem resolveTypes (scope : ScopeId) : ∀ {ts : List TypeExpr}, (∀ t ∈ ts, t.Avoids G) →
    P.Asks S T (·.resolveTypes scope ts) fun τs => ∀ τ ∈ τs, τ.Avoids G
  | [], _ => by
    exact h.pure (by simp)
  | t :: ts, ht => by
    refine h.bind (resolveType scope (ht t (by simp))) fun τ hτ => ?_
    refine h.bind (resolveTypes scope fun u hu => ht u (by simp [hu])) fun τs hτs => h.pure ?_
    simpa using ⟨hτ,hτs⟩

end

theorem parentOf {id : EntityId} {d : ObjectDef} (hd : d.Avoids G id) (location : Location) :
    P.Asks S T (·.parentOf d location) (¬ G ·) := by
  unfold Solver.parentOf
  split
  · exact h.base
  · refine h.bind (h.resolveType _ (hd.parentExpr _ ‹_›)) fun τ hτ => ?_
    split
    · exact h.pure hτ
    · exact h.bind (h.typeName _) fun _ _ => h.fail _ (by simp)

/-- A layout is the inherited one with more fields, and in order if that is. -/
theorem layout (scope : ScopeId) (location : Location) (exprs : List (String × TypeExpr))
    (he : ∀ x ∈ exprs, x.2.Avoids G) : ∀ {fields : List Field}, (∀ field ∈ fields, field.type.Avoids G) →
      P.Asks S T (·.layout scope location fields exprs) fun all =>
        fields <+: all ∧ (∀ field ∈ all, field.type.Avoids G) ∧ (LayoutOk fields → LayoutOk all) := by
  induction exprs with
  | nil => exact fun hf => h.pure ⟨prefix_rfl,hf,id⟩
  | cons head exprs ih =>
    intro fields hf
    replace ih := @ih fun x hx => he x (by simp [hx])
    refine h.bind (h.resolveType _ (he head (by simp))) fun τ hτ => ite (fun hvalue => ?_) fun _ => h.stopType _ _ (by simp)
    split
    · exact ite (fun _ => ih hf) fun _ => h.stopTypes _ _ _ (by simp)
    · rename_i hnone
      have hall : ∀ field ∈ fields ++ [⟨head.1,τ⟩], field.type.Avoids G := by
        simpa [or_imp,forall_and] using ⟨hf,hτ⟩
      refine h.imp (ih hall) ?_
      exact fun all ha => ⟨(prefix_append _ _).trans ha.1,ha.2.1,fun hok => ha.2.2 (hok.concat hnone hvalue)⟩

/-! ### Functions -/

theorem paramTypes (scope : ScopeId) (params : List Param) (hp : ∀ param ∈ params, param.declared.Avoids G) :
    P.Asks S T (·.paramTypes scope params) fun τs => ∀ τ ∈ τs, τ.Avoids G := by
  induction params with
  | nil => exact h.pure (by simp)
  | cons param params ih =>
    refine h.bind (h.resolveType _ (hp param (by simp))) fun τ hτ => ite (fun _ => ?_) fun _ => h.stopType _ _ (by simp)
    refine h.bind (ih fun x hx => hp x (by simp [hx])) fun τs hτs => h.pure ?_
    simpa using ⟨hτ,hτs⟩

theorem paramVars : ∀ (params : List Param) {types : List Ty}, (∀ τ ∈ types, τ.Avoids G) →
    P.Self (Solver.paramVars params types) fun _ => True
  | _ :: params, τ :: types, ht =>
    h.bind (h.var _ _ _ (ht τ (by simp))) fun _ _ =>
      h.bind (paramVars params fun σ hσ => ht σ (by simp [hσ])) fun _ _ => h.pure trivial
  | [], _, _ => h.pure trivial
  | _ :: _, [], _ => h.pure trivial

theorem declaredReturn (hd : d.Avoids G) : P.Asks S T (·.declaredReturn d) fun r => ∀ τ, r = some τ → τ.Avoids G := by
  unfold Solver.declaredReturn
  split
  · rename_i ht
    refine h.bind (h.resolveType _ (hd.returnExpr _ ht)) fun τ hτ => h.pure ?_
    rintro _ ⟨⟩
    exact hτ
  · refine h.pure ?_
    rintro _ ⟨⟩
    exact trivial
  · exact h.pure (by simp)

theorem registerAll (hr : ∀ id, P.Self (register scope id) fun _ => True)
    (ids : List EntityId) : P.Self (Solver.registerAll scope ids) fun _ => True := by
  induction ids with
  | nil => exact h.pure trivial
  | cons id ids ih => exact h.bind (hr id) fun _ _ => ih

theorem bodyReturn (id : EntityId) (location : Location) (root : ExprId) {body : Ty} (hb : body.Avoids G)
    {declared : Option Ty} (hd : ∀ τ, declared = some τ → τ.Avoids G) :
    P.Self (Solver.bodyReturn id location root body declared)
      fun τ => τ.Avoids G ∧ ∀ σ, declared = some σ → τ = σ := by
  unfold Solver.bodyReturn
  split
  · have last {σ : Ty} (hσ : σ.Avoids G) : P.Self (Pure.pure σ)
        fun τ => τ.Avoids G ∧ ∀ ρ, some σ = some ρ → τ = ρ := h.pure ⟨hσ,fun _ he => Option.some_inj.mp he⟩
    refine ite (fun _ => last (hd _ rfl)) fun _ => h.bind (h.node _) fun _ _ => ?_
    exact h.bind (h.expectAssignable _ _ _) fun _ _ => last (hd _ rfl)
  · exact ite (fun _ => h.bind (h.displayName _) fun _ _ => h.stop _ (by simp)) fun _ => h.pure ⟨hb,by simp⟩

/-! ### Matches and choices among candidates -/

private theorem variableNamed (scope : ScopeId) (name : String) (location : Location) :
    P.Self (variableNamed scope name location) fun r => r.2.1.Avoids G := by
  refine h.bind h.get fun p hp => ?_
  split
  · exact h.fail _ (by simp)
  · rename_i id _
    have hk := hp.entities id
    unfold EntityTable.kind at hk
    split
    · rename_i hv
      rw [hv] at hk
      exact h.pure hk
    · exact h.broken _ _

theorem joined {σ : Ty} (hσ : σ.Avoids G) (hτ : τ.Avoids G) (location : Location) :
    P.Self (joined σ τ location) (·.Avoids G) := by
  refine h.bind (h.join? hσ hτ) fun r hr => ?_
  split
  · exact h.pure (hr _ rfl)
  · exact h.bind (h.typeName _) fun _ _ => h.bind (h.typeName _) fun _ _ => h.fail _ (by simp)

theorem joinedArm {before : Option Ty} (hb : ∀ τ, before = some τ → τ.Avoids G) {next : Ty} (hn : next.Avoids G)
    (location : Location) : P.Self (joinedArm before next location) (·.Avoids G) := by
  unfold FormCompiler.joinedArm
  split
  · exact h.joined (hb _ rfl) hn _
  · exact h.pure hn

private theorem bindOperand (hr : ∀ id, P.Self (register scope id) fun _ => True)
    (name : String) (hτ : τ.Avoids G) (location : Location) :
    P.Self (bindOperand scope name τ location) fun _ => True :=
  h.bind (h.var _ _ _ hτ) fun id _ => h.bind (hr id) fun _ _ => h.pure trivial

private theorem operandOf (m : Match) (hτ : τ.Avoids G) : P.Self (operandOf m τ) (·.type.Avoids G) := by
  refine h.bind (h.node _) fun n _ => ?_
  by_cases hguard : m.isTypeGuard = true
  · simp only [hguard,if_true]
    cases τ with
    | object object => exact h.pure hτ
    | _ => exact h.bind (h.typeName _) fun _ _ => h.fail _ (by simp)
  · simp only [hguard,Bool.false_eq_true,if_false]
    exact ite (fun _ => h.stopType _ _ (by simp)) fun _ => h.pure hτ

theorem resolvePattern (scope : ScopeId) (ho : operand.type.Avoids G) {arm : Arm}
    (ha : ∀ t, arm.pattern = .type t → t.Avoids G) : P.Asks S T (·.resolvePattern scope operand arm) fun r =>
        ∀ τ, r.2 = some τ → τ.Avoids G := by
  unfold Solver.resolvePattern
  split
  · refine ite (fun _ => h.pure fun τ hτ => ?_) fun _ => h.stopTypes _ _ _ (by simp)
    obtain ⟨_,_,rfl⟩ := Option.map_eq_some_iff.mp hτ
    exact ho
  · rename_i hp _
    refine h.bind (h.resolveType _ (ha _ hp)) fun τ hτ => ?_
    split
    · refine h.bind (h.extends? _ _) fun _ _ => h.bind (h.extends? _ _) fun _ _ => ?_
      refine ite (fun _ => h.pure ?_) fun _ => h.stopTypes _ _ _ (by simp)
      rintro _ ⟨⟩
      exact hτ
    · exact h.bind (h.typeName _) fun _ _ => h.fail _ (by simp)
  · exact h.fail _ (by simp)

private theorem conversionCost? (arg param : Ty) : P.Self (conversionCost? arg param) fun _ => True := by
  refine ite (fun _ => h.pure trivial) fun _ => ?_
  split
  · exact h.distance? _ _
  · exact h.pure trivial

private theorem totalCost? : ∀ args params : List Ty, P.Self (totalCost? args params) fun _ => True
  | arg :: args, param :: params => by
    refine h.bind (h.conversionCost? arg param) fun cost _ => ?_
    split
    · exact h.pure trivial
    · exact h.bind (totalCost? args params) fun _ _ => h.pure trivial
  | [], _ => h.pure trivial
  | _ :: _, [] => h.pure trivial

private theorem choose (location : Location) (name : String) (first : Viable) (rest : List Viable) :
    P.Self (choose location name first rest) (· ∈ first :: rest) := by
  unfold FormCompiler.choose
  dsimp only
  split
  · rename_i winner hw
    exact h.pure (mem_filter.mp (hw.symm ▸ mem_singleton_self winner)).1
  · exact h.fail _ (by simp)
  · exact h.bind h.get fun _ _ => h.fail _ (by simp)

private theorem reportNoMatch (location : Location) (name : String) (argTypes explicit : List Ty)
    (all fitting : List EntityId) : P.Self (reportNoMatch location name argTypes explicit all fitting) A := by
  refine h.bind h.get fun p _ => ite (fun _ => h.stop _ (by simp)) fun _ => ite (fun _ => h.stop _ (by simp)) fun _ => ?_
  exact ite (fun _ => h.stop _ (by simp)) fun _ => h.fail _ (by simp)

theorem constructed (scope : ScopeId) (name : String) (ht : ∀ t ∈ typeArgs, t.Avoids G)
    (location : Location) : P.Asks S T (·.constructed scope name typeArgs location) (¬ G ·) := by
  refine h.bind h.get fun p _ => ite (fun _ => ?_) fun _ => h.stop _ (by simp)
  refine h.bind (h.resolveType _ ?_) fun τ hτ => ?_
  · split
    · exact .named
    · exact .apply ht
  · split
    · exact h.pure hτ
    · exact h.bind (h.typeName _) fun _ _ => h.broken _ _

/-! ### Coverage -/

private theorem anyM (ids : List EntityId) (id : EntityId) : P.Self (ids.anyM (Check.extends? id)) fun _ => True := by
  induction ids with
  | nil => exact h.pure trivial
  | cons a ids ih =>
    refine h.bind (h.extends? _ _) fun b _ => ?_
    cases b with
    | true => exact h.pure trivial
    | false => exact ih

private theorem uncovered (operand : EntityId) (tested ids : List EntityId) :
    P.Self (uncovered operand tested ids) fun _ => True := by
  induction ids with
  | nil => exact h.pure trivial
  | cons id ids ih =>
    exact h.bind (h.extends? _ _) fun _ _ => h.bind (h.anyM _ _) fun _ _ => h.bind ih fun _ _ => h.pure trivial

private theorem checkExhaustive (operand : EntityId) (tested : List EntityId) (location : Location) :
    P.Self (checkExhaustive operand tested location) fun _ => True := by
  refine h.bind h.get fun p _ => h.bind (h.uncovered _ _ _) fun missing _ => ite (fun _ => h.pure trivial) fun _ => ?_
  exact h.bind h.get fun _ _ => h.fail _ (by simp)

private theorem checkNode (id : ExprId) : P.Self (checkNode id) fun _ => True := by
  refine h.bind h.get fun p _ => ?_
  dsimp only
  split
  · refine ite (fun _ => h.pure trivial) fun _ => ?_
    split
    · exact h.checkExhaustive _ _ _
    · exact h.pure trivial
  · exact h.pure trivial

private theorem checkNodes (ids : List ExprId) : P.Self (checkNodes ids) fun _ => True := by
  induction ids with
  | nil => exact h.pure trivial
  | cons id ids ih => exact h.bind (h.checkNode id) fun _ _ => ih

theorem checkCoverage : P.Self checkCoverage fun _ => True := h.bind h.get fun _ _ => h.checkNodes _

/-! ### Declarations -/

private theorem resolveTypeEntity (id : EntityId) : P.Asks S T (·.resolveTypeEntity id) fun _ => True := by
  refine h.bind (h.entity _) fun e _ => ?_
  split
  · exact ite (fun _ => h.pure trivial) fun _ => h.object _
  · exact h.bind (h.aliased _) fun _ _ => h.pure trivial
  · exact h.pure trivial

theorem resolveTypeEntities (ids : List EntityId) : P.Asks S T (·.resolveTypeEntities ids) fun _ => True := by
  induction ids with
  | nil => exact h.pure trivial
  | cons id ids ih => exact h.bind (h.resolveTypeEntity id) fun _ _ => ih

private theorem implOwner (scope : ScopeId) (name : String) (location : Location) :
    P.Asks S T (·.implOwner scope name location) fun _ => True := by
  refine h.bind (h.typeEntity _ _ _) fun r _ => ?_
  have last : ∀ object, True → P.Self (Check.object? object >>= fun d =>
      Pure.pure ((d.bind (·.genericOf)).getD object)) fun _ => True :=
    fun object _ => h.bind (h.object? _) fun _ _ => h.pure trivial
  dsimp only
  split
  · exact h.bind (h.pure trivial) last
  · refine h.bind (h.aliased _) fun τ _ => ?_
    split
    · exact h.bind (h.pure trivial) last
    · exact h.stop _ (by simp)
  · exact h.stop _ (by simp)

section Methods

variable
  (add : ∀ owner methods, P.Self (modifyObject owner fun d => { d with methods := d.methods ++ methods }) fun _ => True)
  (take : P.Self (modify fun p => { p with pendingImpls := [] }) fun _ => True)
include add

private theorem attachEach (blocks : List PendingImpl) : P.Asks S T (·.attachEach blocks) fun _ => True := by
  induction blocks with
  | nil => exact h.pure trivial
  | cons block blocks ih =>
    refine h.bind (A := fun _ => True) ?_ fun _ _ => ih
    unfold Solver.attach
    split
    · exact h.bind (h.implOwner _ _ _) fun _ _ => add _ _
    · exact h.bind (h.implOwner _ _ _) fun _ _ => add _ _
    · exact h.pure trivial

include take in
theorem attachMethods : P.Asks S T (·.attachMethods) fun _ => True :=
  h.bind h.get fun _ _ => h.bind take fun _ _ => h.attachEach add _

end Methods

end RespectsTypes

open RespectsTypes (ite)

namespace RespectsFunctions

variable (h : RespectsFunctions G P S T) {argTypes explicit : List Ty}
include h

/-! ### Functions -/

theorem returnType (id : EntityId) (location : Location) : P.Asks S T (·.returnType id location) (·.Avoids G) := by
  have unresolved : P.Self (α := Ty) (Check.displayName id >>= fun text =>
      Check.fail location (.unresolvedType s!"return type of `{text}`")) (·.Avoids G) :=
    h.bind (h.displayName _) fun _ _ => h.fail _ (by simp)
  refine h.bind (h.resolveSignature _) fun _ _ => h.bind (h.function? _) fun r hr => ?_
  split
  · exact unresolved
  · rename_i d
    split
    · exact h.pure ((hr d rfl).returnType _ ‹_›)
    · refine ite (fun _ => unresolved) fun _ => ?_
      refine h.bind (h.resolveBody _) fun _ _ => h.bind (h.function? _) fun r hr => ?_
      split
      · rename_i τ hτ
        obtain ⟨e,rfl,hτ⟩ := Option.bind_eq_some_iff.mp hτ
        exact h.pure ((hr e rfl).returnType τ hτ)
      · exact unresolved

theorem resolveFunctionEntity (id : EntityId) : P.Asks S T (·.resolveFunctionEntity id) fun _ => True := by
  refine h.bind (h.function? _) fun r _ => ?_
  split
  · exact ite (fun _ => h.pure trivial) fun _ => h.resolveBody _
  · exact h.pure trivial

theorem resolveFunctionEntities (ids : List EntityId) : P.Asks S T (·.resolveFunctionEntities ids) fun _ => True := by
  induction ids with
  | nil => exact h.pure trivial
  | cons id ids ih => exact h.bind (h.resolveFunctionEntity id) fun _ _ => ih

theorem instantiate (generic : EntityId) {args : List Ty} (location : Location) (ha : ∀ τ ∈ args, τ.Avoids G) :
    P.Asks S T (·.instantiate generic args location) fun _ => True :=
  h.bind (h.entity generic) fun _ _ => ite (fun _ => h.instantiateFunction generic location ha)
    fun _ => h.imp (h.instantiateObject generic location ha) fun _ _ => trivial

/-! ### Candidates of a call -/

private theorem candidateTypes (id : EntityId) (hd : d.Avoids G) (ha : ∀ τ ∈ argTypes, τ.Avoids G)
    (he : ∀ τ ∈ explicit, τ.Avoids G) : P.Asks S T (·.candidateTypes id d argTypes explicit) fun r =>
        ∀ types typeArgs, r = some (types, some typeArgs) → ∀ τ ∈ typeArgs, τ.Avoids G := by
  refine ite (fun _ => ?_) fun _ => ite (fun _ => ?_) fun _ => h.pure (by simp)
  · refine h.bind h.get fun p hp => ?_
    have hargs : ∀ typeArgs, (if explicit.isEmpty = true then
        inferTypeArgs p.entities d.typeParams (d.params.map (·.declared)) argTypes
        else if explicit.length = d.typeParams.length then some explicit else none) = some typeArgs →
        ∀ τ ∈ typeArgs, τ.Avoids G := by
      intro typeArgs ht
      split at ht
      · exact PassesDown.inferTypeArgs ⟨fun _ h => h,fun _ _ hk _ => (hp.object hk).appliedArgs⟩ ha ht
      · split at ht
        · cases ht
          exact he
        · cases ht
    dsimp only
    generalize (if explicit.isEmpty = true then _ else _ : Option (List Ty)) = typeArgs? at hargs ⊢
    cases typeArgs? with
    | none => exact h.pure (by simp)
    | some typeArgs =>
      have hs := avoids_zip d.typeParams (hargs typeArgs rfl)
      refine h.bind (h.resolveTypes _ fun t ht => ?_) fun types _ => h.pure ?_
      · obtain ⟨u,hu,rfl⟩ := mem_map.mp ht
        obtain ⟨param,hp,rfl⟩ := mem_map.mp hu
        exact (hd.params param hp).substitute hs
      · rintro _ _ ⟨⟩
        exact hargs typeArgs rfl
  · exact h.bind (h.resolveSignature _) fun _ _ => h.bind (h.function? _) fun _ _ => h.pure (by simp)

private theorem score? (ha : ∀ τ ∈ argTypes, τ.Avoids G) (he : ∀ τ ∈ explicit, τ.Avoids G) (id : EntityId) :
    P.Asks S T (·.score? argTypes explicit id) fun r =>
      ∀ v typeArgs, r = some v → v.typeArgs = some typeArgs → ∀ τ ∈ typeArgs, τ.Avoids G := by
  refine h.bind (h.function? _) fun r hr => ?_
  split
  · exact h.pure (by simp)
  · rename_i d
    refine h.bind (h.candidateTypes id (hr d rfl) ha he) fun r hr => ?_
    split
    · exact h.pure (by simp)
    · rename_i types inferred
      refine h.bind (h.totalCost? _ _) fun cost _ => h.pure fun v typeArgs hv ht => ?_
      obtain ⟨_,_,rfl⟩ := Option.map_eq_some_iff.mp hv
      replace ht : inferred = some typeArgs := ht
      subst ht
      exact hr types typeArgs rfl

theorem viable (ha : ∀ τ ∈ argTypes, τ.Avoids G) (he : ∀ τ ∈ explicit, τ.Avoids G) (ids : List EntityId) :
    P.Asks S T (·.viable argTypes explicit ids) fun r =>
      ∀ v ∈ r, ∀ typeArgs, v.typeArgs = some typeArgs → ∀ τ ∈ typeArgs, τ.Avoids G := by
  induction ids with
  | nil => exact h.pure (by simp)
  | cons id ids ih =>
    refine h.bind (h.score? ha he id) fun r hr => ?_
    split
    · refine h.bind ih fun rest hrest => h.pure fun v hv typeArgs ht => ?_
      rcases mem_cons.mp hv with rfl | hv
      · exact hr _ typeArgs rfl ht
      · exact hrest v hv typeArgs ht
    · exact ih

end RespectsFunctions

namespace Respects

variable {ids : ExprId → Prop} {scopes : ScopeId → Prop} (h : Respects G P S T ids scopes) (hs : scopes scope)
  (ho : operand.type.Avoids G)
include h

/-! ### Expressions, asked about their parts -/

include ho in
theorem resolveArm {arm : Arm} (hb : ids arm.body) (ha : ∀ t, arm.pattern = .type t → t.Avoids G) :
    P.Asks S T (·.resolveArm scope operand arm) fun r =>
      r.1.blank = arm.blank ∧ r.2.Avoids G := by
  refine h.bind (h.pushScope _ _) fun inner hi => h.bind (h.resolvePattern _ ho ha) fun r hr => ?_
  have last : ∀ binding, True →
      P.Asks S T (·.expr arm.body inner >>= fun τ => Pure.pure ({ arm with binding, patternType := r.1 }, τ)) fun r =>
        r.1.blank = arm.blank ∧ r.2.Avoids G :=
    fun binding _ => h.bind (h.expr hb hi) fun τ hτ => h.pure ⟨rfl,hτ⟩
  dsimp only
  split
  · exact h.bind (h.map _ (h.bindOperand (h.register hi) _ (hr _ ‹_›) _)) last
  · exact h.bind (h.pure trivial) last

include ho in
theorem resolveArms (arms : List Arm) (hb : ∀ arm ∈ arms, ids arm.body)
    (ha : ∀ arm ∈ arms, ∀ t, arm.pattern = .type t → t.Avoids G) :
    ∀ {before : Option Ty}, (∀ τ, before = some τ → τ.Avoids G) →
      P.Asks S T (·.resolveArms scope operand before arms) fun r =>
        r.1.map Arm.blank = arms.map Arm.blank ∧ ∀ τ, r.2 = some τ → τ.Avoids G := by
  induction arms with
  | nil => exact fun hbefore => h.pure ⟨rfl,hbefore⟩
  | cons arm arms ih =>
    intro before hbefore
    refine h.bind (h.resolveArm ho (hb arm (by simp)) (ha arm (by simp))) fun r hr =>
      h.bind (h.joinedArm hbefore hr.2 _) fun τ hτ => ?_
    refine h.bind (ih (fun a hm => hb a (by simp [hm])) (fun a hm => ha a (by simp [hm])) (by rintro _ ⟨⟩; exact hτ))
      fun s hs => h.pure ⟨by simp [hr.1,hs.1],hs.2⟩

include ho in
theorem resolveDefault {body : ExprId} (hb : ids body) :
    P.Asks S T (·.resolveDefault scope operand body) (·.2.Avoids G) := by
  refine h.bind (h.pushScope _ _) fun inner hi => ?_
  have last : ∀ binding : Option EntityId, True → P.Asks S T (·.expr body inner >>= fun τ => Pure.pure (binding, τ))
      (·.2.Avoids G) := fun binding _ => h.bind (h.expr hb hi) fun τ hτ => h.pure hτ
  split
  · exact h.bind (h.node _) fun _ _ => h.bind (h.map _ (h.bindOperand (h.register hi) _ ho _)) last
  · exact h.bind (h.pure trivial) last

include hs

/-- A match with its slots filled is otherwise what it was. -/
theorem resolveMatch (location : Location) {m : Match} (hi : ∀ id ∈ (ExprShape.select m).children, ids id)
    (ht : ∀ t ∈ (ExprShape.select m).typeExprs, t.Avoids G) : P.Asks S T (·.resolveMatch location scope m) fun r =>
      (ExprShape.select r.1).blank = (ExprShape.select m).blank ∧ r.2.Avoids G := by
  refine h.bind (h.expr (hi _ (by simp [ExprShape.children])) hs) fun τ hτ => h.bind (h.operandOf m hτ) fun operand ho => ?_
  refine h.bind (h.resolveArms ho m.arms (fun arm ha => hi _ ?_) (fun arm ha t hp => ht t ?_) (by simp)) fun r hr => ?_
  · simp only [ExprShape.children,mem_cons,mem_append,mem_map]
    exact .inr (.inl ⟨arm,ha,rfl⟩)
  · exact mem_filterMap.mpr ⟨arm,ha,by simp [hp]⟩
  dsimp only
  split
  · refine h.pure ⟨by simp [ExprShape.blank,hr.1],?_⟩
    cases hτ : r.2 with
    | none => exact trivial
    | some τ => exact hr.2 τ hτ
  · rename_i body hbody
    refine h.bind (h.resolveDefault ho (hi body (by simp [ExprShape.children,hbody]))) fun s hs =>
      h.bind (h.joinedArm hr.2 hs _) fun τ hτ => ?_
    exact h.pure ⟨by simp [ExprShape.blank,hr.1],hτ⟩

private theorem initialisers (fields : List Field) (given : List (String × ExprId)) (hg : ∀ x ∈ given, ids x.2) :
    P.Asks S T (·.initialisers scope fields given) fun _ => True := by
  induction given with
  | nil => exact h.pure trivial
  | cons x given ih =>
    unfold Solver.initialisers
    split
    · exact h.bind (h.node _) fun _ _ => h.fail _ (by simp)
    · refine h.bind (h.expr (hg x (by simp)) hs) fun τ _ => h.bind (h.node _) fun n _ => ?_
      exact h.bind (h.expectAssignable _ _ _) fun _ _ => ih fun y hy => hg y (by simp [hy])

private theorem exprs (args : List ExprId) (ha : ∀ id ∈ args, ids id) :
    P.Asks S T (·.exprs scope args) fun τs => ∀ τ ∈ τs, τ.Avoids G := by
  induction args with
  | nil => exact h.pure (by simp)
  | cons id args ih =>
    refine h.bind (h.expr (ha id (by simp)) hs) fun τ hτ => h.bind (ih fun j hj => ha j (by simp [hj])) fun τs hτs => ?_
    exact h.pure (by simpa using ⟨hτ,hτs⟩)

theorem resolveTarget (location : Location) (name : String) (args : List ExprId) (ha : ∀ id ∈ args, ids id)
    (ht : ∀ t ∈ typeArgs, t.Avoids G) :
      P.Asks S T (·.resolveTarget location scope name args typeArgs) (·.2.Avoids G) := by
  refine h.bind (h.exprs hs _ ha) fun types htypes => h.bind (h.resolveTypes _ ht) fun explicit he => ?_
  refine h.bind h.get fun p _ => h.bind (h.viable htypes he _) fun viable hv => ?_
  split
  · refine h.bind h.get fun q hq => ?_
    split
    · rename_i object index type hf
      refine h.pure ?_
      unfold fieldAccess? at hf
      split at hf
      · simp only [Option.bind_eq_bind,Option.bind_eq_some_iff] at hf
        obtain ⟨d,hd,i,_,field,hfield,hr⟩ := hf
        cases hr
        exact (hq.object (EntityTable.object?_eq_some.mp hd)).fields field (mem_of_getElem? hfield)
      · cases hf
    · exact h.reportNoMatch _ _ _ _ _ _
  · refine h.bind (h.choose _ _ _ _) fun winner hw => ?_
    have last : ∀ target, True →
        P.Asks S T (·.returnType target location >>= fun τ => Pure.pure (CallTarget.function target, τ)) (·.2.Avoids G) :=
      fun target _ => h.bind (h.returnType _ _) fun _ hτ => h.pure hτ
    split
    · exact h.bind (h.instantiateFunction _ _ (hv winner hw _ ‹_›)) last
    · exact h.bind (h.pure trivial) last

theorem resolveSequence (body : List ExprId) (hb : ∀ id ∈ body, ids id) : ∀ {last : Ty}, last.Avoids G →
    P.Asks S T (·.resolveSequence scope last body) (·.Avoids G) := by
  induction body with
  | nil => exact fun hl => h.pure hl
  | cons id body ih =>
    exact fun _ => h.bind (h.expr (hb id (by simp)) hs) fun _ hτ => ih (fun j hj => hb j (by simp [hj])) hτ

private theorem resolveCondition {test : ExprId} (ht : ids test) :
    P.Asks S T (·.resolveCondition scope test) fun _ => True :=
  h.bind (h.expr ht hs) fun _ _ => h.bind (h.node _) fun _ _ => h.expectAssignable _ _ _

private theorem definedType {declared : Option TypeExpr} (hd : ∀ t, declared = some t → t.Avoids G) {init : ExprId}
    (hi : ids init) : P.Asks S T (·.definedType scope declared init) (·.Avoids G) := by
  refine h.bind (h.expr hi hs) fun τ hτ => ?_
  split
  · exact h.pure hτ
  · refine h.bind (h.resolveType _ (hd _ rfl)) fun wanted hw => h.bind (h.node _) fun n _ => ?_
    exact h.bind (h.expectAssignable _ _ _) fun _ _ => h.pure hw

theorem construct (object : EntityId) (literal : ExprId) {given : List (String × ExprId)} (hg : ∀ x ∈ given, ids x.2)
    (location : Location) : P.Asks S T (·.construct scope object literal given location) fun _ => True := by
  refine h.bind (h.object? object) fun _ _ => h.bind (h.initialisers hs _ given hg) fun _ _ => ?_
  exact ite (fun _ => h.setType _ _) fun _ => h.bind (h.displayName _) fun _ _ => h.stop _ (by simp)

/-- A call asks about its arguments, or about the parts of the object literal that is its argument. -/
theorem resolveCall (location : Location) (name : String) (args : List ExprId) (hi : ∀ id, ids id)
    (ht : ∀ t ∈ typeArgs, t.Avoids G) :
      P.Asks S T (·.resolveCall location scope name args typeArgs) (·.2.Avoids G) := by
  have target := h.resolveTarget hs location name args (fun id _ => hi id) ht
  unfold Solver.resolveCall
  split
  · refine h.bind (h.node _) fun _ _ => ?_
    split
    · exact h.bind (h.constructed scope name ht location) fun object ho =>
        h.bind (h.construct hs object _ (fun _ _ => hi _) location) fun _ _ => h.pure ho
    · exact target
  · exact target

/-- What holds of a node whose slots are filled last holds of every node. `Q` may look at the program in which work on
the node began. -/
theorem resolveShape {id : ExprId} {location : Location} {shape : ExprShape} {Q : Check Ty → Check Ty → Prop}
    (done : ∀ {τ : Ty}, τ.Avoids G → Q (Pure.pure τ) (Pure.pure τ))
    (before : ∀ {α : Type} {x y : Check α} {f g : α → Check Ty} {A : α → Prop}, P α x y A →
      (∀ a, A a → Q (f a) (g a)) → Q (x >>= f) (y >>= g))
    (fill : ∀ {s : ExprShape} {τ : Ty}, s.blank = shape.blank → τ.Avoids G →
      Q (setShape id s >>= fun _ => Pure.pure τ) (setShape id s >>= fun _ => Pure.pure τ))
    (call : ∀ name args typeArgs target, shape = .call name args typeArgs target →
      P.Asks S T (·.resolveCall location scope name args typeArgs) (·.2.Avoids G))
    (hi : ∀ id ∈ shape.children, ids id) (ht : ∀ t ∈ shape.typeExprs, t.Avoids G) :
    Q (S.resolveShape id scope location shape) (T.resolveShape id scope location shape) := by
  have plain {x y : Check Ty} (hx : P Ty x y (·.Avoids G)) : Q x y := by
    rw [← bind_pure x,← bind_pure y]
    exact before hx fun _ => done
  have condition {test : ExprId} (hid : ids test) := h.resolveCondition hs hid
  cases shape with
  | literal l => exact done trivial
  | name name binding => exact before (h.variableNamed scope name location) fun _ hr => fill rfl hr
  | block body inner =>
    exact before (h.pushScope scope .block) fun _ hs => before (h.resolveSequence hs body hi trivial) fun _ hτ => fill rfl hτ
  | define name declared init mutable entity =>
    refine before (h.definedType hs (fun t hd => ht t (by simp [ExprShape.typeExprs,hd]))
      (hi init (by simp [ExprShape.children]))) fun τ hτ => ?_
    split
    · exact before (h.var name location mutable hτ) fun v _ => before (h.register hs v) fun _ _ => fill rfl trivial
    · exact plain (h.bind (h.typeName _) fun _ _ => h.stop _ (by simp))
  | assign name value target =>
    refine before (h.variableNamed scope name location) fun _ _ => ?_
    dsimp only
    split
    · exact before (h.expr (hi value (by simp [ExprShape.children])) hs) fun _ _ => before (h.node _) fun _ _ =>
        before (h.expectAssignable _ _ _) fun _ _ => fill rfl trivial
    · exact plain (h.stop _ (by simp))
  | call name args typeArgs target => exact before (call _ _ _ _ rfl) fun _ hr => fill rfl hr
  | object fields => exact plain (h.broken _ _)
  | cond test yes no =>
    refine plain (h.bind (condition (hi test (by simp [ExprShape.children]))) fun _ _ => h.bind (h.pushScope _ _)
      fun _ hs => h.bind (h.expr (hi yes (by simp [ExprShape.children])) hs) fun _ hσ => ?_)
    cases no with
    | none => exact h.pure trivial
    | some no =>
      exact h.bind (h.pushScope _ _) fun _ hs => h.bind (h.expr (hi no (by simp [ExprShape.children])) hs)
        fun _ hτ => h.joined hσ hτ _
  | loop test body =>
    exact plain (h.bind (condition (hi test (by simp [ExprShape.children]))) fun _ _ => h.bind (h.pushScope _ _)
      fun _ hs => h.bind (h.expr (hi body (by simp [ExprShape.children])) hs) fun _ _ => h.pure trivial)
  | select m => exact before (h.resolveMatch hs location hi ht) fun _ hm => fill hm.1 hm.2

end Respects

end Solver

end FormCompiler
