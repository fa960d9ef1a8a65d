import FormCompiler.Proofs.Resolution.Finality
import FormCompiler.Proofs.Resolution.Instances

/-! Instances in flight. Whoever enters one leaves it again, refused or not, so every action ends with the keys and the
depth that it began with. In between keys are added on top of them, none of them twice and never deeper than the limit.
Nodes that are there keep all but their types and their slots. -/

namespace FormCompiler

open Check Solver

variable {location : Location} {p q r : Program} {generic : EntityId} {args : List Ty} {stop' stop : Program → Bool}

def Expr.blank (e : Expr) : Expr := ⟨e.shape.blank,e.location,none⟩

namespace Program

/-- What every action leaves as it was: the instances in flight, and of the nodes all but their types and slots. -/
structure Keeps (p q : Program) : Prop where
  instantiating : q.instantiating = p.instantiating
  depth : q.instanceDepth = p.instanceDepth
  size : p.exprs.size ≤ q.exprs.size
  nodes : ∀ n : ExprId, n.index < p.exprs.size → (q.exprs.get n).blank = (p.exprs.get n).blank

/-- While an action runs that began with `p`: the instances in flight are those of `p` and others on top of them, no
key is there twice, and all of them are counted. -/
structure InFlight (p q : Program) : Prop where
  nodup : q.instantiating.Nodup
  counted : q.instantiating.length ≤ q.instanceDepth
  limit : q.instanceDepth ≤ instanceLimit
  suffix : p.instantiating <:+ q.instantiating
  deeper : p.instanceDepth ≤ q.instanceDepth

variable {key : EntityId × List Ty}

namespace Keeps

theorem refl (p : Program) : p.Keeps p := ⟨rfl,rfl,Nat.le_refl _,fun _ _ => rfl⟩

theorem trans (h : p.Keeps q) (k : q.Keeps r) : p.Keeps r where
  instantiating := k.instantiating.trans h.instantiating
  depth := k.depth.trans h.depth
  size := Nat.le_trans h.size k.size
  nodes n hn := (k.nodes n (Nat.lt_of_lt_of_le hn h.size)).trans (h.nodes n hn)

private theorem of_exprs (hi : q.instantiating = p.instantiating) (hd : q.instanceDepth = p.instanceDepth)
    (he : q.exprs = p.exprs) : p.Keeps q := ⟨hi,hd,Nat.le_of_eq (by rw [he]),fun _ _ => by rw [he]⟩

private theorem setType (p : Program) (id : ExprId) (τ : Ty) : p.Keeps { p with exprs := p.exprs.setType id τ } := by
  refine ⟨rfl,rfl,by simp,fun n hn => ?_⟩
  by_cases he : n = id
  · subst he
    simp [Arena.get_setType_self hn,Expr.blank]
  · rw [Arena.get_setType_ne he]

/-- The slots of a node are filled after its parts were asked about. -/
theorem fill {id : ExprId} {shape : ExprShape} (h : p.Keeps q) (hb : shape.blank = (p.exprs.get id).shape.blank) :
    p.Keeps { q with exprs := q.exprs.setShape id shape } := by
  refine ⟨h.instantiating,h.depth,by simpa using h.size,fun n hn => ?_⟩
  by_cases he : n = id
  · subst he
    rw [Arena.get_setShape_self (Nat.lt_of_lt_of_le hn h.size),← h.nodes n hn]
    have := congrArg Expr.shape (h.nodes n hn)
    simp only [Expr.blank] at this ⊢
    rw [hb,this]
  · rw [Arena.get_setShape_ne he,h.nodes n hn]

private theorem cloneBody (subst : Subst) (body : FunctionBody) (p : Program) :
    ∃ copy q, cloneBody subst body p = .ok copy q ∧ p.Keeps q := by
  cases body with
  | expr first root =>
    refine ⟨_,_,rfl,rfl,rfl,?_,fun n hn => congrArg _ (Arena.get_cloneRange_of_lt hn)⟩
    simp [Arena.size]
  | _ => exact ⟨_,_,rfl,.refl p⟩

/-- A key that was added is taken off again. -/
theorem leaveKey
    (h : Keeps { p with instantiating := key :: p.instantiating, instanceDepth := p.instanceDepth + 1 } q) :
    Keeps { p with instanceDepth := p.instanceDepth + 1 } { q with instantiating := q.instantiating.tail } :=
  ⟨by simp [h.instantiating],h.depth,h.size,h.nodes⟩

private theorem leaveDepth (h : Keeps { p with instanceDepth := p.instanceDepth + 1 } q) :
    p.Keeps { q with instanceDepth := q.instanceDepth - 1 } :=
  ⟨h.instantiating,by simp [h.depth],h.size,h.nodes⟩

end Keeps

namespace InFlight

private theorem keeps (h : p.InFlight q) (k : q.Keeps r) : p.InFlight r := by
  refine ⟨?_,?_,?_,?_,?_⟩ <;> simp only [k.instantiating,k.depth]
  exacts [h.nodup,h.counted,h.limit,h.suffix,h.deeper]

private theorem enter (h : p.InFlight q) (hn : key ∉ q.instantiating) (hd : q.instanceDepth < instanceLimit) :
    p.InFlight { q with instantiating := key :: q.instantiating, instanceDepth := q.instanceDepth + 1 } :=
  ⟨List.nodup_cons.mpr ⟨hn,h.nodup⟩,Nat.succ_le_succ h.counted,hd,h.suffix.trans (List.suffix_cons _ _),
    Nat.le_succ_of_le h.deeper⟩

/-- A function is no longer in flight when its body is looked at, but it is still counted. -/
theorem deepen (h : p.InFlight q) (hd : q.instanceDepth < instanceLimit) :
    p.InFlight { q with instanceDepth := q.instanceDepth + 1 } :=
  ⟨h.nodup,Nat.le_succ_of_le h.counted,hd,h.suffix,Nat.le_succ_of_le h.deeper⟩

end InFlight

end Program

namespace Check

variable {refused : Program → Prop} {α β : Type} {x y : Check α} {f g : α → Check β} {flight : Prop}

private theorem bind_congr_at (hx : x q = y q) (hf : ∀ a r, y q = .ok a r → f a r = g a r) :
    (x >>= f) q = (y >>= g) q := by
  show EStateM.bind x f q = EStateM.bind y g q
  unfold EStateM.bind
  rw [hx]
  cases hy : y q with
  | ok a r => exact hf a r hy
  | error d r => rfl

/-- How the second action ends. The first one does the same as long as instances are in flight as they should. -/
structure Agrees (flight : Prop) (x y : Check α) (q : Program) (ok : α → Program → Prop) (refused : Program → Prop) :
    Prop where
  ends : Ends y q ok fun _ => refused
  same : flight → x q = y q

namespace Agrees

variable {ok R : α → Program → Prop} {ok' : β → Program → Prop} {E : Program → Prop}

theorem mono (h : Agrees flight x y q R E) (hok : ∀ a r, R a r → ok a r) (hrefused : ∀ r, E r → refused r) :
    Agrees flight x y q ok refused :=
  ⟨h.ends.mono (fun a r _ => hok a r) fun _ => hrefused,h.same⟩

theorem bind (h : Agrees flight x y q R refused) (hf : ∀ a r, R a r → Agrees flight (f a) (g a) r ok' refused) :
    Agrees flight (x >>= f) (y >>= g) q ok' refused :=
  ⟨h.ends.bind fun a r _ hr => (hf a r hr).ends,
    fun hq => bind_congr_at (h.same hq) fun a r hy => (hf a r (h.ends.of_ok hy)).same hq⟩

/-- A first action whose outcome is known. -/
theorem run {a : α} (hx : x q = .ok a r) (h : Agrees flight (f a) (g a) r ok' refused) :
    Agrees flight (x >>= f) (x >>= g) q ok' refused := by
  refine bind (R := fun b s => b = a ∧ s = r) ⟨by simp only [Ends,hx,and_self],fun _ => rfl⟩ ?_
  rintro _ _ ⟨rfl,rfl⟩
  exact h

private theorem afterwards {after : Program → Program}
    (h : Agrees flight x y q (fun a r => ok a (after r)) fun r => refused (after r)) :
    Agrees flight (Check.afterwards after x) (Check.afterwards after y) q ok refused := by
  refine ⟨h.ends.afterwards,fun hq => ?_⟩
  unfold Check.afterwards
  rw [h.same hq]

end Agrees

/-- From wherever the actions are run, they leave what they should; and they are the same while an action runs that
began with `p`. -/
def Balances (p : Program) (x y : Check α) (A : α → Prop) : Prop :=
  ∀ q, Agrees (p.InFlight q) x y q (fun a r => q.Keeps r ∧ A a) q.Keeps

namespace Balances

variable {A : α → Prop} {B : β → Prop}

/-- In the middle of an action. -/
theorem amid (h : Balances p x y A) (hr : flight → p.InFlight r) (hk : q.Keeps r) :
    Agrees flight x y r (fun a s => q.Keeps s ∧ A a) q.Keeps :=
  ⟨(h r).ends.mono (fun _ _ _ k => ⟨hk.trans k.1,k.2⟩) fun _ _ k => hk.trans k,fun hf => (h r).same (hr hf)⟩

theorem bind (h : Balances p x y A) (hf : ∀ a, A a → Balances p (f a) (g a) B) :
    Balances p (x >>= f) (y >>= g) B := fun q =>
  (h q).bind fun a _ hr => (hf a hr.2).amid (fun hq => hq.keeps hr.1) hr.1

private theorem throw (d : Diagnostic) : Balances p (throw d : Check α) (throw d) A := fun q => ⟨.refl q,fun _ => rfl⟩

/-- An action that cannot be refused. -/
theorem of_run {h : Program → α × Program} (hk : ∀ q : Program, q.Keeps (h q).2) (ha : ∀ q, A (h q).1) :
    Balances p (modifyGet h : Check α) (modifyGet h) A := fun q => ⟨⟨hk q,ha q⟩,fun _ => rfl⟩

private theorem modifyObject (id : EntityId) (h : ObjectDef → ObjectDef) :
    Balances p (Check.modifyObject id h) (Check.modifyObject id h) fun _ => True :=
  fun _ => ⟨⟨.of_exprs rfl rfl rfl,trivial⟩,fun _ => rfl⟩

private theorem modifyFunction (id : EntityId) (h : FunctionDef → FunctionDef) :
    Balances p (Check.modifyFunction id h) (Check.modifyFunction id h) fun _ => True :=
  fun _ => ⟨⟨.of_exprs rfl rfl rfl,trivial⟩,fun _ => rfl⟩

private theorem modifyAlias (id : EntityId) (h : AliasDef → AliasDef) :
    Balances p (Check.modifyAlias id h) (Check.modifyAlias id h) fun _ => True :=
  fun _ => ⟨⟨.of_exprs rfl rfl rfl,trivial⟩,fun _ => rfl⟩

/-- Two observers who disagree only where something is wrong with the instances in flight. -/
theorem watched (hstop : ∀ q, p.InFlight q → stop q = stop' q) (h : Balances p x y A) :
    Balances p (x.watched stop) (y.watched stop') A := fun q => by
  refine ⟨(h q).ends.watched (fun _ => .refl q) fun _ _ k _ => k.1,fun hq => ?_⟩
  unfold Check.watched
  rw [hstop q hq,(h q).same hq]
  cases hy : y q with
  | ok a r => simp only [hstop r (hq.keeps ((h q).ends.of_ok hy).1)]
  | error d r => rfl

end Balances

private theorem Agrees.expectArity {f g : Unit → Check β} {ok : β → Program → Prop} {name : String}
    {expected found : Nat} (hr : refused q) (hf : Agrees flight (f ()) (g ()) q ok refused) :
    Agrees flight (Check.expectArity name expected found location >>= f)
      (Check.expectArity name expected found location >>= g) q ok refused := by
  refine ⟨.expectArity (fun _ => hf.ends) fun _ _ => hr,fun hq => ?_⟩
  unfold Check.expectArity
  split
  · exact hf.same hq
  · rfl

/-- An instance is entered. -/
theorem Agrees.enterInstance {f g : Unit → Check β} {ok : β → Program → Prop} (hr : refused q)
    (hf : (generic, args) ∉ q.instantiating → q.instanceDepth < instanceLimit →
      Agrees flight (f ()) (g ()) (q.entering generic args) ok refused) :
    Agrees flight (Check.enterInstance generic args location >>= f) (Check.enterInstance generic args location >>= g)
      q ok refused := by
  refine ⟨.enterInstance (fun hn hd => (hf hn hd).ends) fun _ _ => hr,fun hq => bind_congr_at rfl fun _ r he => ?_⟩
  obtain ⟨hn,hd,rfl⟩ := enterInstance_ok he
  exact (hf hn hd).same hq

end Check

namespace Solver

abbrev Even (p : Program) (S T : Solver) {α : Type} (x : Solver → Check α) : Prop := Balances p (x S) (x T) fun _ => True

/-- The questions of two solvers, the same while an action runs that began with `p`. -/
structure Balanced (p : Program) (S T : Solver) : Prop where
  aliased (id : EntityId) : Even p S T (·.aliased id)
  object (id : EntityId) : Even p S T (·.object id)
  expr (id : ExprId) (scope : ScopeId) : Even p S T (·.expr id scope)

namespace Balanced

variable {S T : Solver} (h : Balanced p S T)
include h

/-! ### Types -/

private theorem instantiateObject (generic : EntityId) (args : List Ty) (location : Location) :
    Even p S T (·.instantiateObject generic args location) := by
  intro q
  refine .run (a := q.entities.get generic) rfl ?_
  split
  · exact ⟨.refl q,fun _ => rfl⟩
  rename_i d _
  refine .expectArity (.refl q) ?_
  split
  · exact ⟨⟨.refl q,trivial⟩,fun _ => rfl⟩
  refine .enterInstance (.refl q) fun hn hd => .run rfl ?_
  let qA := q.entering generic args
  have hA : qA.Keeps { qA with entities := (q.entities.alloc (q.entities.get generic).name
    (q.entities.get generic).location (.object (objectInstance generic d args))).2 } := .of_exprs rfl rfl rfl
  refine .bind (R := fun _ r => q.Keeps r) ?_ fun _ r hr =>
    .run rfl ⟨⟨hr.trans (.of_exprs rfl rfl rfl),trivial⟩,fun _ => rfl⟩
  -- The key and its depth are left together.
  exact .afterwards (.afterwards (((h.object _).amid (fun hq => (hq.enter hn hd).keeps hA) hA).mono
    (fun _ _ k => k.1.leaveKey.leaveDepth) fun _ k => k.leaveKey.leaveDepth))

private theorem respectsTypes : RespectsTypes (fun _ => False) (fun _ x y A => Balances p x y A) S T where
  base q := ⟨⟨.refl q,not_false⟩,fun _ => rfl⟩
  pure ha q := ⟨⟨.refl q,ha⟩,fun _ => rfl⟩
  fail _ _ _ _ := .throw _
  bind := .bind
  get q := ⟨⟨.refl q,q.avoids_none⟩,fun _ => rfl⟩
  var _ _ _ _ _ := .of_run (fun _ => .of_exprs rfl rfl rfl) fun _ => trivial
  distance? _ _ := .of_run (fun _ => .of_exprs rfl rfl rfl) fun _ => trivial
  join? _ _ := .of_run (fun _ => .of_exprs rfl rfl rfl) fun _ ρ _ => ρ.avoids_none
  aliased id q := (h.aliased id q).mono (fun τ _ k => ⟨k.1,τ.avoids_none⟩) fun _ k => k
  object := h.object
  instantiateObject generic args location _ q :=
    (h.instantiateObject generic args location q).mono (fun _ _ k => ⟨k.1,not_false⟩) fun _ k => k

private theorem resolveAlias (id : EntityId) : Even p S T (·.resolveAlias id) := by
  have hT := h.respectsTypes
  refine hT.bind (hT.entity id) fun e _ => ?_
  split
  · exact hT.broken _ _
  · rename_i d _
    split
    · exact hT.pure trivial
    · exact .throw _
    · exact hT.bind (.modifyAlias _ _) fun _ _ => hT.bind (hT.resolveType d.scope d.target.avoids_none) fun _ _ =>
        hT.bind (.modifyAlias _ _) fun _ _ => hT.pure trivial

private theorem resolveObject (id : EntityId) : Even p S T (·.resolveObject id) := by
  have hT := h.respectsTypes
  refine hT.bind (hT.entity id) fun e _ => ?_
  split
  · exact hT.broken _ _
  · rename_i d _
    split
    · exact hT.pure trivial
    · exact .throw _
    split
    · exact hT.pure trivial
    · refine hT.bind (.modifyObject _ _) fun _ _ => ?_
      refine hT.bind (hT.parentOf (d.avoids_none id) _) fun parent _ => hT.bind (h.object parent) fun _ _ => ?_
      refine hT.bind (.modifyObject _ _) fun _ _ => hT.bind (hT.object? parent) fun above _ => ?_
      exact hT.bind (hT.layout d.scope _ _ (fun x _ => x.2.avoids_none) fun field _ => field.type.avoids_none)
        fun _ _ => .modifyObject _ _

/-! ### Functions -/

private theorem resolveSignature (id : EntityId) : Even p S T (·.resolveSignature id) := by
  have hT := h.respectsTypes
  refine hT.bind (hT.entity id) fun e _ => ?_
  split
  · exact hT.broken _ _
  · rename_i d _
    split
    · exact hT.pure trivial
    refine hT.bind (hT.paramTypes d.scope d.params fun param _ => param.declared.avoids_none) fun types ht => ?_
    refine hT.bind (hT.declaredReturn d.avoids_none) fun _ _ => ?_
    split
    · exact hT.bind (hT.paramVars d.params ht) fun _ _ => .modifyFunction _ _
    · exact hT.bind (hT.pure (A := fun _ => True) trivial) fun _ _ => .modifyFunction _ _

omit h in
private theorem register (scope : ScopeId) (id : EntityId) :
    Balances p (Check.register scope id) (Check.register scope id) fun _ => True := by
  refine fun q => ⟨?_,fun _ => rfl⟩
  show Ends (ofExcept (q.scopes.register q.entities scope id) >>= fun scopes => modify fun p => { p with scopes }) q _ _
  cases q.scopes.register q.entities scope id with
  | ok scopes => exact ⟨.of_exprs rfl rfl rfl,trivial⟩
  | error d => exact .refl q

private theorem resolveBody (id : EntityId) : Even p S T (·.resolveBody id) := by
  have hT := h.respectsTypes
  refine hT.bind (h.resolveSignature id) fun _ _ => hT.bind (hT.entity id) fun e _ => ?_
  split
  · exact hT.pure trivial
  · rename_i d _
    split
    swap
    · exact hT.pure trivial
    split
    · refine hT.bind (A := fun _ => True) (.of_run (fun _ => .of_exprs rfl rfl rfl) fun _ => trivial) fun scope _ => ?_
      refine hT.bind (.modifyFunction _ _) fun _ _ => ?_
      refine hT.bind (hT.registerAll (register scope) d.paramVars) fun _ _ => ?_
      refine hT.bind (h.expr _ scope) fun body _ => ?_
      exact hT.bind (hT.bodyReturn id _ _ body.avoids_none fun τ _ => τ.avoids_none) fun _ _ => .modifyFunction _ _
    · exact .modifyFunction _ _

private theorem instantiateFunction (generic : EntityId) (args : List Ty) (location : Location) :
    Even p S T (·.instantiateFunction generic args location) := by
  intro q
  refine .run (a := q.entities.get generic) rfl ?_
  split
  · exact ⟨.refl q,fun _ => rfl⟩
  rename_i d _
  refine .expectArity (.refl q) ?_
  split
  · exact ⟨⟨.refl q,trivial⟩,fun _ => rfl⟩
  refine .enterInstance (.refl q) fun hn hd => ?_
  let qA := q.entering generic args
  obtain ⟨body,q1,hclone,h1⟩ := Program.Keeps.cloneBody (d.typeParams.zip args) d.body qA
  have hA : qA.Keeps { q1 with entities := (q1.entities.alloc (q.entities.get generic).name
    (q.entities.get generic).location (.function (functionInstance generic d args body))).2 } :=
    h1.trans (.of_exprs rfl rfl rfl)
  refine .run hclone (.run rfl (.bind (R := fun _ r => q.Keeps r) ?_ fun _ r hr => ⟨⟨hr,trivial⟩,fun _ => rfl⟩))
  -- The key is left after the signature, the depth after the body.
  refine .afterwards (.bind (R := fun _ r => Program.Keeps { q with instanceDepth := q.instanceDepth + 1 } r) ?_
    fun _ r hr => .run rfl ?_)
  · exact .afterwards (((h.resolveSignature _).amid (fun hq => (hq.enter hn hd).keeps hA) hA).mono
      (fun _ _ k => k.1.leaveKey) fun _ k => k.leaveKey.leaveDepth)
  · refine ((h.resolveBody _).amid (q := { q with instanceDepth := q.instanceDepth + 1 })
      (fun hq => (Program.InFlight.deepen hq hd).keeps ?_) ?_).mono (fun _ _ k => k.1.leaveDepth)
      fun _ k => k.leaveDepth
    all_goals exact hr.trans (.of_exprs rfl rfl rfl)

/-! ### Expressions -/

private theorem respects :
    Respects (fun _ => False) (fun _ x y A => Balances p x y A) S T (fun _ => True) (fun _ => True) where
  __ := h.respectsTypes
  resolveSignature := h.resolveSignature
  resolveBody := h.resolveBody
  instantiateFunction generic args location _ := h.instantiateFunction generic args location
  pushScope _ _ := .of_run (fun _ => .of_exprs rfl rfl rfl) fun _ => trivial
  register _ := register _
  expr _ _ q := (h.expr _ _ q).mono (fun τ _ k => ⟨k.1,τ.avoids_none⟩) fun _ k => k
  setType id τ q := ⟨⟨.setType q id τ,trivial⟩,fun _ => rfl⟩

/-- The slots of a node are filled last, with what was found about its parts. -/
theorem resolveShape (id : ExprId) (scope : ScopeId) (location : Location) (q : Program) :
    Agrees (p.InFlight q) (S.resolveShape id scope location (q.exprs.get id).shape)
      (T.resolveShape id scope location (q.exprs.get id).shape) q (fun _ r => q.Keeps r) q.Keeps := by
  have hR := h.respects
  refine hR.resolveShape trivial (Q := fun x y => ∀ r, q.Keeps r →
    Agrees (p.InFlight q) x y r (fun _ s => q.Keeps s) q.Keeps) ?_ ?_ ?_ ?_ (by simp) (fun t _ => t.avoids_none) q (.refl q)
  · exact fun _ r hr => ⟨hr,fun _ => rfl⟩
  · exact fun hx hf r hr => (hx.amid (fun hq => hq.keeps hr) hr).bind fun a s hs => hf a hs.2 s hs.1
  · exact fun hb _ r hr => .run rfl ⟨hr.fill hb,fun _ => rfl⟩
  · exact fun name args _ _ _ => hR.resolveCall trivial location name args (by simp) fun t _ => t.avoids_none

private theorem resolveExpr (id : ExprId) (scope : ScopeId) : Even p S T (·.resolveExpr id scope) := fun q =>
  .run rfl ((h.resolveShape id scope _ q).bind fun τ r hr =>
    .run rfl ⟨⟨hr.trans (.setType r id τ),trivial⟩,fun _ => rfl⟩)

private theorem serve (request : Request) : Even p S T (·.serve request) := by
  have hR := h.respects
  have methods := hR.attachMethods (fun owner _ => .modifyObject owner _)
    fun _ => ⟨⟨.of_exprs rfl rfl rfl,trivial⟩,fun _ => rfl⟩
  cases request with
  | object id => exact h.resolveObject id
  | typeAlias id => exact hR.bind (h.resolveAlias id) fun _ _ => hR.pure trivial
  | signature id => exact h.resolveSignature id
  | body id => exact h.resolveBody id
  | instantiate generic args location =>
    exact hR.bind (hR.instantiate generic location fun τ _ => τ.avoids_none) fun _ _ => hR.pure trivial
  | attachMethods => exact methods
  | typeOf scope t => exact hR.bind (hR.resolveType scope t.avoids_none) fun _ _ => hR.pure trivial
  | expr id scope => exact hR.bind (h.resolveExpr id scope) fun _ _ => hR.pure trivial
  | compare source wanted => exact hR.bind (hR.isAssignable source wanted) fun _ _ => hR.pure trivial
  | join a b => exact hR.bind (hR.join? a.avoids_none b.avoids_none) fun _ _ => hR.pure trivial
  | declarations =>
    exact hR.bind hR.get fun _ _ => hR.bind (hR.resolveTypeEntities _) fun _ _ => hR.bind methods fun _ _ =>
      hR.bind (hR.resolveFunctionEntities _) fun _ _ => hR.checkCoverage

end Balanced

/-- With any budget. -/
theorem balanced_watched (hstop : ∀ q, p.InFlight q → stop q = stop' q)
    (n : Nat) : Balanced p (watched stop n) (watched stop' n) := by
  induction n with
  | zero => exact ⟨fun _ => .throw _,fun _ => .throw _,fun _ _ => .throw _⟩
  | succ n ih =>
    exact ⟨fun id => (ih.resolveAlias id).watched hstop,fun id => (ih.resolveObject id).watched hstop,
      fun id scope => (ih.resolveExpr id scope).watched hstop⟩

end Solver

namespace Program

/-- What one request keeps, granted, refused or stopped on the way. -/
theorem keeps_serve (p : Program) (stop : Program → Bool) (n : Nat) (request : Request) :
    Ends ((watched stop n).serve request) p (fun _ q => p.Keeps q) fun _ q => p.Keeps q :=
  ((balanced_watched (p := p) (fun _ _ => rfl) n).serve request p).ends.mono (fun _ _ _ k => k.1) fun _ _ k => k

/-- What one request keeps, a run keeps. -/
theorem Run.keeps (h : p.Run q) : p.Keeps q := by
  induction h with
  | refl => exact .refl p
  | step _ hends ih => exact ih.trans ((keeps_serve _ _ _ _).endsIn hends)

private theorem InFlight.enterInstance {u : Unit} (h : p.InFlight q)
    (hr : Check.enterInstance generic args location q = .ok u r) : p.InFlight r := by
  obtain ⟨hn,hd,rfl⟩ := Check.enterInstance_ok hr
  exact h.enter hn hd

/-- Between operations nothing is in flight. -/
theorem Reachable.idle (hp : p.Reachable) : p.instantiating = [] ∧ p.instanceDepth = 0 :=
  have h := Leads.leaves Scanned.initial.fresh.orderly hp
  ⟨h.advances.instantiating,h.advances.depth⟩

private theorem inFlight_of_idle (h : p.instantiating = [] ∧ p.instanceDepth = 0) : p.InFlight p :=
  ⟨by simp [h.1],by simp [h.1],by simp [h.2],List.suffix_rfl,Nat.le_refl _⟩

/-- Whatever is asked for ends with the instances in flight that it began with, granted or refused. It goes through no
program where a key is in flight twice, where more keys are in flight than are counted or more than the limit, or where
something that was in flight at the beginning is not: an observer who stops at nothing else changes nothing. Entering an
instance leads to no such program either, and between operations nothing is in flight. -/
theorem instances_balanced (p : Program) (n : Nat) (request : Request) : Ends ((upTo n).serve request) p
      (fun _ q => q.instantiating = p.instantiating ∧ q.instanceDepth = p.instanceDepth)
      (fun _ q => q.instantiating = p.instantiating ∧ q.instanceDepth = p.instanceDepth) ∧
    (p.InFlight p → ∀ stop : Program → Bool, (∀ q, p.InFlight q → stop q = false) →
      (watched stop n).serve request p = (upTo n).serve request p) ∧
    (∀ q r generic args location, p.InFlight q → Check.enterInstance generic args location q = .ok () r →
      p.InFlight r) ∧
    (p.Reachable → p.InFlight p ∧ p.instantiating = [] ∧ p.instanceDepth = 0) := by
  refine ⟨?_,fun hp stop hstop => ?_,fun q r generic args location hq hr => hq.enterInstance hr,fun hp => ?_⟩
  · rw [← watched_never]
    exact (keeps_serve p _ n request).mono (fun _ _ _ k => ⟨k.instantiating,k.depth⟩)
      fun _ _ k => ⟨k.instantiating,k.depth⟩
  · rw [← watched_never]
    exact ((balanced_watched hstop n).serve request p).same hp
  · exact ⟨inFlight_of_idle hp.idle,hp.idle⟩

private def nestedInstances : String :=
  "(obj Box (type_params T) (: value T)) (obj Pair (type_params T) (: first (Box T)) (: second T)) " ++
    "(fn f (parameters (: p (Pair i32))) p)"

private def nests (source : String) : Bool :=
  okAnd (fun _ p =>
    match (watched (·.instantiating.length == 2) p.budget).serve .declarations p,
      (upTo p.budget).serve .declarations p with
    | .error d _, .ok _ _ => d.cause = .unfinished
    | _, _ => false) (scan [] "main.vast" source initial)

/-- An observer sees two instances in flight at once, and none sees more than the limit. -/
theorem instances_balanced_sample : ∃ p q r : Program, ∃ d, p.Reachable ∧ p.InFlight p ∧
    (watched (·.instantiating.length == 2) p.budget).serve .declarations p = .error d q ∧ d.cause = .unfinished ∧
    (watched (fun m => decide (instanceLimit < m.instanceDepth)) p.budget).serve .declarations p = .ok () r ∧
    r.instantiating = [] ∧ r.instanceDepth = 0 := by
  obtain ⟨source,h⟩ : ∃ source, nests source = true := ⟨nestedInstances,by decide +kernel⟩
  obtain ⟨_,p,hp,h⟩ := okAnd_iff.mp h
  split at h
  · rename_i d q _ r hq hr
    have hreachable := (scanned_of_scan hp).reachable
    obtain ⟨hends,hsame, -,hidle⟩ := instances_balanced p p.budget .declarations
    obtain ⟨hflight,hnone,hzero⟩ := hidle hreachable
    have hkept := hends.of_ok hr
    exact ⟨p,q,r,d,hreachable,hflight,hq,of_decide_eq_true h,
      (hsame hflight _ fun m hm => by simpa using hm.limit).trans hr,hkept.1.trans hnone,hkept.2.trans hzero⟩
  · cases h

end Program

end FormCompiler
