import FormCompiler.Resolve

/-! What it takes for a step of resolution to succeed. A refusal is never caught, so every statement about
resolution starts from a run that ended well and takes it apart. -/

namespace FormCompiler

/-- Whether an outcome is a success that passes a test. -/
def okAnd {ε σ α : Type} (test : α → σ → Bool) : EStateM.Result ε σ α → Bool
  | .ok a s => test a s
  | .error _ _ => false

theorem okAnd_iff {ε σ α : Type} {test : α → σ → Bool} {r : EStateM.Result ε σ α} :
    okAnd test r = true ↔ ∃ a s, r = .ok a s ∧ test a s = true := by
  cases r <;> simp [okAnd,and_assoc]

abbrev Program.entering (p : Program) (generic : EntityId) (args : List Ty) : Program :=
  { p with instantiating := (generic, args) :: p.instantiating, instanceDepth := p.instanceDepth + 1 }

namespace Check

variable {text name : String} {cause : Cause} {r p q : Program} {α β : Type} {id : EntityId} {location : Location}
  {u : Unit} {c : Prop}
variable {m : Check α}
variable {b : β}
variable {a : α}
variable {u : PUnit}

theorem bind_ok {f : α → Check β} : (m >>= f) p = .ok b q ↔ ∃ a r, m p = .ok a r ∧ f a r = .ok b q := by
  show (EStateM.bind m f) p = _ ↔ _
  unfold EStateM.bind
  cases m p with
  | ok a r => simp [and_assoc]
  | error d r => simp

/-- A branch followed by the same step on both sides. -/
theorem ite_bind_ok [Decidable c] {n : Check α} {f : α → Check β} :
    (if c then m >>= f else n >>= f) p = .ok b q ↔ ∃ a r, (if c then m else n) p = .ok a r ∧ f a r = .ok b q := by
  split <;> exact bind_ok

@[simp] theorem pure_ok {b : α} : (pure a : Check α) p = .ok b q ↔ a = b ∧ p = q := by
  show EStateM.Result.ok a p = _ ↔ _
  simp

theorem bind_pure_ok {f : α → β} : (m >>= fun a => pure (f a)) p = .ok b q ↔ ∃ a, m p = .ok a q ∧ f a = b := by
  simp only [bind_ok,pure_ok]
  exact ⟨fun ⟨a,_,h,hb,hq⟩ => ⟨a,hq ▸ h,hb⟩,fun ⟨a,h,hb⟩ => ⟨a,q,h,hb,rfl⟩⟩

@[simp] theorem map_ok {f : α → β} : (f <$> m) p = .ok b q ↔ ∃ a, m p = .ok a q ∧ f a = b := by
  show (EStateM.map f m) p = _ ↔ _
  unfold EStateM.map
  cases m p with
  | ok a r => simp; grind
  | error d r => simp

@[simp] theorem throw_ok {d : Diagnostic} : (throw d : Check α) p = .ok a q ↔ False := by
  show EStateM.Result.error d p = _ ↔ _
  simp

@[simp] theorem fail_ok : (fail location cause : Check α) p = .ok a q ↔ False := throw_ok

@[simp] theorem broken_ok {fault : SemanticFault} : (broken location fault : Check α) p = .ok a q ↔ False := throw_ok

@[simp] theorem get_ok : (get : Check Program) p = .ok r q ↔ p = r ∧ p = q := by
  show EStateM.Result.ok p p = _ ↔ _
  simp

theorem get_bind_ok {f : Program → Check α} : (get >>= f) p = .ok a q ↔ f p p = .ok a q := Iff.rfl

@[simp] theorem set_ok : (set r : Check PUnit) p = .ok u q ↔ q = r := by
  show EStateM.Result.ok PUnit.unit r = _ ↔ _
  simp [eq_comm]

@[simp] theorem modify_ok {f : Program → Program} : (modify f : Check PUnit) p = .ok u q ↔ q = f p := by
  show EStateM.Result.ok PUnit.unit (f p) = _ ↔ _
  simp [eq_comm]

@[simp] theorem modifyGet_ok {f : Program → α × Program} :
    (modifyGet f : Check α) p = .ok a q ↔ a = (f p).1 ∧ q = (f p).2 := by
  show EStateM.Result.ok (f p).1 (f p).2 = _ ↔ _
  simp [eq_comm]

@[simp] theorem ofExcept_ok {x : Except Diagnostic α} : (ofExcept x : Check α) p = .ok a q ↔ x = .ok a ∧ p = q := by
  cases x with
  | ok b => simp [ofExcept]
  | error d => simp [ofExcept]

private theorem reads_ok {f : Program → α} : (do return f (← get) : Check α) p = .ok a q ↔ a = f p ∧ p = q := by
  show EStateM.Result.ok (f p) p = _ ↔ _
  simp [eq_comm (a := a)]

@[simp] theorem object?_ok {d : Option ObjectDef} :
    object? id p = .ok d q ↔ d = p.entities.object? id ∧ p = q := reads_ok

@[simp] theorem function?_ok {d : Option FunctionDef} :
    function? id p = .ok d q ↔ d = p.entities.function? id ∧ p = q := reads_ok

@[simp] theorem node_ok {id : ExprId} {e : Expr} : node id p = .ok e q ↔ e = p.exprs.get id ∧ p = q := reads_ok

theorem entity_bind_ok {f : Entity → Check α} :
    (entity id >>= f) p = .ok a q ↔ f (p.entities.get id) p = .ok a q := Iff.rfl

theorem node_bind_ok {id : ExprId} {f : Expr → Check α} :
    (node id >>= f) p = .ok a q ↔ f (p.exprs.get id) p = .ok a q := Iff.rfl

@[simp] theorem typeName_ok {type : Ty} :
    typeName type p = .ok text q ↔ text = p.entities.typeName type ∧ p = q := reads_ok

@[simp] theorem displayName_ok : displayName id p = .ok text q ↔ text = p.entities.displayName id ∧ p = q := reads_ok

@[simp] theorem modifyObject_ok {f : ObjectDef → ObjectDef} :
    modifyObject id f p = .ok u q ↔ q = { p with entities := p.entities.modifyObject id f } := by
  simp [modifyObject]

@[simp] theorem modifyFunction_ok {f : FunctionDef → FunctionDef} :
    modifyFunction id f p = .ok u q ↔ q = { p with entities := p.entities.modifyFunction id f } := by
  simp [modifyFunction]

@[simp] theorem modifyAlias_ok {f : AliasDef → AliasDef} :
    modifyAlias id f p = .ok u q ↔ q = { p with entities := p.entities.modifyAlias id f } := by
  simp [modifyAlias]

@[simp] theorem setShape_ok {id : ExprId} {shape : ExprShape} :
    setShape id shape p = .ok u q ↔ q = { p with exprs := p.exprs.setShape id shape } := by
  simp [setShape]

@[simp] theorem allocEntity_ok {kind : EntityKind} : allocEntity name location kind p = .ok id q ↔
      id = ⟨p.entities.size⟩ ∧ q = { p with entities := (p.entities.alloc name location kind).2 } := by
  simp [allocEntity,EntityTable.alloc]

@[simp] theorem pushScope_ok {parent : ScopeId} {kind : ScopeKind} {id : ScopeId} : pushScope parent kind p = .ok id q ↔
      id = ⟨p.scopes.size⟩ ∧ q = { p with scopes := (p.scopes.push parent kind).2 } := by
  simp [pushScope,ScopeTable.push]

theorem register_ok {scope : ScopeId} : register scope id p = .ok u q ↔
      ∃ scopes, p.scopes.register p.entities scope id = .ok scopes ∧ q = { p with scopes } := by
  simp [register,bind_ok,and_assoc]

theorem afterwards_ok {after : Program → Program} {act : Check α} :
    afterwards after act p = .ok a q ↔ ∃ r, act p = .ok a r ∧ q = after r := by
  unfold afterwards
  cases act p with
  | ok b r => simp; grind
  | error d r => simp

/-- A condition that is checked first. -/
theorem guard_ok [Decidable c] {m : Unit → Check α} :
    (if c then m () else (fail location cause : Check Unit) >>= m) p = .ok a q ↔ c ∧ m () p = .ok a q := by
  split <;> simp_all [bind_ok]

/-- A condition that is checked on the way. -/
theorem unless_ok [Decidable c] {act : Check PUnit} (hact : ∀ q, act p ≠ .ok ⟨⟩ q) :
    (if c then pure ⟨⟩ else act : Check PUnit) p = .ok u q ↔ c ∧ p = q := by
  split
  · simp_all
  · rename_i hc
    simp [hc,hact]

@[simp] theorem expectArity_ok {expected found : Nat} :
    expectArity name expected found location p = .ok u q ↔ expected = found ∧ p = q := by
  exact unless_ok (by simp)

theorem enterInstance_ok {generic : EntityId} {args : List Ty}
    (h : enterInstance generic args location p = .ok u q) : (generic, args) ∉ p.instantiating ∧
      p.instanceDepth < instanceLimit ∧ q = p.entering generic args := by
  obtain ⟨r,p',hg,hs⟩ := bind_ok.mp h
  obtain ⟨rfl,rfl⟩ := get_ok.mp hg
  split at hs
  · simp [bind_ok] at hs
  · rename_i hc
    simp only [Bool.or_eq_true,List.contains_eq_mem,decide_eq_true_eq,not_or] at hc
    exact ⟨hc.1,Nat.lt_of_not_le hc.2,set_ok.mp hs⟩

end Check

end FormCompiler
