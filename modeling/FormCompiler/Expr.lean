import FormCompiler.TypeExpr

/-! Bodies of functions: expressions in an arena, children before parents, so that the nodes of a body
are one range that ends with its root. Resolution fills in the type and the open slots of each node. -/

namespace FormCompiler

inductive CallTarget where
  | function (id : EntityId)
  /-- Builds an object from an object literal. -/
  | construct (object : EntityId)
  /-- Reads the field at a place of the object's layout. -/
  | field (object : EntityId) (index : Nat)
  deriving DecidableEq, Inhabited

inductive Pattern where
  | literal (literal : Literal)
  | type (type : TypeExpr)
  deriving Inhabited

namespace Pattern

def isType : Pattern → Bool
  | type _ => true
  | literal _ => false

def substitute (subst : Subst) : Pattern → Pattern
  | type t => type (t.substitute subst)
  | literal l => literal l

end Pattern

structure Arm where
  pattern : Pattern
  body : ExprId
  location : Location
  /-- The variable that holds the narrowed operand inside the body. -/
  binding : Option EntityId := none
  patternType : Option Ty := none
  deriving Inhabited

structure Match where
  operand : ExprId
  /-- The name the arms know the operand by. -/
  bind : Option String
  arms : List Arm
  default : Option ExprId
  defaultBinding : Option EntityId := none
  deriving Inhabited

namespace Match

def isTypeGuard (m : Match) : Bool := m.arms.any (·.pattern.isType)

end Match

inductive ExprShape where
  | literal (literal : Literal)
  | name (name : String) (binding : Option EntityId)
  | block (body : List ExprId) (scope : Option ScopeId)
  | define (name : String) (declared : Option TypeExpr) (init : ExprId) (mutable : Bool)
    (entity : Option EntityId)
  | assign (name : String) (value : ExprId) (target : Option EntityId)
  | call (name : String) (args : List ExprId) (typeArgs : List TypeExpr)
    (target : Option CallTarget)
  | object (fields : List (String × ExprId))
  | cond (test yes : ExprId) (no : Option ExprId)
  | loop (test body : ExprId)
  | select (m : Match)
  deriving Inhabited

structure Expr where
  shape : ExprShape
  location : Location
  type : Option Ty := none
  deriving Inhabited

namespace Arm

/-- The arm with its body `offset` places further on and nothing resolved. -/
def copy (offset : Nat) (subst : Subst) (arm : Arm) : Arm :=
  ⟨arm.pattern.substitute subst, arm.body.shift offset, arm.location, none, none⟩

end Arm

namespace ExprShape

/-- The node with its children `offset` places further on, type parameters replaced and nothing
resolved. -/
def copy (offset : Nat) (subst : Subst) : ExprShape → ExprShape
  | literal l => literal l
  | name n _ => name n none
  | block body _ => block (body.map (·.shift offset)) none
  | define n declared init mutable _ =>
    define n (declared.map (·.substitute subst)) (init.shift offset) mutable none
  | assign n value _ => assign n (value.shift offset) none
  | call n args typeArgs _ =>
    call n (args.map (·.shift offset)) (typeArgs.map (·.substitute subst)) none
  | object fields => object (fields.map fun (n, value) => (n, value.shift offset))
  | cond test yes no => cond (test.shift offset) (yes.shift offset) (no.map (·.shift offset))
  | loop test body => loop (test.shift offset) (body.shift offset)
  | select m =>
    select ⟨m.operand.shift offset, m.bind, m.arms.map (·.copy offset subst),
      m.default.map (·.shift offset), none⟩

end ExprShape

namespace Expr

def copy (offset : Nat) (subst : Subst) (e : Expr) : Expr :=
  ⟨e.shape.copy offset subst, e.location, none⟩

end Expr

structure Arena where
  nodes : Array Expr := #[]
  deriving Inhabited

namespace Arena

def size (a : Arena) : Nat := a.nodes.size

def next (a : Arena) : ExprId := ⟨a.size⟩

def get (a : Arena) (id : ExprId) : Expr := a.nodes.getD id.index default

def alloc (a : Arena) (shape : ExprShape) (location : Location) : ExprId × Arena :=
  (a.next, ⟨a.nodes.push { shape, location }⟩)

def setShape (a : Arena) (id : ExprId) (shape : ExprShape) : Arena :=
  ⟨a.nodes.modify id.index fun e => { e with shape }⟩

def setType (a : Arena) (id : ExprId) (type : Ty) : Arena :=
  ⟨a.nodes.modify id.index fun e => { e with type := some type }⟩

def typeOf (a : Arena) (id : ExprId) : Ty := (a.get id).type.getD .void

/-- Appends an unresolved copy of the nodes from `first` to `root`. -/
def cloneRange (a : Arena) (first root : ExprId) (subst : Subst) : (ExprId × ExprId) × Arena :=
  let offset := a.size - first.index
  let copies := (a.nodes.extract first.index (root.index + 1)).map (·.copy offset subst)
  ((a.next, root.shift offset), ⟨a.nodes ++ copies⟩)

end Arena

end FormCompiler
