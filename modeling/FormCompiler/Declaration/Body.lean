import FormCompiler.Program

/-! Bodies of functions, read from forms into the arena. Children are added before their parent, so a
body is one range of nodes that ends with its root. -/

namespace FormCompiler

/-- Heads of forms that are not calls. -/
inductive Keyword where
  | block
  | define (mutable : Bool)
  | assign
  | cond
  | loop
  | select
  | object
  | declaration
  deriving DecidableEq

namespace Keyword

def ofName? : String → Option Keyword
  | "block" => some block
  | "define" => some (define false)
  | "define_mut" => some (define true)
  | "=" => some assign
  | "if" => some cond
  | "while" => some loop
  | "match" => some select
  | "object" => some object
  | "fn" | "obj" | "type" | "mod" | "pub" | "use" => some declaration
  | _ => none

end Keyword

namespace Body

open Check

/-- The name a definition gives, with its type if it is written. -/
def definedName (target : Form) : Check (String × Option TypeExpr) := do
  match target.identifier? with
  | some name => return (name, none)
  | none =>
    let (name, type) ← ofExcept (TypeExpr.typedName target)
    return (name, some type)

def pattern (armLocation : Location) (form : Form) : Check Pattern := do
  match form with
  | .literal value _ => return .literal value
  | .string _ _ => fail armLocation (.invalidPattern .stringPattern)
  | _ => return .type (← ofExcept (TypeExpr.ofForm form))

def checkArms (location : Location) (arms : List Arm) (default : Option ExprId) : Check Unit := do
  if arms.any (·.pattern.isType) && arms.any (!·.pattern.isType) then
    fail location (.invalidPattern .mixedPatterns)
  if arms.isEmpty && default.isNone then fail location (.invalidPattern .noArms)

mutual

/-- Adds the nodes of an expression; the last of them is its root. -/
def ofForm : Form → Check ExprId
  | .literal value location => allocExpr (.literal value) location
  | .identifier name location => allocExpr (.name name none) location
  | .string _ location => broken location .strayString
  | .list [] location => broken location .emptyForm
  | .list (head :: args) location => do
    match head.identifier? with
    | none => broken head.location .headNotIdentifier
    | some name =>
      match Keyword.ofName? name, args with
      | none, args => ofCall location name args
      | some .block, args => allocExpr (.block (← ofForms args) none) location
      | some (.define mutable), [target, init] =>
        let (name, declared) ← definedName target
        let init ← ofForm init
        allocExpr (.define name declared init mutable none) location
      | some (.define _), _ => broken location .defineArity
      | some .assign, [target, value] =>
        match target.identifier? with
        | none => broken target.location .assignTarget
        | some name =>
          let value ← ofForm value
          allocExpr (.assign name value none) location
      | some .assign, _ => broken location .assignArity
      | some .cond, [test, yes] =>
        let test ← ofForm test
        let yes ← ofForm yes
        allocExpr (.cond test yes none) location
      | some .cond, [test, yes, no] =>
        let test ← ofForm test
        let yes ← ofForm yes
        let no ← ofForm no
        allocExpr (.cond test yes (some no)) location
      | some .cond, _ => broken location .ifArity
      | some .loop, [] => broken location .whileArity
      | some .loop, test :: body =>
        let test ← ofForm test
        let body ← ofSequence location body
        allocExpr (.loop test body) location
      | some .select, [] => fail location (.invalidPattern .noOperand)
      | some .select, operand :: .identifier bind _ :: arms =>
        let operand ← ofForm operand
        let (arms, default) ← ofArms arms
        checkArms location arms default
        allocExpr (.select ⟨operand, some bind, arms, default, none⟩) location
      | some .select, operand :: arms =>
        let operand ← ofForm operand
        let (arms, default) ← ofArms arms
        checkArms location arms default
        allocExpr (.select ⟨operand, none, arms, default, none⟩) location
      | some .object, fields => allocExpr (.object (← ofFields [] fields)) location
      | some .declaration, _ => broken location .nestedDeclaration

/-- A call, with its type arguments if it starts with them. -/
def ofCall (location : Location) (name : String) : List Form → Check ExprId
  | [] => allocExpr (.call name [] [] none) location
  | first :: rest => do
    if first.startsWith "type_args" then
      let typeArgs ← ofExcept (TypeExpr.ofForms first.tail)
      let args ← ofForms rest
      allocExpr (.call name args typeArgs none) location
    else
      let arg ← ofForm first
      let args ← ofForms rest
      allocExpr (.call name (arg :: args) [] none) location

def ofForms : List Form → Check (List ExprId)
  | [] => return []
  | form :: forms => do
    let id ← ofForm form
    return id :: (← ofForms forms)

/-- A body: one expression, or a block of any other number of them. -/
def ofSequence (location : Location) : List Form → Check ExprId
  | [] => allocExpr (.block [] none) location
  | form :: forms => do
    let id ← ofForm form
    if forms.isEmpty then return id
    else allocExpr (.block (id :: (← ofForms forms)) none) location

/-- The fields of an object literal; `seen` holds the names before them. -/
def ofFields (seen : List String) : List Form → Check (List (String × ExprId))
  | [] => return []
  | .list [colon, name, value] location :: fields =>
    match colon.identifier?, name.identifier? with
    | some ":", some name => do
      if seen.contains name then fail location (.duplicateBinding name)
      let value ← ofForm value
      return (name, value) :: (← ofFields (name :: seen) fields)
    | _, _ => broken location .objectField
  | field :: _ => broken field.location .objectField

/-- The arms of a match, and the body of the last one if it stands for all other cases. -/
def ofArms : List Form → Check (List Arm × Option ExprId)
  | [] => return ([], none)
  | .list (head :: parts) location :: arms =>
    match head.identifier?, parts with
    | some "=>", form :: body :: bodies => do
      let pattern ← pattern location form
      let body ← ofSequence location (body :: bodies)
      let (arms, default) ← ofArms arms
      return ({ pattern, body, location } :: arms, default)
    | some "=>", _ => fail location (.invalidPattern .incompleteCase)
    | some "else", body => do
      let body ← ofSequence location body
      match arms with
      | [] => return ([], some body)
      | next :: _ => fail next.location (.invalidPattern .elseNotLast)
    | _, _ => fail location (.invalidPattern .notAnArm)
  | arm :: _ => fail arm.location (.invalidPattern .notAnArm)

end

end Body

end FormCompiler
