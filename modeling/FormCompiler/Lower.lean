import FormCompiler.Lower.Expr
import FormCompiler.Lower.Object

/-! Code generation for a whole program: the exported functions and all that they reach. -/

namespace FormCompiler

open Wasm (Module)

namespace Lower

def defineFunction (id : EntityId) : Lower Unit := do
  match (← read).entities.function? id with
  | none => return
  | some d =>
    match d.body with
    | .expr _ root =>
      let index ← functionIndex id
      let vars := d.paramVars.zipIdx
      modify fun s => { s with frame := { params := d.paramVars.length, vars } }
      let code ← expr root
      let locals := (← get).frame.locals
      let code ← discardUnless (d.returnType.any (·.hasValue)) root code
      modifyModule fun m => ((), m.defineFunc index locals [code])
    | _ => return

def declareExports : List (String × EntityId) → Lower Unit
  | [] => return
  | (name, id) :: rest => do
    let index ← functionIndex id
    modifyModule fun m => ((), m.exportFunc index name)
    declareExports rest

/-- Defines the functions that wait for a body, and those they turn out to need. -/
def drain : Nat → Lower Unit
  | 0 => return
  | steps + 1 => do
    match (← get).queue with
    | [] => return
    | id :: queue =>
      modify fun s => { s with queue }
      defineFunction id
      drain steps

/-- Each function is waiting at most once, so there are no more steps than entities. -/
def program (exports : List (String × EntityId)) : Lower Unit := do
  declareObjects
  declareExports exports
  drain (← read).entities.size

end Lower

def lowerProgram (p : Program) (exports : List (String × EntityId)) : Except Diagnostic Module := do
  let ((), s) ← (Lower.program exports).run p |>.run {}
  return s.module

end FormCompiler
