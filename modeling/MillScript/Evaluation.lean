import MillScript.Call
import MillScript.Program
import MillScript.World

/-! # Evaluation

    Expressions have values, statements are carried out in order.  An error
    is blamed on the innermost expression or statement that it comes from. -/

namespace MillScript

/-! ## Expressions -/

namespace Run

/-- Refuses a value that does not fit its parameter. -/
def checkArgument (f : Builtin) (p : Param) (l : Location) (v : Value) : Run Unit := fun w =>
  if v.fits p.kind then .ok () w else .error ⟨TypeFault.argument f p v.kind, l⟩ w

end Run

mutual

/-- The value of an expression. -/
def Expr.eval : Expr → Run Value
  | .number _ q => pure (.number q)
  | .string _ s => pure (.string s)
  | .identifier l name => Run.locating l (Run.lookup name)
  | .binary l op lhs rhs => Run.locating l do
    let a ← lhs.eval
    let b ← rhs.eval
    Run.ofExcept (Value.binary op a b)
  | .unary l op operand => Run.locating l do
    let a ← operand.eval
    Run.ofExcept (Value.unary op a)
  | .assign l name value => Run.locating l do
    let v ← value.eval
    Run.bindName name v
    return v
  | .call l f slots => Run.locating l do
    let args ← Slot.evalAll f f.params slots
    Run.setLine l.line
    Run.machining (Call.apply args f)

/-- The arguments in the slots of a call, from the first on, each checked
    before the next is evaluated. -/
def Slot.evalAll (f : Builtin) : List Param → List Slot → Run Arguments
  | _ :: params, .absent :: slots => Slot.evalAll f params slots
  | p :: params, .given l value :: slots => do
    let v ← value.eval
    Run.checkArgument f p l v
    let args ← Slot.evalAll f params slots
    return (p.name, v) :: args
  | _, _ => pure []

end

/-! ## Statements -/

mutual

/-- Carries out a statement; an expression has its value. -/
def Stmt.eval : Stmt → Run Value
  | .expr e => e.eval
  | .block l body => Run.locating l do
    Run.inFrame (Stmt.evalAll body)
    return .none
  | .forLoop l item source _ body => Run.locating l do
    match ← source.eval with
    | .sequence items =>
      Run.say fun _ => "for " ++ item ++ " in " ++ (Value.sequence items).text ++ "\n"
      items.forM fun v => Run.inFrame do
        Run.bindName item v
        Stmt.evalAll body
      return .none
    | v => throw ⟨TypeFault.notIterable v.kind, source.location⟩

/-- Carries out statements in order. -/
def Stmt.evalAll : List Stmt → Run Unit
  | [] => pure ()
  | s :: rest => do
    let _ ← s.eval
    Stmt.evalAll rest

end

namespace Program

/-- Carries out the statements of a program, with a trace line before each. -/
def runAll : List Stmt → Run Unit
  | [] => pure ()
  | s :: rest => do
    Run.say fun w =>
      "line " ++ s.location.line.repr ++ ": " ++ w.job.path.size.repr ++ " segments so far\n"
    let _ ← s.eval
    runAll rest

/-- Carries out a program. -/
def run (p : Program) : Run Unit := runAll p.statements

/-- Carries out a program as one statement. -/
def eval (p : Program) : Run Value := Run.locating p.location do
  p.run
  return .none

end Program

end MillScript
