import OnePass.Assembly
import OnePass.Error
import OnePass.Symbols

/-!
The state of a compilation and the actions on it.

Each action has two halves that meet only here: it checks, with the values known so
far, that the program may go on, and it emits the code that does the same at run
time.  `depth` counts the operands that the code emitted so far has pushed and not
popped, which is zero between statements.
-/

namespace OnePass

/-- Choices that shape the function a program becomes. -/
structure Options where
  /-- The name the function is entered by. -/
  entry : String := "_main"
  deriving DecidableEq, Repr

/-- The state of a compilation.  `source` is the text that markers quote, and `slots`
counts the slots of the frame in use. -/
structure Context where
  source : String
  symbols : SymbolTable := {}
  values : ValueTable := {}
  depth : Nat := 0
  slots : Nat := 0
  body : List Instruction := []
  deriving DecidableEq, Repr

namespace Context

/-- The state before the first statement of `source`. -/
def new (source : String) : Context :=
  { source }

/-- Put code behind the code emitted so far. -/
def emit (c : Context) (code : List Instruction) : Context :=
  { c with body := c.body ++ code }

/-- Push a literal. -/
def pushLiteral (c : Context) (value : Int64) : Outcome Context Value :=
  .ok (some value) { c.emit [.pushLiteral value] with depth := c.depth + 1 }

/-- Push the variable `name`, read at byte `loc`.  It has to be assigned before. -/
def read (c : Context) (name : String) (loc : Nat) : Outcome Context Value :=
  match Marker.place? c.source loc with
  | none => .failed .offBoundary c
  | some marker =>
    match (c.symbols.slot? name).filter fun _ => c.values.contains name with
    | some slot =>
      .ok (c.values.get name) { c.emit [.pushSlot slot] with depth := c.depth + 1 }
    | none => .failed (.error (.undefinedVariable marker name)) c

/-- Combine the two topmost operands by the operator at byte `loc`. -/
def binary (c : Context) (op : BinaryOp) (lhs rhs : Value) (loc : Nat) :
    Outcome Context Value :=
  if c.depth < 2 then .failed (.error (.stackUnderflow 2 c.depth)) c
  else
    match Value.binary op lhs rhs with
    | .error _ => .failed (Failure.marking c.source loc .divisionByZero) c
    | .ok value => .ok value { c.emit (Instruction.binary op) with depth := c.depth - 1 }

/-- The state after the topmost operand has been stored in the variable `name`. -/
def stored (c : Context) (name : String) (value : Value) : Context :=
  let (slot, symbols) := c.symbols.bind name
  { c.emit [.popSlot slot] with
    symbols
    values := c.values.set name value
    depth := c.depth - 1
    slots := if c.symbols.size < symbols.size then c.slots + 1 else c.slots }

/-- Store the topmost operand, whose value is `value`, in the variable `name`.  That
ends a statement, so no operand may be left; the store stands even if one is. -/
def assign (c : Context) (name : String) (value : Value) : Outcome Context Unit :=
  if c.depth < 1 then .failed (.error (.stackUnderflow 1 c.depth)) c
  else
    let after := c.stored name value
    if after.depth = 0 then .ok () after
    else .failed (.error (.unbalancedStatement after.depth 0)) after

/-- End a statement that is an expression.  Its value is dropped. -/
def finishStatement (c : Context) : Outcome Context Unit :=
  if c.depth = 1 then .ok () { c.emit [Instruction.discard] with depth := c.depth - 1 }
  else .failed (.error (.unbalancedStatement c.depth 1)) c

/-- End an empty statement. -/
def emptyStatement (c : Context) : Outcome Context Unit :=
  if c.depth = 0 then .ok () c
  else .failed (.error (.unbalancedStatement c.depth 0)) c

/-- The function made of the code emitted, and its variables. -/
def finish (c : Context) (options : Options) : Except CompileError (Assembly × SymbolTable) :=
  if c.depth = 0 then
    .ok ({ entry := options.entry, slots := c.slots, body := c.body }, c.symbols)
  else .error (.unbalancedStatement c.depth 0)

/-! ## Actions as data

A run of a context is a list of actions, so what holds after every run can be said of
all lists. -/

/-- The actions, with their arguments. -/
inductive Action
  | literal (value : Int64)
  | read (name : String) (loc : Nat)
  | binary (op : BinaryOp) (lhs rhs : Value) (loc : Nat)
  | assign (name : String) (value : Value)
  | finishStatement
  | emptyStatement
  deriving DecidableEq, Repr

/-- Perform an action.  The result is a value for the actions that leave an operand,
and nothing for those that end a statement. -/
def perform (c : Context) : Action → Outcome Context (Option Value)
  | .literal value => (c.pushLiteral value).map some
  | .read name loc => (c.read name loc).map some
  | .binary op lhs rhs loc => (c.binary op lhs rhs loc).map some
  | .assign name value => (c.assign name value).map fun _ => none
  | .finishStatement => c.finishStatement.map fun _ => none
  | .emptyStatement => c.emptyStatement.map fun _ => none

/-! ## Equations -/

@[simp]
theorem depth_stored (c : Context) (name : String) (value : Value) :
    (c.stored name value).depth = c.depth - 1 := rfl

@[simp]
theorem values_stored (c : Context) (name : String) (value : Value) :
    (c.stored name value).values = c.values.set name value := rfl

@[simp]
theorem symbols_stored (c : Context) (name : String) (value : Value) :
    (c.stored name value).symbols = (c.symbols.bind name).2 := rfl

end Context
end OnePass
