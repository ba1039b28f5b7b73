import OnePass.Instruction
import OnePass.Symbols

/-!
Programs as trees, and the code of a tree.

The compiler keeps no tree, but what it emits is best said of one: the code of an
expression is the code of its operands, left before right, and then the block of the
operator.  Parentheses leave no mark in a tree beyond the grouping they express.  The
blocks are written out here, so that the code of a tree owes nothing to the actions that
emit it.
-/

namespace OnePass

/-- The block of code of an operator whose operands lie on the stack, the right one on
top. -/
def BinaryOp.block : BinaryOp → List Instruction
  | add => [.popRegister .ebx, .popRegister .eax, .add .ebx .eax, .pushRegister .eax]
  | sub => [.popRegister .ebx, .popRegister .eax, .sub .ebx .eax, .pushRegister .eax]
  | mul => [.popRegister .ebx, .popRegister .eax, .mul .ebx .eax, .pushRegister .eax]
  | div =>
    [.popRegister .ebx, .popRegister .eax, .extendSign, .divide .ebx, .pushRegister .eax]

/-- An expression. -/
inductive Expr
  | literal (value : Int64)
  | read (name : String)
  | binary (op : BinaryOp) (lhs rhs : Expr)
  deriving DecidableEq, Repr

/-- A statement. -/
inductive Statement
  | assign (name : String) (e : Expr)
  | discard (e : Expr)
  | empty
  deriving DecidableEq, Repr

namespace Expr

/-- The code of an expression, in post-order, where `slot` says where each name
lives. -/
def code (slot : String → Nat) : Expr → List Instruction
  | literal value => [.pushLiteral value]
  | read name => [.pushSlot (slot name)]
  | binary op lhs rhs => lhs.code slot ++ rhs.code slot ++ op.block

end Expr

namespace Statement

/-- The code of a statement: its expression, and the store or the drop of its
value. -/
def code (slot : String → Nat) : Statement → List Instruction
  | assign name e => e.code slot ++ [.popSlot (slot name)]
  | discard e => e.code slot ++ [.popRegister .eax]
  | empty => []

/-- The name a statement assigns to. -/
def target? : Statement → Option String
  | assign name _ => some name
  | _ => none

end Statement

/-- A program is a list of statements. -/
abbrev Program := List Statement

namespace Program

/-- The names that a program assigns to, with the slots of their first assignments. -/
def symbols (p : Program) : SymbolTable :=
  (p.filterMap Statement.target?).foldl (fun t name => (t.bind name).2) {}

/-- The slot a program gives to a name.  Slots are counted from one, so that zero
stands for a name without one. -/
def slot (p : Program) (name : String) : Nat :=
  (p.symbols.slot? name).getD 0

/-- The code of a program, statement by statement. -/
def code (p : Program) : List Instruction :=
  p.flatMap (Statement.code p.slot)

end Program

/-! ## What the actions emit -/

namespace Instruction

theorem binary_eq_block (op : BinaryOp) : binary op = op.block := by
  cases op <;> rfl

theorem discard_eq_popRegister : discard = popRegister .eax := rfl

end Instruction
end OnePass
