/-!
The binary operators of the language and how tightly they bind.
-/

namespace OnePass

/-- A binary operator. -/
inductive BinaryOp
  | add
  | sub
  | mul
  | div
  deriving DecidableEq, Repr

namespace BinaryOp

/-- Binding strength.  The higher one binds tighter, and operators of one strength
group to the left. -/
def precedence : BinaryOp → Nat
  | add | sub => 1
  | mul | div => 2

/-- The character an operator is written with. -/
def symbol : BinaryOp → Char
  | add => '+'
  | sub => '-'
  | mul => '*'
  | div => '/'

/-- The operator a character stands for. -/
def ofSymbol? : Char → Option BinaryOp
  | '+' => some add
  | '-' => some sub
  | '*' => some mul
  | '/' => some div
  | _ => none

end BinaryOp
end OnePass
