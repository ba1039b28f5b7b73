import OnePass.Operator

/-!
The productions of the grammar.

    program    := program statement ';' |
    statement  := NAME ':=' expression | expression |
    expression := expression ('+' | '-') term | term
    term       := term ('*' | '/') factor | factor
    factor     := '(' expression ')' | NUMBER | NAME
-/

namespace OnePass

/-- The productions that a parse can reduce by, which are all but the empty
program. -/
inductive Production
  | program
  | stmtAssign
  | stmtExpr
  | stmtEmpty
  | exprBinary (op : BinaryOp)
  | exprTerm
  | termBinary (op : BinaryOp)
  | termFactor
  | factorGroup
  | factorNumber
  | factorName
  deriving DecidableEq, Repr

/-- A production in the notation of the grammar. -/
def Production.text : Production → String
  | program => "program -> program statement ;"
  | stmtAssign => "statement -> NAME := expression"
  | stmtExpr => "statement -> expression"
  | stmtEmpty => "statement -> <empty>"
  | exprBinary op => s!"expression -> expression {op.symbol} term"
  | exprTerm => "expression -> term"
  | termBinary op => s!"term -> term {op.symbol} factor"
  | termFactor => "term -> factor"
  | factorGroup => "factor -> ( expression )"
  | factorNumber => "factor -> NUMBER"
  | factorName => "factor -> NAME"

end OnePass
