import OnePass.Context
import OnePass.Production
import OnePass.Token

/-!
The parse stack and the reductions on it.

No tree is kept.  The stack holds tokens and, for each phrase already recognised, its
compile-time value.  A reduction takes the right-hand side of a production off the
stack, performs the action of the production, and puts the left-hand side there.
-/

namespace OnePass

/-- A symbol on the parse stack. -/
inductive Symbol
  | token (t : Token)
  | stmt (value : Value)
  | expr (value : Value)
  | term (value : Value)
  | factor (value : Value)
  deriving DecidableEq, Repr

/-- The stack, with its top first. -/
abbrev Stack := List Symbol

namespace Symbol

/-- What a symbol is, apart from its token or value. -/
inductive Category
  | token
  | stmt
  | expr
  | term
  | factor
  deriving DecidableEq, Repr

def category : Symbol → Category
  | token _ => .token
  | stmt _ => .stmt
  | expr _ => .expr
  | term _ => .term
  | factor _ => .factor

/-- The words for a symbol that is missing. -/
def Category.describe : Category → String
  | token => "a token"
  | stmt => "a statement"
  | expr => "an expression"
  | term => "a term"
  | factor => "a factor"

end Symbol

/-- The right-hand side of a production as it lies on the stack, the top first.  The
program before a statement is not kept there. -/
def Production.handle : Production → List Symbol.Category
  | program => [.token, .stmt]
  | stmtAssign => [.expr, .token, .token]
  | stmtExpr => [.expr]
  | stmtEmpty => []
  | exprBinary _ => [.term, .token, .expr]
  | exprTerm => [.term]
  | termBinary _ => [.factor, .token, .term]
  | termFactor => [.factor]
  | factorGroup => [.token, .expr, .token]
  | factorNumber => [.token]
  | factorName => [.token]

namespace Stack

/-- The first symbol of a handle that the stack does not have in its place. -/
def missing? : List Symbol.Category → Stack → Option Symbol.Category
  | [], _ => none
  | k :: _, [] => some k
  | k :: ks, s :: stack => if s.category = k then missing? ks stack else some k

/-- The error of a reduction whose handle is not on top of the stack. -/
def missingError (production : Production) (stack : Stack) : CompileError :=
  .parseStack (((missing? production.handle stack).map Symbol.Category.describe).getD "")

/-- Reduce by a production.  The text of a number that is out of range is marked in
`source`, the text that the tokens come from. -/
def reduce (source : String) (c : Context) : Production → Stack → Outcome Context Stack
  | .program, .token _ :: .stmt _ :: below => .ok below c
  | .stmtAssign, .expr v :: .token _ :: .token name :: below =>
    (c.assign name.text v).map fun _ => .stmt none :: below
  | .stmtExpr, .expr v :: below => c.finishStatement.map fun _ => .stmt v :: below
  | .stmtEmpty, stack => c.emptyStatement.map fun _ => .stmt none :: stack
  | .exprBinary op, .term rhs :: .token t :: .expr lhs :: below =>
    (c.binary op lhs rhs t.loc).map fun v => .expr v :: below
  | .exprTerm, .term v :: below => .ok (.expr v :: below) c
  | .termBinary op, .factor rhs :: .token t :: .term lhs :: below =>
    (c.binary op lhs rhs t.loc).map fun v => .term v :: below
  | .termFactor, .factor v :: below => .ok (.term v :: below) c
  | .factorGroup, .token _ :: .expr v :: .token _ :: below => .ok (.factor v :: below) c
  | .factorNumber, .token t :: below =>
    match t.value with
    | some n => (c.pushLiteral n).map fun v => .factor v :: below
    | none =>
      .failed (Failure.marking source t.loc (CompileError.malformed · .literalOutOfRange)) c
  | .factorName, .token t :: below => (c.read t.text t.loc).map fun v => .factor v :: below
  | production, stack => .failed (.error (missingError production stack)) c

end Stack
end OnePass
