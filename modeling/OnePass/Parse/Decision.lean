import OnePass.Parse.Stack

/-!
The next move of a parse, chosen from the top of the stack and one token of
lookahead.

There is no table.  Which productions can apply is read off the symbol on top and the
one below it, and the lookahead settles the choice between them.  A lookahead that no
sentence can go on with is refused here, before it gets on the stack.
-/

namespace OnePass

/-- A move of the parse. -/
inductive Decision
  /-- Put the lookahead on the stack. -/
  | shift
  | reduce (production : Production)
  /-- The source is complete. -/
  | accept
  /-- The lookahead cannot stand where it stands. -/
  | reject (complaint : Complaint)
  deriving DecidableEq, Repr

namespace Stack

/-- The operator of the given strength that waits on top for its right operand. -/
def pendingOperator (strength : Nat) : Stack → Option BinaryOp
  | .token t :: _ => t.kind.operator?.filter fun op => op.precedence == strength
  | _ => none

/-- An opening parenthesis lies on top. -/
def opensGroup : Stack → Bool
  | .token t :: _ => t.kind == .lparen
  | _ => false

/-- The stack is the left side of an assignment and nothing else. -/
def opensAssignment : Stack → Bool
  | [.token t, _] => t.kind == .becomes
  | _ => false

end Stack

namespace Decision

/-- The move on an empty stack: a statement or the end of the source has to come. -/
def onEmpty (lookahead : Token) : Decision :=
  match lookahead.kind with
  | .eof => accept
  | .semicolon => reduce .stmtEmpty
  | .number | .name | .lparen => shift
  | _ => reject (.unexpected lookahead.describe)

/-- The move when the top of the stack completes a factor. -/
def closeFactor (production : Production) (lookahead : Token) : Decision :=
  if lookahead.kind.followsOperand then reduce production
  else reject (.unexpected lookahead.describe)

/-- The move when a token of kind `top` lies on the stack `below`.  A name that stands
alone may turn out to be assigned to. -/
def onToken (top : TokenKind) (below : Stack) (lookahead : Token) : Decision :=
  match top with
  | .name =>
    if lookahead.kind = .becomes ∧ below = [] then shift else closeFactor .factorName lookahead
  | .number => closeFactor .factorNumber lookahead
  | .rparen => closeFactor .factorGroup lookahead
  | .semicolon => reduce .program
  | _ =>
    if lookahead.kind.startsOperand then shift
    else reject (.expectedOperand lookahead.describe)

/-- The move when a statement lies on the stack. -/
def onStatement (lookahead : Token) : Decision :=
  if lookahead.kind = .semicolon then shift else reject (.expected ";" lookahead.describe)

/-- The move when a factor lies on the stack `below`: it is the right operand of the
operator that waits for one, or starts a term. -/
def onFactor (below : Stack) : Decision :=
  match below.pendingOperator 2 with
  | some op => reduce (.termBinary op)
  | none => reduce .termFactor

/-- The move when a term lies on the stack `below`.  A tighter operator in the
lookahead takes the term as its left operand first. -/
def onTerm (below : Stack) (lookahead : Token) : Decision :=
  let pending := below.pendingOperator 1
  let strength := (pending.getD .add).precedence
  if lookahead.kind.operator?.any fun op => strength < op.precedence then shift
  else
    match pending with
    | some op => reduce (.exprBinary op)
    | none => reduce .exprTerm

/-- The move when an expression lies on the stack `below`. -/
def onExpression (below : Stack) (lookahead : Token) : Decision :=
  if lookahead.kind = .operator .add ∨ lookahead.kind = .operator .sub then shift
  else if below.opensGroup then
    if lookahead.kind = .rparen then shift else reject (.expected ")" lookahead.describe)
  else if lookahead.kind = .semicolon ∧ below = [] then reduce .stmtExpr
  else if lookahead.kind = .semicolon ∧ below.opensAssignment then reduce .stmtAssign
  else reject (.unexpected lookahead.describe)

/-- The next move. -/
def next : Stack → Token → Decision
  | [], lookahead => onEmpty lookahead
  | .token t :: below, lookahead => onToken t.kind below lookahead
  | .stmt _ :: _, lookahead => onStatement lookahead
  | .factor _ :: below, _ => onFactor below
  | .term _ :: below, lookahead => onTerm below lookahead
  | .expr _ :: below, lookahead => onExpression below lookahead

/-! ## What the moves tell -/

/-- The end of the source is never put on the stack. -/
theorem kind_ne_eof_of_next_eq_shift {stack : Stack} {lookahead : Token}
    (h : next stack lookahead = shift) : lookahead.kind ≠ .eof := by
  intro hk
  cases stack with
  | nil => simp [next, onEmpty, hk] at h
  | cons top below =>
    cases top with
    | token t =>
      simp only [next, onToken, closeFactor, hk, TokenKind.followsOperand,
        TokenKind.startsOperand] at h
      split at h <;> simp at h
    | stmt v => simp [next, onStatement, hk] at h
    | factor v =>
      simp only [next, onFactor] at h
      split at h <;> simp at h
    | term v =>
      simp only [next, onTerm, hk, TokenKind.operator?, Option.any_none, Bool.false_eq_true,
        if_false] at h
      split at h <;> simp at h
    | expr v =>
      simp [next, onExpression, hk] at h
      split at h <;> simp at h

/-- An empty statement is recognised only where a statement starts. -/
theorem eq_nil_of_next_eq_stmtEmpty {stack : Stack} {lookahead : Token}
    (h : next stack lookahead = reduce .stmtEmpty) : stack = [] := by
  cases stack with
  | nil => rfl
  | cons top below =>
    cases top with
    | token t =>
      simp only [next, onToken, closeFactor] at h
      split at h <;> (try split at h) <;> (try split at h) <;> simp_all
    | stmt v =>
      simp only [next, onStatement] at h
      split at h <;> simp at h
    | factor v =>
      simp only [next, onFactor] at h
      split at h <;> simp at h
    | term v =>
      simp only [next, onTerm] at h
      split at h <;> (try split at h) <;> simp at h
    | expr v =>
      simp only [next, onExpression] at h
      split at h <;> (try split at h) <;> (try split at h) <;> (try split at h) <;> simp at h

end Decision
end OnePass
