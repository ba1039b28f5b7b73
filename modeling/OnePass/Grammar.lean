import OnePass.Expr
import OnePass.Token

/-!
The grammar as a type of trees.

A tree of the grammar keeps every token, and its `yield` is the text it derives.
Multiplication binds tighter than addition because the operands of a product are
smaller phrases than those of a sum, and both group to the left because the left
operand is of the level of the whole.
-/

namespace OnePass

/-- The levels of phrases, from the tightest to the loosest. -/
inductive Level
  | factor
  | term
  | expression
  deriving DecidableEq, Repr

/-- The operators between the factors of a term. -/
inductive BinaryOp.Multiplicative : BinaryOp → Prop
  | mul : Multiplicative .mul
  | div : Multiplicative .div

/-- The operators between the terms of an expression. -/
inductive BinaryOp.Additive : BinaryOp → Prop
  | add : Additive .add
  | sub : Additive .sub

/-- Trees of the grammar below the statements. -/
inductive Phrase : Level → Type
  | number (t : Token) (h : t.kind = .number) : Phrase .factor
  | name (t : Token) (h : t.kind = .name) : Phrase .factor
  | group (opening : Token) (ho : opening.kind = .lparen) (inner : Phrase .expression)
      (closing : Token) (hc : closing.kind = .rparen) : Phrase .factor
  | ofFactor (f : Phrase .factor) : Phrase .term
  | product (lhs : Phrase .term) (sign : Token) (op : BinaryOp)
      (h : sign.kind = .operator op) (hop : op.Multiplicative) (rhs : Phrase .factor) :
      Phrase .term
  | ofTerm (t : Phrase .term) : Phrase .expression
  | sum (lhs : Phrase .expression) (sign : Token) (op : BinaryOp)
      (h : sign.kind = .operator op) (hop : op.Additive) (rhs : Phrase .term) :
      Phrase .expression

/-! ## Levels and binding strength

The grammar lists the operators of a level, and the parse compares binding strengths.
The two sort the operators alike. -/

namespace BinaryOp

theorem multiplicative_iff_precedence_eq {op : BinaryOp} :
    op.Multiplicative ↔ op.precedence = 2 := by
  cases op with
  | mul => exact ⟨fun _ => rfl, fun _ => .mul⟩
  | div => exact ⟨fun _ => rfl, fun _ => .div⟩
  | add => exact ⟨nofun, nofun⟩
  | sub => exact ⟨nofun, nofun⟩

theorem additive_iff_precedence_eq {op : BinaryOp} : op.Additive ↔ op.precedence = 1 := by
  cases op with
  | add => exact ⟨fun _ => rfl, fun _ => .add⟩
  | sub => exact ⟨fun _ => rfl, fun _ => .sub⟩
  | mul => exact ⟨nofun, nofun⟩
  | div => exact ⟨nofun, nofun⟩

end BinaryOp

namespace Phrase

/-- The tokens of a phrase, in the order of the text. -/
def yield : {l : Level} → Phrase l → List Token
  | _, number t _ => [t]
  | _, name t _ => [t]
  | _, group opening _ inner closing _ => opening :: (inner.yield ++ [closing])
  | _, ofFactor f => f.yield
  | _, product lhs sign _ _ _ rhs => lhs.yield ++ sign :: rhs.yield
  | _, ofTerm t => t.yield
  | _, sum lhs sign _ _ _ rhs => lhs.yield ++ sign :: rhs.yield

/-- The expression that a phrase writes, if every number in it is a 64-bit word. -/
def expr? : {l : Level} → Phrase l → Option Expr
  | _, number t _ => t.value.map .literal
  | _, name t _ => some (.read t.text)
  | _, group _ _ inner _ _ => inner.expr?
  | _, ofFactor f => f.expr?
  | _, product lhs _ op _ _ rhs => do return .binary op (← lhs.expr?) (← rhs.expr?)
  | _, ofTerm t => t.expr?
  | _, sum lhs _ op _ _ rhs => do return .binary op (← lhs.expr?) (← rhs.expr?)

end Phrase

/-- A statement with the semicolon that ends it. -/
inductive Sentence
  | assign (target : Token) (ht : target.kind = .name) (sign : Token)
      (hs : sign.kind = .becomes) (e : Phrase .expression)
      (semicolon : Token) (h : semicolon.kind = .semicolon)
  | expression (e : Phrase .expression) (semicolon : Token) (h : semicolon.kind = .semicolon)
  | empty (semicolon : Token) (h : semicolon.kind = .semicolon)

namespace Sentence

/-- The tokens of a sentence. -/
def yield : Sentence → List Token
  | assign target _ sign _ e semicolon _ => target :: sign :: (e.yield ++ [semicolon])
  | expression e semicolon _ => e.yield ++ [semicolon]
  | empty semicolon _ => [semicolon]

/-- The statement that a sentence writes, if every number in it is a 64-bit word. -/
def statement? : Sentence → Option Statement
  | assign target _ _ _ e _ _ => e.expr?.map (.assign target.text)
  | expression e _ _ => e.expr?.map .discard
  | empty _ _ => some .empty

end Sentence

/-- The tokens of a text of sentences. -/
def sentencesYield (sentences : List Sentence) : List Token :=
  sentences.flatMap Sentence.yield

/-- The program that sentences write, if every number in them is a 64-bit word. -/
def sentencesProgram? (sentences : List Sentence) : Option Program :=
  sentences.mapM Sentence.statement?

/-- The tokens are those of some text of sentences. -/
def Derivable (tokens : List Token) : Prop :=
  ∃ sentences : List Sentence, sentencesYield sentences = tokens

end OnePass
