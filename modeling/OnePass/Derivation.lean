import Mathlib.Computability.ContextFreeGrammar
import OnePass.Production
import OnePass.Token

/-!
The grammar by its rules, and derivations that rewrite from the right.

The trees of the grammar say which texts there are.  The rules say in which steps a text
comes about, and it is the steps that a bottom-up parse tells of: it undoes, one by one, a
derivation in which every step rewrites the last nonterminal.
-/

namespace ContextFreeRule

variable {T N : Type*}

/-- A row of terminals and nonterminals. -/
abbrev Form (T N : Type*) := List (Symbol T N)

/-- The rule takes `u` to `v` by rewriting the last nonterminal: only terminals stand behind
it. -/
def RewritesRightmost (r : ContextFreeRule T N) (u v : Form T N) : Prop :=
  ∃ (front : Form T N) (back : List T),
    u = front ++ [.nonterminal r.input] ++ back.map .terminal ∧
      v = front ++ r.output ++ back.map .terminal

/-- The rules in a row, each of which rewrites the last nonterminal, take one form to
another. -/
def DerivesRightmost : List (ContextFreeRule T N) → Form T N → Form T N → Prop
  | [], u, w => u = w
  | r :: rest, u, w => ∃ v, r.RewritesRightmost u v ∧ DerivesRightmost rest v w

theorem derivesRightmost_concat {rules : List (ContextFreeRule T N)} {r : ContextFreeRule T N}
    {u w : Form T N} :
    DerivesRightmost (rules ++ [r]) u w ↔
      ∃ v, DerivesRightmost rules u v ∧ r.RewritesRightmost v w := by
  induction rules generalizing u with
  | nil =>
    constructor
    · rintro ⟨_, hr, rfl⟩
      exact ⟨u, rfl, hr⟩
    · rintro ⟨_, rfl, hr⟩
      exact ⟨w, hr, rfl⟩
  | cons s rest ih =>
    constructor
    · rintro ⟨v, hs, hrest⟩
      obtain ⟨z, hz, hr⟩ := ih.1 hrest
      exact ⟨z, ⟨v, hs, hz⟩, hr⟩
    · rintro ⟨z, ⟨v, hs, hz⟩, hr⟩
      exact ⟨v, hs, ih.2 ⟨z, hz, hr⟩⟩

end ContextFreeRule

namespace OnePass

/-- The names of the phrases of the grammar. -/
inductive Nonterminal
  | program
  | statement
  | expression
  | term
  | factor
  deriving DecidableEq, Repr

abbrev Form := ContextFreeRule.Form TokenKind Nonterminal

abbrev Rule := ContextFreeRule TokenKind Nonterminal

/-- The rule of the empty program, by which no parse reduces. -/
def emptyProgram : Rule :=
  { input := .program, output := [] }

/-- The rule that a production writes. -/
def Production.rule : Production → Rule
  | program =>
    ⟨.program, [.nonterminal .program, .nonterminal .statement, .terminal .semicolon]⟩
  | stmtAssign =>
    ⟨.statement, [.terminal .name, .terminal .becomes, .nonterminal .expression]⟩
  | stmtExpr => ⟨.statement, [.nonterminal .expression]⟩
  | stmtEmpty => ⟨.statement, []⟩
  | exprBinary op =>
    ⟨.expression, [.nonterminal .expression, .terminal (.operator op), .nonterminal .term]⟩
  | exprTerm => ⟨.expression, [.nonterminal .term]⟩
  | termBinary op =>
    ⟨.term, [.nonterminal .term, .terminal (.operator op), .nonterminal .factor]⟩
  | termFactor => ⟨.term, [.nonterminal .factor]⟩
  | factorGroup =>
    ⟨.factor, [.terminal .lparen, .nonterminal .expression, .terminal .rparen]⟩
  | factorNumber => ⟨.factor, [.terminal .number]⟩
  | factorName => ⟨.factor, [.terminal .name]⟩

/-- The rules of the grammar.  Sums and differences are expressions, products and quotients
are terms. -/
def grammarRules : List Rule :=
  emptyProgram ::
    [Production.program, .stmtAssign, .stmtExpr, .stmtEmpty, .exprBinary .add, .exprBinary .sub,
      .exprTerm, .termBinary .mul, .termBinary .div, .termFactor, .factorGroup, .factorNumber,
      .factorName].map Production.rule

/-! ## Rules in words -/

def Nonterminal.text : Nonterminal → String
  | program => "program"
  | statement => "statement"
  | expression => "expression"
  | term => "term"
  | factor => "factor"

/-- A terminal in the notation of the grammar. -/
def TokenKind.text : TokenKind → String
  | number => "NUMBER"
  | name => "NAME"
  | operator op => op.symbol.toString
  | lparen => "("
  | rparen => ")"
  | semicolon => ";"
  | becomes => ":="
  | eof => "EOF"

/-- A rule in the notation of the grammar. -/
def ruleText (r : Rule) : String :=
  let right := r.output.map fun
    | .terminal kind => kind.text
    | .nonterminal n => n.text
  r.input.text ++ " -> " ++ (if right = [] then "<empty>" else " ".intercalate right)

/-- Productions are told of in the words of their rules. -/
theorem Production.text_eq (p : Production) : p.text = ruleText p.rule := by
  cases p with
  | exprBinary op => cases op <;> rfl
  | termBinary op => cases op <;> rfl
  | _ => rfl

end OnePass
