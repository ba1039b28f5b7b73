import OnePass.Proofs.Walk

/-!
Outlines: what a parse has recognised, as trees.

The stack of a parse holds a value where a tree would hold a phrase.  An outline keeps
the phrases.  It is the list of the sentences that are complete and the fragment of the
sentence being read, and `Advance` says by which decisions it grows and what it grows
into.  No action takes part in that.  Three things follow from it alone: an outline never
loses a token, every text of sentences has decisions that lead through it, and no text
has two trees.
-/

namespace OnePass

/-- What can stand before a phrase of the given level, from the start of its sentence
on. -/
inductive Opening : Level → Type
  | start : Opening .expression
  | assign (target : Token) (ht : target.kind = .name) (sign : Token)
      (hs : sign.kind = .becomes) : Opening .expression
  | group (before : Opening .factor) (opening : Token) (ho : opening.kind = .lparen) :
      Opening .expression
  | ofExpression (before : Opening .expression) : Opening .term
  | sum (before : Opening .expression) (lhs : Phrase .expression) (sign : Token)
      (op : BinaryOp) (h : sign.kind = .operator op) (hop : op.Additive) : Opening .term
  | ofTerm (before : Opening .term) : Opening .factor
  | product (before : Opening .term) (lhs : Phrase .term) (sign : Token) (op : BinaryOp)
      (h : sign.kind = .operator op) (hop : op.Multiplicative) : Opening .factor

namespace Opening

/-- The opening as one of the first factor of the phrase. -/
def operand : {l : Level} → Opening l → Opening .factor
  | .factor, o => o
  | .term, o => .ofTerm o
  | .expression, o => .ofTerm (.ofExpression o)

def yield : {l : Level} → Opening l → List Token
  | _, start => []
  | _, assign target _ sign _ => [target, sign]
  | _, group before opening _ => before.yield ++ [opening]
  | _, ofExpression before => before.yield
  | _, sum before lhs sign _ _ _ => before.yield ++ (lhs.yield ++ [sign])
  | _, ofTerm before => before.yield
  | _, product before lhs sign _ _ _ => before.yield ++ (lhs.yield ++ [sign])

@[simp]
theorem yield_operand {l : Level} (o : Opening l) : o.operand.yield = o.yield := by
  cases l <;> rfl

end Opening

/-- A sentence as far as it has been recognised. -/
inductive Fragment
  /-- An operand has to come. -/
  | opening (o : Opening .factor)
  /-- An operand of one token has come, but may still be the target of an assignment. -/
  | operand (o : Opening .factor) (t : Token) (h : t.kind = .number ∨ t.kind = .name)
  /-- A group has come, but is not yet a factor. -/
  | closed (o : Opening .factor) (opening : Token) (ho : opening.kind = .lparen)
      (inner : Phrase .expression) (closing : Token) (hc : closing.kind = .rparen)
  | phrase {l : Level} (o : Opening l) (p : Phrase l)
  | clause (k : Clause)
  | ended (k : Clause) (semicolon : Token) (h : semicolon.kind = .semicolon)

namespace Fragment

/-- Nothing of the sentence has come. -/
def start : Fragment :=
  opening (.operand .start)

def yield : Fragment → List Token
  | opening o => o.yield
  | operand o t _ => o.yield ++ [t]
  | closed o lparen _ inner closing _ => o.yield ++ lparen :: (inner.yield ++ [closing])
  | phrase o p => o.yield ++ p.yield
  | clause k => k.yield
  | ended k semicolon _ => k.yield ++ [semicolon]

@[simp]
theorem yield_start : start.yield = [] := rfl

end Fragment

/-! ## Growth -/

/-- A tighter operator comes next and takes the term before it as its operand. -/
def TightNext : List Token → Prop
  | [] => False
  | t :: _ => ∃ op, t.kind = .operator op ∧ op.Multiplicative

/-- `Advance f input m g rest` says that the decision `m` is right for the fragment `f` when
`input` comes next, and that it leads to `g` with `rest` to come. -/
inductive Fragment.Advance :
    Fragment → List Token → Decision → Fragment → List Token → Prop
  | shiftOperand {o t rest} (h : t.kind = .number ∨ t.kind = .name) :
      Advance (.opening o) (t :: rest) .shift (.operand o t h) rest
  | shiftOpening {o t rest} (h : t.kind = .lparen) :
      Advance (.opening o) (t :: rest) .shift (.opening (.operand (.group o t h))) rest
  | shiftBecomes {target h sign rest} (ht : target.kind = .name) (hs : sign.kind = .becomes) :
      Advance (.operand (.operand .start) target h) (sign :: rest) .shift
        (.opening (.operand (.assign target ht sign hs))) rest
  | shiftClosing {o opening ho inner closing rest} (hc : closing.kind = .rparen) :
      Advance (.phrase (.group o opening ho) inner) (closing :: rest) .shift
        (.closed o opening ho inner closing hc) rest
  | shiftTight {o : Opening .term} {lhs : Phrase .term} {sign op rest}
      (h : sign.kind = .operator op) (hop : op.Multiplicative) :
      Advance (.phrase o lhs) (sign :: rest) .shift
        (.opening (.operand (.product o lhs sign op h hop))) rest
  | shiftLoose {o : Opening .expression} {lhs : Phrase .expression} {sign op rest}
      (h : sign.kind = .operator op) (hop : op.Additive) :
      Advance (.phrase o lhs) (sign :: rest) .shift
        (.opening (.operand (.sum o lhs sign op h hop))) rest
  | shiftSemicolon {k semicolon rest} (h : semicolon.kind = .semicolon) :
      Advance (.clause k) (semicolon :: rest) .shift (.ended k semicolon h) rest
  | factorNumber {o t h next rest} (ht : t.kind = .number)
      (hn : next.kind.followsOperand = true) :
      Advance (.operand o t h) (next :: rest) (.reduce .factorNumber)
        (.phrase o (.number t ht)) (next :: rest)
  | factorName {o t h next rest} (ht : t.kind = .name)
      (hn : next.kind.followsOperand = true) :
      Advance (.operand o t h) (next :: rest) (.reduce .factorName)
        (.phrase o (.name t ht)) (next :: rest)
  | factorGroup {o opening ho inner closing hc next rest}
      (hn : next.kind.followsOperand = true) :
      Advance (.closed o opening ho inner closing hc) (next :: rest) (.reduce .factorGroup)
        (.phrase o (.group opening ho inner closing hc)) (next :: rest)
  | termFactor {o f input} :
      Advance (.phrase (.ofTerm o) f) input (.reduce .termFactor)
        (.phrase o (.ofFactor f)) input
  | termBinary {o lhs sign op h hop f input} :
      Advance (.phrase (.product o lhs sign op h hop) f) input (.reduce (.termBinary op))
        (.phrase o (.product lhs sign op h hop f)) input
  | exprTerm {o t input} (hn : ¬ TightNext input) :
      Advance (.phrase (.ofExpression o) t) input (.reduce .exprTerm)
        (.phrase o (.ofTerm t)) input
  | exprBinary {o lhs sign op h hop t input} (hn : ¬ TightNext input) :
      Advance (.phrase (.sum o lhs sign op h hop) t) input (.reduce (.exprBinary op))
        (.phrase o (.sum lhs sign op h hop t)) input
  | stmtExpr {e semicolon rest} (h : semicolon.kind = .semicolon) :
      Advance (.phrase .start e) (semicolon :: rest) (.reduce .stmtExpr)
        (.clause (.expression e)) (semicolon :: rest)
  | stmtAssign {target ht sign hs e semicolon rest} (h : semicolon.kind = .semicolon) :
      Advance (.phrase (.assign target ht sign hs) e) (semicolon :: rest)
        (.reduce .stmtAssign) (.clause (.assign target ht sign hs e)) (semicolon :: rest)
  | stmtEmpty {semicolon rest} (h : semicolon.kind = .semicolon) :
      Advance .start (semicolon :: rest) (.reduce .stmtEmpty) (.clause .empty)
        (semicolon :: rest)

/-- The sentences that are complete, and the fragment of the one being read. -/
structure Outline where
  complete : List Sentence := []
  fragment : Fragment := .start

namespace Outline

def yield (x : Outline) : List Token :=
  sentencesYield x.complete ++ x.fragment.yield

/-- The growth of an outline: that of its fragment, or the completion of a sentence. -/
inductive Advance : Outline → List Token → Decision → Outline → List Token → Prop
  | within {ss f input m g rest} (h : Fragment.Advance f input m g rest) :
      Advance ⟨ss, f⟩ input m ⟨ss, g⟩ rest
  | program {ss k semicolon h input} :
      Advance ⟨ss, .ended k semicolon h⟩ input (.reduce .program)
        ⟨ss ++ [k.sentence semicolon h], .start⟩ input

inductive Advances : Outline → List Token → Outline → List Token → Prop
  | refl (x : Outline) (input : List Token) : Advances x input x input
  | head {x y z : Outline} {input rest last : List Token} {m : Decision}
      (h : Advance x input m y rest) (ht : Advances y rest z last) : Advances x input z last

namespace Advances

theorem single {x y : Outline} {input rest : List Token} {m : Decision}
    (h : Advance x input m y rest) : Advances x input y rest :=
  .head h (.refl y rest)

theorem trans {x y z : Outline} {input rest last : List Token}
    (h : Advances x input y rest) (h' : Advances y rest z last) : Advances x input z last := by
  induction h with
  | refl => exact h'
  | head hstep _ ih => exact .head hstep (ih h')

theorem concat {x y z : Outline} {input rest last : List Token} {m : Decision}
    (h : Advances x input y rest) (h' : Advance y rest m z last) : Advances x input z last :=
  h.trans (.single h')

end Advances

theorem yield_advance {x y : Outline} {input rest : List Token} {m : Decision}
    (h : Advance x input m y rest) : y.yield ++ rest = x.yield ++ input := by
  cases h with
  | within h => cases h <;> simp [yield, Fragment.yield, Opening.yield, Phrase.yield,
      Clause.yield, Fragment.start]
  | program => simp [yield, Fragment.yield, Fragment.start, Opening.yield, sentencesYield]

theorem yield_advances {x y : Outline} {input rest : List Token}
    (h : Advances x input y rest) : y.yield ++ rest = x.yield ++ input := by
  induction h with
  | refl => rfl
  | head hstep _ ih => exact ih.trans (yield_advance hstep)

/-- A sentence is complete when it is reduced to a program, and not before. -/
theorem length_complete_advance {x y : Outline} {input rest : List Token} {m : Decision}
    (h : Advance x input m y rest) :
    y.complete.length =
      if m = .reduce .program then x.complete.length + 1 else x.complete.length := by
  cases h with
  | within h => cases h <;> simp
  | program => simp

end Outline

/-! ## A way through every text of sentences -/

/-- Tokens of the kind can follow a complete phrase of the level. -/
def Level.Follows (l : Level) (k : TokenKind) : Prop :=
  k.followsOperand = true ∧
    (l = .expression → ¬ ∃ op, k = .operator op ∧ op.Multiplicative)

theorem Level.follows_of_followsOperand {l : Level} {k : TokenKind} (hl : l ≠ .expression)
    (h : k.followsOperand = true) : l.Follows k :=
  ⟨h, fun he => absurd he hl⟩

theorem Level.follows_semicolon {l : Level} {t : Token} (h : t.kind = .semicolon) :
    l.Follows t.kind := by
  simp [Level.Follows, h, TokenKind.followsOperand]

namespace Phrase

open Outline (Advances)

/-- A phrase that comes next is recognised as a whole, if what follows it can follow a
phrase of its level. -/
theorem advances {l : Level} (p : Phrase l) (o : Opening l) (ss : List Sentence) {next : Token}
    (hn : l.Follows next.kind) (rest : List Token) :
    Advances ⟨ss, .opening o.operand⟩ (p.yield ++ next :: rest) ⟨ss, .phrase o p⟩
      (next :: rest) := by
  induction p generalizing next rest with
  | number t ht =>
    exact .head (.within (.shiftOperand (.inl ht)))
      (.single (.within (.factorNumber ht hn.1)))
  | name t ht =>
    exact .head (.within (.shiftOperand (.inr ht)))
      (.single (.within (.factorName ht hn.1)))
  | group opening ho inner closing hc ih =>
    have hclose : Level.expression.Follows closing.kind := by
      simp [Level.Follows, hc, TokenKind.followsOperand]
    have hinner := ih (.group o opening ho) hclose (next :: rest)
    rw [yield, List.cons_append, List.append_assoc]
    exact (Advances.head (.within (.shiftOpening ho)) hinner).trans
      (.head (.within (.shiftClosing hc)) (.single (.within (.factorGroup hn.1))))
  | ofFactor f ih =>
    have hfactor := ih (.ofTerm o) (Level.follows_of_followsOperand (by simp) hn.1) rest
    exact hfactor.concat (.within .termFactor)
  | product lhs sign op hs hop rhs ihl ihr =>
    have hsign : Level.term.Follows sign.kind :=
      Level.follows_of_followsOperand (by simp) (by rw [hs]; rfl)
    have hlhs := ihl o hsign (rhs.yield ++ next :: rest)
    have hrhs := ihr (.product o lhs sign op hs hop)
      (Level.follows_of_followsOperand (by simp) hn.1) rest
    rw [yield, List.append_assoc, List.cons_append]
    exact ((hlhs.concat (.within (.shiftTight hs hop))).trans hrhs).concat (.within .termBinary)
  | ofTerm t ih =>
    have hterm := ih (.ofExpression o) (Level.follows_of_followsOperand (by simp) hn.1) rest
    exact hterm.concat (.within (.exprTerm (hn.2 rfl)))
  | sum lhs sign op hs hop rhs ihl ihr =>
    have hsign : Level.expression.Follows sign.kind := by
      rw [hs]
      refine ⟨rfl, ?_⟩
      rintro - ⟨op', hop', htight⟩
      obtain rfl := TokenKind.operator.inj hop'
      cases hop <;> cases htight
    have hlhs := ihl o hsign (rhs.yield ++ next :: rest)
    have hrhs := ihr (.sum o lhs sign op hs hop)
      (Level.follows_of_followsOperand (by simp) hn.1) rest
    rw [yield, List.append_assoc, List.cons_append]
    exact ((hlhs.concat (.within (.shiftLoose hs hop))).trans hrhs).concat
      (.within (.exprBinary (hn.2 rfl)))

end Phrase

theorem Sentence.advances (s : Sentence) (ss : List Sentence) (rest : List Token) :
    Outline.Advances ⟨ss, .start⟩ (s.yield ++ rest) ⟨ss ++ [s], .start⟩ rest := by
  cases s with
  | assign target ht sign hs e semicolon h =>
    have hhead : Outline.Advances ⟨ss, .start⟩ (target :: sign :: (e.yield ++ semicolon :: rest))
        ⟨ss, .opening (.operand (.assign target ht sign hs))⟩ (e.yield ++ semicolon :: rest) :=
      .head (.within (.shiftOperand (.inr ht))) (.single (.within (.shiftBecomes ht hs)))
    have he := e.advances (.assign target ht sign hs) ss (Level.follows_semicolon h) rest
    rw [yield, List.cons_append, List.cons_append, List.append_assoc]
    exact (((hhead.trans he).concat (.within (.stmtAssign h))).concat
      (.within (.shiftSemicolon h))).concat .program
  | expression e semicolon h =>
    have he := e.advances .start ss (Level.follows_semicolon h) rest
    rw [yield, List.append_assoc]
    exact ((he.concat (.within (.stmtExpr h))).concat (.within (.shiftSemicolon h))).concat
      .program
  | empty semicolon h =>
    exact .head (.within (.stmtEmpty h)) (.head (.within (.shiftSemicolon h)) (.single .program))

theorem sentences_advances (ss done : List Sentence) (rest : List Token) :
    Outline.Advances ⟨done, .start⟩ (sentencesYield ss ++ rest) ⟨done ++ ss, .start⟩ rest := by
  induction ss generalizing done with
  | nil =>
    rw [List.append_nil]
    exact .refl _ _
  | cons s more ih =>
    have hmore := ih (done ++ [s])
    rw [List.append_assoc] at hmore
    rw [sentencesYield, List.flatMap_cons, List.append_assoc]
    exact (s.advances done _).trans hmore

/-! ## No text has two trees -/

/-- A fragment grows in at most one way: the kind of the next token tells the constructors
of `Advance` apart. -/
theorem Fragment.Advance.unique {f g g' : Fragment} {input rest rest' : List Token}
    {m m' : Decision} (h : Fragment.Advance f input m g rest)
    (h' : Fragment.Advance f input m' g' rest') : g = g' ∧ rest = rest' := by
  cases h <;> cases h' <;> grind [TokenKind.followsOperand, TightNext]

namespace Outline

theorem Advance.unique {x y y' : Outline} {input rest rest' : List Token} {m m' : Decision}
    (h : Advance x input m y rest) (h' : Advance x input m' y' rest') :
    y = y' ∧ rest = rest' := by
  cases h with
  | within h =>
    cases h' with
    | within h' =>
      obtain ⟨rfl, rfl⟩ := h.unique h'
      exact ⟨rfl, rfl⟩
    | program => cases h
  | program =>
    cases h' with
    | within h' => cases h'
    | program => exact ⟨rfl, rfl⟩

theorem not_advance_start {ss : List Sentence} {y : Outline} {rest : List Token} {m : Decision} :
    ¬ Advance ⟨ss, .start⟩ [] m y rest := by
  intro h
  cases h with
  | within h => cases h

theorem Advances.unique {x : Outline} {a b : List Sentence} {input : List Token}
    (ha : Advances x input ⟨a, .start⟩ []) (hb : Advances x input ⟨b, .start⟩ []) : a = b := by
  generalize hy : (⟨a, .start⟩ : Outline) = y at ha
  generalize hl : ([] : List Token) = last at ha
  induction ha with
  | refl x input =>
    subst hy hl
    cases hb with
    | refl => rfl
    | head h _ => exact absurd h not_advance_start
  | head h _ ih =>
    subst hy hl
    cases hb with
    | refl => exact absurd h not_advance_start
    | head h' hb' =>
      obtain ⟨rfl, rfl⟩ := h.unique h'
      exact ih hb' rfl rfl

end Outline

/-- The grammar is unambiguous: the tokens of a text determine its sentences. -/
theorem sentencesYield_injective {a b : List Sentence}
    (h : sentencesYield a = sentencesYield b) : a = b := by
  have ha := sentences_advances a [] []
  have hb := sentences_advances b [] []
  rw [h] at ha
  exact ha.unique hb

end OnePass
