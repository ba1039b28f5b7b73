import OnePass.Lexer
import OnePass.Parse.Decision

/-!
Parses: moves in a row until the source is accepted or refused.

A parse reads its tokens from a lexer and acts on a context, and both are given back
in the end, also when it fails.
-/

namespace OnePass

/-- A parse in progress.  `lookahead` has been read from the lexer but is not on the
stack yet. -/
structure Parse where
  lexer : Lexer
  context : Context
  lookahead : Token
  stack : Stack := []
  /-- Statements recognised so far, the empty ones included. -/
  statements : Nat := 0
  deriving DecidableEq, Repr

namespace Parse

/-- A parse that goes on where the lexer and the context stand. -/
def start (lexer : Lexer) (context : Context) : Parse :=
  { lexer := lexer.next.2, context, lookahead := lexer.next.1 }

/-- The next move. -/
def move (p : Parse) : Decision :=
  Decision.next p.stack p.lookahead

/-- The parse with the lookahead on the stack and a new one read. -/
def shifted (p : Parse) : Parse :=
  { p with
    lexer := p.lexer.next.2
    lookahead := p.lexer.next.1
    stack := .token p.lookahead :: p.stack }

/-- Reduce by a production. -/
def reduced (p : Parse) (production : Production) : Outcome Parse Unit :=
  match Stack.reduce p.lexer.source p.context production p.stack with
  | .ok stack context =>
    .ok () { p with
      context
      stack
      statements := if production = .program then p.statements + 1 else p.statements }
  | .failed f context => .failed f { p with context }

/-- What one move leads to. -/
inductive Step
  | next (p : Parse)
  | accept
  | failed (f : Failure) (p : Parse)
  deriving DecidableEq, Repr

/-- Make one move.  A lookahead that is refused is marked in the source it was read
from. -/
def step (p : Parse) : Step :=
  match p.move with
  | .shift => .next p.shifted
  | .reduce production =>
    match p.reduced production with
    | .ok () q => .next q
    | .failed f q => .failed f q
  | .accept => .accept
  | .reject complaint =>
    .failed
      (Failure.marking p.lexer.source p.lookahead.loc (CompileError.malformed · complaint)) p

/-! ## Termination

Each token brings a load on the stack that reductions wear off.  A shift takes more
off the text to come than it puts on the stack. -/

end Parse

/-- Reductions that a symbol can still go through on its own, and one for the end of
the statement. -/
def Symbol.load : Symbol → Nat
  | token _ => 4
  | factor _ => 3
  | term _ => 2
  | expr _ => 1
  | stmt _ => 0

namespace Stack

/-- The load of all the symbols on a stack. -/
def load : Stack → Nat
  | [] => 0
  | s :: below => s.load + load below

@[simp]
theorem load_nil : load [] = 0 := rfl

@[simp]
theorem load_cons (s : Symbol) (below : Stack) : load (s :: below) = s.load + load below := rfl

/-- The load, where an empty stack counts one for the empty statement it may turn
into. -/
def weight (stack : Stack) : Nat :=
  if stack = [] then 1 else load stack

@[simp]
theorem weight_nil : weight [] = 1 := rfl

@[simp]
theorem weight_cons (s : Symbol) (stack : Stack) :
    weight (s :: stack) = s.load + load stack := by
  simp [weight]

theorem load_le_weight (stack : Stack) : load stack ≤ weight stack := by
  cases stack <;> simp

theorem weight_le_load_add_one (stack : Stack) : weight stack ≤ load stack + 1 := by
  cases stack <;> simp

/-- Every reduction makes the stack lighter. -/
theorem weight_reduce_lt {source : String} {c d : Context} {production : Production}
    {stack after : Stack} (h : reduce source c production stack = .ok after d)
    (hempty : production = .stmtEmpty → stack = []) : weight after < weight stack := by
  unfold reduce at h
  split at h
  case h_1 below =>
    obtain ⟨rfl, rfl⟩ := Outcome.ok.inj h
    have := weight_le_load_add_one below
    simp only [weight_cons, load_cons, Symbol.load]
    omega
  case h_4 =>
    obtain ⟨_, _, rfl⟩ := Outcome.map_eq_ok_iff.1 h
    simp [hempty rfl, Symbol.load]
  case h_10 =>
    split at h
    · obtain ⟨_, _, rfl⟩ := Outcome.map_eq_ok_iff.1 h
      simp [Symbol.load]
    · cases h
  case h_12 => cases h
  all_goals
    first
    | obtain ⟨_, _, rfl⟩ := Outcome.map_eq_ok_iff.1 h
    | obtain ⟨rfl, rfl⟩ := Outcome.ok.inj h
    simp only [weight_cons, load_cons, Symbol.load]
    omega

end Stack

namespace Parse

/-- A lookahead counts as long as it can be put on the stack. -/
def count (lookahead : Token) : Nat :=
  if lookahead.kind = .eof then 0 else 1

/-- A bound on the moves still to come. -/
def fuel (p : Parse) : Nat :=
  5 * (p.lexer.rest.length + count p.lookahead) + p.stack.weight

/-- A new lookahead is paid for by the text it takes from the lexer. -/
theorem length_rest_next_le (l : Lexer) :
    l.next.2.rest.length + count l.next.1 ≤ l.rest.length := by
  cases hf : l.finished with
  | true => simp [Lexer.next, Lexer.next?, hf, count, Token.endOfSource]
  | false =>
    have hle := length_rest_scan_le l.pos l.rest
    have hnext : l.next = ((scan l.pos l.rest).token, l.scanned) := by
      simp [Lexer.next, Lexer.next?_of_not_finished hf]
    rw [hnext]
    by_cases hk : (scan l.pos l.rest).token.kind = .eof
    · simp [count, hk, Lexer.scanned, hle]
    · have := length_rest_scan_lt hk
      simp only [count, if_neg hk, Lexer.scanned]
      omega

theorem fuel_shifted_lt {p : Parse} (h : p.lookahead.kind ≠ .eof) :
    p.shifted.fuel < p.fuel := by
  have hnext := length_rest_next_le p.lexer
  have hload := p.stack.load_le_weight
  have hcount : count p.lookahead = 1 := if_neg h
  simp only [fuel, shifted, hcount, Stack.weight_cons, Symbol.load]
  omega

theorem fuel_lt_of_step {p q : Parse} (h : p.step = .next q) : q.fuel < p.fuel := by
  unfold step at h
  split at h
  · next hm =>
    obtain rfl := Step.next.inj h
    exact fuel_shifted_lt (Decision.kind_ne_eof_of_next_eq_shift hm)
  · next production hm =>
    split at h
    · next hr =>
      obtain rfl := Step.next.inj h
      unfold reduced at hr
      split at hr
      · next hs =>
        obtain ⟨_, rfl⟩ := Outcome.ok.inj hr
        have := Stack.weight_reduce_lt hs fun he =>
          Decision.eq_nil_of_next_eq_stmtEmpty (he ▸ hm)
        simp only [fuel]
        omega
      · cases hr
    · cases h
  · cases h
  · cases h

/-- Make moves until the source is accepted or refused. -/
def run (p : Parse) : Outcome Parse Unit :=
  match h : p.step with
  | .next q =>
    have := fuel_lt_of_step h
    q.run
  | .accept => .ok () p
  | .failed f q => .failed f q
termination_by p.fuel

theorem run_of_next {p q : Parse} (h : p.step = .next q) : p.run = q.run := by
  rw [run]
  split <;> simp_all

theorem run_of_accept {p : Parse} (h : p.step = .accept) : p.run = .ok () p := by
  rw [run]
  split <;> simp_all

theorem run_of_failed {p q : Parse} {f : Failure} (h : p.step = .failed f q) :
    p.run = .failed f q := by
  rw [run]
  split <;> simp_all

end Parse

/-- Parse what the lexer still yields and act on the context.  The result is the number
of statements. -/
def parse (lexer : Lexer) (context : Context) : Outcome (Lexer × Context) Nat :=
  match (Parse.start lexer context).run with
  | .ok () p => .ok p.statements (p.lexer, p.context)
  | .failed f p => .failed f (p.lexer, p.context)

end OnePass
