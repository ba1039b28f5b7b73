import OnePass.Compile

/-!
What happens in the course of a compilation, event by event.

A run need not carry its events along.  Every action says itself what it tells of, from
its arguments and the context it acts on, and a move tells of what it reads or of the
action that it performs.
-/

namespace OnePass

/-- Something that happens in a compilation. -/
inductive Event
  /-- A character that starts no token is left out. -/
  | skipped (s : Skipped)
  /-- A token is put on the stack. -/
  | shift (token : Token)
  /-- A reduction begins. -/
  | reduce (production : Production)
  /-- A variable gets its slot. -/
  | allocated (name : String) (slot : Nat)
  | emitted (i : Instruction)
  /-- A statement is complete.  Only an expression has a value to tell of. -/
  | statement (number : Nat) (value : Value)
  /-- The whole source is complete. -/
  | compiled (statements slots instructions : Nat)
  deriving DecidableEq, Repr

namespace Event

/-- How much an event matters. -/
inductive Level
  | warn
  | debug
  | trace
  deriving DecidableEq, Repr

def level : Event → Level
  | skipped _ => .warn
  | shift _ | reduce _ | allocated .. | emitted _ => .trace
  | statement .. | compiled .. => .debug

def message : Event → String
  | skipped _ => "skipping unexpected character"
  | shift _ => "shift"
  | reduce _ => "reduce"
  | allocated .. => "allocated slot"
  | emitted _ => "emit"
  | statement .. => "statement compiled"
  | compiled .. => "compiled"

/-- A detail of an event. -/
inductive Detail
  | number (n : Nat)
  | text (s : String)
  deriving DecidableEq, Repr

/-- The details of an event, by name. -/
def details : Event → List (String × Detail)
  | skipped s => [("loc", .number s.loc), ("ch", .text (String.singleton s.char))]
  | shift token => [("token", .text token.text)]
  | reduce production => [("rule", .text production.text)]
  | allocated name slot => [("name", .text name), ("slot", .number slot)]
  | emitted i => [("inst", .text i.render)]
  | statement number value => [("statement", .number number), ("value", .text value.describe)]
  | compiled statements slots instructions =>
    [("statements", .number statements), ("variables", .number slots),
      ("instructions", .number instructions)]

end Event

/-! ## Events of actions -/

namespace Context

/-- What an action tells of, in the order in which it happens.  Checks come first and
tell of nothing when they fail, except that an assignment looks for operands left over
only when it has stored. -/
def told (c : Context) : Action → List Event
  | .literal value => [.emitted (.pushLiteral value)]
  | .read name loc =>
    match c.read name loc with
    | .ok .. => (c.symbols.slot? name).toList.map fun slot => .emitted (.pushSlot slot)
    | .failed .. => []
  | .binary op lhs rhs loc =>
    match c.binary op lhs rhs loc with
    | .ok .. => (Instruction.binary op).map .emitted
    | .failed .. => []
  | .assign name _ =>
    if c.depth < 1 then []
    else
      match c.symbols.slot? name with
      | some slot => [.emitted (.popSlot slot)]
      -- the slot is there before the store that uses it
      | none => [.allocated name (c.symbols.size + 1), .emitted (.popSlot (c.symbols.size + 1))]
  | .finishStatement => if c.depth = 1 then [.emitted Instruction.discard] else []
  | .emptyStatement => []

end Context

/-- The action that a reduction performs, if the handle of the production is on top of
the stack.  A number that is out of range is not pushed. -/
def Production.action? : Production → Stack → Option Context.Action
  | .stmtAssign, .expr v :: .token _ :: .token name :: _ => some (.assign name.text v)
  | .stmtExpr, .expr _ :: _ => some .finishStatement
  | .stmtEmpty, _ => some .emptyStatement
  | .exprBinary op, .term rhs :: .token t :: .expr lhs :: _ =>
    some (.binary op lhs rhs t.loc)
  | .termBinary op, .factor rhs :: .token t :: .term lhs :: _ =>
    some (.binary op lhs rhs t.loc)
  | .factorNumber, .token t :: _ => t.value.map .literal
  | .factorName, .token t :: _ => some (.read t.text t.loc)
  | _, _ => none

/-- The characters that are skipped when the next token is read. -/
def Lexer.skips (l : Lexer) : List Skipped :=
  if l.finished then [] else (scan l.pos l.rest).skipped

/-! ## Events of moves -/

namespace Parse

/-- The events of the action that a reduction performs. -/
def acted (p : Parse) (production : Production) : List Event :=
  (production.action? p.stack).elim [] p.context.told

/-- The event of a statement that a reduction completes. -/
def completed (p : Parse) : Production → List Event
  | .program =>
    match p.stack with
    | _ :: .stmt value :: _ => [.statement (p.statements + 1) value]
    | _ => []
  | _ => []

/-- The events of the next move.  A shift reads the new lookahead before it puts the
old one on the stack, so what is skipped on the way comes first. -/
def moveEvents (p : Parse) : List Event :=
  match p.move with
  | .shift => p.lexer.skips.map Event.skipped ++ [.shift p.lookahead]
  | .reduce production =>
    .reduce production :: (p.acted production ++ p.completed production)
  | .accept | .reject _ => []

/-- The events of all the moves that `run` makes. -/
def events (p : Parse) : List Event :=
  match h : p.step with
  | .next q =>
    have := fuel_lt_of_step h
    p.moveEvents ++ q.events
  | _ => p.moveEvents
termination_by p.fuel

theorem events_of_next {p q : Parse} (h : p.step = .next q) :
    p.events = p.moveEvents ++ q.events := by
  rw [events]
  split <;> simp_all

theorem events_of_ne_next {p : Parse} (h : ∀ q, p.step ≠ .next q) :
    p.events = p.moveEvents := by
  rw [events]
  split <;> simp_all

end Parse

/-- The events of a compilation.  Reading the first lookahead comes before all moves,
and only a success has a last word. -/
def trace (source : String) (options : Options) : List Event :=
  let course := (Lexer.new source).skips.map Event.skipped ++
    (Parse.start (Lexer.new source) (Context.new source)).events
  match compile source options with
  | .ok c => course ++ [.compiled c.statements c.symbols.size c.assembly.instructions.length]
  | .error _ => course

end OnePass
