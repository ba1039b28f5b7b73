import OnePass.Compile

/-!
Sessions: a lexer and a context driven one request at a time.

The two need not belong to one source.  A request that fails keeps what it changed
before it failed, and the session goes on; only a place inside a character ends it.
-/

namespace OnePass

/-- A lexer and a context, kept from request to request. -/
structure Session where
  lexer : Lexer
  context : Context
  deriving DecidableEq, Repr

namespace Session

/-- A session over one source for the tokens and one for the markers. -/
def new (source contextSource : String) : Session :=
  { lexer := Lexer.new source, context := Context.new contextSource }

inductive Request
  /-- Read a token. -/
  | next
  /-- Take the lexer back to the start. -/
  | reset
  /-- Ask for the characters skipped so far. -/
  | skipped
  /-- Take the characters skipped so far away from the lexer. -/
  | takeSkipped
  /-- Ask for the tokens still to come, and leave the lexer where it is. -/
  | lookForward
  /-- Parse what the lexer still yields. -/
  | parse
  /-- Act on the context. -/
  | act (action : Context.Action)
  /-- Make a function of the code emitted, and begin a new context. -/
  | finish (options : Options)
  deriving DecidableEq, Repr

inductive Reply
  | done
  | token (t : Option Token)
  | skipped (characters : List Skipped)
  | tokens (ts : List Token) (characters : List Skipped)
  | statements (n : Nat)
  | value (v : Value)
  | function (assembly : Assembly) (symbols : SymbolTable)
  deriving DecidableEq, Repr

/-- Answer a request. -/
def answer (s : Session) : Request → Outcome Session Reply
  | .next =>
    match s.lexer.next? with
    | some (t, lexer) => .ok (.token (some t)) { s with lexer }
    | none => .ok (.token none) s
  | .reset => .ok .done { s with lexer := s.lexer.reset }
  | .skipped => .ok (.skipped s.lexer.skipped) s
  | .takeSkipped =>
    let (characters, lexer) := s.lexer.takeSkipped
    .ok (.skipped characters) { s with lexer }
  | .lookForward =>
    let (ts, last) := s.lexer.drain
    .ok (.tokens ts last.skipped) s
  | .parse =>
    match OnePass.parse s.lexer s.context with
    | .ok n (lexer, context) => .ok (.statements n) { lexer, context }
    | .failed f (lexer, context) => .failed f { lexer, context }
  | .act action =>
    match s.context.perform action with
    | .ok (some v) context => .ok (.value v) { s with context }
    | .ok none context => .ok .done { s with context }
    | .failed f context => .failed f { s with context }
  | .finish options =>
    let after := { s with context := Context.new s.context.source }
    match s.context.finish options with
    | .ok (assembly, symbols) => .ok (.function assembly symbols) after
    | .error e => .failed (.error e) after

/-- The answer to one request: a reply or an error, the session after it, and the code
that the request added to the context. -/
structure Report where
  reply : Except CompileError Reply
  after : Session
  emitted : List Instruction

/-- Answer requests in order.  `none` stands for a request that ends the session,
because it asks for a place inside a character. -/
def run (s : Session) : List Request → List (Option Report)
  | [] => []
  | r :: rs =>
    let report (reply : Except CompileError Reply) (after : Session) : Report :=
      { reply, after, emitted := after.context.body.drop s.context.body.length }
    match s.answer r with
    | .ok reply after => some (report (.ok reply) after) :: after.run rs
    | .failed (.error e) after => some (report (.error e) after) :: after.run rs
    | .failed .offBoundary _ => [none]

end Session
end OnePass
