import OnePass.Token.Scan

/-!
A lexer yields the tokens of a source one at a time and can be taken up again at any
point.  It keeps the characters it skipped, so that they can be reported when the
caller sees fit.
-/

namespace OnePass

/-- A lexer somewhere in `source`: `rest` is the text from byte `pos` on.  `finished`
says that the token that ends the source has been yielded. -/
structure Lexer where
  source : String
  pos : Nat
  rest : List Char
  finished : Bool
  skipped : List Skipped
  deriving DecidableEq, Repr

namespace Lexer

/-- A lexer before the first token of `source`. -/
def new (source : String) : Lexer :=
  { source, pos := 0, rest := source.toList, finished := false, skipped := [] }

/-- Go back to the first token and forget the characters skipped. -/
def reset (l : Lexer) : Lexer :=
  new l.source

/-- The lexer after one scan. -/
def scanned (l : Lexer) : Lexer :=
  let s := scan l.pos l.rest
  { l with
    pos := s.pos
    rest := s.rest
    finished := s.token.kind == .eof
    skipped := l.skipped ++ s.skipped }

/-- The next token and the lexer behind it.  The token that ends the source is yielded
once, and nothing after it. -/
def next? (l : Lexer) : Option (Token × Lexer) :=
  if l.finished then none else some ((scan l.pos l.rest).token, l.scanned)

/-- The next token for a reader that may ask once more after the end: it is told of
the end again. -/
def next (l : Lexer) : Token × Lexer :=
  l.next?.getD (Token.endOfSource l.pos, l)

/-- The characters skipped so far, and the lexer without them. -/
def takeSkipped (l : Lexer) : List Skipped × Lexer :=
  (l.skipped, { l with skipped := [] })

/-- Bound on the tokens still to come, which each token lowers. -/
def remaining (l : Lexer) : Nat :=
  if l.finished then 0 else l.rest.length + 1

theorem remaining_scanned_lt {l : Lexer} (h : l.finished = false) :
    l.scanned.remaining < l.remaining := by
  by_cases hk : (scan l.pos l.rest).token.kind = .eof
  · simp [remaining, scanned, h, hk]
  · have := length_rest_scan_lt hk
    simp [remaining, scanned, h, hk, this]

/-- All the tokens still to come, and the lexer behind them. -/
def drain (l : Lexer) : List Token × Lexer :=
  if h : l.finished then ([], l)
  else
    have := remaining_scanned_lt (Bool.eq_false_iff.2 h)
    let (tokens, last) := l.scanned.drain
    ((scan l.pos l.rest).token :: tokens, last)
termination_by l.remaining

/-! ## Equations -/

theorem next?_of_finished {l : Lexer} (h : l.finished = true) : l.next? = none := by
  simp [next?, h]

theorem next?_of_not_finished {l : Lexer} (h : l.finished = false) :
    l.next? = some ((scan l.pos l.rest).token, l.scanned) := by
  simp [next?, h]

theorem drain_of_finished {l : Lexer} (h : l.finished = true) : l.drain = ([], l) := by
  rw [drain]
  simp [h]

theorem drain_of_not_finished {l : Lexer} (h : l.finished = false) :
    l.drain = ((scan l.pos l.rest).token :: l.scanned.drain.1, l.scanned.drain.2) := by
  rw [drain]
  simp [h]

end Lexer

/-- The tokens of a source, the last of which ends it, and the characters skipped
between them. -/
def tokenize (source : String) : List Token × List Skipped :=
  let (tokens, last) := (Lexer.new source).drain
  (tokens, last.skipped)

end OnePass
