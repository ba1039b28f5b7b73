import OnePass.Operator
import OnePass.Value
import OnePass.Marker

/-!
Tokens and skipped characters.
-/

namespace OnePass

/-- The kinds of token. -/
inductive TokenKind
  | number
  | name
  | operator (op : BinaryOp)
  | lparen
  | rparen
  | semicolon
  /-- The sign `:=` of an assignment. -/
  | becomes
  /-- The end of the source. -/
  | eof
  deriving DecidableEq, Repr

namespace TokenKind

/-- The operator that a token of this kind stands for. -/
def operator? : TokenKind → Option BinaryOp
  | operator op => some op
  | _ => none

/-- The kind of the token that is the one character `c`. -/
def punctuator? (c : Char) : Option TokenKind :=
  match c with
  | '(' => some lparen
  | ')' => some rparen
  | ';' => some semicolon
  | c => (BinaryOp.ofSymbol? c).map operator

/-- Tokens of this kind are the first of some operand. -/
def startsOperand : TokenKind → Bool
  | number | name | lparen => true
  | _ => false

/-- Tokens of this kind can follow a complete operand. -/
def followsOperand : TokenKind → Bool
  | operator _ | rparen | semicolon => true
  | _ => false

end TokenKind

/-- A token with the text it was read from and the byte offset of that text. -/
structure Token where
  kind : TokenKind
  text : String
  loc : Nat
  deriving DecidableEq, Repr

namespace Token

/-- The token that ends a source of `loc` bytes. -/
def endOfSource (loc : Nat) : Token :=
  { kind := .eof, text := "", loc }

/-- Bytes the token takes in the source. -/
def len (t : Token) : Nat :=
  Text.byteLength t.text.toList

/-- The number that a number token writes, if it is a 64-bit word.  Leading zeros are
free, and tokens of other kinds have no value. -/
def value (t : Token) : Value :=
  match t.kind with
  | .number => Value.ofInt? (Nat.ofDigitChars 10 t.text.toList 0)
  | _ => none

/-- The words for a token in a complaint. -/
def describe (t : Token) : String :=
  match t.kind with
  | .eof => "EOF"
  | _ => t.text

/-- The words for a token of which only kind and place are known.  The text is cut out
of the source, and at the end of the source there is nothing to cut. -/
def describeAt? (source : String) (kind : TokenKind) (loc len : Nat) : Option String :=
  match kind with
  | .eof => some "EOF"
  | _ => Text.slice? source loc len

end Token

/-- A character that starts no token, with the byte offset it was skipped at. -/
structure Skipped where
  loc : Nat
  char : Char
  deriving DecidableEq, Repr

/-- The report of a skipped character of `source`. -/
def Skipped.message (source : String) (s : Skipped) : String :=
  (Marker.place source s.loc).render ++ s!" skipping unexpected character '{s.char}'"

end OnePass
