import OnePass.Token

/-!
Scanning: the next token of a text.

A token is the longest piece of its class that starts at the first character that
is neither blank nor foreign to the language.  `scan` goes forward to that
character, one at a time, and records the foreign ones.
-/

namespace OnePass

/-! ## Character classes -/

/-- Blanks separate tokens and leave no record.  Form feed is one of them; vertical
tab is not. -/
def isBlank (c : Char) : Bool :=
  c == ' ' || c == '\t' || c == '\n' || c == '\x0c' || c == '\r'

/-- Characters that a name starts with. -/
def isNameStart (c : Char) : Bool :=
  c.isAlpha || c == '_'

/-- Characters that a name goes on with. -/
def isNameChar (c : Char) : Bool :=
  c.isAlphanum || c == '_'

/-! ## Lexemes -/

/-- A token at the front of a text: its kind, its characters and the text behind
it. -/
structure Lexeme where
  kind : TokenKind
  word : List Char
  rest : List Char
  deriving DecidableEq, Repr

/-- The token that starts at the first character of a text, if there is one. -/
def lexeme? : List Char → Option Lexeme
  | [] => none
  | ':' :: '=' :: rest => some ⟨.becomes, [':', '='], rest⟩
  | c :: cs =>
    if c.isDigit then
      some ⟨.number, c :: cs.takeWhile Char.isDigit, cs.dropWhile Char.isDigit⟩
    else if isNameStart c then
      some ⟨.name, c :: cs.takeWhile isNameChar, cs.dropWhile isNameChar⟩
    else
      (TokenKind.punctuator? c).map fun kind => ⟨kind, [c], cs⟩

/-- Where `:=` does not stand, the first character decides. -/
theorem lexeme?_cons {c : Char} {cs : List Char} (h : ¬ [':', '='] <+: c :: cs) :
    lexeme? (c :: cs) =
      if c.isDigit then
        some ⟨.number, c :: cs.takeWhile Char.isDigit, cs.dropWhile Char.isDigit⟩
      else if isNameStart c then
        some ⟨.name, c :: cs.takeWhile isNameChar, cs.dropWhile isNameChar⟩
      else (TokenKind.punctuator? c).map fun kind => ⟨kind, [c], cs⟩ := by
  rw [lexeme?]
  rintro rest rfl rfl
  exact h ⟨rest, rfl⟩

/-- A lexeme loses nothing of the text. -/
theorem eq_append_of_lexeme? {cs : List Char} {l : Lexeme} (h : lexeme? cs = some l) :
    cs = l.word ++ l.rest := by
  unfold lexeme? at h
  split at h
  · simp at h
  · obtain rfl := Option.some.inj h
    rfl
  · split at h
    · obtain rfl := Option.some.inj h
      simp
    · split at h
      · obtain rfl := Option.some.inj h
        simp
      · obtain ⟨_, _, rfl⟩ := Option.map_eq_some_iff.1 h
        rfl

theorem word_ne_nil_of_lexeme? {cs : List Char} {l : Lexeme} (h : lexeme? cs = some l) :
    l.word ≠ [] := by
  unfold lexeme? at h
  split at h
  · simp at h
  · obtain rfl := Option.some.inj h
    simp
  · split at h
    · obtain rfl := Option.some.inj h
      simp
    · split at h
      · obtain rfl := Option.some.inj h
        simp
      · obtain ⟨_, _, rfl⟩ := Option.map_eq_some_iff.1 h
        simp

theorem kind_ne_eof_of_lexeme? {cs : List Char} {l : Lexeme} (h : lexeme? cs = some l) :
    l.kind ≠ .eof := by
  unfold lexeme? at h
  split at h
  · simp at h
  · obtain rfl := Option.some.inj h
    simp
  · split at h
    · obtain rfl := Option.some.inj h
      simp
    · split at h
      · obtain rfl := Option.some.inj h
        simp
      · obtain ⟨k, hk, rfl⟩ := Option.map_eq_some_iff.1 h
        unfold TokenKind.punctuator? at hk
        split at hk
        all_goals try (obtain rfl := Option.some.inj hk; simp)
        obtain ⟨_, _, rfl⟩ := Option.map_eq_some_iff.1 hk
        simp

theorem length_rest_lt_of_lexeme? {cs : List Char} {l : Lexeme} (h : lexeme? cs = some l) :
    l.rest.length < cs.length := by
  have hw := List.length_pos_iff.2 (word_ne_nil_of_lexeme? h)
  rw [eq_append_of_lexeme? h, List.length_append]
  omega

/-! ## The next token -/

/-- What one scan finds: the characters it skipped, the token, and the place and the
text behind the token. -/
structure Scan where
  skipped : List Skipped
  token : Token
  pos : Nat
  rest : List Char
  deriving DecidableEq, Repr

/-- Find the next token of a text that starts at byte `pos`.  At the end of the text
it is the token that ends the source. -/
def scan (pos : Nat) : List Char → Scan
  | [] => { skipped := [], token := Token.endOfSource pos, pos, rest := [] }
  | c :: cs =>
    if isBlank c then scan (pos + c.utf8Size) cs
    else
      match lexeme? (c :: cs) with
      | some l =>
        { skipped := []
          token := { kind := l.kind, text := String.ofList l.word, loc := pos }
          pos := pos + Text.byteLength l.word
          rest := l.rest }
      | none =>
        let later := scan (pos + c.utf8Size) cs
        { later with skipped := { loc := pos, char := c } :: later.skipped }

theorem length_rest_scan_le (pos : Nat) (cs : List Char) :
    (scan pos cs).rest.length ≤ cs.length := by
  fun_induction scan pos cs with
  | case1 => simp
  | case2 pos c cs hb ih => exact Nat.le_succ_of_le ih
  | case3 pos c cs hb l hl => exact Nat.le_of_lt (length_rest_lt_of_lexeme? hl)
  | case4 pos c cs hb hl later ih => exact Nat.le_succ_of_le ih

/-- Every token but the last one takes a character away. -/
theorem length_rest_scan_lt {pos : Nat} {cs : List Char}
    (h : (scan pos cs).token.kind ≠ .eof) : (scan pos cs).rest.length < cs.length := by
  fun_induction scan pos cs with
  | case1 => simp [Token.endOfSource] at h
  | case2 pos c cs hb ih => exact Nat.lt_succ_of_lt (ih h)
  | case3 pos c cs hb l hl => exact length_rest_lt_of_lexeme? hl
  | case4 pos c cs hb hl later ih => exact Nat.lt_succ_of_lt (ih h)

end OnePass
