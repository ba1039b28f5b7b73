import OnePass.Lexer

/-!
The lexer at work on bytes.

A byte lexer does not hold the text before it, only the offset at which it stands in the
bytes of its source.  It tells the classes of characters by single bytes and steps over
digits and names byte by byte.  It goes back to the text only to cut a piece out of it, and
where a cut would fall inside a character the result is `none`.
-/

namespace OnePass

/-! ## Bytes -/

namespace Text

/-- The byte at an offset of the source. -/
def byte? (source : String) (n : Nat) : Option UInt8 :=
  source.toUTF8.data[n]?

theorem lt_of_byte? {source : String} {n : Nat} {b : UInt8} (h : byte? source n = some b) :
    n < source.utf8ByteSize :=
  (Array.getElem?_eq_some_iff.1 h).1

end Text

/-- An ASCII blank. -/
def isBlankByte (b : UInt8) : Bool :=
  isBlank (Char.ofUInt8 b)

/-- An ASCII digit. -/
def isDigitByte (b : UInt8) : Bool :=
  (Char.ofUInt8 b).isDigit

/-- An ASCII letter or an underscore. -/
def isNameStartByte (b : UInt8) : Bool :=
  (Char.ofUInt8 b).isAlpha || Char.ofUInt8 b == '_'

/-- An ASCII letter, an ASCII digit or an underscore. -/
def isWordByte (b : UInt8) : Bool :=
  (Char.ofUInt8 b).isAlphanum || Char.ofUInt8 b == '_'

/-- The kind of the token that is the one byte `b`. -/
def punctuatorByte? (b : UInt8) : Option TokenKind :=
  TokenKind.punctuator? (Char.ofUInt8 b)

/-! ## One scan -/

/-- The offset behind the bytes of a class that stand in a row from `pos` on. -/
def passWhile (source : String) (p : UInt8 → Bool) (pos : Nat) : Nat :=
  match h : Text.byte? source pos with
  | some b => if p b then passWhile source p (pos + 1) else pos
  | none => pos
termination_by source.utf8ByteSize - pos
decreasing_by
  have := Text.lt_of_byte? h
  omega

/-- What one scan finds: the characters it skipped, the token, and the place behind it. -/
structure ByteScan where
  skipped : List Skipped
  token : Token
  pos : Nat
  deriving DecidableEq, Repr

/-- What a scan finds, without the text behind it. -/
def Scan.bytewise (s : Scan) : ByteScan :=
  { skipped := s.skipped, token := s.token, pos := s.pos }

/-- The token between two offsets of a source. -/
def cutToken? (source : String) (kind : TokenKind) (start stop : Nat) : Option ByteScan :=
  (Text.slice? source start (stop - start)).map fun text =>
    { skipped := [], token := { kind, text, loc := start }, pos := stop }

/-- Find the next token from an offset on.  At the end of the bytes it is the token that ends
the source. -/
def scanBytes? (source : String) (pos : Nat) : Option ByteScan :=
  match h : Text.byte? source pos with
  | none => some { skipped := [], token := Token.endOfSource source.utf8ByteSize, pos }
  | some b =>
    have := Text.lt_of_byte? h
    if isBlankByte b then scanBytes? source (pos + 1)
    else if isDigitByte b then
      cutToken? source .number pos (passWhile source isDigitByte pos)
    else if isNameStartByte b then
      cutToken? source .name pos (passWhile source isWordByte pos)
    else
      match Text.splitAt? source.toList pos with
      | none => none
      | some (_, back) =>
        if [':', '='].isPrefixOf back then cutToken? source .becomes pos (pos + 2)
        else
          match punctuatorByte? b with
          | some kind => cutToken? source kind pos (pos + 1)
          | none =>
            -- a skipped character is marked in the source as soon as it is found
            match back, Marker.place? source pos with
            | c :: _, some _ =>
              have := c.utf8Size_pos
              (scanBytes? source (pos + c.utf8Size)).map fun later =>
                { later with skipped := { loc := pos, char := c } :: later.skipped }
            | _, _ => none
termination_by source.utf8ByteSize - pos

theorem le_passWhile (source : String) (p : UInt8 → Bool) (pos : Nat) :
    pos ≤ passWhile source p pos := by
  fun_induction passWhile source p pos with
  | case1 pos b h hp ih => omega
  | case2 pos b h hp => exact Nat.le_refl pos
  | case3 pos h => exact Nat.le_refl pos

theorem lt_passWhile {source : String} {p : UInt8 → Bool} {pos : Nat} {b : UInt8}
    (h : Text.byte? source pos = some b) (hb : p b = true) :
    pos < passWhile source p pos := by
  have hle := le_passWhile source p (pos + 1)
  rw [passWhile]
  split
  · next b' h' =>
    rw [h] at h'
    obtain rfl := Option.some.inj h'
    rw [if_pos hb]
    omega
  · next h' => simp [h] at h'

theorem pos_of_cutToken? {source : String} {kind : TokenKind} {start stop : Nat} {s : ByteScan}
    (h : cutToken? source kind start stop = some s) : s.pos = stop := by
  obtain ⟨_, _, rfl⟩ := Option.map_eq_some_iff.1 h
  rfl

/-- Every token but the last one takes a byte away. -/
theorem lt_pos_of_scanBytes? {source : String} {pos : Nat} {s : ByteScan}
    (h : scanBytes? source pos = some s) (hk : s.token.kind ≠ .eof) :
    pos < s.pos ∧ pos < source.utf8ByteSize := by
  fun_induction scanBytes? source pos generalizing s with
  | case1 pos hb =>
    obtain rfl := Option.some.inj h
    exact absurd rfl hk
  | case2 pos b hb hpos hblank ih =>
    have := ih h hk
    omega
  | case3 pos b hb hpos hblank hdigit =>
    have := pos_of_cutToken? h
    have := lt_passWhile (p := isDigitByte) hb hdigit
    omega
  | case4 pos b hb hpos hblank hdigit hname =>
    have hword : isWordByte b = true := by
      simp only [isWordByte, isNameStartByte, Char.isAlphanum, Bool.or_eq_true] at hname ⊢
      exact hname.imp_left .inl
    have := pos_of_cutToken? h
    have := lt_passWhile hb hword
    omega
  | case5 => cases h
  | case6 pos b hb hpos hblank hdigit hname front back hcut hbecomes =>
    have := pos_of_cutToken? h
    omega
  | case7 pos b hb hpos hblank hdigit hname front back hcut hbecomes kind hkind =>
    have := pos_of_cutToken? h
    omega
  | case8 pos b hb hpos hblank hdigit hname front hkind c back marker hm hsize hcut hno ih =>
    obtain ⟨later, hlater, rfl⟩ := Option.map_eq_some_iff.1 h
    have := ih hlater hk
    show pos < later.pos ∧ _
    omega
  | case9 => cases h

/-! ## Byte lexers -/

/-- A lexer somewhere in `source`, at byte `pos`.  `finished` says that the token that ends the
source has been yielded. -/
structure ByteLexer where
  source : String
  pos : Nat
  finished : Bool
  skipped : List Skipped
  deriving DecidableEq, Repr

/-- The place of a lexer, without the text before it. -/
def Lexer.bytewise (l : Lexer) : ByteLexer :=
  { source := l.source, pos := l.pos, finished := l.finished, skipped := l.skipped }

namespace ByteLexer

/-- A lexer before the first token of `source`. -/
def new (source : String) : ByteLexer :=
  { source, pos := 0, finished := false, skipped := [] }

/-- The next token and the lexer behind it.  The token that ends the source is yielded once,
and nothing after it. -/
def next? (l : ByteLexer) : Option (Option Token × ByteLexer) :=
  if l.finished then some (none, l)
  else
    (scanBytes? l.source l.pos).map fun s =>
      (some s.token,
        { l with
          pos := s.pos
          finished := s.token.kind == .eof
          skipped := l.skipped ++ s.skipped })

/-- Bound on the tokens still to come, which each token lowers. -/
def remaining (l : ByteLexer) : Nat :=
  if l.finished then 0 else l.source.utf8ByteSize - l.pos + 1

theorem remaining_lt_of_next? {l m : ByteLexer} {t : Token} (h : l.next? = some (some t, m)) :
    m.remaining < l.remaining := by
  unfold next? at h
  split at h
  · simp at h
  · next hf =>
    obtain ⟨s, hs, he⟩ := Option.map_eq_some_iff.1 h
    obtain ⟨-, rfl⟩ := Prod.mk.inj he
    by_cases hk : s.token.kind = .eof
    · simp [remaining, hf, hk]
    · have := lt_pos_of_scanBytes? hs hk
      simp [remaining, hf, hk]
      omega

/-- All the tokens still to come, and the lexer behind them. -/
def drain? (l : ByteLexer) : Option (List Token × ByteLexer) :=
  match h : l.next? with
  | none => none
  | some (none, last) => some ([], last)
  | some (some t, m) =>
    have := remaining_lt_of_next? h
    m.drain?.map fun (tokens, last) => (t :: tokens, last)
termination_by l.remaining

end ByteLexer

/-- The tokens of a source, the last of which ends it, and the characters skipped between
them. -/
def tokenizeBytes? (source : String) : Option (List Token × List Skipped) :=
  (ByteLexer.new source).drain?.map fun (tokens, last) => (tokens, last.skipped)

end OnePass
