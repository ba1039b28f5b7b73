import OnePass.ByteLexer
import OnePass.Proofs.Lexing

/-!
Scanning bytes is scanning characters.

A class of ASCII characters is told by any byte of a character, since the bytes of a longer
character are in no such class.  So a lexer that reads bytes decides at the first byte of each
character as one that reads characters, and every byte by which it goes on is a character of
its own.  From a boundary it therefore comes to a boundary again: all its cuts can be made, and
it finds what `scan` finds.
-/

namespace OnePass

/-! ## Bytes of a text -/

namespace Text

/-- The bytes that the characters take in UTF-8. -/
def bytes (cs : List Char) : List UInt8 :=
  cs.flatMap String.utf8EncodeChar

@[simp]
theorem bytes_cons (c : Char) (cs : List Char) :
    bytes (c :: cs) = String.utf8EncodeChar c ++ bytes cs := rfl

@[simp]
theorem bytes_append (a b : List Char) : bytes (a ++ b) = bytes a ++ bytes b :=
  List.flatMap_append

theorem length_bytes (cs : List Char) : (bytes cs).length = byteLength cs := by
  induction cs with
  | nil => rfl
  | cons c cs ih => rw [bytes_cons, List.length_append, String.length_utf8EncodeChar, ih,
      byteLength_cons]

theorem data_toUTF8 (source : String) : source.toUTF8.data = (bytes source.toList).toArray := by
  show source.toByteArray.data = _
  rw [← String.utf8Encode_toList]
  exact List.data_toByteArray

theorem utf8ByteSize_eq (source : String) : source.utf8ByteSize = byteLength source.toList := by
  show source.toUTF8.data.size = _
  rw [data_toUTF8, List.size_toArray, length_bytes]

theorem byte?_eq (source : String) (n : Nat) : byte? source n = (bytes source.toList)[n]? := by
  rw [byte?, data_toUTF8, List.getElem?_toArray]

variable {source : String} {front back : List Char}

/-- The byte at a boundary is the first of the text behind it. -/
theorem byte?_byteLength (hs : source.toList = front ++ back) :
    byte? source (byteLength front) = (bytes back).head? := by
  rw [byte?_eq, hs, bytes_append, List.getElem?_append_right (Nat.le_of_eq (length_bytes front)),
    length_bytes, Nat.sub_self, List.head?_eq_getElem?]

theorem exists_byte? {c : Char} (hs : source.toList = front ++ c :: back) :
    ∃ b ∈ String.utf8EncodeChar c, byte? source (byteLength front) = some b := by
  have hne : String.utf8EncodeChar c ≠ [] := by
    rw [← List.length_pos_iff, String.length_utf8EncodeChar]
    exact c.utf8Size_pos
  obtain ⟨b, more, hcode⟩ := List.exists_cons_of_ne_nil hne
  refine ⟨b, hcode ▸ List.mem_cons_self, ?_⟩
  rw [byte?_byteLength hs, bytes_cons, hcode]
  rfl

theorem exists_of_byte?_after {b : UInt8} (hs : source.toList = front ++ back)
    (hb : byte? source (byteLength front) = some b) :
    ∃ c ∈ back.head?, b ∈ String.utf8EncodeChar c := by
  cases back with
  | nil =>
    rw [byte?_byteLength hs] at hb
    cases hb
  | cons c back =>
    obtain ⟨b', hmem, hb'⟩ := exists_byte? hs
    rw [hb'] at hb
    obtain rfl := Option.some.inj hb
    exact ⟨c, rfl, hmem⟩

end Text

/-! ## Classes of bytes -/

theorem isAlpha_iff_toNat {c : Char} :
    c.isAlpha = true ↔ 65 ≤ c.toNat ∧ c.toNat ≤ 90 ∨ 97 ≤ c.toNat ∧ c.toNat ≤ 122 := by
  show (decide ('A'.val ≤ c.val ∧ c.val ≤ 'Z'.val) ||
    (decide ('a'.val ≤ c.val) && decide (c.val ≤ 'z'.val))) = true ↔ _
  simp only [Bool.or_eq_true, Bool.and_eq_true, decide_eq_true_eq, UInt32.le_iff_toNat_le]
  rfl

theorem isNameChar_iff {c : Char} :
    isNameChar c = true ↔ c.isDigit = true ∨ isNameStart c = true := by
  simp only [isNameChar, isNameStart, Char.isAlphanum, Bool.or_eq_true]
  rw [or_assoc, or_left_comm]

theorem toNat_lt_of_isNameChar {c : Char} (h : isNameChar c = true) : c.toNat < 128 := by
  simp only [isNameChar, Char.isAlphanum, Bool.or_eq_true, isAlpha_iff_toNat, beq_iff_eq] at h
  rcases h with (h | h) | rfl
  · omega
  · have h9 : c.toNat ≤ 57 := (Char.isDigit_iff_toNat.1 h).2
    omega
  · decide

theorem toNat_lt_of_isDigit {c : Char} (h : c.isDigit = true) : c.toNat < 128 :=
  toNat_lt_of_isNameChar (isNameChar_iff.2 (.inl h))

theorem toNat_lt_of_isBlank {c : Char} (h : isBlank c = true) : c.toNat < 128 := by
  simp only [isBlank, Bool.or_eq_true, beq_iff_eq, or_assoc] at h
  rcases h with rfl | rfl | rfl | rfl | rfl <;> decide

theorem punctuator?_of_le_toNat {c : Char} (h : 128 ≤ c.toNat) :
    TokenKind.punctuator? c = none := by
  unfold TokenKind.punctuator? BinaryOp.ofSymbol?
  split
  case h_4 =>
    split
    case h_5 => rfl
    all_goals exact absurd h (by decide)
  all_goals exact absurd h (by decide)

theorem utf8Size_of_toNat_lt {c : Char} (h : c.toNat < 128) : c.utf8Size = 1 := by
  rw [Char.utf8Size_eq_one_iff, UInt32.le_iff_toNat_le]
  exact Nat.le_of_lt_succ h

theorem utf8Size_of_punctuator? {c : Char} {kind : TokenKind}
    (h : TokenKind.punctuator? c = some kind) : c.utf8Size = 1 := by
  refine utf8Size_of_toNat_lt (Nat.lt_of_not_le fun hle => ?_)
  rw [punctuator?_of_le_toNat hle] at h
  cases h

/-- A byte of ASCII is a character of its own, and no part of another one. -/
theorem ofUInt8_of_mem_utf8EncodeChar {c : Char} {b : UInt8}
    (h : b ∈ String.utf8EncodeChar c) (hb : b.toNat < 128) : Char.ofUInt8 b = c := by
  simp only [String.utf8EncodeChar] at h
  split at h
  · obtain rfl := List.mem_singleton.1 h
    refine Char.toNat_inj.1 ?_
    show (UInt8.ofNat c.val.toNat).toUInt32.toNat = c.val.toNat
    rw [UInt8.toNat_toUInt32, UInt8.toNat_ofNat']
    omega
  · -- the bytes of a longer code are all out of range
    have hlarge : 128 ≤ b.toNat := by
      split at h
      · simp only [List.mem_cons, List.not_mem_nil, or_false] at h
        rcases h with rfl | rfl <;> rw [UInt8.toNat_ofNat'] <;> omega
      · split at h
        · simp only [List.mem_cons, List.not_mem_nil, or_false] at h
          rcases h with rfl | rfl | rfl <;> rw [UInt8.toNat_ofNat'] <;> omega
        · simp only [List.mem_cons, List.not_mem_nil, or_false] at h
          rcases h with rfl | rfl | rfl | rfl <;> rw [UInt8.toNat_ofNat'] <;> omega
    omega

theorem toNat_lt_of_mem_utf8EncodeChar {c : Char} {b : UInt8}
    (h : b ∈ String.utf8EncodeChar c) (hc : c.toNat < 128) : b.toNat < 128 := by
  rw [String.utf8EncodeChar_eq_singleton (utf8Size_of_toNat_lt hc)] at h
  obtain rfl := List.mem_singleton.1 h
  show c.toNat % 256 < 128
  omega

/-- What holds of ASCII characters alone is told by any byte of a character. -/
theorem apply_ofUInt8 {α : Type} {f : Char → α} {other : α}
    (hf : ∀ c : Char, 128 ≤ c.toNat → f c = other) {c : Char} {b : UInt8}
    (h : b ∈ String.utf8EncodeChar c) : f (Char.ofUInt8 b) = f c := by
  by_cases hb : b.toNat < 128
  · rw [ofUInt8_of_mem_utf8EncodeChar h hb]
  · have hlarge : 128 ≤ c.toNat :=
      Nat.le_of_not_lt fun hc => hb (toNat_lt_of_mem_utf8EncodeChar h hc)
    have hbyte : (Char.ofUInt8 b).toNat = b.toNat := UInt8.toNat_toUInt32 b
    rw [hf _ (by omega), hf c hlarge]

section

variable {c : Char} {b : UInt8}

theorem class_ofUInt8 {p : Char → Bool} (hp : ∀ c, p c = true → c.toNat < 128)
    (h : b ∈ String.utf8EncodeChar c) : p (Char.ofUInt8 b) = p c :=
  apply_ofUInt8 (fun d hd => Bool.eq_false_iff.2 fun hpd => Nat.not_lt.2 hd (hp d hpd)) h

theorem isBlankByte_eq (h : b ∈ String.utf8EncodeChar c) : isBlankByte b = isBlank c :=
  class_ofUInt8 (fun _ => toNat_lt_of_isBlank) h

theorem isDigitByte_eq (h : b ∈ String.utf8EncodeChar c) : isDigitByte b = c.isDigit :=
  class_ofUInt8 (fun _ => toNat_lt_of_isDigit) h

theorem isNameStartByte_eq (h : b ∈ String.utf8EncodeChar c) :
    isNameStartByte b = isNameStart c :=
  class_ofUInt8 (p := isNameStart)
    (fun _ hs => toNat_lt_of_isNameChar (isNameChar_iff.2 (.inr hs))) h

theorem isWordByte_eq (h : b ∈ String.utf8EncodeChar c) : isWordByte b = isNameChar c :=
  class_ofUInt8 (p := isNameChar) (fun _ => toNat_lt_of_isNameChar) h

theorem punctuatorByte?_eq (h : b ∈ String.utf8EncodeChar c) :
    punctuatorByte? b = TokenKind.punctuator? c :=
  apply_ofUInt8 (fun _ => punctuator?_of_le_toNat) h

end

/-! ## One scan -/

section

variable {source : String} {front cs : List Char}

theorem passWhile_of_byte? {p : UInt8 → Bool} {pos : Nat} {b : UInt8}
    (h : Text.byte? source pos = some b) :
    passWhile source p pos = if p b then passWhile source p (pos + 1) else pos := by
  rw [passWhile]
  split <;> simp_all

/-- Bytes of a class of ASCII characters are passed as the characters are. -/
theorem passWhile_eq {p : Char → Bool} {q : UInt8 → Bool} (hp : ∀ c, p c = true → c.toNat < 128)
    (hq : ∀ {c b}, b ∈ String.utf8EncodeChar c → q b = p c) (hs : source.toList = front ++ cs) :
    passWhile source q (Text.byteLength front) =
      Text.byteLength front + Text.byteLength (cs.takeWhile p) := by
  induction cs generalizing front with
  | nil =>
    have hend : Text.byte? source (Text.byteLength front) = none := Text.byte?_byteLength hs
    rw [passWhile]
    split <;> simp_all
  | cons c cs ih =>
    obtain ⟨b, hmem, hb⟩ := Text.exists_byte? hs
    rw [passWhile_of_byte? hb, hq hmem]
    by_cases hc : p c = true
    · have hsize := utf8Size_of_toNat_lt (hp c hc)
      have hnext := @ih (front ++ [c]) (by simpa using hs)
      simp only [Text.byteLength_append, Text.byteLength_cons, Text.byteLength_nil, hsize] at hnext
      rw [if_pos hc, hnext, List.takeWhile_cons_of_pos hc, Text.byteLength_cons, hsize,
        Nat.add_assoc]
    · rw [if_neg hc, List.takeWhile_cons_of_neg hc]
      rfl

/-- A token can be cut out between two boundaries. -/
theorem cutToken?_eq {word back : List Char} (hs : source.toList = front ++ word ++ back)
    (kind : TokenKind) :
    cutToken? source kind (Text.byteLength front)
        (Text.byteLength front + Text.byteLength word) =
      some ⟨[], ⟨kind, String.ofList word, Text.byteLength front⟩,
        Text.byteLength front + Text.byteLength word⟩ := by
  have hslice := FoundAt.slice? ⟨front, back, hs, rfl⟩
  rw [cutToken?, Nat.add_sub_cancel_left, hslice]
  rfl

theorem scanBytes?_of_byte?_eq_none {pos : Nat} (h : Text.byte? source pos = none) :
    scanBytes? source pos = some ⟨[], Token.endOfSource source.utf8ByteSize, pos⟩ := by
  rw [scanBytes?]
  split <;> simp_all

/-- In front of a character the first byte decides what the character would. -/
theorem scanBytes?_cons {c : Char} (hs : source.toList = front ++ c :: cs) :
    scanBytes? source (Text.byteLength front) =
      if isBlank c then scanBytes? source (Text.byteLength front + 1)
      else if c.isDigit then
        cutToken? source .number (Text.byteLength front)
          (passWhile source isDigitByte (Text.byteLength front))
      else if isNameStart c then
        cutToken? source .name (Text.byteLength front)
          (passWhile source isWordByte (Text.byteLength front))
      else if [':', '='].isPrefixOf (c :: cs) then
        cutToken? source .becomes (Text.byteLength front) (Text.byteLength front + 2)
      else
        match TokenKind.punctuator? c with
        | some kind =>
          cutToken? source kind (Text.byteLength front) (Text.byteLength front + 1)
        | none =>
          (scanBytes? source (Text.byteLength front + c.utf8Size)).map fun later =>
            { later with skipped := ⟨Text.byteLength front, c⟩ :: later.skipped } := by
  obtain ⟨b, hmem, hb⟩ := Text.exists_byte? hs
  have hcut : Text.splitAt? source.toList (Text.byteLength front) = some (front, c :: cs) := by
    rw [hs, Text.splitAt?_append]
  obtain ⟨marker, hmarker⟩ := Option.isSome_iff_exists.1
    (FoundAt.isSome_place? ⟨front, c :: cs, by rw [List.append_nil, hs], rfl⟩)
  rw [scanBytes?]
  split
  · next h => simp [hb] at h
  · next b' h =>
    obtain rfl : b' = b := Option.some.inj (h.symm.trans hb)
    rewrite [isBlankByte_eq hmem, isDigitByte_eq hmem, isNameStartByte_eq hmem,
      punctuatorByte?_eq hmem, hcut, hmarker]
    rfl

/-- A run of ASCII characters is cut out where its bytes end. -/
theorem cutToken?_passWhile {p : Char → Bool} {q : UInt8 → Bool}
    (hp : ∀ c, p c = true → c.toNat < 128)
    (hq : ∀ {c b}, b ∈ String.utf8EncodeChar c → q b = p c) {c : Char} (hc : p c = true)
    (hs : source.toList = front ++ c :: cs) (kind : TokenKind) :
    cutToken? source kind (Text.byteLength front) (passWhile source q (Text.byteLength front)) =
      some ⟨[], ⟨kind, String.ofList (c :: cs.takeWhile p), Text.byteLength front⟩,
        Text.byteLength front + Text.byteLength (c :: cs.takeWhile p)⟩ := by
  have hrun : source.toList = front ++ (c :: cs.takeWhile p) ++ cs.dropWhile p := by
    simp [hs]
  rw [passWhile_eq hp hq hs, List.takeWhile_cons_of_pos hc, cutToken?_eq hrun]

/-- From a boundary the bytes are scanned as the characters are, and every cut on the way can be
made. -/
theorem scanBytes?_eq (hs : source.toList = front ++ cs) :
    scanBytes? source (Text.byteLength front) =
      some (scan (Text.byteLength front) cs).bytewise := by
  induction cs generalizing front with
  | nil =>
    have hend : Text.byte? source (Text.byteLength front) = none := Text.byte?_byteLength hs
    rw [scanBytes?_of_byte?_eq_none hend, Text.utf8ByteSize_eq, hs, List.append_nil]
    rfl
  | cons c cs ih =>
    have hlater := @ih (front ++ [c]) (by simpa using hs)
    rw [Text.byteLength_append, Text.byteLength_cons, Text.byteLength_nil, Nat.add_zero] at hlater
    rw [scanBytes?_cons hs, scan]
    by_cases hblank : isBlank c = true
    · rw [if_pos hblank, if_pos hblank, ← hlater, utf8Size_of_toNat_lt (toNat_lt_of_isBlank hblank)]
    rw [if_neg hblank, if_neg hblank]
    by_cases hbecomes : [':', '='].isPrefixOf (c :: cs) = true
    · -- a colon is neither a digit nor a letter, so it does not matter what is looked for first
      rw [if_pos hbecomes]
      obtain ⟨rest, hrest⟩ := List.isPrefixOf_iff_prefix.1 hbecomes
      obtain ⟨rfl, rfl⟩ := List.cons.inj hrest
      have hword : source.toList = front ++ [':', '='] ++ rest := by simpa using hs
      exact cutToken?_eq hword .becomes
    rw [lexeme?_cons (mt List.isPrefixOf_iff_prefix.2 hbecomes), if_neg hbecomes]
    by_cases hdigit : c.isDigit = true
    · rw [if_pos hdigit, if_pos hdigit]
      exact cutToken?_passWhile (fun _ => toNat_lt_of_isDigit) isDigitByte_eq hdigit hs .number
    rw [if_neg hdigit, if_neg hdigit]
    by_cases hname : isNameStart c = true
    · rw [if_pos hname, if_pos hname]
      exact cutToken?_passWhile (fun _ => toNat_lt_of_isNameChar) isWordByte_eq
        (isNameChar_iff.2 (.inr hname)) hs .name
    rw [if_neg hname, if_neg hname]
    cases hkind : TokenKind.punctuator? c with
    | some kind =>
      have hone : Text.byteLength [c] = 1 := utf8Size_of_punctuator? hkind
      have hword : source.toList = front ++ [c] ++ cs := by simpa using hs
      have hcut := cutToken?_eq hword kind
      rw [hone] at hcut
      simp only [Option.map_some, Scan.bytewise, hone]
      exact hcut
    | none =>
      simp only [hlater]
      rfl

end

/-! ## Lexers -/

namespace Lexer

/-- A lexer in place goes on byte by byte as it does character by character. -/
theorem InPlace.next?_bytewise {l : Lexer} (h : l.InPlace) :
    l.bytewise.next? = some (match l.next? with
      | some (t, m) => (some t, m.bytewise)
      | none => (none, l.bytewise)) := by
  obtain ⟨⟨front, hs, hpos⟩, -⟩ := h
  cases hf : l.finished with
  | true =>
    rw [next?_of_finished hf, ByteLexer.next?]
    exact if_pos hf
  | false =>
    have hscan : scanBytes? l.bytewise.source l.bytewise.pos =
        some (scan l.pos l.rest).bytewise := by
      show scanBytes? l.source l.pos = _
      rw [hpos]
      exact scanBytes?_eq hs
    rw [next?_of_not_finished hf, ByteLexer.next?, hscan]
    exact if_neg (Bool.eq_false_iff.1 hf)

theorem InPlace.drain?_bytewise {l : Lexer} (h : l.InPlace) :
    l.bytewise.drain? = some (l.drain.1, l.drain.2.bytewise) := by
  have hnext := h.next?_bytewise
  induction l using Lexer.drain.induct with
  | case1 l hf =>
    rw [next?_of_finished hf] at hnext
    rw [ByteLexer.drain?, drain_of_finished hf]
    split <;> simp_all
  | case2 l hf _ _ _ _ ih =>
    have hf := Bool.eq_false_iff.2 hf
    rw [next?_of_not_finished hf] at hnext
    have hrest := ih h.scanned h.scanned.next?_bytewise
    rw [ByteLexer.drain?, drain_of_not_finished hf]
    split <;> simp_all

end Lexer

/-- Reading the bytes of a source gives the tokens and the skipped characters that reading its
characters gives, and never comes to a cut inside a character. -/
theorem tokenizeBytes?_eq (source : String) : tokenizeBytes? source = some (tokenize source) := by
  have hdrain := (Lexer.inPlace_new source).drain?_bytewise
  rw [tokenizeBytes?, show ByteLexer.new source = (Lexer.new source).bytewise from rfl, hdrain]
  rfl

end OnePass
