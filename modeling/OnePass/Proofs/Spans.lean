import OnePass.Proofs.ByteLexing

/-!
How a source falls into spans.

A lexer gives every byte of its source away once: to a token, to a character that it
skips, or to a blank, of which it keeps no record.  `Parted` says so of a text piece by
piece, with the place of each piece, and a drained lexer has parted the text that was
before it.  Order, disjointness and coverage of the spans are then inductions over the
pieces, and no byte has to be followed through the scan again.
-/

namespace OnePass

/-- Blanks take one byte, and it is one of these. -/
theorem utf8EncodeChar_of_isBlank {c : Char} (h : isBlank c = true) :
    ∃ b ∈ ([0x20, 0x09, 0x0a, 0x0c, 0x0d] : List UInt8), String.utf8EncodeChar c = [b] := by
  simp only [isBlank, Bool.or_eq_true, beq_iff_eq, or_assoc] at h
  rcases h with rfl | rfl | rfl | rfl | rfl
  · exact ⟨0x20, by decide, by decide⟩
  · exact ⟨0x09, by decide, by decide⟩
  · exact ⟨0x0a, by decide, by decide⟩
  · exact ⟨0x0c, by decide, by decide⟩
  · exact ⟨0x0d, by decide, by decide⟩

/-! ## Spans -/

/-- Bytes in a row. -/
structure Span where
  start : Nat
  length : Nat
  deriving DecidableEq, Repr

namespace Span

def stop (a : Span) : Nat :=
  a.start + a.length

def Holds (a : Span) (n : Nat) : Prop :=
  a.start ≤ n ∧ n < a.stop

/-- No byte is in both. -/
def Apart (a b : Span) : Prop :=
  ∀ n, ¬ (a.Holds n ∧ b.Holds n)

theorem Apart.symm {a b : Span} (h : a.Apart b) : b.Apart a :=
  fun n hn => h n hn.symm

theorem apart_of_le {a b : Span} (h : a.stop ≤ b.start) : a.Apart b := by
  rintro n ⟨⟨-, ha⟩, hb, -⟩
  omega

end Span

def Token.span (t : Token) : Span :=
  { start := t.loc, length := t.len }

def Skipped.span (s : Skipped) : Span :=
  { start := s.loc, length := s.char.utf8Size }

/-- The spans of tokens and of skipped characters. -/
def spans (tokens : List Token) (skipped : List Skipped) : List Span :=
  tokens.map Token.span ++ skipped.map Skipped.span

theorem mem_spans_token {a : Span} {t : Token} {ts : List Token} {ss : List Skipped} :
    a ∈ spans (t :: ts) ss ↔ a = t.span ∨ a ∈ spans ts ss := by
  simp [spans]

/-- A skipped character stands behind all the tokens in the list of spans, but the order
does not matter here. -/
theorem perm_spans_skipped (ts : List Token) (s : Skipped) (ss : List Skipped) :
    (spans ts (s :: ss)).Perm (s.span :: spans ts ss) :=
  List.perm_middle

theorem mem_spans_skipped {a : Span} {s : Skipped} {ts : List Token} {ss : List Skipped} :
    a ∈ spans ts (s :: ss) ↔ a = s.span ∨ a ∈ spans ts ss := by
  rw [(perm_spans_skipped ts s ss).mem_iff, List.mem_cons]

/-! ## Parted texts -/

/-- The text `cs`, which starts at byte `pos`, falls into the given tokens, the given skipped
characters and blanks. -/
inductive Parted : Nat → List Char → List Token → List Skipped → Prop
  | nil (pos : Nat) : Parted pos [] [] []
  | blank {pos : Nat} {c : Char} {cs : List Char} {ts : List Token} {ss : List Skipped}
      (hb : isBlank c = true) (h : Parted (pos + c.utf8Size) cs ts ss) : Parted pos (c :: cs) ts ss
  | skipped {pos : Nat} {c : Char} {cs : List Char} {ts : List Token} {ss : List Skipped}
      (hb : isBlank c = false) (hl : lexeme? (c :: cs) = none)
      (h : Parted (pos + c.utf8Size) cs ts ss) : Parted pos (c :: cs) ts (⟨pos, c⟩ :: ss)
  | token {pos : Nat} {cs : List Char} {l : Lexeme} {ts : List Token} {ss : List Skipped}
      (hl : lexeme? cs = some l) (h : Parted (pos + Text.byteLength l.word) l.rest ts ss) :
      Parted pos cs (⟨l.kind, String.ofList l.word, pos⟩ :: ts) ss

theorem Parted.of_scan {pos : Nat} {cs : List Char} {ts : List Token} {ss : List Skipped}
    (hk : (scan pos cs).token.kind ≠ .eof)
    (h : Parted (scan pos cs).pos (scan pos cs).rest ts ss) :
    Parted pos cs ((scan pos cs).token :: ts) ((scan pos cs).skipped ++ ss) := by
  fun_induction scan pos cs with
  | case1 pos => simp [Token.endOfSource] at hk
  | case2 pos c cs hb ih => exact .blank hb (ih hk h)
  | case3 pos c cs hb l hl => exact .token hl h
  | case4 pos c cs hb hl later ih => exact .skipped (Bool.eq_false_iff.2 hb) hl (ih hk h)

/-- A scan that finds no more token parts the whole text. -/
theorem Parted.of_scan_eof {pos : Nat} {cs : List Char}
    (hk : (scan pos cs).token.kind = .eof) :
    Parted pos cs [] (scan pos cs).skipped ∧
      (scan pos cs).token = Token.endOfSource (pos + Text.byteLength cs) := by
  fun_induction scan pos cs with
  | case1 pos => exact ⟨.nil pos, rfl⟩
  | case2 pos c cs hb ih =>
    obtain ⟨hparted, htoken⟩ := ih hk
    exact ⟨.blank hb hparted, by rw [htoken, Text.byteLength_cons, Nat.add_assoc]⟩
  | case3 pos c cs hb l hl => exact absurd hk (kind_ne_eof_of_lexeme? hl)
  | case4 pos c cs hb hl later ih =>
    obtain ⟨hparted, htoken⟩ := ih hk
    refine ⟨.skipped (Bool.eq_false_iff.2 hb) hl hparted, ?_⟩
    show later.token = _
    rw [htoken, Text.byteLength_cons, Nat.add_assoc]

/-- A drained lexer has parted the text that was before it. -/
theorem Lexer.parted_drain {l : Lexer} (h : l.finished = false) :
    ∃ ts ss, l.drain.1 = ts ++ [Token.endOfSource (l.pos + Text.byteLength l.rest)] ∧
      l.drain.2.skipped = l.skipped ++ ss ∧ Parted l.pos l.rest ts ss := by
  induction l using Lexer.drain.induct with
  | case1 l hf => simp [hf] at h
  | case2 l _ _ _ _ _ ih =>
    rw [drain_of_not_finished h]
    by_cases hk : (scan l.pos l.rest).token.kind = .eof
    · have hend : l.scanned.finished = true := by simp [Lexer.scanned, hk]
      obtain ⟨hparted, htoken⟩ := Parted.of_scan_eof hk
      refine ⟨[], (scan l.pos l.rest).skipped, ?_, ?_, hparted⟩
      · rw [drain_of_finished hend, htoken]
        rfl
      · rw [drain_of_finished hend]
        rfl
    · have hmore : l.scanned.finished = false := by simp [Lexer.scanned, hk]
      obtain ⟨ts, ss, htokens, hskipped, hparted⟩ := ih hmore
      have hlength : l.scanned.pos + Text.byteLength l.scanned.rest =
          l.pos + Text.byteLength l.rest := scan_pos_add l.pos l.rest
      rw [hlength] at htokens
      refine ⟨(scan l.pos l.rest).token :: ts, (scan l.pos l.rest).skipped ++ ss, ?_, ?_,
        .of_scan hk hparted⟩
      · rw [htokens, List.cons_append]
      · rw [hskipped, ← List.append_assoc]
        rfl

namespace Parted

variable {pos : Nat} {cs : List Char} {ts : List Token} {ss : List Skipped}

theorem kind_ne_eof (h : Parted pos cs ts ss) : ∀ t ∈ ts, t.kind ≠ .eof := by
  induction h with
  | nil pos => simp
  | blank hb _ ih => exact ih
  | skipped hb hl _ ih => exact ih
  | token hl _ ih =>
    intro t ht
    rcases List.mem_cons.1 ht with rfl | ht
    · exact kind_ne_eof_of_lexeme? hl
    · exact ih t ht

theorem length_word_pos {l : Lexeme} (hl : lexeme? cs = some l) :
    0 < Text.byteLength l.word := by
  cases hw : l.word with
  | nil => exact absurd hw (word_ne_nil_of_lexeme? hl)
  | cons c word =>
    have := c.utf8Size_pos
    rw [Text.byteLength_cons]
    omega

/-- All spans lie in the text, and none is empty. -/
theorem within (h : Parted pos cs ts ss) :
    ∀ a ∈ spans ts ss, pos ≤ a.start ∧ 0 < a.length ∧ a.stop ≤ pos + Text.byteLength cs := by
  induction h with
  | nil pos => simp [spans]
  | @blank pos c cs ts ss hb _ ih =>
    intro a ha
    have := ih a ha
    rw [Text.byteLength_cons]
    omega
  | @skipped pos c cs ts ss hb hl _ ih =>
    have hc := c.utf8Size_pos
    intro a ha
    rw [Text.byteLength_cons]
    rcases mem_spans_skipped.1 ha with rfl | ha
    · simp only [Skipped.span, Span.stop]
      omega
    · have := ih a ha
      omega
  | @token pos cs l ts ss hl _ ih =>
    have hw := length_word_pos hl
    intro a ha
    rw [eq_append_of_lexeme? hl, Text.byteLength_append]
    rcases mem_spans_token.1 ha with rfl | ha
    · simp only [Token.span, Token.len, String.toList_ofList, Span.stop]
      omega
    · have := ih a ha
      omega

/-- The spans do not overlap: each piece ends before all those behind it begin. -/
theorem apart (h : Parted pos cs ts ss) : (spans ts ss).Pairwise Span.Apart := by
  induction h with
  | nil pos => exact List.Pairwise.nil
  | blank hb _ ih => exact ih
  | @skipped pos c cs ts ss hb hl hrest ih =>
    rw [(perm_spans_skipped ts _ ss).pairwise_iff Span.Apart.symm, List.pairwise_cons]
    exact ⟨fun a ha => Span.apart_of_le (hrest.within a ha).1, ih⟩
  | @token pos cs l ts ss hl hrest ih =>
    refine List.pairwise_cons.2 ⟨fun a ha => Span.apart_of_le ?_, ih⟩
    have hle := (hrest.within a ha).1
    rwa [← String.toList_ofList (l := l.word)] at hle

theorem pairwise_tokens (h : Parted pos cs ts ss) : ts.Pairwise fun a b => a.loc < b.loc := by
  induction h with
  | nil pos => exact List.Pairwise.nil
  | blank hb _ ih => exact ih
  | skipped hb hl _ ih => exact ih
  | @token pos cs l ts ss hl hrest ih =>
    refine List.pairwise_cons.2 ⟨fun t ht => ?_, ih⟩
    have hw := length_word_pos hl
    have hle : pos + Text.byteLength l.word ≤ t.loc :=
      (hrest.within t.span (List.mem_append_left _ (List.mem_map_of_mem ht))).1
    show pos < t.loc
    omega

theorem pairwise_skipped (h : Parted pos cs ts ss) : ss.Pairwise fun a b => a.loc < b.loc := by
  induction h with
  | nil pos => exact List.Pairwise.nil
  | blank hb _ ih => exact ih
  | @skipped pos c cs ts ss hb hl hrest ih =>
    refine List.pairwise_cons.2 ⟨fun s hs => ?_, ih⟩
    have hc := c.utf8Size_pos
    have hle : pos + c.utf8Size ≤ s.loc :=
      (hrest.within s.span (List.mem_append_right _ (List.mem_map_of_mem hs))).1
    show pos < s.loc
    omega
  | token hl _ ih => exact ih

/-- What no span holds is blank. -/
theorem covers (h : Parted pos cs ts ss) {n : Nat} {b : UInt8}
    (hb : (Text.bytes cs)[n]? = some b) (hn : ∀ a ∈ spans ts ss, ¬ a.Holds (pos + n)) :
    b ∈ ([0x20, 0x09, 0x0a, 0x0c, 0x0d] : List UInt8) := by
  -- on the pieces: a byte that is not in the first one is at a smaller place in the rest
  induction h generalizing n with
  | nil pos => simp [Text.bytes] at hb
  | @blank pos c cs ts ss hc hrest ih =>
    obtain ⟨blank, hblank, hcode⟩ := utf8EncodeChar_of_isBlank hc
    have hsize : c.utf8Size = 1 := by rw [← String.length_utf8EncodeChar, hcode]; rfl
    rw [Text.bytes_cons, hcode] at hb
    cases n with
    | zero =>
      obtain rfl := Option.some.inj hb
      exact hblank
    | succ n =>
      refine ih hb fun a ha => ?_
      rw [hsize, Nat.add_assoc, Nat.add_comm 1 n]
      exact hn a ha
  | @skipped pos c cs ts ss _ hl hrest ih =>
    rw [Text.bytes_cons] at hb
    have hout : ¬ (pos ≤ pos + n ∧ pos + n < pos + c.utf8Size) :=
      hn _ (mem_spans_skipped.2 (.inl rfl))
    have hle : (String.utf8EncodeChar c).length ≤ n := by
      rw [String.length_utf8EncodeChar]
      omega
    rw [List.getElem?_append_right hle, String.length_utf8EncodeChar] at hb
    refine ih hb fun a ha => ?_
    rw [Nat.add_assoc, Nat.add_sub_cancel' (by omega)]
    exact hn a (mem_spans_skipped.2 (.inr ha))
  | @token pos cs l ts ss hl hrest ih =>
    rw [eq_append_of_lexeme? hl, Text.bytes_append] at hb
    have hout : ¬ (pos ≤ pos + n ∧ pos + n < pos + Text.byteLength l.word) := by
      have := hn _ (mem_spans_token.2 (.inl rfl))
      rwa [Token.span, Token.len, String.toList_ofList] at this
    have hle : (Text.bytes l.word).length ≤ n := by
      rw [Text.length_bytes]
      omega
    rw [List.getElem?_append_right hle, Text.length_bytes] at hb
    refine ih hb fun a ha => ?_
    rw [Nat.add_assoc, Nat.add_sub_cancel' (by omega)]
    exact hn a (mem_spans_token.2 (.inr ha))

end Parted

/-! ## The whole source -/

theorem tokenize_eq_parted (source : String) :
    ∃ ts, (tokenize source).1 = ts ++ [Token.endOfSource source.utf8ByteSize] ∧
      Parted 0 source.toList ts (tokenize source).2 := by
  obtain ⟨ts, ss, htokens, hskipped, hparted⟩ :=
    Lexer.parted_drain (l := Lexer.new source) rfl
  have hss : (tokenize source).2 = ss := hskipped
  refine ⟨ts, ?_, hss ▸ hparted⟩
  rw [Text.utf8ByteSize_eq, ← Nat.zero_add (Text.byteLength source.toList)]
  exact htokens

/-- The tokens, the token `last` that ends the source and the skipped characters share out the
bytes of a source. -/
structure SharesOut (source : String) (tokens : List Token) (last : Token)
    (skipped : List Skipped) : Prop where
  last_eq : last.kind = .eof ∧ last.loc = source.utf8ByteSize ∧ last.len = 0
  only_last : ∀ t ∈ tokens, t.kind ≠ .eof
  not_empty : ∀ t ∈ tokens, 1 ≤ t.len
  apart : (spans tokens skipped).Pairwise Span.Apart
  tokens_increase : (tokens ++ [last]).Pairwise fun a b => a.loc < b.loc
  skipped_increase : skipped.Pairwise fun a b => a.loc < b.loc
  /-- A byte in no span is a space, a tab, a line feed, a form feed or a carriage return. -/
  covers : ∀ n b, source.toUTF8.data[n]? = some b → (∀ a ∈ spans tokens skipped, ¬ a.Holds n) →
    b ∈ ([0x20, 0x09, 0x0a, 0x0c, 0x0d] : List UInt8)
  skipped_char : ∀ s ∈ skipped, FoundAt source s.loc [s.char]
  /-- The text, the description and the marker of a token can be cut out of the source. -/
  token_cuts : ∀ t ∈ tokens ++ [last], Text.isBoundary source.toList t.loc = true ∧
    Text.isBoundary source.toList (t.loc + t.len) = true ∧
    Text.slice? source t.loc t.len = some t.text ∧
    Token.describeAt? source t.kind t.loc t.len = some t.describe ∧
    (Marker.place? source t.loc).isSome = true
  skipped_cuts : ∀ s ∈ skipped, Text.isBoundary source.toList s.loc = true ∧
    Text.isBoundary source.toList (s.loc + s.char.utf8Size) = true ∧
    (Marker.place? source s.loc).isSome = true

/-- A lexer loses nothing of its source and yields nothing twice.  Neither does one that reads
bytes, which yields the same and makes no cut inside a character. -/
theorem tokenize_shares_out (source : String) :
    tokenizeBytes? source = some (tokenize source) ∧
      ∃ tokens last, (tokenize source).1 = tokens ++ [last] ∧
        SharesOut source tokens last (tokenize source).2 := by
  refine ⟨tokenizeBytes?_eq source, ?_⟩
  obtain ⟨ts, htokens, hparted⟩ := tokenize_eq_parted source
  have hwithin := hparted.within
  rw [Nat.zero_add, ← Text.utf8ByteSize_eq] at hwithin
  have htoken : ∀ t ∈ ts, 0 < t.len ∧ t.loc + t.len ≤ source.utf8ByteSize := fun t ht =>
    (hwithin t.span (List.mem_append_left _ (List.mem_map_of_mem ht))).2
  refine ⟨ts, _, htokens, ?_⟩
  constructor
  case last_eq => exact ⟨rfl, rfl, rfl⟩
  case only_last => exact hparted.kind_ne_eof
  case not_empty => exact fun t ht => (htoken t ht).1
  case apart => exact hparted.apart
  case tokens_increase =>
    refine List.pairwise_append.2 ⟨hparted.pairwise_tokens, List.pairwise_singleton _ _, ?_⟩
    intro t ht last hlast
    obtain rfl := List.mem_singleton.1 hlast
    have := htoken t ht
    show t.loc < source.utf8ByteSize
    omega
  case skipped_increase => exact hparted.pairwise_skipped
  case covers =>
    intro n b hb hn
    rw [Text.data_toUTF8, List.getElem?_toArray] at hb
    exact hparted.covers hb (by simpa only [Nat.zero_add] using hn)
  case skipped_char => exact fun s hs => foundAt_of_mem_skipped hs
  case token_cuts =>
    intro t ht
    rw [← htokens] at ht
    have hfound := foundAt_of_mem_tokenize ht
    exact ⟨hfound.isBoundary, hfound.isBoundary_stop, hfound.slice?_token, hfound.describeAt?,
      hfound.isSome_place?⟩
  case skipped_cuts =>
    intro s hs
    have hfound := foundAt_of_mem_skipped hs
    have hstop := hfound.isBoundary_stop
    rw [Text.byteLength_cons, Text.byteLength_nil, Nat.add_zero] at hstop
    exact ⟨hfound.isBoundary, hstop, hfound.isSome_place?⟩

end OnePass
