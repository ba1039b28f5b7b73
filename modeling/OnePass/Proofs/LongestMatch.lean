import Mathlib.Data.List.Induction
import Mathlib.Data.List.Pairwise
import Mathlib.Data.Nat.Digits.Defs
import OnePass.Proofs.Spans

/-!
The longest match.

`spells` says of which characters a token of a kind can be made, and `stops` that such a token
cannot go on.  Together they tell what a lexeme is, without a word on how the text is scanned,
and every token of a source is the lexeme at its place.  What stands beside a token in the
source is then read off there: in front of a number there is no letter, because the name that
it would belong to would have gone on.
-/

namespace OnePass

/-! ## Words -/

/-- The characters that are a token each. -/
def punctuators : List Char :=
  ['+', '-', '*', '/', '(', ')', ';']

/-- Space, tab, line feed, form feed and carriage return. -/
def blanks : List Char :=
  [' ', '\t', '\n', '\x0c', '\r']

/-- The characters spell a token of the kind. -/
def spells : TokenKind → List Char → Bool
  | .number, word => !word.isEmpty && word.all Char.isDigit
  | .name, first :: word =>
    (first.isAlpha || first == '_') && word.all fun c => c.isAlphanum || c == '_'
  | .name, [] => false
  | .operator op, word => word == [op.symbol]
  | .lparen, word => word == ['(']
  | .rparen, word => word == [')']
  | .semicolon, word => word == [';']
  | .becomes, word => word == [':', '=']
  | .eof, _ => false

/-- A token of the kind does not go on into the text behind it. -/
def stops : TokenKind → List Char → Bool
  | .number, c :: _ => !c.isDigit
  | .name, c :: _ => !(c.isAlphanum || c == '_')
  | _, _ => true

theorem mem_blanks_iff {c : Char} : c ∈ blanks ↔ isBlank c = true := by
  simp [blanks, isBlank, or_assoc]

theorem not_isNameChar_of_isBlank {c : Char} (h : isBlank c = true) : isNameChar c = false := by
  have hblanks : (blanks.all fun c => !isNameChar c) = true := rfl
  simpa using List.all_eq_true.1 hblanks c (mem_blanks_iff.2 h)

theorem not_isNameChar_of_mem_punctuators : ∀ c ∈ punctuators, isNameChar c = false := by
  have hall : (punctuators.all fun c => !isNameChar c) = true := rfl
  simpa using List.all_eq_true.1 hall

theorem eq_symbol_of_ofSymbol? {c : Char} {op : BinaryOp} (h : BinaryOp.ofSymbol? c = some op) :
    c = op.symbol := by
  unfold BinaryOp.ofSymbol? at h
  split at h <;> cases h <;> rfl

theorem punctuator?_eq_some {c : Char} {kind : TokenKind}
    (h : TokenKind.punctuator? c = some kind) :
    c ∈ punctuators ∧ spells kind [c] = true ∧ ∀ rest, stops kind rest = true := by
  unfold TokenKind.punctuator? at h
  split at h
  case h_4 =>
    obtain ⟨op, hop, rfl⟩ := Option.map_eq_some_iff.1 h
    obtain rfl := eq_symbol_of_ofSymbol? hop
    exact ⟨by cases op <;> decide, beq_self_eq_true _, fun _ => rfl⟩
  all_goals
    obtain rfl := Option.some.inj h
    exact ⟨by decide, rfl, fun _ => rfl⟩

theorem punctuator?_eq_none_iff {c : Char} :
    TokenKind.punctuator? c = none ↔ c ∉ punctuators := by
  constructor
  · intro h hc
    simp only [punctuators, List.mem_cons, List.not_mem_nil, or_false] at hc
    rcases hc with rfl | rfl | rfl | rfl | rfl | rfl | rfl <;> cases h
  · intro h
    cases hk : TokenKind.punctuator? c with
    | none => rfl
    | some kind => exact absurd (punctuator?_eq_some hk).1 h

theorem spells_number_iff {word : List Char} :
    spells .number word = true ↔ word ≠ [] ∧ ∀ c ∈ word, c.isDigit = true := by
  simp [spells]

theorem exists_of_spells_name {word : List Char} (h : spells .name word = true) :
    ∃ c more, word = c :: more ∧ isNameStart c = true ∧ ∀ d ∈ more, isNameChar d = true := by
  cases word with
  | nil => cases h
  | cons c more =>
    obtain ⟨hc, hmore⟩ : isNameStart c = true ∧ more.all isNameChar = true :=
      Bool.and_eq_true_iff.1 h
    exact ⟨c, more, rfl, hc, List.all_eq_true.1 hmore⟩

theorem stops_number_iff {rest : List Char} :
    stops .number rest = true ↔ ∀ c ∈ rest.head?, c.isDigit = false := by
  cases rest <;> simp [stops]

theorem stops_name_iff {rest : List Char} :
    stops .name rest = true ↔ ∀ c ∈ rest.head?, isNameChar c = false := by
  cases rest <;> simp [stops, isNameChar]

theorem head?_dropWhile {p : Char → Bool} (cs : List Char) :
    ∀ c ∈ (cs.dropWhile p).head?, p c = false := by
  intro c hc
  have h := List.head?_dropWhile_not p cs
  rwa [Option.mem_def.1 hc] at h

theorem not_becomes_of_ne {c : Char} (h : c ≠ ':') (cs : List Char) :
    ¬ [':', '='] <+: c :: cs := by
  rintro ⟨rest, hrest⟩
  exact h (List.cons.inj hrest).1.symm

theorem not_isDigit_of_isNameStart {c : Char} (h : isNameStart c = true) :
    ¬ c.isDigit = true := by
  rw [Char.isDigit_iff_toNat]
  rcases Bool.or_eq_true_iff.1 h with h | h
  · rw [isAlpha_iff_toNat] at h
    show ¬ (48 ≤ c.toNat ∧ c.toNat ≤ 57)
    omega
  · obtain rfl := eq_of_beq h
    decide

theorem not_isDigit_of_not_isNameChar {c : Char} (h : isNameChar c = false) :
    c.isDigit = false := by
  refine Bool.eq_false_iff.2 fun hd => ?_
  rw [isNameChar_iff.2 (.inl hd)] at h
  cases h

/-- A run ends where it stops. -/
theorem span_append {p : Char → Bool} {run rest : List Char} (hrun : ∀ c ∈ run, p c = true)
    (hrest : ∀ c ∈ rest.head?, p c = false) :
    (run ++ rest).takeWhile p = run ∧ (run ++ rest).dropWhile p = rest := by
  rw [List.takeWhile_append_of_pos hrun, List.dropWhile_append_of_pos hrun]
  cases rest with
  | nil => simp
  | cons c rest => simp [hrest c rfl]

theorem spells_of_lexeme? {cs : List Char} {l : Lexeme} (h : lexeme? cs = some l) :
    spells l.kind l.word = true ∧ stops l.kind l.rest = true := by
  by_cases hbecomes : [':', '='] <+: cs
  · obtain ⟨rest, rfl⟩ := hbecomes
    obtain rfl := Option.some.inj h
    exact ⟨rfl, rfl⟩
  · cases cs with
    | nil => cases h
    | cons c cs =>
      rw [lexeme?_cons hbecomes] at h
      split at h
      · next hc =>
        obtain rfl := Option.some.inj h
        exact ⟨by simp [spells, hc], stops_number_iff.2 (head?_dropWhile cs)⟩
      · split at h
        · next hc =>
          obtain rfl := Option.some.inj h
          refine ⟨?_, stops_name_iff.2 (head?_dropWhile cs)⟩
          show (isNameStart c && (cs.takeWhile isNameChar).all isNameChar) = true
          rw [hc, List.all_takeWhile]
          rfl
        · obtain ⟨kind, hkind, rfl⟩ := Option.map_eq_some_iff.1 h
          obtain ⟨-, hspells, hstops⟩ := punctuator?_eq_some hkind
          exact ⟨hspells, hstops cs⟩

theorem lexeme?_number {word rest : List Char} (hspells : spells .number word = true)
    (hstops : stops .number rest = true) :
    lexeme? (word ++ rest) = some ⟨.number, word, rest⟩ := by
  obtain ⟨hne, hdigits⟩ := spells_number_iff.1 hspells
  obtain ⟨c, word, rfl⟩ := List.exists_cons_of_ne_nil hne
  obtain ⟨hc, hword⟩ := List.forall_mem_cons.1 hdigits
  have hcolon : c ≠ ':' := by
    rintro rfl
    cases hc
  obtain ⟨htake, hdrop⟩ := span_append hword (stops_number_iff.1 hstops)
  rw [List.cons_append, lexeme?_cons (not_becomes_of_ne hcolon _), if_pos hc, htake, hdrop]

theorem lexeme?_name {word rest : List Char} (hspells : spells .name word = true)
    (hstops : stops .name rest = true) :
    lexeme? (word ++ rest) = some ⟨.name, word, rest⟩ := by
  obtain ⟨c, word, rfl, hc, hword⟩ := exists_of_spells_name hspells
  have hcolon : c ≠ ':' := by
    rintro rfl
    cases hc
  obtain ⟨htake, hdrop⟩ := span_append hword (stops_name_iff.1 hstops)
  rw [List.cons_append, lexeme?_cons (not_becomes_of_ne hcolon _),
    if_neg (not_isDigit_of_isNameStart hc), if_pos hc, htake, hdrop]

/-- A lexeme is a word of its kind that does not go on. -/
theorem lexeme?_eq_some_iff {cs : List Char} {l : Lexeme} :
    lexeme? cs = some l ↔
      cs = l.word ++ l.rest ∧ spells l.kind l.word = true ∧ stops l.kind l.rest = true := by
  constructor
  · exact fun h => ⟨eq_append_of_lexeme? h, spells_of_lexeme? h⟩
  · rintro ⟨rfl, hspells, hstops⟩
    obtain ⟨kind, word, rest⟩ := l
    cases kind with
    | number => exact lexeme?_number hspells hstops
    | name => exact lexeme?_name hspells hstops
    | operator op =>
      obtain rfl : word = [op.symbol] := eq_of_beq hspells
      cases op <;> rfl
    | eof => cases hspells
    | lparen | rparen | semicolon | becomes =>
      obtain rfl : word = _ := eq_of_beq hspells
      rfl

theorem lexeme?_eq_none_iff {c : Char} {cs : List Char} :
    lexeme? (c :: cs) = none ↔
      isNameChar c = false ∧ c ∉ punctuators ∧ ¬ [':', '='] <+: c :: cs := by
  by_cases hbecomes : [':', '='] <+: c :: cs
  · obtain ⟨rest, hrest⟩ := hbecomes
    rw [← hrest]
    simp [lexeme?]
  · rw [lexeme?_cons hbecomes, Bool.eq_false_iff, ne_eq, isNameChar_iff]
    by_cases hd : c.isDigit = true
    · simp [hd]
    · by_cases hn : isNameStart c = true
      · simp [hd, hn]
      · simp [hd, hn, hbecomes, punctuator?_eq_none_iff]

theorem lexeme?_of_isBlank {c : Char} (h : isBlank c = true) (cs : List Char) :
    lexeme? (c :: cs) = none := by
  have hblanks : (blanks.all fun c => decide (c ∉ punctuators ∧ c ≠ ':')) = true := rfl
  obtain ⟨hpunctuator, hcolon⟩ :=
    of_decide_eq_true (List.all_eq_true.1 hblanks c (mem_blanks_iff.2 h))
  exact lexeme?_eq_none_iff.2
    ⟨not_isNameChar_of_isBlank h, hpunctuator, not_becomes_of_ne hcolon cs⟩

/-- Only numbers and names have more than one spelling. -/
theorem spells_cases {kind : TokenKind} {word : List Char} (h : spells kind word = true) :
    (kind = .number ∨ kind = .name) ∨ word = [':', '='] ∨ ∃ c ∈ punctuators, word = [c] := by
  cases kind with
  | number => exact .inl (.inl rfl)
  | name => exact .inl (.inr rfl)
  | becomes => exact .inr (.inl (eq_of_beq h))
  | eof => cases h
  | operator op => exact .inr (.inr ⟨op.symbol, by cases op <;> decide, eq_of_beq h⟩)
  | lparen => exact .inr (.inr ⟨'(', by decide, eq_of_beq h⟩)
  | rparen => exact .inr (.inr ⟨')', by decide, eq_of_beq h⟩)
  | semicolon => exact .inr (.inr ⟨';', by decide, eq_of_beq h⟩)

theorem all_isNameChar_of_spells {kind : TokenKind} {word : List Char}
    (h : spells kind word = true) (hkind : kind = .number ∨ kind = .name) :
    ∀ c ∈ word, isNameChar c = true := by
  intro c hc
  rcases hkind with rfl | rfl
  · exact isNameChar_iff.2 (.inl ((spells_number_iff.1 h).2 c hc))
  · obtain ⟨first, word, rfl, hfirst, hword⟩ := exists_of_spells_name h
    rcases List.mem_cons.1 hc with rfl | hc
    · exact isNameChar_iff.2 (.inr hfirst)
    · exact hword c hc

/-- A colon in a word is its first character. -/
theorem eq_nil_of_spells_colon {kind : TokenKind} {front back : List Char}
    (h : spells kind (front ++ ':' :: back) = true) : front = [] := by
  rcases spells_cases h with hkind | hword | ⟨c, -, hword⟩
  · cases all_isNameChar_of_spells h hkind ':' (by simp)
  · cases front with
    | nil => rfl
    | cons c front =>
      obtain ⟨-, hrest⟩ := List.cons.inj hword
      cases front with
      | nil => cases (List.cons.inj hrest).1
      | cons d front => simp at hrest
  · cases front with
    | nil => rfl
    | cons d front => simp at hword

/-! ## Places of tokens -/

/-- A number may start between the two texts: if a name or a number ends there, no digit follows. -/
def Settled (front cs : List Char) : Prop :=
  ∀ c ∈ front.getLast?, isNameChar c = true → ∀ d ∈ cs.head?, d.isDigit = false

theorem settled_concat {c : Char} (h : isNameChar c = false) (front cs : List Char) :
    Settled (front ++ [c]) cs := by
  intro d hd hname
  rw [List.getLast?_concat] at hd
  obtain rfl := Option.some.inj hd
  rw [h] at hname
  cases hname

theorem not_isDigit_of_stops {kind : TokenKind} {rest : List Char} (h : stops kind rest = true)
    (hkind : kind = .number ∨ kind = .name) : ∀ c ∈ rest.head?, c.isDigit = false := by
  rcases hkind with rfl | rfl
  · exact stops_number_iff.1 h
  · exact fun c hc => not_isDigit_of_not_isNameChar (stops_name_iff.1 h c hc)

theorem settled_of_lexeme? {cs : List Char} {l : Lexeme} (h : lexeme? cs = some l)
    (front : List Char) : Settled (front ++ l.word) l.rest := by
  obtain ⟨-, hspells, hstops⟩ := lexeme?_eq_some_iff.1 h
  rcases spells_cases hspells with hkind | hword | ⟨c, hc, hword⟩
  · exact fun _ _ _ => not_isDigit_of_stops hstops hkind
  · rw [hword, List.append_cons front ':' ['=']]
    exact settled_concat rfl (front ++ [':']) l.rest
  · rw [hword]
    exact settled_concat (not_isNameChar_of_mem_punctuators c hc) front l.rest

namespace Parted

variable {pos : Nat} {cs : List Char} {ts : List Token} {ss : List Skipped}

/-- Each token is the lexeme at its place. -/
theorem exists_lexeme (h : Parted pos cs ts ss) (front : List Char)
    (hpos : pos = Text.byteLength front) (hfront : Settled front cs) : ∀ t ∈ ts, ∃ before l,
      front ++ cs = before ++ (l.word ++ l.rest) ∧ Settled before (l.word ++ l.rest) ∧
      lexeme? (l.word ++ l.rest) = some l ∧
      t = ⟨l.kind, String.ofList l.word, Text.byteLength before⟩ := by
  induction h generalizing front with
  | nil pos => simp
  | @blank pos c cs ts ss hb hrest ih =>
    have hlater := ih (front ++ [c]) (by simp [hpos])
      (settled_concat (not_isNameChar_of_isBlank hb) front cs)
    rwa [List.append_assoc] at hlater
  | @skipped pos c cs ts ss hb hl hrest ih =>
    have hlater := ih (front ++ [c]) (by simp [hpos])
      (settled_concat (lexeme?_eq_none_iff.1 hl).1 front cs)
    rwa [List.append_assoc] at hlater
  | @token pos cs l ts ss hl hrest ih =>
    have hcs := eq_append_of_lexeme? hl
    intro t ht
    rcases List.mem_cons.1 ht with rfl | ht
    · rw [hcs] at hfront hl
      exact ⟨front, l, by rw [← hcs], hfront, hl, by rw [hpos]⟩
    · have hlater := ih (front ++ l.word) (by simp [hpos]) (settled_of_lexeme? hl front)
      rw [List.append_assoc, ← hcs] at hlater
      exact hlater t ht

/-- No lexeme starts at a character that is skipped. -/
theorem exists_skipped (h : Parted pos cs ts ss) (front : List Char)
    (hpos : pos = Text.byteLength front) :
    ∀ s ∈ ss, ∃ before after, front ++ cs = before ++ s.char :: after ∧
      s.loc = Text.byteLength before ∧ isBlank s.char = false ∧
      lexeme? (s.char :: after) = none := by
  induction h generalizing front with
  | nil pos => simp
  | @blank pos c cs ts ss hb hrest ih =>
    have hlater := ih (front ++ [c]) (by simp [hpos])
    rwa [List.append_assoc] at hlater
  | @skipped pos c cs ts ss hb hl hrest ih =>
    intro s hs
    rcases List.mem_cons.1 hs with rfl | hs
    · exact ⟨front, cs, rfl, hpos, hb, hl⟩
    · have hlater := ih (front ++ [c]) (by simp [hpos])
      rw [List.append_assoc] at hlater
      exact hlater s hs
  | @token pos cs l ts ss hl hrest ih =>
    have hlater := ih (front ++ l.word) (by simp [hpos])
    rwa [List.append_assoc, ← eq_append_of_lexeme? hl] at hlater

/-- The sign `:=` is a token wherever it stands. -/
theorem exists_becomes (h : Parted pos cs ts ss) {before after : List Char}
    (hcs : cs = before ++ ':' :: '=' :: after) :
    ⟨.becomes, ":=", pos + Text.byteLength before⟩ ∈ ts := by
  induction h generalizing before with
  | nil pos => simp at hcs
  | @blank pos c cs ts ss hb hrest ih =>
    cases before with
    | nil =>
      obtain ⟨rfl, -⟩ := List.cons.inj hcs
      cases hb
    | cons d before =>
      obtain ⟨rfl, hrest⟩ := List.cons.inj hcs
      rw [Text.byteLength_cons, ← Nat.add_assoc]
      exact ih hrest
  | @skipped pos c cs ts ss hb hl hrest ih =>
    cases before with
    | nil =>
      obtain ⟨rfl, rfl⟩ := List.cons.inj hcs
      cases hl
    | cons d before =>
      obtain ⟨rfl, hrest⟩ := List.cons.inj hcs
      rw [Text.byteLength_cons, ← Nat.add_assoc]
      exact ih hrest
  | @token pos cs l ts ss hl hrest ih =>
    obtain ⟨hword, hspells, -⟩ := lexeme?_eq_some_iff.1 hl
    rw [hword] at hcs
    rcases List.append_eq_append_iff.1 hcs with ⟨more, rfl, hmore⟩ | ⟨more, hmore, hafter⟩
    · rw [Text.byteLength_append, ← Nat.add_assoc]
      exact List.mem_cons_of_mem _ (ih hmore)
    · cases more with
      | nil =>
        rw [List.append_nil] at hmore
        have hmem := @ih [] hafter.symm
        rw [hmore] at hmem
        exact List.mem_cons_of_mem _ hmem
      | cons c more =>
        -- the sign starts in the word, so the word starts with it
        obtain ⟨rfl, -⟩ := List.cons.inj hafter
        rw [hmore] at hspells
        obtain rfl := eq_nil_of_spells_colon hspells
        rw [hword, hcs] at hl
        obtain rfl := Option.some.inj hl
        exact List.mem_cons_self

theorem eq_of_loc_eq (h : Parted pos cs ts ss) {t u : Token} (ht : t ∈ ts) (hu : u ∈ ts)
    (hloc : t.loc = u.loc) : t = u := by
  have hne : ts.Pairwise fun a b => a.loc ≠ b.loc := h.pairwise_tokens.imp Nat.ne_of_lt
  have : Std.Symm fun a b : Token => a.loc ≠ b.loc := ⟨fun _ _ => Ne.symm⟩
  by_contra hdiffer
  exact hne.forall ht hu hdiffer hloc

end Parted

/-! ## Bytes beside a token -/

namespace Text

/-- A text is cut in one way at an offset. -/
theorem append_inj {a b c d : List Char} (h : a ++ b = c ++ d)
    (hlength : byteLength a = byteLength c) : a = c ∧ b = d := by
  have hcut := splitAt?_append a b
  rw [h, hlength, splitAt?_append, Option.some.injEq, Prod.mk.injEq] at hcut
  exact ⟨hcut.1.symm, hcut.2.symm⟩

variable {source : String} {front back : List Char} {n : Nat} {b : UInt8}

theorem exists_of_byte?_before (hs : source.toList = front ++ back)
    (hn : byteLength front = n + 1) (hb : byte? source n = some b) :
    ∃ c ∈ front.getLast?, b ∈ String.utf8EncodeChar c := by
  rw [byte?_eq, hs, bytes_append] at hb
  induction front using List.reverseRecOn with
  | nil => cases hn
  | append_singleton front c _ =>
    have hc := c.utf8Size_pos
    have hlength : (bytes front).length + (String.utf8EncodeChar c).length = n + 1 := by
      rw [length_bytes, String.length_utf8EncodeChar, ← hn]
      simp
    rw [String.length_utf8EncodeChar] at hlength
    rw [bytes_append, bytes_cons, List.append_assoc, List.append_assoc,
      List.getElem?_append_right (by omega),
      List.getElem?_append_left (by rw [String.length_utf8EncodeChar]; omega)] at hb
    exact ⟨c, by simp, List.mem_of_getElem? hb⟩

end Text

/-! ## Literals -/

/-- The number that digits write, the last of which counts ones. -/
def decimal (digits : List Char) : Nat :=
  Nat.ofDigits 10 (digits.reverse.map fun c => c.toNat - '0'.toNat)

theorem ofDigitChars_eq_decimal (digits : List Char) :
    Nat.ofDigitChars 10 digits 0 = decimal digits := by
  induction digits using List.reverseRecOn with
  | nil => rfl
  | append_singleton digits c ih =>
    rw [Nat.ofDigitChars_append, ih, Nat.ofDigitChars_cons, Nat.ofDigitChars_nil]
    simp only [decimal, List.reverse_concat, List.map_cons, Nat.ofDigits_cons]
    exact Nat.add_comm _ _

/-- The value of a literal that writes `n`: it is known as far as 64-bit words go. -/
def Value.IsLiteral (v : Value) (n : Nat) : Prop :=
  (n ≤ 2 ^ 63 - 1 → ∃ w : Int64, v = some w ∧ w.toInt = n) ∧ (2 ^ 63 - 1 < n → v = none)

theorem isLiteral_value {t : Token} (h : t.kind = .number) {digits : List Char}
    (htext : t.text = String.ofList digits) : t.value.IsLiteral (decimal digits) := by
  rw [Token.value, h, htext, String.toList_ofList, ofDigitChars_eq_decimal]
  dsimp only
  generalize decimal digits = n
  constructor
  · intro hn
    have hword : (Int64.ofInt n).toInt = n :=
      Int64.toInt_ofInt_of_le (by omega) (by omega)
    exact ⟨Int64.ofInt n, Value.ofInt?_eq_some_iff.2 hword, hword⟩
  · intro hn
    cases hv : Value.ofInt? n with
    | none => rfl
    | some w =>
      have := Value.ofInt?_eq_some_iff.1 hv
      have := w.toInt_lt
      omega

/-! ## The whole source -/

/-- The tokens are as long as they can be, the literals are exact, and no character is skipped
that belongs to a token. -/
structure LongestMatch (source : String) (tokens : List Token) (skipped : List Skipped) :
    Prop where
  text : ∀ t ∈ tokens, Text.slice? source t.loc t.len = some t.text
  number : ∀ t ∈ tokens, t.kind = .number →
    (t.text.toList ≠ [] ∧ ∀ c ∈ t.text.toList, c.isDigit = true) ∧
    (∀ n b, t.loc = n + 1 → Text.byte? source n = some b → isWordByte b = false) ∧
    (∀ b, Text.byte? source (t.loc + t.len) = some b → isDigitByte b = false) ∧
    t.value.IsLiteral (decimal t.text.toList)
  name : ∀ t ∈ tokens, t.kind = .name →
    spells .name t.text.toList = true ∧
    ∀ b, Text.byte? source (t.loc + t.len) = some b → isWordByte b = false
  becomes : ∀ loc, FoundAt source loc [':', '='] →
    ∃! t, t ∈ tokens ∧ t.loc = loc ∧ t.kind = .becomes ∧ t.text = ":="
  skipped : ∀ s ∈ skipped, s.char.isAlphanum = false ∧ s.char ≠ '_' ∧ s.char ∉ blanks ∧
    s.char ∉ punctuators ∧ ¬ FoundAt source s.loc [':', '=']

theorem exists_lexeme_of_mem_tokenize {source : String} {t : Token}
    (ht : t ∈ (tokenize source).1) (hk : t.kind ≠ .eof) :
    ∃ front l, source.toList = front ++ (l.word ++ l.rest) ∧ Settled front (l.word ++ l.rest) ∧
      lexeme? (l.word ++ l.rest) = some l ∧
      t = ⟨l.kind, String.ofList l.word, Text.byteLength front⟩ := by
  obtain ⟨ts, htokens, hparted⟩ := tokenize_eq_parted source
  rw [htokens] at ht
  rcases List.mem_append.1 ht with ht | ht
  · exact hparted.exists_lexeme [] rfl (fun c hc => by cases hc) t ht
  · obtain rfl := List.mem_singleton.1 ht
    exact absurd rfl hk

/-- The byte right behind a token starts the text behind its word. -/
theorem exists_of_byte?_behind {source : String} {front : List Char} {l : Lexeme} {b : UInt8}
    (hs : source.toList = front ++ (l.word ++ l.rest))
    (hb : Text.byte? source (Text.byteLength front + Text.byteLength l.word) = some b) :
    ∃ c ∈ l.rest.head?, b ∈ String.utf8EncodeChar c := by
  rw [← Text.byteLength_append] at hb
  rw [← List.append_assoc] at hs
  exact Text.exists_of_byte?_after hs hb

/-- A number does not start in the middle of a name or of another number. -/
theorem Settled.not_isNameChar {front word rest : List Char} (h : Settled front (word ++ rest))
    (hword : spells .number word = true) : ∀ c ∈ front.getLast?, isNameChar c = false := by
  intro c hc
  refine Bool.eq_false_iff.2 fun hname => ?_
  obtain ⟨hne, hdigits⟩ := spells_number_iff.1 hword
  obtain ⟨d, word, rfl⟩ := List.exists_cons_of_ne_nil hne
  have hd := hdigits d List.mem_cons_self
  rw [h c hc hname d rfl] at hd
  cases hd

/-- Scanning takes the longest match everywhere. -/
theorem tokenize_longest_match (source : String) :
    LongestMatch source (tokenize source).1 (tokenize source).2 := by
  obtain ⟨ts, htokens, hparted⟩ := tokenize_eq_parted source
  constructor
  case text => exact fun t ht => (foundAt_of_mem_tokenize ht).slice?_token
  case number =>
    intro t ht hk
    obtain ⟨front, ⟨kind, word, rest⟩, hs, hsettled, hl, rfl⟩ :=
      exists_lexeme_of_mem_tokenize ht (by rw [hk]; decide)
    obtain rfl : kind = .number := hk
    obtain ⟨-, hspells, hstops⟩ := lexeme?_eq_some_iff.1 hl
    rw [Token.len, String.toList_ofList]
    refine ⟨spells_number_iff.1 hspells, ?_, ?_, isLiteral_value rfl rfl⟩
    · intro n b hn hb
      obtain ⟨c, hc, hmem⟩ := Text.exists_of_byte?_before hs hn hb
      exact (isWordByte_eq hmem).trans (hsettled.not_isNameChar hspells c hc)
    · intro b hb
      obtain ⟨c, hc, hmem⟩ := exists_of_byte?_behind hs hb
      exact (isDigitByte_eq hmem).trans (stops_number_iff.1 hstops c hc)
  case name =>
    intro t ht hk
    obtain ⟨front, ⟨kind, word, rest⟩, hs, -, hl, rfl⟩ :=
      exists_lexeme_of_mem_tokenize ht (by rw [hk]; decide)
    obtain rfl : kind = .name := hk
    obtain ⟨-, hspells, hstops⟩ := lexeme?_eq_some_iff.1 hl
    rw [Token.len, String.toList_ofList]
    refine ⟨hspells, fun b hb => ?_⟩
    obtain ⟨c, hc, hmem⟩ := exists_of_byte?_behind hs hb
    exact (isWordByte_eq hmem).trans (stops_name_iff.1 hstops c hc)
  case becomes =>
    rintro loc ⟨front, back, hs, rfl⟩
    rw [List.append_assoc] at hs
    have hmem := hparted.exists_becomes hs
    rw [Nat.zero_add] at hmem
    refine ⟨⟨.becomes, ":=", Text.byteLength front⟩, ⟨?_, rfl, rfl, rfl⟩, ?_⟩
    · rw [htokens]
      exact List.mem_append_left _ hmem
    · rintro t ⟨ht, hloc, hk, -⟩
      rw [htokens] at ht
      rcases List.mem_append.1 ht with ht | ht
      · exact hparted.eq_of_loc_eq ht hmem hloc
      · obtain rfl := List.mem_singleton.1 ht
        cases hk
  case skipped =>
    intro s hs
    obtain ⟨front, back, hsource, hloc, hblank, hl⟩ :=
      hparted.exists_skipped [] rfl s hs
    obtain ⟨hname, hpunctuator, hbecomes⟩ := lexeme?_eq_none_iff.1 hl
    have hword : s.char.isAlphanum = false ∧ s.char ≠ '_' := by simpa [isNameChar] using hname
    refine ⟨hword.1, hword.2, ?_, hpunctuator, ?_⟩
    · rw [mem_blanks_iff, hblank]
      decide
    · rintro ⟨front', back', hs', hloc'⟩
      rw [List.append_assoc] at hs'
      obtain ⟨-, htext⟩ := Text.append_inj (hs'.symm.trans hsource) (hloc'.symm.trans hloc)
      exact hbecomes ⟨back', htext⟩

end OnePass
