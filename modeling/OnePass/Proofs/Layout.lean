import Mathlib.Data.List.Forall2
import OnePass.Proofs.LongestMatch

/-!
Words laid out as a text.

A layout is a row of words with a separator before each and one more behind them.  In a
separator may stand whatever belongs to no token, blank or not; between two words it may
not be empty.  Lexing a layout gives its words back, and the characters that are skipped are
those of the separators.

A text falls into pieces in one way only.  So it is enough to say how a layout falls into
pieces, word by word and separator by separator, and nothing has to be scanned.
-/

namespace OnePass

/-! ## One way to part a text -/

theorem Parted.unique {pos : Nat} {cs : List Char} {ts us : List Token} {ss rs : List Skipped}
    (h : Parted pos cs ts ss) (h' : Parted pos cs us rs) : ts = us ∧ ss = rs := by
  induction h generalizing us rs with
  | nil pos =>
    cases h' with
    | nil => exact ⟨rfl, rfl⟩
    | token hl _ => cases hl
  | @blank pos c cs ts ss hb hrest ih =>
    cases h' with
    | blank _ hrest' => exact ih hrest'
    | skipped hb' _ _ => simp [hb] at hb'
    | token hl _ => simp [lexeme?_of_isBlank hb] at hl
  | @skipped pos c cs ts ss hb hl hrest ih =>
    cases h' with
    | blank hb' _ => simp [hb] at hb'
    | skipped _ _ hrest' =>
      obtain ⟨rfl, rfl⟩ := ih hrest'
      exact ⟨rfl, rfl⟩
    | token hl' _ => simp [hl] at hl'
  | @token pos cs l ts ss hl hrest ih =>
    cases h' with
    | nil => cases hl
    | blank hb' _ => simp [lexeme?_of_isBlank hb'] at hl
    | skipped _ hl' _ => simp [hl'] at hl
    | token hl' hrest' =>
      rw [hl] at hl'
      obtain rfl := Option.some.inj hl'
      obtain ⟨rfl, rfl⟩ := ih hrest'
      exact ⟨rfl, rfl⟩

/-! ## Layouts -/

/-- Characters between words: none belongs to a token. -/
structure Separator where
  chars : List Char
  foreign : ∀ c ∈ chars, c.isAlphanum = false ∧ c ≠ '_' ∧ c ∉ punctuators
  no_becomes : ¬ [':', '='] <:+: chars

/-- A token as it is written. -/
structure Spelling where
  kind : TokenKind
  chars : List Char
  legal : spells kind chars = true

/-- Words, each with the separator before it, and the separator behind the last. -/
structure Layout where
  words : List (Separator × Spelling)
  last : Separator
  /-- Only the first word may have nothing before it. -/
  apart : ∀ w ∈ words.tail, w.1.chars ≠ []

namespace Layout

/-- The text of words with their separators. -/
def text (words : List (Separator × Spelling)) (last : Separator) : List Char :=
  words.flatMap (fun w => w.1.chars ++ w.2.chars) ++ last.chars

def source (l : Layout) : String :=
  String.ofList (text l.words l.last)

/-- The characters of all the separators, in order. -/
def between (words : List (Separator × Spelling)) (last : Separator) : List Char :=
  words.flatMap (fun w => w.1.chars) ++ last.chars

theorem text_cons (s : Separator) (w : Spelling) (words : List (Separator × Spelling))
    (last : Separator) :
    text ((s, w) :: words) last = s.chars ++ (w.chars ++ text words last) := by
  simp [text]

theorem between_cons (s : Separator) (w : Spelling) (words : List (Separator × Spelling))
    (last : Separator) : between ((s, w) :: words) last = s.chars ++ between words last := by
  simp [between]

end Layout

/-! ## Separators -/

theorem Separator.not_isNameChar (s : Separator) : ∀ c ∈ s.chars, isNameChar c = false := by
  intro c hc
  obtain ⟨hword, hunderscore, -⟩ := s.foreign c hc
  simp [isNameChar, hword, hunderscore]

/-- A text of which no character belongs to a token is skipped, but for its blanks, if what
comes next does not make `:=` of its end. -/
theorem parted_foreign {cs more : List Char} {pos : Nat} {ts : List Token}
    {ss : List Skipped} (hforeign : ∀ c ∈ cs, isNameChar c = false ∧ c ∉ punctuators)
    (hbecomes : ¬ [':', '='] <:+: cs) (hmore : more.head? ≠ some '=')
    (h : Parted (pos + Text.byteLength cs) more ts ss) :
    ∃ skipped, Parted pos (cs ++ more) ts (skipped ++ ss) ∧
      skipped.map Skipped.char = cs.filter (· ∉ blanks) := by
  induction cs generalizing pos with
  | nil => exact ⟨[], h, rfl⟩
  | cons c cs ih =>
    rw [Text.byteLength_cons, ← Nat.add_assoc] at h
    obtain ⟨hc, hcs⟩ := List.forall_mem_cons.1 hforeign
    obtain ⟨skipped, hparted, hchars⟩ :=
      ih hcs (fun hinfix => hbecomes (List.infix_cons hinfix)) h
    by_cases hb : isBlank c = true
    · refine ⟨skipped, .blank hb hparted, ?_⟩
      rw [hchars, List.filter_cons_of_neg (by simp [mem_blanks_iff, hb])]
    · have hl : lexeme? (c :: (cs ++ more)) = none := by
        refine lexeme?_eq_none_iff.2 ⟨hc.1, hc.2, ?_⟩
        rintro ⟨rest, hrest⟩
        obtain ⟨rfl, hnext⟩ := List.cons.inj hrest
        cases cs with
        | nil => exact hmore (congrArg List.head? hnext.symm)
        | cons d cs =>
          obtain ⟨rfl, -⟩ := List.cons.inj hnext
          exact hbecomes ⟨[], cs, rfl⟩
      refine ⟨⟨pos, c⟩ :: skipped, .skipped (Bool.eq_false_iff.2 hb) hl hparted, ?_⟩
      rw [List.map_cons, hchars, List.filter_cons_of_pos (by simp [mem_blanks_iff, hb])]

theorem Separator.parted (s : Separator) {more : List Char} {pos : Nat} {ts : List Token}
    {ss : List Skipped} (hmore : more.head? ≠ some '=')
    (h : Parted (pos + Text.byteLength s.chars) more ts ss) :
    ∃ skipped, Parted pos (s.chars ++ more) ts (skipped ++ ss) ∧
      skipped.map Skipped.char = s.chars.filter (· ∉ blanks) :=
  parted_foreign (fun c hc => ⟨s.not_isNameChar c hc, (s.foreign c hc).2.2⟩) s.no_becomes hmore h

/-! ## Words -/

theorem Spelling.exists_cons (w : Spelling) : ∃ c cs, w.chars = c :: cs ∧ c ≠ '=' := by
  rcases spells_cases w.legal with hkind | hword | ⟨c, hc, hword⟩
  · have hall := all_isNameChar_of_spells w.legal hkind
    cases hw : w.chars with
    | nil =>
      have hlegal := w.legal
      rw [hw] at hlegal
      rcases hkind with hkind | hkind <;> rw [hkind] at hlegal <;> cases hlegal
    | cons c cs =>
      refine ⟨c, cs, rfl, ?_⟩
      rintro rfl
      cases hall '=' (by rw [hw]; exact List.mem_cons_self)
  · exact ⟨':', ['='], hword, by decide⟩
  · refine ⟨c, [], hword, ?_⟩
    rintro rfl
    revert hc
    decide

/-- The token tells the word as it is written, and the number that it writes. -/
structure Spelling.ReadBack (w : Spelling) (t : Token) : Prop where
  kind_eq : t.kind = w.kind
  text_eq : t.text = String.ofList w.chars
  value : w.kind = .number → t.value.IsLiteral (decimal w.chars)

theorem Spelling.readBack (w : Spelling) (pos : Nat) :
    w.ReadBack ⟨w.kind, String.ofList w.chars, pos⟩ where
  kind_eq := rfl
  text_eq := rfl
  value hkind := isLiteral_value hkind rfl

theorem stops_of_head? {rest : List Char} (h : ∀ c ∈ rest.head?, isNameChar c = false)
    (kind : TokenKind) : stops kind rest = true := by
  cases kind with
  | number => exact stops_number_iff.2 fun c hc => not_isDigit_of_not_isNameChar (h c hc)
  | name => exact stops_name_iff.2 h
  | _ => rfl

namespace Layout

/-- What comes behind a word does not go on with it. -/
theorem head?_text {words : List (Separator × Spelling)} {last : Separator}
    (h : ∀ w ∈ words, w.1.chars ≠ []) : ∀ c ∈ (text words last).head?, isNameChar c = false := by
  intro c hc
  cases words with
  | nil => exact last.not_isNameChar c (List.mem_of_head? hc)
  | cons w words =>
    obtain ⟨d, cs, hcs⟩ := List.exists_cons_of_ne_nil (h w List.mem_cons_self)
    rw [text_cons, hcs] at hc
    obtain rfl := Option.some.inj hc
    exact w.1.not_isNameChar d (by rw [hcs]; exact List.mem_cons_self)

theorem parted_text {words : List (Separator × Spelling)} (last : Separator)
    (h : ∀ w ∈ words.tail, w.1.chars ≠ []) (pos : Nat) :
    ∃ ts ss, Parted pos (text words last) ts ss ∧
      List.Forall₂ (fun w t => w.2.ReadBack t) words ts ∧
      ss.map Skipped.char = (between words last).filter (· ∉ blanks) := by
  induction words generalizing pos with
  | nil =>
    obtain ⟨ss, hparted, hchars⟩ := last.parted (by simp) (.nil (pos + Text.byteLength last.chars))
    rw [List.append_nil, List.append_nil] at hparted
    exact ⟨[], ss, hparted, .nil, hchars⟩
  | cons w words ih =>
    obtain ⟨s, w⟩ := w
    have hwords : ∀ v ∈ words, v.1.chars ≠ [] := h
    obtain ⟨ts, ss, hparted, hread, hchars⟩ :=
      ih (fun v hv => hwords v (List.mem_of_mem_tail hv))
        (pos + Text.byteLength s.chars + Text.byteLength w.chars)
    have hl : lexeme? (w.chars ++ text words last) = some ⟨w.kind, w.chars, text words last⟩ :=
      lexeme?_eq_some_iff.2 ⟨rfl, w.legal, stops_of_head? (head?_text hwords) w.kind⟩
    have hmore : (w.chars ++ text words last).head? ≠ some '=' := by
      obtain ⟨c, cs, hcs, hc⟩ := w.exists_cons
      rw [hcs]
      exact fun heq => hc (Option.some.inj heq)
    obtain ⟨skipped, hparted, hskipped⟩ := s.parted hmore (.token hl hparted)
    have hall : (skipped ++ ss).map Skipped.char =
        (between ((s, w) :: words) last).filter (· ∉ blanks) := by
      rw [List.map_append, hskipped, hchars, between_cons, List.filter_append]
    rw [text_cons]
    exact ⟨_, _, hparted, .cons (w.readBack _) hread, hall⟩

end Layout

/-- Lexing gives back the words of a layout, and skips the characters between them. -/
theorem tokenize_layout (l : Layout) :
    ∃ tokens, (tokenize l.source).1 = tokens ++ [Token.endOfSource l.source.utf8ByteSize] ∧
      List.Forall₂ (fun w t => w.2.ReadBack t) l.words tokens ∧
      (∀ t ∈ tokens, Text.slice? l.source t.loc t.len = some t.text) ∧
      (tokenize l.source).2.map Skipped.char =
        (Layout.between l.words l.last).filter (· ∉ blanks) := by
  obtain ⟨tokens, htokens, hparted⟩ := tokenize_eq_parted l.source
  obtain ⟨ts, ss, hlaid, hread, hchars⟩ := Layout.parted_text l.last l.apart 0
  rw [Layout.source, String.toList_ofList] at hparted
  obtain ⟨rfl, hskipped⟩ := hlaid.unique hparted
  have htexts : ∀ t ∈ ts, Text.slice? l.source t.loc t.len = some t.text := by
    intro t ht
    have hmem : t ∈ (tokenize l.source).1 := by
      rw [htokens]
      exact List.mem_append_left _ ht
    exact (foundAt_of_mem_tokenize hmem).slice?_token
  refine ⟨ts, htokens, hread, htexts, ?_⟩
  rw [← hchars, hskipped]
  rfl

/-- A colon stands before `:=` and an equals sign behind it, and digits follow a foreign letter. -/
def crowded : Layout where
  words :=
    [(⟨[], by simp, by decide⟩, ⟨.name, ['x'], rfl⟩),
      (⟨[':'], List.forall_mem_singleton.2 (by decide), by decide⟩, ⟨.becomes, [':', '='], rfl⟩),
      (⟨['=', 'é'], List.forall_mem_cons.2 ⟨by decide, List.forall_mem_singleton.2 (by decide)⟩,
        by decide⟩, ⟨.number, ['0', '0', '7'], rfl⟩),
      (⟨['@'], List.forall_mem_singleton.2 (by decide), by decide⟩, ⟨.name, ['_'], rfl⟩)]
  last := ⟨[':'], List.forall_mem_singleton.2 (by decide), by decide⟩
  apart := by simp

theorem tokenize_layout_crowded :
    crowded.source = "x::==é007@_:" ∧
      ∃ tokens, (tokenize "x::==é007@_:").1 = tokens ++ [Token.endOfSource 13] ∧
        tokens.map (fun t => (t.kind, t.text)) =
          [(.name, "x"), (.becomes, ":="), (.number, "007"), (.name, "_")] ∧
        (∀ t ∈ tokens, Text.slice? "x::==é007@_:" t.loc t.len = some t.text) ∧
        (tokenize "x::==é007@_:").2.map Skipped.char = [':', '=', 'é', '@', ':'] := by
  have hsource : crowded.source = "x::==é007@_:" := by decide
  obtain ⟨tokens, htokens, hread, htexts, hskipped⟩ := tokenize_layout crowded
  rw [hsource] at htokens htexts hskipped
  refine ⟨hsource, tokens, htokens, ?_, htexts, hskipped⟩
  unfold crowded at hread
  obtain _ | ⟨hx, _ | ⟨hbecomes, _ | ⟨hnumber, _ | ⟨hname, ⟨⟩⟩⟩⟩⟩ := hread
  simp [hx.kind_eq, hx.text_eq, hbecomes.kind_eq, hbecomes.text_eq, hnumber.kind_eq,
    hnumber.text_eq, hname.kind_eq, hname.text_eq]

end OnePass
