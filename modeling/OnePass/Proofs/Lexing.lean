import OnePass.Lexer

/-!
Where tokens stand in a source, and the row of tokens that a lexer has before it.

A lexer that started at the beginning of its source always stands between two
characters, and so does everything it yields: a token is the text found at its offset,
and a skipped character is the one found at its own.  So all the cuts that are made at
these offsets exist.
-/

namespace OnePass

/-! ## Places -/

/-- The characters `word` are found at byte `loc` of a source. -/
def FoundAt (source : String) (loc : Nat) (word : List Char) : Prop :=
  ∃ front back, source.toList = front ++ word ++ back ∧ loc = Text.byteLength front

namespace FoundAt

variable {source : String} {loc : Nat} {word : List Char}

theorem isBoundary (h : FoundAt source loc word) : Text.isBoundary source.toList loc = true := by
  obtain ⟨front, back, hs, rfl⟩ := h
  rw [hs, List.append_assoc]
  exact Text.isBoundary_append front (word ++ back)

/-- Behind the characters that are found, the source can be cut again. -/
theorem isBoundary_stop (h : FoundAt source loc word) :
    Text.isBoundary source.toList (loc + Text.byteLength word) = true := by
  obtain ⟨front, back, hs, rfl⟩ := h
  rw [hs, ← Text.byteLength_append]
  exact Text.isBoundary_append (front ++ word) back

theorem slice? (h : FoundAt source loc word) :
    Text.slice? source loc (Text.byteLength word) = some (String.ofList word) := by
  obtain ⟨front, back, hs, rfl⟩ := h
  have hcut := Text.splitAt?_append front (word ++ back)
  rw [← List.append_assoc, ← hs] at hcut
  simp [Text.slice?, hcut, Text.splitAt?_append]

/-- The marker at a place that is found counts the characters before it. -/
theorem place? (h : FoundAt source loc word) :
    ∃ front back, source.toList = front ++ word ++ back ∧
      Marker.place? source loc = some { source, column := front.length } := by
  obtain ⟨front, back, hs, rfl⟩ := h
  refine ⟨front, back, hs, ?_⟩
  have hplace := Marker.place?_ofList_append front (word ++ back)
  rw [← List.append_assoc, ← hs, String.ofList_toList] at hplace
  exact hplace

theorem isSome_place? (h : FoundAt source loc word) :
    (Marker.place? source loc).isSome = true := by
  obtain ⟨front, back, -, hm⟩ := h.place?
  rw [hm]
  rfl

theorem slice?_token {t : Token} (h : FoundAt source t.loc t.text.toList) :
    Text.slice? source t.loc t.len = some t.text := by
  have hslice := h.slice?
  rwa [String.ofList_toList] at hslice

theorem describeAt? {t : Token} (h : FoundAt source t.loc t.text.toList) :
    Token.describeAt? source t.kind t.loc t.len = some t.describe := by
  unfold Token.describeAt? Token.describe
  split
  · rfl
  · exact h.slice?_token

end FoundAt

/-! ## One scan -/

/-- The scan of the text behind `front` finds its token and all that it skips in the whole
text, and stops right behind the token. -/
theorem scan_foundAt {source : String} (front cs : List Char) (hs : source.toList = front ++ cs) :
    (∃ back, source.toList = back ++ (scan (Text.byteLength front) cs).rest ∧
      (scan (Text.byteLength front) cs).pos = Text.byteLength back) ∧
    FoundAt source (scan (Text.byteLength front) cs).token.loc
      (scan (Text.byteLength front) cs).token.text.toList ∧
    ∀ s ∈ (scan (Text.byteLength front) cs).skipped, FoundAt source s.loc [s.char] := by
  induction cs generalizing front with
  | nil =>
    refine ⟨⟨front, hs, rfl⟩, ⟨front, [], ?_, rfl⟩, ?_⟩
    · simpa [scan, Token.endOfSource] using hs
    · simp [scan]
  | cons c cs ih =>
    have hmore : source.toList = (front ++ [c]) ++ cs := by simpa using hs
    have hlen : Text.byteLength front + c.utf8Size = Text.byteLength (front ++ [c]) := by simp
    by_cases hb : isBlank c = true
    · have hscan : scan (Text.byteLength front) (c :: cs) =
          scan (Text.byteLength (front ++ [c])) cs := by
        rw [scan, if_pos hb, hlen]
      rw [hscan]
      exact ih (front ++ [c]) hmore
    · cases hl : lexeme? (c :: cs) with
      | some l =>
        have hword := eq_append_of_lexeme? hl
        rw [hword, ← List.append_assoc] at hs
        refine ⟨⟨front ++ l.word, ?_, ?_⟩, ⟨front, l.rest, ?_, ?_⟩, ?_⟩
        · simp [scan, hb, hl, hs]
        · simp [scan, hb, hl]
        · simp [scan, hb, hl, hs]
        · simp [scan, hb, hl]
        · simp [scan, hb, hl]
      | none =>
        obtain ⟨hrest, htoken, hskipped⟩ := ih (front ++ [c]) hmore
        rw [← hlen] at hrest htoken hskipped
        refine ⟨?_, ?_, ?_⟩
        · simpa [scan, hb, hl] using hrest
        · simpa [scan, hb, hl] using htoken
        · intro s hmem
          simp only [scan, if_neg hb, hl, List.mem_cons] at hmem
          rcases hmem with rfl | hmem
          · exact ⟨front, cs, by simpa using hs, rfl⟩
          · exact hskipped s hmem

theorem scan_pos_add (pos : Nat) (cs : List Char) :
    (scan pos cs).pos + Text.byteLength (scan pos cs).rest = pos + Text.byteLength cs := by
  fun_induction scan pos cs with
  | case1 pos => rfl
  | case2 pos c cs hb ih => rw [ih, Text.byteLength_cons, Nat.add_assoc]
  | case3 pos c cs hb l hl =>
    rw [eq_append_of_lexeme? hl, Text.byteLength_append, Nat.add_assoc]
  | case4 pos c cs hb hl later ih => rw [ih, Text.byteLength_cons, Nat.add_assoc]

namespace Lexer

/-! ## Lexers in place -/

/-- The lexer stands between two characters of its source, with the text behind that
place before it, and what it skipped is found in the source. -/
structure InPlace (l : Lexer) : Prop where
  rest : ∃ front, l.source.toList = front ++ l.rest ∧ l.pos = Text.byteLength front
  skipped : ∀ s ∈ l.skipped, FoundAt l.source s.loc [s.char]

theorem inPlace_new (source : String) : (new source).InPlace where
  rest := ⟨[], rfl, rfl⟩
  skipped := by simp [new]

theorem inPlace_reset (l : Lexer) : l.reset.InPlace :=
  inPlace_new l.source

theorem InPlace.token {l : Lexer} (h : l.InPlace) :
    FoundAt l.source (scan l.pos l.rest).token.loc (scan l.pos l.rest).token.text.toList := by
  obtain ⟨⟨front, hs, hpos⟩, _⟩ := h
  rw [hpos]
  exact (scan_foundAt front l.rest hs).2.1

theorem InPlace.scanned {l : Lexer} (h : l.InPlace) : l.scanned.InPlace := by
  obtain ⟨⟨front, hs, hpos⟩, hskipped⟩ := h
  have hscan := scan_foundAt front l.rest hs
  rw [← hpos] at hscan
  refine ⟨hscan.1, ?_⟩
  intro s hmem
  simp only [Lexer.scanned, List.mem_append] at hmem
  rcases hmem with hmem | hmem
  · exact hskipped s hmem
  · exact hscan.2.2 s hmem

theorem source_scanned (l : Lexer) : l.scanned.source = l.source := rfl

theorem next_of_finished {l : Lexer} (h : l.finished = true) :
    l.next = (Token.endOfSource l.pos, l) := by
  rw [next, next?_of_finished h, Option.getD_none]

theorem next_of_not_finished {l : Lexer} (h : l.finished = false) :
    l.next = ((scan l.pos l.rest).token, l.scanned) := by
  rw [next, next?_of_not_finished h, Option.getD_some]

@[simp]
theorem source_next (l : Lexer) : l.next.2.source = l.source := by
  cases h : l.finished with
  | true => rw [next_of_finished h]
  | false => rw [next_of_not_finished h, source_scanned]

theorem InPlace.next {l : Lexer} (h : l.InPlace) : l.next.2.InPlace := by
  cases hf : l.finished with
  | true => rwa [next_of_finished hf]
  | false =>
    rw [next_of_not_finished hf]
    exact h.scanned

/-- What `next` yields is found in the source, also when it tells of the end again. -/
theorem InPlace.next_token {l : Lexer} (h : l.InPlace) :
    FoundAt l.source l.next.1.loc l.next.1.text.toList := by
  cases hf : l.finished with
  | true =>
    rw [next_of_finished hf]
    obtain ⟨⟨front, hs, hpos⟩, _⟩ := h
    exact ⟨front, l.rest, by simpa [Token.endOfSource] using hs, hpos⟩
  | false =>
    rw [next_of_not_finished hf]
    exact h.token

/-- Everything that a lexer in place still yields or skips is found in its source. -/
theorem InPlace.drain {l : Lexer} (h : l.InPlace) :
    l.drain.2.InPlace ∧ l.drain.2.source = l.source ∧
      ∀ t ∈ l.drain.1, FoundAt l.source t.loc t.text.toList := by
  fun_induction Lexer.drain l with
  | case1 l hf => exact ⟨h, rfl, by simp⟩
  | case2 l hf _ tokens last hd ih =>
    have hrest := ih h.scanned
    rw [hd] at hrest
    obtain ⟨hlast, hsource, htokens⟩ := hrest
    refine ⟨hlast, hsource, ?_⟩
    intro t hmem
    rcases List.mem_cons.1 hmem with rfl | hmem
    · exact h.token
    · exact htokens t hmem

/-- The lexers that a caller can hold: a new one, and what comes of one by reading tokens
and going back to the start. -/
inductive Reachable : Lexer → Prop
  | new (source : String) : Reachable (new source)
  | next {l m : Lexer} {t : Token} (hl : Reachable l) (h : l.next? = some (t, m)) : Reachable m
  | reset {l : Lexer} (hl : Reachable l) : Reachable l.reset

theorem Reachable.inPlace {l : Lexer} (h : Reachable l) : l.InPlace := by
  induction h with
  | new source => exact inPlace_new source
  | @next l m t hl h ih =>
    cases hf : l.finished with
    | true => simp [next?_of_finished hf] at h
    | false =>
      rw [next?_of_not_finished hf, Option.some.injEq, Prod.mk.injEq] at h
      rw [← h.2]
      exact ih.scanned
  | reset hl ih => exact inPlace_reset _

/-! ## The tokens to come -/

/-- The tokens still to come, without the one that ends the source. -/
def coming (l : Lexer) : List Token :=
  l.drain.1.dropLast

theorem coming_of_finished {l : Lexer} (h : l.finished = true) : l.coming = [] := by
  rw [coming, drain_of_finished h, List.dropLast_nil]

theorem drain_ne_nil {l : Lexer} (h : l.finished = false) : l.drain.1 ≠ [] := by
  rw [drain_of_not_finished h]
  exact List.cons_ne_nil _ _

theorem coming_eq (l : Lexer) :
    l.coming = if l.next.1.kind = .eof then [] else l.next.1 :: l.next.2.coming := by
  cases hf : l.finished with
  | true =>
    rw [coming_of_finished hf, next_of_finished hf]
    rfl
  | false =>
    rw [next_of_not_finished hf, coming, drain_of_not_finished hf]
    by_cases hk : (scan l.pos l.rest).token.kind = .eof
    · have hend : l.scanned.finished = true := by simp [Lexer.scanned, hk]
      rw [if_pos hk, drain_of_finished hend, List.dropLast_singleton]
    · have hmore : l.scanned.finished = false := by simp [Lexer.scanned, hk]
      rw [if_neg hk, List.dropLast_cons_of_ne_nil (drain_ne_nil hmore), coming]

theorem kind_ne_eof_of_mem_coming {l : Lexer} {t : Token} (h : t ∈ l.coming) :
    t.kind ≠ .eof := by
  fun_induction Lexer.drain l with
  | case1 l hf => simp [coming_of_finished hf] at h
  | case2 l hf _ tokens last hd ih =>
    rw [coming_eq] at h
    split at h
    · simp at h
    · next hk =>
      rcases List.mem_cons.1 h with rfl | h
      · exact hk
      · rw [next_of_not_finished (Bool.eq_false_iff.2 hf)] at h
        exact ih h

end Lexer

/-- The tokens of a source, without the one that ends it. -/
def sourceTokens (source : String) : List Token :=
  (tokenize source).1.dropLast

theorem foundAt_of_mem_tokenize {source : String} {t : Token} (h : t ∈ (tokenize source).1) :
    FoundAt source t.loc t.text.toList :=
  (Lexer.inPlace_new source).drain.2.2 t h

theorem foundAt_of_mem_sourceTokens {source : String} {t : Token}
    (h : t ∈ sourceTokens source) : FoundAt source t.loc t.text.toList :=
  foundAt_of_mem_tokenize ((List.dropLast_subset _) h)

theorem foundAt_of_mem_skipped {source : String} {s : Skipped} (h : s ∈ (tokenize source).2) :
    FoundAt source s.loc [s.char] := by
  obtain ⟨hlast, hsource, _⟩ := (Lexer.inPlace_new source).drain
  have hfound := hlast.skipped s h
  rwa [hsource] at hfound

end OnePass
