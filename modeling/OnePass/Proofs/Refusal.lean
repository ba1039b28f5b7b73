import OnePass.Proofs.Internal
import OnePass.Proofs.Viable

/-!
Where a run refuses a source that is not one of sentences.

The tokens of a source stand in a row, the last of which ends it.  A run reads them from
the front, and it complains of the first at which no sentence can go on, unless it has
found fault with the meaning of what stands before.
-/

namespace OnePass

/-! ## The row of tokens -/

namespace Lexer

variable {l : Lexer}

theorem drain_eq_next_cons (h : l.finished = false) : l.drain.1 = l.next.1 :: l.next.2.drain.1 := by
  rw [drain_of_not_finished h, next_of_not_finished h]

theorem finished_next (h : l.finished = false) :
    l.next.2.finished = true ↔ l.next.1.kind = .eof := by
  rw [next_of_not_finished h]
  exact beq_iff_eq

/-- The row of tokens to come ends with the one that ends the source. -/
theorem drain_eq_coming_concat (h : l.finished = false) :
    ∃ last : Token, last.kind = .eof ∧ l.drain.1 = l.coming ++ [last] := by
  induction l using Lexer.drain.induct with
  | case1 l hf => simp [hf] at h
  | case2 l hf _ _ _ _ ih =>
    have hl := coming_eq l
    rw [drain_eq_next_cons h]
    by_cases hk : l.next.1.kind = .eof
    · have hend := (finished_next h).2 hk
      rw [if_pos hk] at hl
      exact ⟨l.next.1, hk, by rw [hl, drain_of_finished hend, List.nil_append]⟩
    · have hmore : l.next.2.finished = false :=
        Bool.eq_false_iff.2 fun hend => hk ((finished_next h).1 hend)
      rw [if_neg hk] at hl
      rw [next_of_not_finished h] at hmore hl ⊢
      obtain ⟨last, hlast, hrow⟩ := ih hmore
      exact ⟨last, hlast, by rw [hl, hrow, List.cons_append]⟩

end Lexer

namespace Parse

/-- The tokens that are not on the stack yet, with the one that ends the source. -/
def row (p : Parse) : List Token :=
  p.lookahead :: p.lexer.drain.1

/-- The lexer has yielded the end of the source if that is what the parse looks at, and not
before. -/
def InStep (p : Parse) : Prop :=
  p.lexer.finished = true ↔ p.lookahead.kind = .eof

variable {p q : Parse}

theorem inStep_start {l : Lexer} (h : l.finished = false) (c : Context) : (start l c).InStep :=
  Lexer.finished_next h

theorem row_start (source : String) (c : Context) :
    (start (Lexer.new source) c).row = (tokenize source).1 :=
  (Lexer.drain_eq_next_cons rfl).symm

theorem InStep.finished_eq_false (h : p.InStep) (hk : p.lookahead.kind ≠ .eof) :
    p.lexer.finished = false :=
  Bool.eq_false_iff.2 fun hf => hk (h.1 hf)

theorem InStep.shifted (h : p.InStep) (hk : p.lookahead.kind ≠ .eof) : p.shifted.InStep :=
  Lexer.finished_next (h.finished_eq_false hk)

theorem InStep.row_shifted (h : p.InStep) (hk : p.lookahead.kind ≠ .eof) :
    p.row = p.lookahead :: p.shifted.row := by
  rw [row, Lexer.drain_eq_next_cons (h.finished_eq_false hk)]
  rfl

theorem InStep.step (h : p.InStep) (hstep : p.step = .next q) : q.InStep ∧ q.row <:+ p.row := by
  unfold Parse.step at hstep
  split at hstep
  · next hmove =>
    obtain rfl := Step.next.inj hstep
    have hk := Decision.kind_ne_eof_of_next_eq_shift hmove
    refine ⟨h.shifted hk, ?_⟩
    rw [h.row_shifted hk]
    exact List.suffix_cons _ _
  · split at hstep
    · next hr =>
      obtain rfl := Step.next.inj hstep
      obtain ⟨hlexer, hlookahead⟩ := lexer_of_reduced hr
      rw [InStep, row, hlexer, hlookahead]
      exact ⟨h, List.suffix_refl _⟩
    · cases hstep
  · cases hstep
  · cases hstep

theorem Reaches.inStep (h : p.Reaches q) (hp : p.InStep) : q.InStep ∧ q.row <:+ p.row := by
  induction h with
  | refl => exact ⟨hp, List.suffix_refl _⟩
  | head hstep _ ih =>
    obtain ⟨hq, hle⟩ := hp.step hstep
    obtain ⟨hr, hle'⟩ := ih hq
    exact ⟨hr, hle'.trans hle⟩

theorem InStep.row_eq (h : p.InStep) :
    ∃ last : Token, last.kind = .eof ∧ p.row = p.input ++ [last] := by
  unfold row input
  by_cases hk : p.lookahead.kind = .eof
  · rw [if_pos hk, Lexer.drain_of_finished (h.2 hk)]
    exact ⟨p.lookahead, hk, rfl⟩
  · obtain ⟨last, hlast, hrow⟩ := Lexer.drain_eq_coming_concat (h.finished_eq_false hk)
    rw [if_neg hk, hrow]
    exact ⟨last, hlast, rfl⟩

end Parse

theorem sourceTokens_of_row {source : String} {p : Parse} {read : List Token} (hp : p.InStep)
    (h : read ++ p.row = (tokenize source).1) : sourceTokens source = read ++ p.input := by
  obtain ⟨last, -, hrow⟩ := hp.row_eq
  rw [sourceTokens, ← h, hrow, ← List.append_assoc, List.dropLast_concat]

/-- The tokens of a source are those that have been read and those in the row before the
parse. -/
theorem tokenize_eq_yield_row {source : String} {c : Context} {p : Parse}
    (h : (Parse.start (Lexer.new source) c).Reaches p) {x : Outline}
    (hx : x.yield ++ p.input = sourceTokens source) : (tokenize source).1 = x.yield ++ p.row := by
  obtain ⟨hp, read, hread⟩ := h.inStep (Parse.inStep_start rfl c)
  rw [Parse.row_start] at hread
  have htokens := sourceTokens_of_row hp hread
  rw [← hx] at htokens
  rw [List.append_cancel_right htokens, hread]

/-! ## The first token that is not viable -/

/-- The token `t`, at place `k` in the row of tokens, is the first at which no sentence can
go on. -/
structure FirstUnviable (source : String) (k : Nat) (t : Token) : Prop where
  token : (tokenize source).1[k]? = some t
  unviable : ¬ Viable (((tokenize source).1.take (k + 1)).map Token.kind)
  first : ∀ j < k, Viable (((tokenize source).1.take (j + 1)).map Token.kind)

theorem FirstUnviable.unique {source : String} {j k : Nat} {s t : Token}
    (hs : FirstUnviable source j s) (ht : FirstUnviable source k t) : j = k ∧ s = t := by
  have hle : k ≤ j := Nat.le_of_not_lt fun h => hs.unviable (ht.first j h)
  have hge : j ≤ k := Nat.le_of_not_lt fun h => ht.unviable (hs.first k h)
  obtain rfl := Nat.le_antisymm hge hle
  have htoken := hs.token
  rw [ht.token] at htoken
  exact ⟨rfl, (Option.some.inj htoken).symm⟩

/-- Tokens that are viable end before the first one that is not. -/
theorem FirstUnviable.length_le {source : String} {k : Nat} {t : Token}
    (h : FirstUnviable source k t) {read rest : List Token}
    (hread : (tokenize source).1 = read ++ rest) (hviable : Viable (read.map Token.kind)) :
    read.length ≤ k := by
  apply Nat.le_of_not_lt
  intro hlt
  have hunviable := h.unviable
  rw [hread, List.take_append_of_le_length hlt] at hunviable
  exact hunviable (hviable.mono ((List.take_prefix _ _).map Token.kind))

/-- A token that cannot follow viable ones is the first that is not viable. -/
theorem firstUnviable_of_rejected {source : String} {read rest : List Token} {t : Token}
    (hread : (tokenize source).1 = read ++ t :: rest) (hviable : Viable (read.map Token.kind))
    (h : ¬ Viable ((read ++ [t]).map Token.kind)) : FirstUnviable source read.length t where
  token := by rw [hread, List.getElem?_append_right (Nat.le_refl _), Nat.sub_self]; rfl
  unviable := by
    rw [hread, List.take_length_add_append]
    exact h
  first := by
    intro j hj
    rw [hread, List.take_append_of_le_length hj]
    exact hviable.mono ((List.take_prefix _ _).map Token.kind)

/-! ## Complaints -/

/-- The error refuses the token: its marker stands under the token, and its words end with
the token in quotes. -/
def CompileError.Refuses (source : String) (t : Token) (e : CompileError) : Prop :=
  ∃ marker complaint words, e = .malformed marker complaint ∧
    Marker.place? source t.loc = some marker ∧ complaint ≠ .literalOutOfRange ∧
    complaint.message = words ++ s!"\"{t.describe}\""

/-- The complaints that quote what stands in the wrong place. -/
inductive Complaint.Quotes (got : String) : Complaint → Prop
  | unexpected : Quotes got (.unexpected got)
  | expected (what : String) : Quotes got (.expected what got)
  | expectedOperand : Quotes got (.expectedOperand got)

theorem message_append {words quoted : String} (h : quoted = words ++ "\"") (got : String) :
    quoted ++ got ++ "\"" = words ++ s!"\"{got}\"" := by
  show quoted ++ got ++ "\"" = words ++ ("\"" ++ got ++ "\"")
  rw [h, String.append_assoc, String.append_assoc, String.append_assoc]

theorem Complaint.Quotes.message_eq {got : String} {complaint : Complaint}
    (h : complaint.Quotes got) : ∃ words, complaint.message = words ++ s!"\"{got}\"" := by
  cases h with
  | unexpected => exact ⟨"unexpected token ", message_append (by decide) got⟩
  | expected what =>
    have hsplit : "\", but got \"" = "\", but got " ++ "\"" := by decide
    have hquoted : "expected \"" ++ what ++ "\", but got \"" =
        "expected \"" ++ what ++ "\", but got " ++ "\"" := by
      rw [hsplit, ← String.append_assoc]
    exact ⟨_, message_append hquoted got⟩
  | expectedOperand =>
    exact ⟨"expected a number, name or \"(\", but got ", message_append (by decide) got⟩

theorem Complaint.Quotes.ne_literalOutOfRange {got : String} {complaint : Complaint}
    (h : complaint.Quotes got) : complaint ≠ .literalOutOfRange := by
  cases h <;> exact Complaint.noConfusion

theorem Decision.quotes_of_reject {stack : Stack} {t : Token} {complaint : Complaint}
    (h : next stack t = .reject complaint) : complaint.Quotes t.describe := by
  cases stack with
  | nil =>
    simp only [next, onEmpty] at h
    split at h <;> cases h
    exact .unexpected
  | cons top below =>
    cases top with
    | token s =>
      simp only [next, onToken, closeFactor] at h
      split at h <;> (try split at h) <;> (try split at h) <;> cases h <;> constructor
    | stmt v =>
      simp only [next, onStatement] at h
      split at h <;> cases h
      exact .expected ";"
    | factor v =>
      simp only [next, onFactor] at h
      split at h <;> cases h
    | term v =>
      simp only [next, onTerm] at h
      split at h <;> (try split at h) <;> cases h
    | expr v =>
      simp only [next, onExpression] at h
      split at h <;> (try split at h) <;> (try split at h) <;> (try split at h) <;> cases h <;>
        constructor

/-! ## Failures -/

namespace Parse

variable {source : String} {c : Context} {p : Parse}

theorem firstUnviable_of_reject (h : (start (Lexer.new source) c).Reaches p)
    {complaint : Complaint} (hmove : p.move = .reject complaint) :
    ∃ k, FirstUnviable source k p.lookahead := by
  obtain ⟨x, hp, hyield, hx⟩ := exists_tracks h
  have hrow := tokenize_eq_yield_row h hyield
  exact ⟨_, firstUnviable_of_rejected hrow x.viable (hp.not_viable hx hmove)⟩

/-- A token that is put on the stack comes before the first that is not viable. -/
theorem lt_of_shift (h : (start (Lexer.new source) c).Reaches p) (hmove : p.move = .shift)
    {k : Nat} {t : Token} (ht : FirstUnviable source k t) :
    ∃ j < k, (tokenize source).1.drop j = p.row := by
  have hshift : (start (Lexer.new source) c).Reaches p.shifted :=
    h.concat (by rw [step, hmove])
  obtain ⟨x, -, hx, -⟩ := exists_tracks h
  obtain ⟨y, -, hy, -⟩ := exists_tracks hshift
  have hinput : p.input = p.lookahead :: p.shifted.input := by
    have hk := Decision.kind_ne_eof_of_next_eq_shift hmove
    have hcons : p.input = p.lookahead :: p.lexer.coming := if_neg hk
    rw [hcons, input_shifted hcons]
  -- the shift moves the lookahead from the tokens to come to those that have been read
  have hboth : y.yield ++ p.shifted.input = x.yield ++ [p.lookahead] ++ p.shifted.input := by
    rw [hy, ← hx, hinput, List.append_assoc, List.singleton_append]
  have hread := List.append_cancel_right hboth
  have hle := ht.length_le (tokenize_eq_yield_row hshift hy) y.viable
  rw [hread, List.length_append, List.length_singleton] at hle
  refine ⟨x.yield.length, hle, ?_⟩
  rw [tokenize_eq_yield_row h hx, List.drop_left]

end Parse

section

variable {source : String} {options : Options}

theorem tokenize_eq_concat (source : String) :
    ∃ last : Token, last.kind = .eof ∧ (tokenize source).1 = sourceTokens source ++ [last] :=
  Lexer.drain_eq_coming_concat rfl

theorem refuses_of_marking {t : Token} {complaint : Complaint}
    (hfound : FoundAt source t.loc t.text.toList) (hquotes : complaint.Quotes t.describe) :
    ∃ e, Failure.marking source t.loc (CompileError.malformed · complaint) = .error e ∧
      e.Refuses source t := by
  obtain ⟨front, back, -, hmarker⟩ := hfound.place?
  obtain ⟨words, hwords⟩ := hquotes.message_eq
  refine ⟨_, by rw [Failure.marking, hmarker], _, complaint, words, rfl, hmarker, ?_, hwords⟩
  exact hquotes.ne_literalOutOfRange

/-- A compilation fails on the first token that is not viable, or it blames a token that
comes before that one. -/
theorem refuses_or_blames_of_compile {f : Failure} (h : compile source options = .error f) :
    ∃ e, f = .error e ∧ ((∃ k t, FirstUnviable source k t ∧ e.Refuses source t) ∨
      ∃ read rest t, (tokenize source).1 = read ++ rest ∧ Viable (read.map Token.kind) ∧
        t ∈ read ∧ f.Blames source source t) := by
  obtain ⟨⟨lexer, d⟩, hparse⟩ := parse_of_compile h
  obtain ⟨p, x, hreach, hyield, hp, hfails⟩ := exists_failsOn_of_parse hparse
  rcases hfails with ⟨complaint, hmove, -, rfl⟩ | ⟨m, y, rest, hadvance, hact⟩
  · obtain ⟨hplace, hsource⟩ :=
      hreach.inPlace (Parse.inPlace_start (Lexer.inPlace_new source) (Context.new source))
    have hfound := hplace.lookahead
    rw [hp.source_eq] at hfound
    obtain ⟨e, he, hrefuses⟩ := refuses_of_marking hfound (Decision.quotes_of_reject hmove)
    obtain ⟨k, hk⟩ := Parse.firstUnviable_of_reject hreach hmove
    exact ⟨e, he, .inl ⟨k, _, hk, hrefuses⟩⟩
  · obtain ⟨e, rfl⟩ : ∃ e, f = .error e := by
      cases f with
      | error e => exact ⟨e, rfl⟩
      | offBoundary => exact absurd h (compile_ne_offBoundary source options)
    refine ⟨e, rfl, .inr ?_⟩
    rcases y.arises_of_act hact with ⟨t, ht, hblames⟩ | ⟨hdepth, -⟩
    · obtain ⟨last, -, hlast⟩ := tokenize_eq_concat source
      have hread : y.yield ++ rest = sourceTokens source :=
        (Outline.yield_advance hadvance).trans hyield
      refine ⟨y.yield, rest ++ [last], t, ?_, y.viable, ht, hblames⟩
      rw [hlast, ← hread, List.append_assoc]
    · exact absurd rfl hdepth

/-- The one complaint about form that blames a token is of a number out of range. -/
theorem Failure.Blames.complaint_eq {quoted : String} {t : Token} {f : Failure}
    (h : f.Blames source quoted t) {marker : Marker} {complaint : Complaint}
    (hf : f = .error (.malformed marker complaint)) : complaint = .literalOutOfRange := by
  cases h with
  | literal _ _ =>
    unfold marking at hf
    split at hf <;> cases hf
    rfl
  | undefined _ =>
    unfold marking at hf
    split at hf <;> cases hf
  | division _ =>
    unfold marking at hf
    split at hf <;> cases hf

theorem compile_ne_ok_of_firstUnviable {k : Nat} {t : Token} (ht : FirstUnviable source k t)
    (c : Compilation) : compile source options ≠ .ok c := by
  intro h
  obtain ⟨ss, d, hss, -⟩ := exists_sentences_of_compile h
  obtain ⟨last, hlast, htokens⟩ := tokenize_eq_concat source
  have hkinds : (tokenize source).1.map Token.kind =
      (sourceTokens source).map Token.kind ++ [.eof] := by
    rw [htokens, List.map_append, List.map_singleton, hlast]
  have hviable : Viable ((tokenize source).1.map Token.kind) :=
    ⟨sourceTokens source, ⟨ss, hss⟩, [], by rw [List.append_nil, hkinds]⟩
  exact ht.unviable (hviable.mono ((List.take_prefix _ _).map Token.kind))

end

/-- A source that is not one of sentences is refused at the first token at which no sentence
can go on, unless a token before that one is to blame for a number out of range, a name that
is not assigned or a division by zero.  That token is never put on the stack.  In a source
of sentences the only complaint about form is of a number out of range. -/
theorem refused_at_first_unviable_token (source : String) (options : Options) :
    (∀ k t, FirstUnviable source k t →
      (∃ e, compile source options = .error (.error e) ∧
        (e.Refuses source t ∨ ∃ j s, j < k ∧ (tokenize source).1[j]? = some s ∧
          (Failure.error e).Blames source source s)) ∧
      ∀ p, (Parse.start (Lexer.new source) (Context.new source)).Reaches p → p.move = .shift →
        ∃ j < k, (tokenize source).1.drop j = p.row) ∧
    ((∀ k t, ¬ FirstUnviable source k t) →
      ∀ marker complaint, compile source options = .error (.error (.malformed marker complaint)) →
        complaint = .literalOutOfRange) := by
  constructor
  · intro k t ht
    refine ⟨?_, fun p hp hmove => Parse.lt_of_shift hp hmove ht⟩
    cases h : compile source options with
    | ok c => exact absurd h (compile_ne_ok_of_firstUnviable ht c)
    | error f =>
      obtain ⟨e, rfl, hrefuses | hblames⟩ := refuses_or_blames_of_compile h
      · obtain ⟨j, s, hs, hrefuses⟩ := hrefuses
        obtain ⟨rfl, rfl⟩ := hs.unique ht
        exact ⟨e, rfl, .inl hrefuses⟩
      · obtain ⟨read, rest, s, hread, hviable, hs, hblames⟩ := hblames
        have hle := ht.length_le hread hviable
        obtain ⟨j, hj, hget⟩ := List.mem_iff_getElem.1 hs
        refine ⟨e, rfl, .inr ⟨j, s, Nat.lt_of_lt_of_le hj hle, ?_, hblames⟩⟩
        rw [hread, List.getElem?_append_left hj, List.getElem?_eq_getElem hj, hget]
  · intro hnone marker complaint h
    obtain ⟨e, he, ⟨k, t, ht, -⟩ | ⟨-, -, t, -, -, -, hblames⟩⟩ := refuses_or_blames_of_compile h
    · exact absurd ht (hnone k t)
    · exact hblames.complaint_eq rfl

theorem compile_eq_error_of_matches (source : String) (options : Options) (f : Failure)
    (h : (match compile source options with | .error g => decide (g = f) | .ok _ => false) = true) :
    compile source options = .error f := by
  split at h
  · next g hg => rw [hg, of_decide_eq_true h]
  · cases h

/-- The group may begin as it does, and no sentence goes on with the semicolon behind the
sign.  The name behind that, which nothing is assigned to, is never reached. -/
theorem refused_at_first_unviable_token_operand :
    ∃ k t e, FirstUnviable "a := 7; (a + ; b" k t ∧
      e = .malformed ⟨"a := 7; (a + ; b", 13⟩ (.expectedOperand ";") ∧
      compile "a := 7; (a + ; b" {} = .error (.error e) ∧
      (e.Refuses "a := 7; (a + ; b" t ∨ ∃ j s, j < k ∧
        (tokenize "a := 7; (a + ; b").1[j]? = some s ∧
        (Failure.error e).Blames "a := 7; (a + ; b" "a := 7; (a + ; b" s) := by
  have hcompile : compile "a := 7; (a + ; b" {} =
      .error (.error (.malformed ⟨"a := 7; (a + ; b", 13⟩ (.expectedOperand ";"))) :=
    compile_eq_error_of_matches _ _ _ (by decide +kernel)
  obtain ⟨hrefused, hviable⟩ := refused_at_first_unviable_token "a := 7; (a + ; b" {}
  by_cases hnone : ∀ k t, ¬ FirstUnviable "a := 7; (a + ; b" k t
  · cases hviable hnone _ _ hcompile
  · simp only [Classical.not_forall, Classical.not_not] at hnone
    obtain ⟨k, t, ht⟩ := hnone
    obtain ⟨⟨e, he, hcases⟩, -⟩ := hrefused k t ht
    have hsame := he
    rw [hcompile] at hsame
    exact ⟨k, t, e, ht, (Failure.error.inj (Except.error.inj hsame)).symm, he, hcases⟩

end OnePass
