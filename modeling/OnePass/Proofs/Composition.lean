import OnePass.Proofs.Counterparts
import OnePass.Proofs.Scope

/-!
One text behind another.

A blank ends every token, so the tokens of two texts with a blank between them are those of
the first, without its end, and then those of the second, further on by what stands before
them.  A parse that has read the first text is therefore where a parse of the second one
starts, with what the first has left in the context.  The two go on in step.
-/

namespace OnePass

/-! ## The blank between two texts -/

theorem takeWhile_append_stop {p : Char → Bool} {stop : Char} (h : p stop = false)
    (cs more : List Char) : (cs ++ stop :: more).takeWhile p = cs.takeWhile p := by
  induction cs with
  | nil => simp [h]
  | cons c cs ih =>
    rw [List.cons_append, List.takeWhile_cons, List.takeWhile_cons, ih]

theorem dropWhile_append_stop {p : Char → Bool} {stop : Char} (h : p stop = false)
    (cs more : List Char) :
    (cs ++ stop :: more).dropWhile p = cs.dropWhile p ++ stop :: more := by
  induction cs with
  | nil => simp [h]
  | cons c cs ih =>
    rw [List.cons_append, List.dropWhile_cons, List.dropWhile_cons, ih]
    split <;> rfl

/-- No lexeme reaches over a blank. -/
theorem lexeme?_append_blank (c : Char) (cs more : List Char) :
    lexeme? (c :: (cs ++ ' ' :: more)) =
      (lexeme? (c :: cs)).map fun l => { l with rest := l.rest ++ ' ' :: more } := by
  by_cases hbecomes : [':', '='] <+: c :: cs
  · obtain ⟨rest, hrest⟩ := hbecomes
    obtain ⟨rfl, rfl⟩ := List.cons.inj hrest
    rfl
  · have hlong : ¬ [':', '='] <+: c :: (cs ++ ' ' :: more) := by
      rintro ⟨rest, hrest⟩
      obtain ⟨rfl, htail⟩ := List.cons.inj hrest
      cases cs with
      | nil => cases (List.cons.inj htail).1
      | cons d ds =>
        obtain ⟨rfl, -⟩ := List.cons.inj htail
        exact hbecomes ⟨ds, rfl⟩
    rw [lexeme?_cons hbecomes, lexeme?_cons hlong]
    split
    · rw [takeWhile_append_stop (by decide), dropWhile_append_stop (by decide)]
      rfl
    · split
      · rw [takeWhile_append_stop (by decide), dropWhile_append_stop (by decide)]
        rfl
      · rw [Option.map_map]
        rfl

/-- The token, `k` bytes further on. -/
def Token.moved (k : Nat) (t : Token) : Token :=
  { t with loc := k + t.loc }

theorem scan_add (k pos : Nat) (cs : List Char) :
    (scan (k + pos) cs).token = (scan pos cs).token.moved k ∧
      (scan (k + pos) cs).pos = k + (scan pos cs).pos ∧
      (scan (k + pos) cs).rest = (scan pos cs).rest := by
  induction cs generalizing pos with
  | nil => exact ⟨rfl, rfl, rfl⟩
  | cons c cs ih =>
    have ih := ih (pos + c.utf8Size)
    rw [← Nat.add_assoc] at ih
    by_cases hb : isBlank c = true
    · simpa only [scan, if_pos hb] using ih
    · cases hl : lexeme? (c :: cs) with
      | some l =>
        simp only [scan, if_neg hb, hl]
        exact ⟨rfl, Nat.add_assoc _ _ _, trivial⟩
      | none => simpa only [scan, if_neg hb, hl] using ih

/-- A scan finds its token before the blank, or the next one behind it. -/
theorem scan_append_blank (pos : Nat) (cs more : List Char) :
    if (scan pos cs).token.kind = .eof then
      (scan pos (cs ++ ' ' :: more)).token =
          (scan (pos + Text.byteLength cs + 1) more).token ∧
        (scan pos (cs ++ ' ' :: more)).pos = (scan (pos + Text.byteLength cs + 1) more).pos ∧
        (scan pos (cs ++ ' ' :: more)).rest = (scan (pos + Text.byteLength cs + 1) more).rest
    else
      (scan pos (cs ++ ' ' :: more)).token = (scan pos cs).token ∧
        (scan pos (cs ++ ' ' :: more)).pos = (scan pos cs).pos ∧
        (scan pos (cs ++ ' ' :: more)).rest = (scan pos cs).rest ++ ' ' :: more := by
  induction cs generalizing pos with
  | nil => exact ⟨rfl, rfl, rfl⟩
  | cons c cs ih =>
    have ih := ih (pos + c.utf8Size)
    rw [Nat.add_assoc pos, ← Text.byteLength_cons] at ih
    by_cases hb : isBlank c = true
    · simpa only [List.cons_append, scan, if_pos hb] using ih
    · cases hl : lexeme? (c :: cs) with
      | some l =>
        simp only [List.cons_append, scan, if_neg hb, lexeme?_append_blank, hl, Option.map_some,
          if_neg (kind_ne_eof_of_lexeme? hl)]
        trivial
      | none =>
        simpa only [List.cons_append, scan, if_neg hb, lexeme?_append_blank, hl,
          Option.map_none] using ih

namespace Lexer

/-- What a lexer yields depends on the place and the text before it, and the place shifts
what it yields. -/
theorem drain_moved {l m : Lexer} {k : Nat} (hpos : m.pos = k + l.pos) (hrest : m.rest = l.rest)
    (hfinished : m.finished = l.finished) : m.drain.1 = l.drain.1.map (Token.moved k) := by
  induction l using Lexer.drain.induct generalizing m with
  | case1 l hf =>
    rw [drain_of_finished hf, drain_of_finished (hfinished.trans hf)]
    rfl
  | case2 l hf _ _ _ _ ih =>
    have hf := Bool.eq_false_iff.2 hf
    obtain ⟨htoken, hscan, hleft⟩ := scan_add k l.pos l.rest
    rw [drain_of_not_finished hf, drain_of_not_finished (hfinished.trans hf), hpos, hrest, htoken]
    refine congrArg (List.cons _) (ih ?_ ?_ ?_)
    · simp only [scanned, hpos, hrest, hscan]
    · simp only [scanned, hpos, hrest, hleft]
    · simp only [scanned, hpos, hrest, htoken, Token.moved]

theorem drain_append_blank {l m : Lexer} {q : String} (hl : l.finished = false)
    (hm : m.finished = false) (hpos : m.pos = l.pos)
    (hrest : m.rest = l.rest ++ ' ' :: q.toList) :
    m.drain.1 = l.coming ++
      (tokenize q).1.map (Token.moved (l.pos + Text.byteLength l.rest + 1)) := by
  induction l using Lexer.drain.induct generalizing m with
  | case1 l hf => simp [hf] at hl
  | case2 l hf _ _ _ _ ih =>
    have hscan := scan_append_blank l.pos l.rest q.toList
    have hcoming := coming_eq l
    rw [next_of_not_finished hl] at hcoming
    rw [drain_of_not_finished hm, hcoming, hpos, hrest]
    split at hscan
    · next hk =>
      -- the second text is read from here on, as by a new lexer that stands further on
      obtain ⟨htoken, hplace, hleft⟩ := hscan
      obtain ⟨hadd, haddpos, haddrest⟩ :=
        scan_add (l.pos + Text.byteLength l.rest + 1) 0 q.toList
      rw [Nat.add_zero] at hadd haddpos haddrest
      have htokens : (tokenize q).1 = (scan 0 q.toList).token :: (new q).scanned.drain.1 :=
        congrArg Prod.fst (drain_of_not_finished (l := new q) rfl)
      rw [if_pos hk, List.nil_append, htokens, htoken, hadd]
      refine congrArg (List.cons _) (drain_moved ?_ ?_ ?_)
      · simp only [scanned, new, hpos, hrest, hplace, haddpos]
      · simp only [scanned, new, hpos, hrest, hleft, haddrest]
      · simp only [scanned, new, hpos, hrest, htoken, hadd, Token.moved]
    · next hk =>
      obtain ⟨htoken, hplace, hleft⟩ := hscan
      have hadd := scan_pos_add l.pos l.rest
      rw [if_neg hk, List.cons_append, htoken, ← hadd]
      refine congrArg (List.cons _) (ih ?_ ?_ ?_ ?_)
      · simp [scanned, hk]
      · simp [scanned, hpos, hrest, htoken, hk]
      · simp only [scanned, hpos, hrest, hplace]
      · simp only [scanned, hpos, hrest, hleft]

end Lexer

/-- Bytes before the second of two texts with a blank between them. -/
def seamOffset (p : String) : Nat :=
  Text.byteLength p.toList + 1

theorem tokenize_append_blank (p q : String) :
    (tokenize (p ++ " " ++ q)).1 =
      sourceTokens p ++ (tokenize q).1.map (Token.moved (seamOffset p)) := by
  have hdrain := Lexer.drain_append_blank (l := Lexer.new p) (m := Lexer.new (p ++ " " ++ q))
    (q := q) rfl rfl rfl (by simp [Lexer.new])
  rw [show (Lexer.new p).pos = 0 from rfl, Nat.zero_add] at hdrain
  exact hdrain

theorem FoundAt.moved {p q : String} {loc : Nat} {word : List Char} (h : FoundAt q loc word) :
    FoundAt (p ++ " " ++ q) (seamOffset p + loc) word := by
  obtain ⟨front, back, hq, rfl⟩ := h
  refine ⟨p.toList ++ ' ' :: front, back, ?_, ?_⟩
  · simp [hq]
  · rw [seamOffset, Text.byteLength_append, Text.byteLength_cons]
    show _ = _ + (1 + _)
    omega

/-! ## The two parses -/

/-- The context, quoting another text. -/
def Context.quoting (c : Context) (source : String) : Context :=
  { c with source }

/-- The tokens of the text in front and of the text alone. -/
def seam (p q : String) : Correspondence where
  first := p ++ " " ++ q
  second := q
  Names := Eq
  Tokens u v := v ∈ (tokenize q).1 ∧ u = v.moved (seamOffset p)
  unique := ⟨fun _ _ _ h h' => h.trans h'.symm, fun _ _ _ h h' => h.symm.trans h'⟩
  kind_eq := by
    rintro _ v ⟨-, rfl⟩
    rfl
  value_eq := by
    rintro _ v ⟨-, rfl⟩
    rfl
  name := by
    rintro _ v ⟨-, rfl⟩ -
    rfl
  found := by
    rintro _ v ⟨hv, rfl⟩
    exact (foundAt_of_mem_tokenize hv).moved
  found' := fun h => foundAt_of_mem_tokenize h.1

theorem seam_contexts_iff {p q : String} {c d : Context} :
    (seam p q).Contexts c d ↔ c = d.quoting (p ++ " " ++ q) ∧ d.source = q := by
  constructor
  · intro h
    have hnames : c.symbols.names = d.symbols.names := List.forall₂_eq_eq_eq ▸ h.names
    have hvalues : c.values.assigned = d.values.assigned := by
      rw [← List.forall₂_eq_eq_eq]
      exact h.values.imp fun _ _ h => Prod.ext h.1 h.2
    obtain ⟨source, ⟨names⟩, ⟨assigned⟩, depth, slots, body⟩ := c
    obtain rfl : source = p ++ " " ++ q := h.source_eq
    obtain rfl : names = d.symbols.names := hnames
    obtain rfl : assigned = d.values.assigned := hvalues
    obtain rfl : depth = d.depth := h.depth_eq
    obtain rfl : slots = d.slots := h.slots_eq
    obtain rfl : body = d.body := h.body_eq
    exact ⟨rfl, h.source_eq'⟩
  · rintro ⟨rfl, hsource⟩
    have hvalues : List.Forall₂ (fun a b => a.1 = b.1 ∧ a.2 = b.2) d.values.assigned
        d.values.assigned := List.forall₂_same.2 fun _ _ => ⟨rfl, rfl⟩
    exact ⟨rfl, hsource, List.forall₂_same.2 fun _ _ => rfl, hvalues, rfl, rfl, rfl⟩

section

variable {p : String} {n : Nat} {l : Lexer} {c : Context}

/-- A text that begins with the tokens of one that is parsed comes to the end of them in the
same way. -/
theorem exists_reaches_of_parse (h : parse (Lexer.new p) (Context.new p) = .ok n (l, c))
    {text : String} {row : List Token} (htokens : (tokenize text).1 = sourceTokens p ++ row)
    (hrow : row ≠ []) :
    ∃ r x, (Parse.start (Lexer.new text) (Context.new text)).Reaches r ∧
      r.Tracks text (Context.new text) x ∧ r.row = row ∧ r.stack = [] ∧
      r.context = c.quoting text ∧ r.statements = n := by
  obtain ⟨ss, hyield, hact, rfl⟩ := exists_sentences_of_parse h
  have hyield : sentencesYield ss = sourceTokens p := hyield
  obtain ⟨prog, values, hprog, hscoped, hknown, rfl⟩ := context_of_sentencesAct hact
  have hmark : Phrase.Markable (Context.new text) (sentencesYield ss) := by
    intro t ht
    have hmem : t ∈ (tokenize text).1 := by
      rw [htokens, ← hyield]
      exact List.mem_append_left row ht
    obtain ⟨_, _, -, hm⟩ := (foundAt_of_mem_tokenize hmem).place?
    exact ⟨_, hm⟩
  have hwalk := sentencesAct_of_known text hmark hprog hscoped hknown
  have hsource : sourceTokens text = sentencesYield ss ++ row.dropLast := by
    rw [hyield, ← List.dropLast_append_of_ne_nil hrow, ← htokens]
    rfl
  obtain ⟨r, hreach, hr, hstack, hcontext, hinput⟩ :=
    Parse.exists_reaches_of_sentencesAct (l := Lexer.new text) hsource hwalk
  refine ⟨r, _, hreach, hr, ?_, hstack, hcontext, hr.statements_eq⟩
  have hread : (⟨ss, .start⟩ : Outline).yield = sentencesYield ss := List.append_nil _
  have hall := tokenize_eq_yield_row hreach (x := ⟨ss, .start⟩) (by rw [hinput, hread, hsource])
  rw [htokens, hread, hyield] at hall
  exact (List.append_cancel_left hall).symm

/-- Behind the first text the parse of the longer one is where the parse of the second one
starts. -/
theorem exists_seam_of_parse (h : parse (Lexer.new p) (Context.new p) = .ok n (l, c))
    (q : String) :
    ∃ r, (Parse.start (Lexer.new (p ++ " " ++ q)) (Context.new (p ++ " " ++ q))).Reaches r ∧
      (seam p q).Parses n r (Parse.start (Lexer.new q) (c.quoting q)) := by
  have hne : (tokenize q).1.map (Token.moved (seamOffset p)) ≠ [] :=
    mt List.map_eq_nil_iff.1 (Lexer.drain_ne_nil rfl)
  obtain ⟨r, x, hreach, hr, hrow, hstack, hcontext, hcount⟩ :=
    exists_reaches_of_parse h (tokenize_append_blank p q) hne
  refine ⟨r, hreach, ?_⟩
  exact {
    inStep := (hreach.inStep (Parse.inStep_start rfl _)).1
    inStep' := Parse.inStep_start rfl _
    source_eq := hr.source_eq
    source_eq' := Lexer.source_next _
    row := by
      rw [hrow, Parse.row_start, List.forall₂_map_left_iff]
      exact List.forall₂_same.2 fun t ht => ⟨ht, rfl⟩
    stack := by
      rw [hstack]
      exact .nil
    context := seam_contexts_iff.2 ⟨hcontext, rfl⟩
    statements_eq := hcount
    tracks := ⟨_, x, hr⟩ }

end

/-! ## What is left standing -/

theorem SymbolTable.prefix_names_bind (t : SymbolTable) (name : String) :
    t.names <+: (t.bind name).2.names := by
  rw [names_bind]
  split
  · exact List.prefix_rfl
  · exact List.prefix_append _ _

/-- Sentences add to the code and to the names. -/
theorem prefix_of_sentencesAct {source : String} {ss : List Sentence} {c d : Context}
    (h : sentencesAct source ss c = .ok () d) :
    c.body <+: d.body ∧ c.symbols.names <+: d.symbols.names := by
  induction ss generalizing c with
  | nil =>
    obtain ⟨-, rfl⟩ := Outcome.ok.inj h
    exact ⟨List.prefix_rfl, List.prefix_rfl⟩
  | cons s rest ih =>
    obtain ⟨v, e, hs, h⟩ := Outcome.bind_eq_ok_iff.1 h
    obtain ⟨hbody, hnames⟩ := ih h
    obtain ⟨-, st, -, -, -, he⟩ := Clause.walked_of_act hs
    rw [he] at hbody hnames
    cases st with
    | assign name x =>
      exact ⟨(List.prefix_append _ _).trans hbody,
        (c.symbols.prefix_names_bind name).trans hnames⟩
    | discard x => exact ⟨(List.prefix_append _ _).trans hbody, hnames⟩
    | empty => exact ⟨hbody, hnames⟩

theorem SymbolTable.prefix_entries {t u : SymbolTable} (h : t.names <+: u.names) :
    t.entries <+: u.entries := by
  obtain ⟨more, hmore⟩ := h
  rw [entries, entries, ← hmore, List.zipIdx_append]
  exact List.prefix_append _ _

/-- A text with another one behind it is parsed like the other one alone from the context that
the first leaves: both succeed, with the statements of the first more and all that it left
still in front, or both fail with errors of one variant about the same token.  The contexts
that they leave differ in the text quoted, and in nothing else. -/
theorem parse_append_blank {p : String} {n : Nat} {l : Lexer} {c : Context}
    (h : parse (Lexer.new p) (Context.new p) = .ok n (l, c)) (q : String) :
    (∃ m l₁ l₂ d,
      parse (Lexer.new (p ++ " " ++ q)) (Context.new (p ++ " " ++ q)) =
        .ok (n + m) (l₁, d.quoting (p ++ " " ++ q)) ∧
      parse (Lexer.new q) (c.quoting q) = .ok m (l₂, d) ∧
      c.body <+: d.body ∧ c.symbols.entries <+: d.symbols.entries) ∨
    ∃ e e' l₁ l₂ d,
      parse (Lexer.new (p ++ " " ++ q)) (Context.new (p ++ " " ++ q)) =
        .failed (.error e) (l₁, d.quoting (p ++ " " ++ q)) ∧
      parse (Lexer.new q) (c.quoting q) = .failed (.error e') (l₂, d) ∧
      e.Alike e' ∧
      ∃ t, e.Accuses (p ++ " " ++ q) (t.moved (seamOffset p)) ∧ e'.Accuses q t := by
  obtain ⟨r, hreach, hr⟩ := exists_seam_of_parse h q
  have hends := hr.parse hreach
  generalize ho : parse (Lexer.new (p ++ " " ++ q)) (Context.new (p ++ " " ++ q)) = o at hends ⊢
  generalize ho' : parse (Lexer.new q) (c.quoting q) = o' at hends ⊢
  cases hends with
  | @ok _ m s t hcount hcontexts =>
    obtain ⟨l₁, c₁⟩ := s
    obtain ⟨l₂, d⟩ := t
    obtain ⟨rfl, -⟩ := seam_contexts_iff.1 hcontexts
    obtain rfl := hcount
    obtain ⟨ss, -, hact, -⟩ := exists_sentences_of_parse ho'
    obtain ⟨hbody, hnames⟩ := prefix_of_sentencesAct hact
    exact .inl ⟨m, l₁, l₂, d, rfl, rfl, hbody, SymbolTable.prefix_entries hnames⟩
  | @failed f g s t hf hcontexts =>
    obtain ⟨l₁, c₁⟩ := s
    obtain ⟨l₂, d⟩ := t
    obtain ⟨rfl, -⟩ := seam_contexts_iff.1 hcontexts
    obtain ⟨e, e', rfl, rfl, halike, hinternal | ⟨_, t, ⟨-, rfl⟩, he, he'⟩⟩ := hf.exists_errors
    · rw [isInternal_of_parse (Lexer.inPlace_new _) rfl ho] at hinternal
      cases hinternal
    · exact .inr ⟨e, e', l₁, l₂, d, rfl, rfl, halike, t, he, he'⟩

theorem Outcome.exists_eq_ok {σ α : Type} [DecidableEq α] {o : Outcome σ α} {a : α}
    (h : (match o with | .ok b _ => decide (b = a) | .failed .. => false) = true) :
    ∃ s, o = .ok a s := by
  cases o with
  | ok b s => exact ⟨s, by rw [of_decide_eq_true h]⟩
  | failed f s => cases h

/-- The first text ends with a character that is skipped and a colon, and the second one
begins with the sign that would make the colon an assignment. -/
theorem parse_append_blank_colon :
    ∃ l c, parse (Lexer.new "a := 6; é:") (Context.new "a := 6; é:") = .ok 1 (l, c) ∧
      ∃ m l₁ l₂ d,
        parse (Lexer.new ("a := 6; é:" ++ " " ++ "= b := a * 2; a := b;"))
          (Context.new ("a := 6; é:" ++ " " ++ "= b := a * 2; a := b;")) =
          .ok (1 + m) (l₁, d.quoting ("a := 6; é:" ++ " " ++ "= b := a * 2; a := b;")) ∧
        parse (Lexer.new "= b := a * 2; a := b;") (c.quoting "= b := a * 2; a := b;") =
          .ok m (l₂, d) ∧
        c.body <+: d.body ∧ c.symbols.entries <+: d.symbols.entries := by
  obtain ⟨⟨l, c⟩, h⟩ : ∃ s, parse (Lexer.new "a := 6; é:") (Context.new "a := 6; é:") =
      .ok 1 s := Outcome.exists_eq_ok (by decide +kernel)
  obtain ⟨s, hs⟩ : ∃ s, parse (Lexer.new ("a := 6; é:" ++ " " ++ "= b := a * 2; a := b;"))
      (Context.new ("a := 6; é:" ++ " " ++ "= b := a * 2; a := b;")) = .ok 3 s :=
    Outcome.exists_eq_ok (by decide +kernel)
  refine ⟨l, c, h, ?_⟩
  rcases parse_append_blank h "= b := a * 2; a := b;" with hok | ⟨e, e', l₁, l₂, d, hfailed, -⟩
  · exact hok
  · rw [hs] at hfailed
    cases hfailed

end OnePass
