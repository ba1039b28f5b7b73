import OnePass.Proofs.Acceptance
import OnePass.Proofs.Blame
import OnePass.Proofs.Layout
import OnePass.Proofs.MoveBound

/-!
What a failure leaves behind.

An action that fails leaves the context as it was, with one exception: an assignment finds out
that operands are left over when it has already stored.  No parse comes to that, since nothing
is pending before a statement.  So what a failing parse leaves is what its statements up to
the last semicolon leave, with the code of some operands behind it.  Those statements are a
source of their own, because a text falls into the same tokens in front of a cut that is made
behind a token.
-/

namespace OnePass

/-! ## Actions that fail -/

namespace Context

variable {c d : Context} {f : Failure}

theorem eq_of_finishStatement_failed (h : c.finishStatement = .failed f d) : d = c := by
  unfold finishStatement at h
  split at h
  · cases h
  · exact (Outcome.failed.inj h).2.symm

theorem eq_of_emptyStatement_failed (h : c.emptyStatement = .failed f d) : d = c := by
  unfold emptyStatement at h
  split at h
  · cases h
  · exact (Outcome.failed.inj h).2.symm

/-- A store binds the name, which takes one more slot if it has none yet, notes the value, and
takes the operand off into the slot. -/
theorem stored_eq (c : Context) (name : String) (value : Value) :
    c.stored name value =
      { c with
        symbols := (c.symbols.bind name).2
        values := c.values.set name value
        depth := c.depth - 1
        slots := if name ∈ c.symbols.names then c.slots else c.slots + 1
        body := c.body ++ [.popSlot (c.symbols.bind name).1] } := by
  by_cases hname : name ∈ c.symbols.names
  · obtain ⟨slot, hslot⟩ := SymbolTable.slot?_eq_some_of_mem hname
    simp [stored, SymbolTable.bind_of_slot? hslot, hname, emit]
  · simp [stored, SymbolTable.bind_of_not_mem hname, hname, emit, SymbolTable.size]

/-- With two operands or more an assignment stores, and fails then. -/
theorem assign_of_two_le (h : 2 ≤ c.depth) (name : String) (value : Value) :
    c.assign name value =
      .failed (.error (.unbalancedStatement (c.depth - 1) 0)) (c.stored name value) := by
  have hpending : ¬ c.depth < 1 := by omega
  have hleft : ¬ (c.stored name value).depth = 0 := by
    rw [depth_stored]
    omega
  rw [assign, if_neg hpending]
  exact if_neg hleft

theorem assign_of_depth_eq_one (h : c.depth = 1) (name : String) (value : Value) :
    c.assign name value = .ok () (c.stored name value) := by
  have hpending : ¬ c.depth < 1 := by omega
  have hleft : (c.stored name value).depth = 0 := by
    rw [depth_stored, h]
  rw [assign, if_neg hpending]
  exact if_pos hleft

theorem eq_of_assign_failed {name : String} {value : Value}
    (h : c.assign name value = .failed f d) : d = c ∨ 2 ≤ c.depth := by
  by_cases hone : c.depth = 1
  · rw [assign_of_depth_eq_one hone] at h
    cases h
  · by_cases hzero : c.depth < 1
    · rw [assign, if_pos hzero] at h
      exact .inl (Outcome.failed.inj h).2.symm
    · exact .inr (by omega)

/-- An action that fails changes nothing, unless it is an assignment with operands left over. -/
theorem eq_of_perform_failed {a : Action} (h : c.perform a = .failed f d) :
    d = c ∨ ∃ name value, a = .assign name value ∧ 2 ≤ c.depth := by
  cases a with
  | literal value => cases h
  | read name loc => exact .inl (eq_of_read_failed (Outcome.map_eq_failed_iff.1 h))
  | binary op lhs rhs loc => exact .inl (eq_of_binary_failed (Outcome.map_eq_failed_iff.1 h))
  | assign name value =>
    exact (eq_of_assign_failed (Outcome.map_eq_failed_iff.1 h)).imp_right
      fun hdepth => ⟨name, value, rfl, hdepth⟩
  | finishStatement => exact .inl (eq_of_finishStatement_failed (Outcome.map_eq_failed_iff.1 h))
  | emptyStatement => exact .inl (eq_of_emptyStatement_failed (Outcome.map_eq_failed_iff.1 h))

end Context

/-! ## Code without stores -/

theorem Expr.not_popSlot_mem_code (e : Expr) (slots : String → Nat) (slot : Nat) :
    .popSlot slot ∉ e.code slots := by
  induction e with
  | literal value => simp [code]
  | read name => simp [code]
  | binary op lhs rhs ihl ihr =>
    have hop : .popSlot slot ∉ op.block := by
      cases op <;> simp [BinaryOp.block]
    simp only [code, List.mem_append, not_or]
    exact ⟨⟨ihl, ihr⟩, hop⟩

/-- All that is new in `d` is code that stores nothing, and operands that it leaves. -/
def Context.AddsOperands (c d : Context) : Prop :=
  ∃ code operands, (∀ slot, .popSlot slot ∉ code) ∧
    d = { c with body := c.body ++ code, depth := c.depth + operands }

theorem Context.AddsOperands.refl (c : Context) : c.AddsOperands c :=
  ⟨[], 0, by simp, by simp⟩

theorem Context.AddsOperands.trans {c d e : Context} (h : c.AddsOperands d)
    (h' : d.AddsOperands e) : c.AddsOperands e := by
  obtain ⟨code, operands, hcode, rfl⟩ := h
  obtain ⟨more, others, hmore, rfl⟩ := h'
  refine ⟨code ++ more, operands + others, fun slot hslot => ?_, by simp [Nat.add_assoc]⟩
  rcases List.mem_append.1 hslot with hslot | hslot
  · exact hcode slot hslot
  · exact hmore slot hslot

section

variable {source : String} {c d : Context} {stack : Stack}

theorem Phrase.addsOperands_of_act {l : Level} (p : Phrase l) {v : Value}
    (h : p.act source c = .ok v d) : c.AddsOperands d := by
  obtain ⟨e, -, -, -, rfl⟩ := p.walked_of_act h
  exact ⟨e.code c.slot, 1, e.not_popSlot_mem_code c.slot, rfl⟩

theorem Opening.addsOperands_of_act {l : Level} (o : Opening l)
    (h : o.act source c = .ok stack d) : c.AddsOperands d :=
  o.related_of_act Context.AddsOperands.refl Context.AddsOperands.trans
    (fun p => p.addsOperands_of_act) h

/-- The sentence has not been recognised as a statement yet. -/
def Fragment.Within : Fragment → Prop
  | clause _ | ended .. => False
  | _ => True

theorem Fragment.Faults.within {g : Fragment} {input : List Token} {f : Failure}
    (h : g.Faults source c input f) : g.Within := by
  cases h <;> exact trivial

/-- Before the statement is recognised, nothing has been stored. -/
theorem Fragment.Within.addsOperands {g : Fragment} (hg : g.Within)
    (h : g.act source c = .ok stack d) : c.AddsOperands d := by
  cases g with
  | opening o => exact o.addsOperands_of_act h
  | operand o t ht =>
    obtain ⟨below, ho, -⟩ := Outcome.map_eq_ok_iff.1 h
    exact o.addsOperands_of_act ho
  | closed o lparen ho inner rparen hc =>
    obtain ⟨below, e, hbefore, h⟩ := Outcome.bind_eq_ok_iff.1 h
    obtain ⟨v, hinner, -⟩ := Outcome.map_eq_ok_iff.1 h
    exact (o.addsOperands_of_act hbefore).trans (inner.addsOperands_of_act hinner)
  | phrase o p =>
    obtain ⟨below, e, v, ho, hp, -⟩ := exists_of_act_phrase h
    exact (o.addsOperands_of_act ho).trans (p.addsOperands_of_act hp)
  | clause k => exact absurd hg id
  | ended k semicolon hs => exact absurd hg id

end

/-! ## Semicolons -/

theorem Opening.countP_semicolon {l : Level} (o : Opening l) :
    o.yield.countP (fun t => t.kind = .semicolon) = 0 := by
  induction o with
  | start => rfl
  | assign target ht sign hs => simp [yield, ht, hs]
  | group before lparen ho ih => simp [yield, List.countP_append, ho, ih]
  | ofExpression before ih => exact ih
  | sum before lhs sign op hs hop ih =>
    simp [yield, List.countP_append, hs, ih, lhs.countP_semicolon]
  | ofTerm before ih => exact ih
  | product before lhs sign op hs hop ih =>
    simp [yield, List.countP_append, hs, ih, lhs.countP_semicolon]

theorem Fragment.Within.countP_semicolon {g : Fragment} (hg : g.Within) :
    g.yield.countP (fun t => t.kind = .semicolon) = 0 := by
  cases g with
  | opening o => exact o.countP_semicolon
  | operand o t ht =>
    rcases ht with ht | ht <;> simp [yield, List.countP_append, ht, o.countP_semicolon]
  | closed o lparen ho inner rparen hc =>
    simp [yield, List.countP_append, ho, hc, o.countP_semicolon, inner.countP_semicolon]
  | phrase o p => simp [yield, List.countP_append, o.countP_semicolon, p.countP_semicolon]
  | clause k => exact absurd hg id
  | ended k semicolon hs => exact absurd hg id

theorem Sentence.exists_semicolon (s : Sentence) :
    ∃ t : Token, t.kind = .semicolon ∧ s.yield = s.clause.yield ++ [t] := by
  cases s with
  | assign target ht sign hs e semicolon h => exact ⟨semicolon, h, rfl⟩
  | expression e semicolon h => exact ⟨semicolon, h, rfl⟩
  | empty semicolon h => exact ⟨semicolon, h, rfl⟩

/-- The offset behind the last semicolon among the tokens, or the beginning if there is
none. -/
def behindLastSemicolon (tokens : List Token) : Nat :=
  ((tokens.filter fun t => t.kind = .semicolon).getLast?.map fun t => t.loc + t.len).getD 0

theorem behindLastSemicolon_append (tokens : List Token) {more : List Token}
    (h : more.countP (fun t => t.kind = .semicolon) = 0) :
    behindLastSemicolon (tokens ++ more) = behindLastSemicolon tokens := by
  rw [List.countP_eq_length_filter, List.length_eq_zero_iff] at h
  rw [behindLastSemicolon, List.filter_append, h, List.append_nil]
  rfl

theorem behindLastSemicolon_concat (tokens : List Token) {t : Token} (h : t.kind = .semicolon) :
    behindLastSemicolon (tokens ++ [t]) = t.loc + t.len := by
  simp [behindLastSemicolon, List.filter_append, h]

/-! ## Cuts behind a token -/

theorem stops_of_append {kind : TokenKind} {head tail : List Char}
    (h : stops kind (head ++ tail) = true) : stops kind head = true := by
  cases head with
  | nil => cases kind <;> rfl
  | cons c cs => cases kind <;> exact h

/-- A text that is cut behind a token falls into the same tokens in front of the cut. -/
theorem Parted.exists_cut {pos : Nat} {cs : List Char} {ts front back : List Token}
    {ss : List Skipped} {t : Token} (h : Parted pos cs ts ss) (hts : ts = front ++ t :: back) :
    ∃ head tail rs, cs = head ++ tail ∧ pos + Text.byteLength head = t.loc + t.len ∧
      Parted pos head (front ++ [t]) rs := by
  induction h generalizing front with
  | nil pos => simp at hts
  | @blank pos c cs ts ss hb _ ih =>
    obtain ⟨head, tail, rs, rfl, hstop, hhead⟩ := ih hts
    refine ⟨c :: head, tail, rs, rfl, ?_, .blank hb hhead⟩
    rw [Text.byteLength_cons, ← Nat.add_assoc, hstop]
  | @skipped pos c cs ts ss hb hl _ ih =>
    obtain ⟨head, tail, rs, rfl, hstop, hhead⟩ := ih hts
    -- what starts no token in the whole text starts none before the cut
    have hforeign : lexeme? (c :: head) = none := by
      rw [lexeme?_eq_none_iff] at hl ⊢
      exact ⟨hl.1, hl.2.1, fun hsign => hl.2.2 (hsign.trans (List.prefix_append _ tail))⟩
    refine ⟨c :: head, tail, ⟨pos, c⟩ :: rs, rfl, ?_, .skipped hb hforeign hhead⟩
    rw [Text.byteLength_cons, ← Nat.add_assoc, hstop]
  | @token pos cs l ts ss hl hrest ih =>
    obtain ⟨rfl, hspells, hstops⟩ := lexeme?_eq_some_iff.1 hl
    cases front with
    | nil =>
      obtain ⟨rfl, -⟩ := List.cons.inj hts
      have hword : lexeme? l.word = some ⟨l.kind, l.word, []⟩ :=
        lexeme?_eq_some_iff.2 ⟨(List.append_nil _).symm, hspells, stops_of_append hstops⟩
      refine ⟨l.word, l.rest, [], rfl, ?_, .token (l := ⟨l.kind, l.word, []⟩) hword (.nil _)⟩
      rw [Token.len, String.toList_ofList]
    | cons first front =>
      obtain ⟨rfl, hmore⟩ := List.cons.inj hts
      obtain ⟨head, tail, rs, hcut, hstop, hhead⟩ := ih hmore
      rw [hcut] at hstops ⊢
      have hword : lexeme? (l.word ++ head) = some ⟨l.kind, l.word, head⟩ :=
        lexeme?_eq_some_iff.2 ⟨rfl, hspells, stops_of_append hstops⟩
      refine ⟨l.word ++ head, tail, rs, (List.append_assoc _ _ _).symm, ?_,
        .token (l := ⟨l.kind, l.word, head⟩) hword hhead⟩
      rw [Text.byteLength_append, ← Nat.add_assoc, hstop]

theorem sourceTokens_eq_of_parted {source : String} {ts : List Token} {ss : List Skipped}
    (h : Parted 0 source.toList ts ss) : sourceTokens source = ts := by
  obtain ⟨us, htokens, hparted⟩ := tokenize_eq_parted source
  rw [sourceTokens, htokens, List.dropLast_concat, (hparted.unique h).1]

theorem exists_sourceTokens_cut {source : String} {front back : List Token} {t : Token}
    (h : sourceTokens source = front ++ t :: back) :
    ∃ text, Text.slice? source 0 (t.loc + t.len) = some text ∧
      sourceTokens text = front ++ [t] := by
  obtain ⟨ts, htokens, hparted⟩ := tokenize_eq_parted source
  rw [sourceTokens_eq_of_parted hparted] at h
  obtain ⟨head, tail, rs, hsource, hstop, hhead⟩ := hparted.exists_cut h
  have hfound : FoundAt source 0 head := ⟨[], tail, hsource, rfl⟩
  rw [← String.toList_ofList (l := head)] at hhead
  refine ⟨String.ofList head, ?_, sourceTokens_eq_of_parted hhead⟩
  rw [← hstop, Nat.zero_add, hfound.slice?]

/-- Sentences at the front of a source are a source of their own. -/
theorem exists_sourceTokens_front {source : String} {ss : List Sentence} {rest : List Token}
    (h : sourceTokens source = sentencesYield ss ++ rest) :
    ∃ text, Text.slice? source 0 (behindLastSemicolon (sentencesYield ss)) = some text ∧
      sourceTokens text = sentencesYield ss := by
  rcases List.eq_nil_or_concat ss with rfl | ⟨before, s, rfl⟩
  · have hfound : FoundAt source 0 [] := ⟨[], source.toList, rfl, rfl⟩
    exact ⟨"", hfound.slice?, sourceTokens_eq_of_parted (.nil 0)⟩
  · obtain ⟨t, ht, hs⟩ := s.exists_semicolon
    have hyield : sentencesYield (before ++ [s]) =
        sentencesYield before ++ s.clause.yield ++ [t] := by
      simp [sentencesYield, hs]
    rw [List.concat_eq_append, hyield] at h ⊢
    rw [behindLastSemicolon_concat _ ht]
    exact exists_sourceTokens_cut (by rw [h, List.append_assoc, List.singleton_append])

/-! ## Where a run stops -/

/-- A statement without its semicolon has one behind it. -/
theorem Outline.Advances.semicolon_of_clause {x y : Outline} {input rest : List Token}
    (h : x.Advances input y rest) {k : Clause} (hk : y.fragment = .clause k) :
    x.fragment = .clause k ∧ rest = input ∨
      ∃ semicolon more, rest = semicolon :: more ∧ semicolon.kind = .semicolon := by
  induction h with
  | refl x input => exact .inl ⟨hk, rfl⟩
  | @head x y z input rest last m h _ ih =>
    rcases ih hk with ⟨hy, rfl⟩ | hlast
    · refine .inr ?_
      cases h with
      | within h =>
        cases h with
        | stmtExpr hs => exact ⟨_, _, rfl, hs⟩
        | stmtAssign hs => exact ⟨_, _, rfl, hs⟩
        | stmtEmpty hs => exact ⟨_, _, rfl, hs⟩
        | _ => cases hy
      | program => cases hy
    · exact .inr hlast

namespace Parse

variable {p : Parse} {source quoted : String} {x : Outline} {f : Failure} {d : Context}

/-- A run that fails does so within a sentence, and leaves the context as it stands there. -/
theorem Tracks.within_of_failsOn {input : List Token}
    (hp : p.Tracks source (Context.new quoted) x) (hway : Outline.Advances {} input x p.input)
    (h : p.FailsOn source (Context.new quoted) x f d) : x.fragment.Within ∧ d = p.context := by
  rcases h with ⟨complaint, hmove, hd, -⟩ | ⟨m, y, rest, hadvance, hact⟩
  · refine ⟨?_, hd⟩
    obtain ⟨ss, g⟩ := x
    cases g with
    | clause k =>
      rcases hway.semicolon_of_clause rfl with ⟨hstart, -⟩ | ⟨semicolon, more, hinput, hs⟩
      · cases hstart
      · have hadvance : Outline.Advance ⟨ss, .clause k⟩ p.input .shift
            ⟨ss, .ended k semicolon hs⟩ more := by
          rw [hinput]
          exact .within (.shiftSemicolon hs)
        cases hmove.symm.trans (hp.move_eq hadvance)
    | ended k semicolon hs => cases hmove.symm.trans (hp.move_eq .program)
    | _ => exact trivial
  · obtain ⟨hd, q, values, -, -, hfaults⟩ := hp.faults hadvance hact
    exact ⟨hfaults.within, hd⟩

/-- The tokens that a failing run has put on the stack are those of its outline. -/
theorem shifts_eq_yield (hreach : (start (Lexer.new source) (Context.new quoted)).Reaches p)
    (hyield : x.yield ++ p.input = sourceTokens source)
    (hrun : (start (Lexer.new source) (Context.new quoted)).run =
      .failed f { p with context := d }) :
    (start (Lexer.new source) (Context.new quoted)).shifts = x.yield := by
  obtain ⟨hrow, -⟩ := (traced_run _).1.row_eq
    (inStep_start_lexer (Lexer.new source) (Context.new quoted))
  rw [hrun, row_start, tokenize_eq_yield_row hreach hyield] at hrow
  exact List.append_cancel_right hrow

/-- An assignment is made with one operand pending. -/
theorem depth_of_stmtAssign
    (h : (start (Lexer.new source) (Context.new quoted)).Reaches p)
    (hmove : p.move = .reduce .stmtAssign) : p.context.depth = 1 := by
  obtain ⟨x, hp, -, -⟩ := exists_tracks h
  obtain ⟨y, rest, hadvance⟩ := hp.advance_of_reduce hmove
  obtain ⟨⟨⟩, c, hss, hg⟩ := Outcome.bind_eq_ok_iff.1 hp.act_eq
  have hdepth : c.depth = 0 := (depth_of_sentencesAct hss).1
  generalize p.input = input at hadvance
  cases hadvance with
  | within hadvance =>
    cases hadvance with
    | stmtAssign hs =>
      obtain ⟨below, e, v, ho, hphrase, -⟩ := Fragment.exists_of_act_phrase hg
      obtain ⟨-, rfl⟩ := Outcome.ok.inj ho
      obtain ⟨r, -, -, -, hcontext⟩ := Phrase.walked_of_act _ hphrase
      rw [hcontext, Context.depth_pushed, hdepth]

end Parse

/-- What a failing parse leaves, against what the source leaves that ends with the last
semicolon it has put on the stack: code of operands is all that is more. -/
theorem exists_front_of_parse {source quoted : String} {f : Failure} {l : Lexer} {d : Context}
    (h : parse (Lexer.new source) (Context.new quoted) = .failed f (l, d)) :
    ∃ front n m c code,
      Text.slice? source 0 (behindLastSemicolon
        (Parse.start (Lexer.new source) (Context.new quoted)).shifts) = some front ∧
      (∀ options, ∃ result, compile front options = .ok result) ∧
      parse (Lexer.new front) (Context.new front) = .ok n (m, c) ∧
      d.symbols = c.symbols ∧ d.values = c.values ∧ d.slots = c.slots ∧
      d.body = c.body ++ code ∧ ∀ slot, .popSlot slot ∉ code := by
  rcases (Parse.tracks_start (Lexer.new source) (Context.new quoted)).run_cases with
    ⟨p, x, hrun, -⟩ | ⟨p, ⟨ss, g⟩, f', e, hrun, hreach, hway, hp, hfails⟩
  · rw [parse, hrun] at h
    cases h
  · rw [parse, hrun] at h
    obtain ⟨rfl, hd⟩ := Outcome.failed.inj h
    obtain ⟨-, rfl⟩ := Prod.mk.inj hd
    obtain ⟨hwithin, rfl⟩ := hp.within_of_failsOn hway hfails
    have hyield : (⟨ss, g⟩ : Outline).yield ++ p.input = sourceTokens source := by
      rw [Outline.yield_advances hway, Parse.input_start]
      rfl
    obtain ⟨⟨⟩, b, hss, hg⟩ := Outcome.bind_eq_ok_iff.1 hp.act_eq
    obtain ⟨q, values, hq, hscoped, hknown, rfl⟩ := context_of_sentencesAct hss
    obtain ⟨code, operands, hcode, hcontext⟩ := hwithin.addsOperands hg
    -- the sentences alone, read from the text that the cut leaves
    obtain ⟨front, hfront, htokens⟩ :=
      exists_sourceTokens_front (hyield.symm.trans (List.append_assoc _ _ _))
    have hmark := markable_sourceTokens front
    rw [htokens] at hmark
    have hact := sentencesAct_of_known front hmark hq hscoped hknown
    obtain ⟨m, hparse⟩ := parse_of_sentencesAct_ok (l := Lexer.new front) htokens.symm hact
    refine ⟨front, ss.length, m, q.context front values, code, ?_, fun options => ?_, hparse, ?_⟩
    · rw [Parse.shifts_eq_yield hreach hyield hrun, Outline.yield,
        behindLastSemicolon_append _ hwithin.countP_semicolon, hfront]
    · obtain ⟨skipped, hcompile⟩ := compile_of_sentencesAct_ok options htokens.symm hact
      exact ⟨_, hcompile⟩
    · rw [hcontext]
      exact ⟨rfl, rfl, rfl, rfl, hcode⟩

/-- A failure leaves a clean front.  In any state an action that fails leaves the state as it
was, unless it is an assignment with two operands pending or more, which fails after it has
bound the name, noted the value and stored the operand, all as one with a single operand does.
No parse that fails on a new context comes to such an assignment.  It leaves the variables, the
values and the slots of the statements up to the last semicolon that it has put on the stack,
which compile on their own; and it leaves their code, with more code behind it that stores
nothing. -/
theorem failure_leaves_clean_front :
    (∀ (c d : Context) (a : Context.Action) (f : Failure), c.perform a = .failed f d →
      d = c ∨ ∃ name value, a = .assign name value ∧ 2 ≤ c.depth) ∧
    (∀ (c : Context) (name : String) (value : Value), 2 ≤ c.depth →
      ∃ d, c.assign name value = .failed (.error (.unbalancedStatement (c.depth - 1) 0)) d ∧
        d = { c with
          symbols := (c.symbols.bind name).2
          values := c.values.set name value
          depth := c.depth - 1
          slots := if name ∈ c.symbols.names then c.slots else c.slots + 1
          body := c.body ++ [.popSlot (c.symbols.bind name).1] } ∧
        Context.assign { c with depth := 1 } name value = .ok () { d with depth := 0 }) ∧
    ∀ (source quoted : String) (f : Failure) (l : Lexer) (d : Context),
      parse (Lexer.new source) (Context.new quoted) = .failed f (l, d) →
        (∀ p, (Parse.start (Lexer.new source) (Context.new quoted)).Reaches p →
          p.move = .reduce .stmtAssign → p.context.depth = 1) ∧
        ∃ front n m c code,
          Text.slice? source 0 (behindLastSemicolon
            (Parse.start (Lexer.new source) (Context.new quoted)).shifts) = some front ∧
          (∀ options, ∃ result, compile front options = .ok result) ∧
          parse (Lexer.new front) (Context.new front) = .ok n (m, c) ∧
          d.symbols = c.symbols ∧ d.values = c.values ∧ d.slots = c.slots ∧
          d.body = c.body ++ code ∧ ∀ slot, .popSlot slot ∉ code := by
  refine ⟨fun c d a f => Context.eq_of_perform_failed, ?_, ?_⟩
  · intro c name value hdepth
    exact ⟨c.stored name value, Context.assign_of_two_le hdepth name value,
      c.stored_eq name value, Context.assign_of_depth_eq_one rfl name value⟩
  · intro source quoted f l d h
    exact ⟨fun p hreach hmove => Parse.depth_of_stmtAssign hreach hmove, exists_front_of_parse h⟩

/-- The name at the end is not assigned.  Of the second statement the read of the first
variable is left, and not the second variable. -/
theorem failure_leaves_clean_front_sum :
    ∃ f l d n m c code,
      parse (Lexer.new "x := 1; y := x + z;") (Context.new "x := 1; y := x + z;") =
        .failed f (l, d) ∧
      parse (Lexer.new "x := 1;") (Context.new "x := 1;") = .ok n (m, c) ∧
      d.symbols = c.symbols ∧ d.values = c.values ∧ d.slots = c.slots ∧
      d.body = c.body ++ code ∧ ∀ slot, .popSlot slot ∉ code := by
  have hcompile : compile "x := 1; y := x + z;" {} =
      .error (.error (.undefinedVariable ⟨"x := 1; y := x + z;", 17⟩ "z")) :=
    compile_eq_error_of_matches _ _ _ (by decide +kernel)
  obtain ⟨⟨l, d⟩, hparse⟩ := parse_of_compile hcompile
  obtain ⟨-, front, n, m, c, code, hslice, -, hrest⟩ :=
    failure_leaves_clean_front.2.2 _ _ _ l d hparse
  have hfront : Text.slice? "x := 1; y := x + z;" 0 (behindLastSemicolon
      (Parse.start (Lexer.new "x := 1; y := x + z;")
        (Context.new "x := 1; y := x + z;")).shifts) = some "x := 1;" := by
    decide +kernel
  obtain rfl := Option.some.inj (hfront.symm.trans hslice)
  exact ⟨_, l, d, n, m, c, code, hparse, hrest⟩

end OnePass
