import OnePass.Proofs.Exactness
import OnePass.Proofs.LongestMatch
import OnePass.Proofs.Refusal

/-!
Where an error is reported, and why there.

A run that fails has a token to blame: the one that it looks at, when no sentence goes on with
it, or one that it has read.  Of those it blames a number that is no word, a name that is read
but not assigned, and the sign of a division whose right operand is known to be zero.  The
last is neither the token that it looks at nor one of the operand, but the sign that was on
the stack below them.  In every case the caret stands under the first character of the token,
and what stands before it is counted in characters and not in bytes.
-/

namespace OnePass

/-! ## Faults of what has been read -/

/-- Why the actions of a fragment fail as it grows, when `c` is the context before its
sentence. -/
inductive Fragment.Faults (source : String) (c : Context) (input : List Token) :
    Fragment → Failure → Prop
  | literal {o t h} (ht : t.kind = .number) (hv : t.value = none) :
      Faults source c input (.operand o t h)
        (Failure.marking source t.loc (CompileError.malformed · .literalOutOfRange))
  /-- Also a name that is assigned is blamed where it cannot be marked. -/
  | undefined {o t h next rest} (ht : t.kind = .name) (hinput : input = next :: rest)
      (hnext : next.kind.followsOperand = true)
      (hread : c.Defines t.text → Marker.place? c.source t.loc = none) :
      Faults source c input (.operand o t h)
        (Failure.marking c.source t.loc (CompileError.undefinedVariable · t.text))
  | division {o lhs sign h hop rhs r} (hr : rhs.expr? = some r)
      (hzero : r.known c.values = .ok (some 0)) :
      Faults source c input (.phrase (.product o lhs sign .div h hop) rhs)
        (Failure.marking c.source sign.loc .divisionByZero)

theorem Context.read_eq_failed_iff {c d : Context} {name : String} {loc : Nat} {f : Failure} :
    c.read name loc = .failed f d ↔
      d = c ∧ f = Failure.marking c.source loc (CompileError.undefinedVariable · name) ∧
        (c.Defines name → Marker.place? c.source loc = none) := by
  by_cases hdefines : c.Defines name
  · cases hm : Marker.place? c.source loc with
    | none =>
      rw [read_of_place?_eq_none name hm, Failure.marking, hm, Outcome.failed.injEq]
      simp [eq_comm, and_comm]
    | some m =>
      rw [read_of_defines hm hdefines]
      simp [hdefines]
  · rw [read_of_not_defines loc hdefines, Outcome.failed.injEq]
    simp [hdefines, eq_comm, and_comm]

section

variable {source : String} {c d e : Context} {f : Failure}

/-- An operator behind both its operands fails on a right one that is known to be zero, and
leaves the context as it is. -/
theorem Phrase.division_of_binary {l m : Level} {lhs : Phrase l} {rhs : Phrase m} {op : BinaryOp}
    {a b : Value} {loc : Nat} {g : Context} (hl : lhs.act source c = .ok a d)
    (hr : rhs.act source d = .ok b e) (h : e.binary op a b loc = .failed f g) :
    op = .div ∧ g = e ∧ f = Failure.marking c.source loc .divisionByZero ∧
      ∃ r, rhs.expr? = some r ∧ r.known c.values = .ok (some 0) := by
  obtain ⟨x, -, -, -, rfl⟩ := lhs.walked_of_act hl
  obtain ⟨y, hy, -, hknown, rfl⟩ := rhs.walked_of_act hr
  rw [Context.binary_pushed_pushed] at h
  cases hv : Value.binary op a b with
  | ok v =>
    rw [hv] at h
    cases h
  | error z =>
    rw [hv] at h
    obtain ⟨rfl, rfl⟩ := Outcome.failed.inj h
    obtain ⟨rfl, rfl⟩ := Value.binary_eq_error_iff.1 hv
    exact ⟨rfl, rfl, rfl, y, hy, hknown⟩

theorem Fragment.failed_of_act_phrase {l : Level} {o : Opening l} {p : Phrase l} {below : Stack}
    (ho : o.act source c = .ok below e) (h : (phrase o p).act source c = .failed f d) :
    p.act source e = .failed f d := by
  rw [act, ho, Outcome.bind_ok] at h
  exact Outcome.map_eq_failed_iff.1 h

/-! A statement ends without a failure behind its expression, since nothing was pending before
it. -/

theorem Clause.act_assign_eq_ok (target : Token) (ht : target.kind = .name) (sign : Token)
    (hs : sign.kind = .becomes) {p : Phrase .expression} {v : Value} (hdepth : c.depth = 0)
    (h : p.act source c = .ok v e) :
    ∃ d, (assign target ht sign hs p).act source c = .ok none d := by
  obtain ⟨x, -, -, -, rfl⟩ := p.walked_of_act h
  exact ⟨_, by rw [act, h, Outcome.bind_ok, Context.assign_pushed, if_pos hdepth, Outcome.map_ok]⟩

theorem Clause.act_expression_eq_ok {p : Phrase .expression} {v : Value} (hdepth : c.depth = 0)
    (h : p.act source c = .ok v e) : ∃ d, (expression p).act source c = .ok v d := by
  obtain ⟨x, -, -, -, rfl⟩ := p.walked_of_act h
  exact ⟨_, by
    rw [act, h, Outcome.bind_ok, Context.finishStatement_pushed, if_pos hdepth, Outcome.map_ok]⟩

/-- The actions that a fragment adds as it grows fail for one of the three reasons, and they
change nothing then. -/
theorem Fragment.Advance.faults {g h : Fragment} {input rest : List Token} {m : Decision}
    {stack : Stack} (hadvance : g.Advance input m h rest) (hdepth : c.depth = 0)
    (hg : g.act source c = .ok stack e) (hh : h.act source c = .failed f d) :
    g.Faults source c input f ∧ d = e := by
  have houtline : Outline.Advance ⟨[], g⟩ input m ⟨[], h⟩ rest := .within hadvance
  rcases houtline.shift_or_reduce with ⟨t, rfl, rfl⟩ | ⟨rfl, production, rfl⟩
  · rw [act_shift hadvance, hg] at hh
    cases hh
  · cases hadvance with
    | @factorNumber o t _ _ _ ht hn =>
      obtain ⟨below, ho, rfl⟩ := Outcome.map_eq_ok_iff.1 hg
      have hp := failed_of_act_phrase ho hh
      rw [Phrase.act] at hp
      cases hv : t.value with
      | some n =>
        rw [hv] at hp
        cases hp
      | none =>
        rw [hv] at hp
        obtain ⟨rfl, rfl⟩ := Outcome.failed.inj hp
        exact ⟨.literal ht hv, rfl⟩
    | @factorName o t _ _ _ ht hn =>
      obtain ⟨below, ho, rfl⟩ := Outcome.map_eq_ok_iff.1 hg
      obtain ⟨rfl, rfl, hread⟩ := Context.read_eq_failed_iff.1 (failed_of_act_phrase ho hh)
      obtain ⟨code, operands, rfl⟩ := o.adds_of_act ho
      exact ⟨.undefined ht rfl hn hread, rfl⟩
    | factorGroup hn =>
      obtain ⟨below, e', ho, hg⟩ := Outcome.bind_eq_ok_iff.1 hg
      obtain ⟨v, hinner, -⟩ := Outcome.map_eq_ok_iff.1 hg
      have hp := failed_of_act_phrase ho hh
      rw [Phrase.act, hinner] at hp
      cases hp
    | @termFactor o =>
      obtain ⟨below, e', v, ho, hp, -⟩ := exists_of_act_phrase hg
      have hfailed := failed_of_act_phrase (o := o) ho hh
      rw [Phrase.act, hp] at hfailed
      cases hfailed
    | termBinary =>
      obtain ⟨below, e', b, ho, hrhs, -⟩ := exists_of_act_phrase hg
      obtain ⟨below', e'', ho, hlhs⟩ := Outcome.bind_eq_ok_iff.1 ho
      obtain ⟨a, hlhs, -⟩ := Outcome.map_eq_ok_iff.1 hlhs
      have hp := failed_of_act_phrase ho hh
      rw [Phrase.act, Context.operate, hlhs, Outcome.bind_ok, hrhs, Outcome.bind_ok] at hp
      obtain ⟨code, operands, rfl⟩ := Opening.adds_of_act _ ho
      obtain ⟨rfl, rfl, rfl, r, hr, hzero⟩ := Phrase.division_of_binary hlhs hrhs hp
      exact ⟨.division hr hzero, rfl⟩
    | @exprTerm o _ _ hn =>
      obtain ⟨below, e', v, ho, hp, -⟩ := exists_of_act_phrase hg
      have hfailed := failed_of_act_phrase (o := o) ho hh
      rw [Phrase.act, hp] at hfailed
      cases hfailed
    | @exprBinary _ _ _ _ _ hop _ _ hn =>
      obtain ⟨below, e', b, ho, hrhs, -⟩ := exists_of_act_phrase hg
      obtain ⟨below', e'', ho, hlhs⟩ := Outcome.bind_eq_ok_iff.1 ho
      obtain ⟨a, hlhs, -⟩ := Outcome.map_eq_ok_iff.1 hlhs
      have hp := failed_of_act_phrase ho hh
      rw [Phrase.act, Context.operate, hlhs, Outcome.bind_ok, hrhs, Outcome.bind_ok] at hp
      obtain ⟨rfl, -⟩ := Phrase.division_of_binary hlhs hrhs hp
      cases hop
    | stmtExpr hs =>
      obtain ⟨below, e', v, ho, hp, -⟩ := exists_of_act_phrase hg
      obtain ⟨-, rfl⟩ := Outcome.ok.inj ho
      obtain ⟨_, hok⟩ := Clause.act_expression_eq_ok hdepth hp
      rw [act, hok] at hh
      cases hh
    | @stmtAssign target ht sign hsign _ _ _ hs =>
      obtain ⟨below, e', v, ho, hp, -⟩ := exists_of_act_phrase hg
      obtain ⟨-, rfl⟩ := Outcome.ok.inj ho
      obtain ⟨_, hok⟩ := Clause.act_assign_eq_ok target ht sign hsign hdepth hp
      rw [act, hok] at hh
      cases hh
    | stmtEmpty hs =>
      rw [act, Clause.act, Context.emptyStatement, if_pos hdepth] at hh
      cases hh

end

/-- What a parse blames that fails as its outline grows.  The program of the complete
sentences has been compiled, and the context is left as the last action that succeeded has
left it. -/
theorem Parse.Tracks.faults {p : Parse} {source quoted : String} {x y : Outline}
    {m : Decision} {rest : List Token} {f : Failure} {d : Context}
    (hp : p.Tracks source (Context.new quoted) x) (h : x.Advance p.input m y rest)
    (hy : y.act source (Context.new quoted) = .failed f d) :
    d = p.context ∧ ∃ q values, sentencesProgram? x.complete = some q ∧
      q.known {} = .ok values ∧
      x.fragment.Faults source (q.context quoted values) p.input f := by
  have hx := hp.act_eq
  obtain ⟨⟨⟩, c, hss, hf⟩ := Outcome.bind_eq_ok_iff.1 hx
  obtain ⟨q, values, hq, -, hknown, rfl⟩ := context_of_sentencesAct hss
  generalize p.input = input at h
  cases h with
  | within h =>
    rw [Outline.act, hss, Outcome.bind_ok] at hy
    obtain ⟨hfaults, rfl⟩ := h.faults rfl hf hy
    exact ⟨rfl, q, values, hq, hknown, hfaults⟩
  | program =>
    obtain ⟨v, hk, -⟩ := Outcome.map_eq_ok_iff.1 hf
    rw [Outline.act_start, sentencesAct_concat, hss, Outcome.bind_ok, Clause.clause_sentence,
      hk] at hy
    cases hy

/-! ## Tokens to blame -/

/-- The token is to blame for the error, which is reported in the given words and marks
`column`.  The parse is the one that fails. -/
inductive CompileError.Blamed (source : String) (p : Parse) (t : Token) (column : Nat) :
    CompileError → String → Prop
  /-- A name is read, and no sentence before its own assigns to it. -/
  | undefined {ss : List Sentence} {q : Program} {o : Opening .factor} {next : Token}
      {rest : List Token} (hname : t.kind = .name)
      (htokens : sourceTokens source = sentencesYield ss ++ (o.yield ++ t :: next :: rest))
      (hread : next.kind.followsOperand = true) (hprogram : sentencesProgram? ss = some q)
      (htargets : t.text ∉ q.targets) :
      Blamed source p t column (.undefinedVariable ⟨source, column⟩ t.text)
        s!"undefined variable '{t.text}'"
  /-- The right operand is zero, where a name stands for the value of the latest assignment
  to it. -/
  | division {ss : List Sentence} {q : Program} {values : ValueTable} {o : Opening .term}
      {lhs : Phrase .term} {rhs : Phrase .factor} {r : Expr} {rest : List Token}
      (hsign : t.kind = .operator .div)
      (htokens : sourceTokens source =
        sentencesYield ss ++ (o.yield ++ (lhs.yield ++ t :: (rhs.yield ++ rest))))
      (hprogram : sentencesProgram? ss = some q) (hvalues : q.known {} = .ok values)
      (hrhs : rhs.expr? = some r) (hzero : r.known values = .ok (some 0)) :
      Blamed source p t column (.divisionByZero ⟨source, column⟩) "division by zero"
  | literal (hnumber : t.kind = .number) (hlarge : 2 ^ 63 - 1 < decimal t.text.toList) :
      Blamed source p t column (.malformed ⟨source, column⟩ .literalOutOfRange)
        "integer literal out of range"
  /-- The token that the parse looks at stands in the wrong place. -/
  | form {complaint : Complaint} {words : String} (hmove : p.move = .reject complaint)
      (hlookahead : p.lookahead = t) (hcomplaint : complaint ≠ .literalOutOfRange)
      (hquotes : complaint.message = words ++ s!"\"{t.describe}\"")
      (hend : t.kind = .eof → t.describe = "EOF" ∧ column = source.length) :
      Blamed source p t column (.malformed ⟨source, column⟩ complaint) complaint.message

theorem Marker.render_append (m : Marker) (words : String) :
    m.render ++ " " ++ words =
      "'" ++ m.source ++ "'\n" ++ String.ofList (List.replicate (1 + m.column) ' ') ++ "^ " ++
        words := by
  have hcaret : "^ " = "^" ++ " " := by decide
  rw [render, hcaret, Nat.add_comm 1]
  simp only [String.append_assoc]

theorem CompileError.Blamed.message_eq {source words : String} {p : Parse} {t : Token}
    {column : Nat} {e : CompileError} (h : e.Blamed source p t column words) :
    e.message = "'" ++ source ++ "'\n" ++ String.ofList (List.replicate (1 + column) ' ') ++
      "^ " ++ words := by
  rw [← Marker.render_append ⟨source, column⟩]
  cases h with
  | undefined =>
    have hspace : " undefined variable '" = " " ++ "undefined variable '" := by decide
    show Marker.render ⟨source, column⟩ ++ (" undefined variable '" ++ t.text ++ "'") =
      Marker.render ⟨source, column⟩ ++ " " ++ ("undefined variable '" ++ t.text ++ "'")
    rw [hspace]
    simp only [String.append_assoc]
  | division =>
    have hspace : " division by zero" = " " ++ "division by zero" := by decide
    show Marker.render ⟨source, column⟩ ++ " division by zero" =
      Marker.render ⟨source, column⟩ ++ " " ++ "division by zero"
    rw [hspace, ← String.append_assoc]
  | literal => rfl
  | form => rfl

theorem Failure.marking_eq_error {source : String} {front back : List Char}
    (h : source.toList = front ++ back) (report : Marker → CompileError) :
    Failure.marking source (Text.byteLength front) report =
      .error (report ⟨source, front.length⟩) := by
  have hplace := Marker.place?_ofList_append front back
  rw [← h, String.ofList_toList] at hplace
  rw [Failure.marking, hplace]

theorem lt_decimal_of_value {t : Token} (h : t.kind = .number) (hv : t.value = none) :
    2 ^ 63 - 1 < decimal t.text.toList := by
  apply Nat.lt_of_not_le
  intro hle
  obtain ⟨w, hw, -⟩ := (isLiteral_value h (String.ofList_toList).symm).1 hle
  rw [hv] at hw
  cases hw

/-- The token that ends a source stands behind all of it. -/
theorem loc_of_mem_tokenize {source : String} {t : Token} (h : t ∈ (tokenize source).1)
    (hk : t.kind = .eof) : t.loc = Text.byteLength source.toList := by
  obtain ⟨ts, htokens, hparted⟩ := tokenize_eq_parted source
  rw [htokens] at h
  rcases List.mem_append.1 h with h | h
  · exact absurd hk (hparted.kind_ne_eof t h)
  · rw [List.mem_singleton.1 h, ← Text.utf8ByteSize_eq]
    rfl

section

variable {source : String} {p : Parse} {t : Token} {front back : List Char}

theorem Parse.blamed_of_reject {complaint : Complaint}
    (hmem : p.lookahead ∈ (tokenize source).1)
    (hsource : source.toList = front ++ p.lookahead.text.toList ++ back)
    (hloc : p.lookahead.loc = Text.byteLength front) (hmove : p.move = .reject complaint) :
    (CompileError.malformed ⟨source, front.length⟩ complaint).Blamed source p p.lookahead
      front.length complaint.message := by
  have hquotes := Decision.quotes_of_reject hmove
  obtain ⟨words, hwords⟩ := hquotes.message_eq
  refine .form hmove rfl hquotes.ne_literalOutOfRange hwords fun hk => ⟨?_, ?_⟩
  · rw [Token.describe, hk]
  · have hend := (hloc.symm.trans (loc_of_mem_tokenize hmem hk))
    rw [List.append_assoc, ← List.append_nil source.toList] at hsource
    rw [← String.length_toList, (Text.append_inj hsource hend.symm).1]

/-- A token of the source is marked by the number of characters before it. -/
theorem exists_blamed_of_marking {report : Marker → CompileError} {words : String}
    (ht : t ∈ (tokenize source).1)
    (h : ∀ front back, source.toList = front ++ t.text.toList ++ back →
      t.loc = Text.byteLength front → (report ⟨source, front.length⟩).Blamed source p t
        front.length words) :
    ∃ e s front back words, Failure.marking source t.loc report = .error e ∧
      s ∈ (tokenize source).1 ∧ source.toList = front ++ s.text.toList ++ back ∧
      s.loc = Text.byteLength front ∧ e.Blamed source p s front.length words := by
  obtain ⟨front, back, hsource, hloc⟩ := foundAt_of_mem_tokenize ht
  refine ⟨_, t, front, back, words, ?_, ht, hsource, hloc, h front back hsource hloc⟩
  rw [hloc]
  exact Failure.marking_eq_error (hsource.trans (List.append_assoc _ _ _)) report

theorem Fragment.Faults.exists_blamed {x : Outline} {q : Program} {values : ValueTable}
    {f : Failure} (h : x.fragment.Faults source (q.context source values) p.input f)
    (hyield : x.yield ++ p.input = sourceTokens source)
    (hq : sentencesProgram? x.complete = some q) (hknown : q.known {} = .ok values) :
    ∃ e t front back words, f = .error e ∧ t ∈ (tokenize source).1 ∧
      source.toList = front ++ t.text.toList ++ back ∧ t.loc = Text.byteLength front ∧
      e.Blamed source p t front.length words := by
  obtain ⟨ss, g⟩ := x
  have hmem : ∀ t ∈ sourceTokens source, t ∈ (tokenize source).1 := List.dropLast_subset _
  cases h with
  | @literal o t _ ht hv =>
    have htoken := hmem t (by simp [← hyield, Outline.yield, Fragment.yield])
    exact exists_blamed_of_marking htoken fun _ _ _ _ => .literal ht (lt_decimal_of_value ht hv)
  | @undefined o t _ next rest ht hinput hnext hread =>
    have htokens : sourceTokens source = sentencesYield ss ++ (o.yield ++ t :: next :: rest) := by
      rw [← hyield, hinput]
      simp [Outline.yield, Fragment.yield]
    have htoken := hmem t (by simp [htokens])
    have htargets : t.text ∉ q.targets := by
      intro htarget
      have hnone : Marker.place? source t.loc = none :=
        hread ((Program.defines_context hknown t.text).2 htarget)
      have hsome := (foundAt_of_mem_tokenize htoken).isSome_place?
      rw [hnone] at hsome
      cases hsome
    exact exists_blamed_of_marking htoken fun _ _ _ _ => .undefined ht htokens hnext hq htargets
  | @division o lhs sign hs _ rhs r hr hzero =>
    have htokens : sourceTokens source =
        sentencesYield ss ++ (o.yield ++ (lhs.yield ++ sign :: (rhs.yield ++ p.input))) := by
      rw [← hyield]
      simp [Outline.yield, Fragment.yield, Opening.yield]
    have htoken := hmem sign (by simp [htokens])
    exact exists_blamed_of_marking htoken
      fun _ _ _ _ => .division hs htokens hq hknown hr hzero

/-- An error of a compilation has a token of the source to blame.  Its text quotes the source
and puts the caret under the first character of that token, below as many characters as stand
before it; and the token is one that the error is about. -/
theorem compile_blames_token {options : Options} {f : Failure}
    (h : compile source options = .error f) :
    ∃ e t front back words p stopped, f = .error e ∧ t ∈ (tokenize source).1 ∧
      source.toList = front ++ t.text.toList ++ back ∧ t.loc = Text.byteLength front ∧
      e.message = "'" ++ source ++ "'\n" ++
        String.ofList (List.replicate (1 + front.length) ' ') ++ "^ " ++ words ∧
      (Parse.start (Lexer.new source) (Context.new source)).Reaches p ∧
      p.step = .failed f stopped ∧ e.Blamed source p t front.length words := by
  obtain ⟨⟨lexer, d⟩, hparse⟩ := parse_of_compile h
  obtain ⟨p, x, hreaches, hyield, hp, hfails⟩ := exists_failsOn_of_parse hparse
  have hyield : x.yield ++ p.input = sourceTokens source := hyield
  have hblamed : ∃ e t front back words, f = .error e ∧ t ∈ (tokenize source).1 ∧
      source.toList = front ++ t.text.toList ++ back ∧ t.loc = Text.byteLength front ∧
      e.Blamed source p t front.length words := by
    rcases hfails with ⟨complaint, hmove, -, rfl⟩ | ⟨m, y, rest, hadvance, hact⟩
    · have hmem : p.lookahead ∈ (tokenize source).1 := by
        rw [tokenize_eq_yield_row hreaches hyield]
        exact List.mem_append_right _ List.mem_cons_self
      exact exists_blamed_of_marking hmem
        fun _ _ hsource hloc => Parse.blamed_of_reject hmem hsource hloc hmove
    · obtain ⟨-, q, values, hq, hknown, hfaults⟩ := hp.faults hadvance hact
      exact hfaults.exists_blamed hyield hq hknown
  have hstep : ∃ stopped, p.step = .failed f stopped := by
    rcases hfails with ⟨complaint, hmove, -, rfl⟩ | ⟨m, y, rest, hadvance, hact⟩
    · exact ⟨p, by rw [Parse.step, hmove, hp.source_eq]⟩
    · exact ⟨_, hp.step_failed hadvance hact⟩
  obtain ⟨e, t, front, back, words, he, ht, hsource, hloc, hb⟩ := hblamed
  obtain ⟨stopped, hstep⟩ := hstep
  exact ⟨e, t, front, back, words, p, stopped, he, ht, hsource, hloc, hb.message_eq, hreaches,
    hstep, hb⟩

/-- The character in front takes two bytes and is skipped, and the caret still stands under
the sign. -/
theorem compile_blames_token_division :
    compile "é a := 2; 7 / (a - 2);" {} =
        .error (.error (.divisionByZero ⟨"é a := 2; 7 / (a - 2);", 12⟩)) ∧
      ∃ t front back words p stopped, t ∈ (tokenize "é a := 2; 7 / (a - 2);").1 ∧
        "é a := 2; 7 / (a - 2);".toList = front ++ t.text.toList ++ back ∧
        t.loc = Text.byteLength front ∧
        CompileError.message (.divisionByZero ⟨"é a := 2; 7 / (a - 2);", 12⟩) =
          "'" ++ "é a := 2; 7 / (a - 2);" ++ "'\n" ++
            String.ofList (List.replicate (1 + front.length) ' ') ++ "^ " ++ words ∧
        (Parse.start (Lexer.new "é a := 2; 7 / (a - 2);")
          (Context.new "é a := 2; 7 / (a - 2);")).Reaches p ∧
        p.step = .failed (.error (.divisionByZero ⟨"é a := 2; 7 / (a - 2);", 12⟩)) stopped ∧
        CompileError.Blamed "é a := 2; 7 / (a - 2);" p t front.length
          (.divisionByZero ⟨"é a := 2; 7 / (a - 2);", 12⟩) words := by
  have hcompile : compile "é a := 2; 7 / (a - 2);" {} =
      .error (.error (.divisionByZero ⟨"é a := 2; 7 / (a - 2);", 12⟩)) :=
    compile_eq_error_of_matches _ _ _ (by decide +kernel)
  obtain ⟨e, t, front, back, words, p, stopped, he, hrest⟩ := compile_blames_token hcompile
  obtain rfl := Failure.error.inj he
  exact ⟨hcompile, t, front, back, words, p, stopped, hrest⟩

end
end OnePass
