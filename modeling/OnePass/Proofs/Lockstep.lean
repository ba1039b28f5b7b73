import OnePass.Proofs.Rounding
import OnePass.Proofs.Viable

/-!
Compile-time values are the words of the run.

A parse computes with 64-bit values in a table, and the code it emits with words in slots.
Where every value is known and a word, and where rounding down and rounding towards zero give
the same quotients, the two go in step: between any two statements, each slot holds the word
of the value that the table has for its name.
-/

namespace OnePass

/-! ## Words and values -/

/-- The words of the names are the values that the table knows for them. -/
def ValueTable.HeldIn (values : ValueTable) (store : String → Word) (names : List String) : Prop :=
  ∀ x ∈ names, ∃ v, values.get x = some v ∧ (store x).toInt = v.toInt

/-- Both roundings give the same quotient of the words, if they are there. -/
def Word.QuotientAgrees : Option Word → Option Word → Prop
  | some a, some b => SameQuotient a.toInt b.toInt
  | _, _ => True

instance : (a b : Option Word) → Decidable (Word.QuotientAgrees a b)
  | some a, some b => inferInstanceAs (Decidable (SameQuotient a.toInt b.toInt))
  | none, _ => .isTrue trivial
  | some _, none => .isTrue trivial

namespace Program

variable {p : Program} {values : ValueTable} {store : String → Word}

/-- If the expression is a quotient, both roundings give the same one. -/
def QuotientAgrees (p : Program) : Expr → Prop
  | .binary .div lhs rhs => Word.QuotientAgrees (p.knownWord? lhs) (p.knownWord? rhs)
  | _ => True

instance (p : Program) : (e : Expr) → Decidable (p.QuotientAgrees e)
  | .literal _ | .read _ | .binary .add _ _ | .binary .sub _ _ | .binary .mul _ _ => .isTrue trivial
  | .binary .div lhs rhs =>
    inferInstanceAs (Decidable (Word.QuotientAgrees (p.knownWord? lhs) (p.knownWord? rhs)))

/-- Every division in the program is exact or has operands of one sign. -/
def QuotientsAgree : Program → Prop :=
  Everywhere fun before s => ∀ e ∈ s.subexpressions, before.QuotientAgrees e

instance (p : Program) : Decidable p.QuotientsAgree :=
  inferInstanceAs (Decidable (Everywhere _ p))

/-- An expression over names that the store holds evaluates to the word of its value. -/
theorem eval?_eq_knownWord? (h : p.known {} = .ok values) (e : Expr)
    (hheld : values.HeldIn store e.reads)
    (hwords : ∀ r ∈ e.subexpressions, (p.knownWord? r).isSome = true)
    (hquotients : ∀ r ∈ e.subexpressions, p.QuotientAgrees r) :
    e.eval? store = p.knownWord? e := by
  induction e with
  | literal value =>
    obtain ⟨w, hw⟩ := Option.isSome_iff_exists.1 (hwords _ (Expr.mem_subexpressions _))
    obtain ⟨v, hv, hwv⟩ := (knownWord?_eq_some_iff h).1 hw
    obtain rfl := Option.some.inj (Except.ok.inj hv)
    rw [hw, Expr.eval?, ← hwv, BitVec.ofInt_toInt]
  | read name =>
    obtain ⟨v, hv, hstore⟩ := hheld name (List.mem_singleton.2 rfl)
    have hknown : (Expr.read name).known values = .ok (some v) := congrArg Except.ok hv
    exact ((knownWord?_eq_some_iff h).2 ⟨v, hknown, hstore⟩).symm
  | binary op lhs rhs ihl ihr =>
    have hl := ihl (fun x hx => hheld x (List.mem_append_left _ hx))
      (fun r hr => hwords r (List.mem_cons_of_mem _ (List.mem_append_left _ hr)))
      (fun r hr => hquotients r (List.mem_cons_of_mem _ (List.mem_append_left _ hr)))
    have hr := ihr (fun x hx => hheld x (List.mem_append_right _ hx))
      (fun r hr => hwords r (List.mem_cons_of_mem _ (List.mem_append_right _ hr)))
      (fun r hr => hquotients r (List.mem_cons_of_mem _ (List.mem_append_right _ hr)))
    have hlmem : lhs ∈ (Expr.binary op lhs rhs).subexpressions :=
      List.mem_cons_of_mem _ (List.mem_append_left _ lhs.mem_subexpressions)
    have hrmem : rhs ∈ (Expr.binary op lhs rhs).subexpressions :=
      List.mem_cons_of_mem _ (List.mem_append_right _ rhs.mem_subexpressions)
    obtain ⟨x, hx⟩ := Option.isSome_iff_exists.1 (hwords _ hlmem)
    obtain ⟨y, hy⟩ := Option.isSome_iff_exists.1 (hwords _ hrmem)
    obtain ⟨w, hw⟩ := Option.isSome_iff_exists.1 (hwords _ (Expr.mem_subexpressions _))
    have hsame : op = .div → SameQuotient x.toInt y.toInt := by
      rintro rfl
      have hagrees : Word.QuotientAgrees (p.knownWord? lhs) (p.knownWord? rhs) :=
        hquotients _ (Expr.mem_subexpressions _)
      rw [hx, hy] at hagrees
      exact hagrees
    rw [Expr.eval?, hl, hr, hx, hy, hw]
    exact Word.binary?_of_exact (result?_of_knownWord? h hx hy hw) hsame

end Program

/-! ## Statements and programs in step -/

/-- One statement keeps table and store in step, behind a program that has assigned
`names`. -/
theorem Statement.exec?_held {p : Program} {s : Statement} {values after : ValueTable}
    {store : String → Word} {names : List String} (h : p.known {} = .ok values)
    (hs : s.known values = .ok after) (hheld : values.HeldIn store names)
    (hreads : ∀ x ∈ s.reads, x ∈ names)
    (hwords : ∀ r ∈ s.subexpressions, (p.knownWord? r).isSome = true)
    (hquotients : ∀ r ∈ s.subexpressions, p.QuotientAgrees r) :
    ∃ next, s.exec? store = some next ∧ after.HeldIn next (names ++ s.target?.toList) := by
  cases s with
  | assign name e =>
    have heval := Program.eval?_eq_knownWord? h e (fun x hx => hheld x (hreads x hx)) hwords
      hquotients
    obtain ⟨w, hw⟩ := Option.isSome_iff_exists.1 (hwords e e.mem_subexpressions)
    obtain ⟨v, hv, hwv⟩ := (Program.knownWord?_eq_some_iff h).1 hw
    have hafter : after = values.set name (some v) := by
      simpa [known, hv, Except.map] using hs.symm
    refine ⟨fun x => if x = name then w else store x, by rw [exec?, heval, hw]; rfl, ?_⟩
    intro x hx
    rw [hafter]
    by_cases hname : x = name
    · refine ⟨v, by rw [hname, ValueTable.get_set_self], ?_⟩
      show (if x = name then w else store x).toInt = _
      rw [if_pos hname, hwv]
    · have hold : x ∈ names := by
        simpa [target?, hname] using hx
      obtain ⟨u, hu, hstore⟩ := hheld x hold
      refine ⟨u, by rw [ValueTable.get_set_of_ne _ _ hname, hu], ?_⟩
      show (if x = name then w else store x).toInt = _
      rw [if_neg hname, hstore]
  | discard e =>
    have heval := Program.eval?_eq_knownWord? h e (fun x hx => hheld x (hreads x hx)) hwords
      hquotients
    obtain ⟨w, hw⟩ := Option.isSome_iff_exists.1 (hwords e e.mem_subexpressions)
    obtain ⟨v, hv, -⟩ := (Program.knownWord?_eq_some_iff h).1 hw
    have hafter : after = values := by
      simpa [known, hv, Except.map] using hs.symm
    exact ⟨store, by rw [exec?, heval, hw]; rfl, by simpa [hafter, target?] using hheld⟩
  | empty =>
    obtain rfl := Except.ok.inj hs
    exact ⟨store, rfl, by simpa [target?] using hheld⟩

theorem Program.exec?_held {p : Program} {values : ValueTable} (hscoped : p.Scoped)
    (hknown : p.known {} = .ok values) (hwords : p.KnownInWords) (hquotients : p.QuotientsAgree)
    (store : String → Word) :
    ∃ after, p.exec? store = some after ∧ values.HeldIn after p.targets := by
  induction p using List.reverseRecOn generalizing values with
  | nil => exact ⟨store, rfl, fun x hx => absurd hx List.not_mem_nil⟩
  | append_singleton p s ih =>
    obtain ⟨hp, hreads⟩ := scoped_concat_iff.1 hscoped
    obtain ⟨hpwords, hswords⟩ := everywhere_concat_iff.1 hwords
    obtain ⟨hpquotients, hsquotients⟩ := everywhere_concat_iff.1 hquotients
    obtain ⟨before, hbefore, hs⟩ := known_concat_eq_ok_iff.1 hknown
    obtain ⟨mid, hmid, hheld⟩ := ih hp hbefore hpwords hpquotients
    obtain ⟨after, hafter, hheld⟩ :=
      Statement.exec?_held hbefore hs hheld hreads hswords hsquotients
    refine ⟨after, ?_, ?_⟩
    · rw [exec?_concat, hmid, Option.bind_some, hafter]
    · rw [targets_concat]
      exact hheld

/-! ## Fronts of programs -/

namespace Program

variable {p q : Program}

theorem Everywhere.front {property : Program → Statement → Prop}
    (h : Everywhere property (p ++ q)) : Everywhere property p := by
  intro before s after hp
  exact h before s (after ++ q) (by rw [hp, List.append_assoc, List.cons_append])

theorem prefix_names_symbols (p q : Program) : p.symbols.names <+: (symbols (p ++ q)).names := by
  rw [names_symbols, names_symbols, targets_append, List.eraseDups_append]
  exact List.prefix_append _ _

theorem prefix_code (h : Scoped (p ++ q)) : p.code <+: code (p ++ q) := by
  induction q using List.reverseRecOn with
  | nil => exact ⟨[], by rw [List.append_nil, List.append_nil]⟩
  | append_singleton q s ih =>
    rw [← List.append_assoc] at h ⊢
    have hfront := (scoped_concat_iff.1 h).1
    rw [code_concat hfront]
    exact (ih hfront).trans (List.prefix_append _ _)

end Program

theorem sentencesProgram?_append_eq_some {a b : List Sentence} {p : Program}
    (h : sentencesProgram? (a ++ b) = some p) :
    ∃ q r, sentencesProgram? a = some q ∧ p = q ++ r := by
  unfold sentencesProgram? at h ⊢
  rw [List.mapM_append] at h
  cases ha : List.mapM Sentence.statement? a with
  | none => simp [ha] at h
  | some q =>
    cases hb : List.mapM Sentence.statement? b with
    | none => simp [ha, hb] at h
    | some r => exact ⟨q, r, rfl, by simpa [ha, hb, eq_comm] using h⟩

/-- An outline keeps the sentences that are complete. -/
theorem Outline.Advances.prefix_complete {x y : Outline} {input rest : List Token}
    (h : x.Advances input y rest) : x.complete <+: y.complete := by
  induction h with
  | refl x input => exact List.prefix_refl _
  | head h _ ih =>
    cases h with
    | within h => exact ih
    | program => exact (List.prefix_append _ _).trans ih

/-! ## Between statements -/

/-- Each variable has the word of its compile-time value in its slot. -/
def Machine.Mirrors (m : Machine) (c : Context) : Prop :=
  ∀ x ∈ c.symbols.names, ∃ i v, c.symbols.slot? x = some i ∧ c.values.get x = some v ∧
    m.slots i = BitVec.ofInt 32 v.toInt

theorem Program.mirrors {p : Program} {values : ValueTable} (hscoped : p.Scoped)
    (hknown : p.known {} = .ok values) (hwords : p.KnownInWords) (hquotients : p.QuotientsAgree)
    (source : String) (m : Machine) :
    ∃ n, m.run p.code = .ok n ∧ n.stack = m.stack ∧ n.Mirrors (p.context source values) := by
  obtain ⟨after, hafter, hheld⟩ := exec?_held hscoped hknown hwords hquotients fun _ => 0
  have hstores := stores_code hscoped (fun _ => 0) m
  rw [hafter] at hstores
  obtain ⟨n, hrun, hstack, hslots⟩ := hstores
  refine ⟨n, hrun, hstack, ?_⟩
  intro x hx
  have hx : x ∈ p.targets := mem_names_symbols.1 hx
  obtain ⟨v, hv, hword⟩ := hheld x hx
  refine ⟨p.slot x, v, slot?_of_mem_targets hx, hv, ?_⟩
  rw [hslots x hx, ← hword, BitVec.ofInt_toInt]

section

variable {source : String} {ss : List Sentence} {p : Program}

/-- Where the stack is empty, a run over sentences has read a front of the program. -/
theorem Parse.exists_front_of_reaches (hss : sentencesYield ss = sourceTokens source)
    (hp : sentencesProgram? ss = some p) {b : Parse}
    (hb : (start (Lexer.new source) (Context.new source)).Reaches b) (hstack : b.stack = []) :
    ∃ front rest values, p = front ++ rest ∧ front.known {} = .ok values ∧
      b.context = front.context source values := by
  obtain ⟨⟨done, f⟩, htracks, hyield, hway⟩ := exists_tracks hb
  have hact := htracks.act_eq
  rw [hstack] at hact
  obtain ⟨⟨⟩, d, hdone, hf⟩ := Outcome.bind_eq_ok_iff.1 hact
  obtain ⟨rfl, hcontext⟩ := Fragment.eq_start_of_act hf
  obtain ⟨front, values, hfront, -, hknown, rfl⟩ := context_of_sentencesAct hdone
  -- the way through the sentences leads through the outline that has been read
  have hall := sentences_advances ss [] []
  rw [List.append_nil, List.nil_append, hss, ← hyield] at hall
  obtain ⟨more, hmore⟩ := (hway.toward hall).prefix_complete
  have hmore : done ++ more = ss := hmore
  rw [← hmore] at hp
  obtain ⟨q, r, hq, rfl⟩ := sentencesProgram?_append_eq_some hp
  rw [hfront] at hq
  obtain rfl := Option.some.inj hq
  exact ⟨front, r, values, rfl, hknown, hcontext⟩

/-- A run that accepts comes by an empty stack after each number of statements. -/
theorem Parse.exists_boundary {c d : Context} (hss : sentencesYield ss = sourceTokens source)
    (hact : sentencesAct source ss c = .ok () d) {k : Nat} (hk : k ≤ ss.length) :
    ∃ b, (start (Lexer.new source) c).Reaches b ∧ b.stack = [] ∧ b.statements = k := by
  have hsplit : (Lexer.new source).coming =
      sentencesYield (ss.take k) ++ sentencesYield (ss.drop k) := by
    show sourceTokens source = _
    rw [← hss, sentencesYield, sentencesYield, sentencesYield, ← List.flatMap_append,
      List.take_append_drop]
  have hdone : ∃ e, sentencesAct source (ss.take k) c = .ok () e := by
    rw [← List.take_append_drop k ss, sentencesAct_append] at hact
    obtain ⟨⟨⟩, e, he, -⟩ := Outcome.bind_eq_ok_iff.1 hact
    exact ⟨e, he⟩
  obtain ⟨e, he⟩ := hdone
  obtain ⟨b, hb, htracks, hstack, -⟩ := exists_reaches_of_sentencesAct hsplit he
  refine ⟨b, hb, hstack, ?_⟩
  rw [htracks.statements_eq]
  exact List.length_take_of_le hk

end

/-- The code of a source whose values are all known and words, and whose quotients both
roundings agree on, runs to its end, from whatever words the machine starts with.  In the end
every variable has its compile-time value in its slot, and so it has between any two
statements, when the code emitted up to there has run. -/
theorem compile_mirrors_known_values {source : String} {options : Options} {c : Compilation}
    (h : compile source options = .ok c) {p : Program} (hp : Writes source p)
    (hwords : p.KnownInWords) (hquotients : p.QuotientsAgree) (m : Machine) :
    (∃ n lexer d, m.run c.assembly.body = .ok n ∧ n.stack = m.stack ∧
      parse (Lexer.new source) (Context.new source) = .ok c.statements (lexer, d) ∧
      d.symbols = c.symbols ∧ c.symbols = p.symbols ∧ n.Mirrors d) ∧
    (∀ b, (Parse.start (Lexer.new source) (Context.new source)).Reaches b → b.stack = [] →
      b.context.body <+: c.assembly.body ∧ b.context.symbols.names <+: c.symbols.names ∧
      ∃ n, m.run b.context.body = .ok n ∧ n.stack = m.stack ∧ n.Mirrors b.context) ∧
    ∀ k ≤ c.statements, ∃ b, (Parse.start (Lexer.new source) (Context.new source)).Reaches b ∧
      b.stack = [] ∧ b.statements = k := by
  obtain ⟨q, values, hq, hscoped, hknown, hc⟩ := translates_of_compile h
  obtain rfl := hq.unique hp
  obtain ⟨ss, hss, hprogram⟩ := hq
  have hmark := markable_sourceTokens source
  rw [← hss] at hmark
  have hact := sentencesAct_of_known source hmark hprogram hscoped hknown
  have hlength : c.statements = ss.length := by
    rw [hc.statements_eq, length_of_sentencesProgram? hprogram]
  rw [hc.body_eq, hc.symbols_eq, hlength]
  refine ⟨?_, ?_, fun k hk => Parse.exists_boundary hss hact hk⟩
  · obtain ⟨n, hrun, hstack, hmirrors⟩ := q.mirrors hscoped hknown hwords hquotients source m
    obtain ⟨lexer, hparse⟩ := parse_of_sentencesAct_ok (l := Lexer.new source) hss hact
    exact ⟨n, lexer, _, hrun, hstack, hparse, rfl, rfl, hmirrors⟩
  · intro b hb hstack
    obtain ⟨front, rest, known, rfl, hfront, hcontext⟩ :=
      Parse.exists_front_of_reaches hss hprogram hb hstack
    rw [hcontext]
    exact ⟨Program.prefix_code hscoped, Program.prefix_names_symbols front rest,
      front.mirrors (Program.Everywhere.front hscoped) hfront (Program.Everywhere.front hwords)
        (Program.Everywhere.front hquotients) source m⟩

/-- The program of `a := 0 - 7; b := a / (0 - 2); a := (b - 9) / 3;`. -/
def agreeingQuotients : Program :=
  [.assign "a" (.binary .sub (.literal 0) (.literal 7)),
    .assign "b" (.binary .div (.read "a") (.binary .sub (.literal 0) (.literal 2))),
    .assign "a" (.binary .div (.binary .sub (.read "b") (.literal 9)) (.literal 3))]

theorem writes_agreeingQuotients :
    Writes "a := 0 - 7; b := a / (0 - 2); a := (b - 9) / 3;" agreeingQuotients := by
  refine ⟨[
    .assign ⟨.name, "a", 0⟩ rfl ⟨.becomes, ":=", 2⟩ rfl
      (.sum (.ofTerm (.ofFactor (.number ⟨.number, "0", 5⟩ rfl))) ⟨.operator .sub, "-", 7⟩
        .sub rfl .sub (.ofFactor (.number ⟨.number, "7", 9⟩ rfl))) ⟨.semicolon, ";", 10⟩ rfl,
    .assign ⟨.name, "b", 12⟩ rfl ⟨.becomes, ":=", 14⟩ rfl
      (.ofTerm (.product (.ofFactor (.name ⟨.name, "a", 17⟩ rfl)) ⟨.operator .div, "/", 19⟩
        .div rfl .div (.group ⟨.lparen, "(", 21⟩ rfl
          (.sum (.ofTerm (.ofFactor (.number ⟨.number, "0", 22⟩ rfl))) ⟨.operator .sub, "-", 24⟩
            .sub rfl .sub (.ofFactor (.number ⟨.number, "2", 26⟩ rfl)))
          ⟨.rparen, ")", 27⟩ rfl))) ⟨.semicolon, ";", 28⟩ rfl,
    .assign ⟨.name, "a", 30⟩ rfl ⟨.becomes, ":=", 32⟩ rfl
      (.ofTerm (.product (.ofFactor (.group ⟨.lparen, "(", 35⟩ rfl
          (.sum (.ofTerm (.ofFactor (.name ⟨.name, "b", 36⟩ rfl))) ⟨.operator .sub, "-", 38⟩
            .sub rfl .sub (.ofFactor (.number ⟨.number, "9", 40⟩ rfl)))
          ⟨.rparen, ")", 41⟩ rfl)) ⟨.operator .div, "/", 43⟩
        .div rfl .div (.number ⟨.number, "3", 45⟩ rfl))) ⟨.semicolon, ";", 46⟩ rfl], ?_, ?_⟩
  · decide +kernel
  · decide +kernel

/-- A quotient of two negative numbers that leaves a remainder, and one of a negative and a
positive number that leaves none. -/
theorem compile_mirrors_known_values_quotients :
    ∃ c, compile "a := 0 - 7; b := a / (0 - 2); a := (b - 9) / 3;" {} = .ok c ∧
      Writes "a := 0 - 7; b := a / (0 - 2); a := (b - 9) / 3;" agreeingQuotients ∧
      agreeingQuotients.KnownInWords ∧ agreeingQuotients.QuotientsAgree ∧
      ∀ m : Machine, ∃ n, m.run c.assembly.body = .ok n ∧ n.slots 1 = -2 ∧ n.slots 2 = 3 := by
  obtain ⟨c, hc⟩ := exists_compile_of_isOk "a := 0 - 7; b := a / (0 - 2); a := (b - 9) / 3;" {}
    (by decide +kernel)
  have hp := writes_agreeingQuotients
  have hwords : agreeingQuotients.KnownInWords := by decide +kernel
  have hquotients : agreeingQuotients.QuotientsAgree := by decide +kernel
  refine ⟨c, hc, hp, hwords, hquotients, ?_⟩
  intro m
  obtain ⟨⟨n, lexer, d, hrun, -, hparse, hsymbols, hp, hmirrors⟩, -⟩ :=
    compile_mirrors_known_values hc hp hwords hquotients m
  have hvalues : (parse (Lexer.new "a := 0 - 7; b := a / (0 - 2); a := (b - 9) / 3;")
      (Context.new "a := 0 - 7; b := a / (0 - 2); a := (b - 9) / 3;")).state.2.values.assigned =
      [("a", some (-2)), ("b", some 3), ("a", some (-7))] := by decide +kernel
  rw [hparse] at hvalues
  have hslot : ∀ x i v, agreeingQuotients.symbols.slot? x = some i →
      ValueTable.get ⟨[("a", some (-2)), ("b", some 3), ("a", some (-7))]⟩ x = some v →
      n.slots i = BitVec.ofInt 32 v.toInt := by
    intro x i v hi hv
    have hx : x ∈ d.symbols.names := by
      by_contra hmem
      rw [← hp, ← hsymbols, SymbolTable.slot?_eq_none_iff.2 hmem] at hi
      cases hi
    obtain ⟨j, w, hj, hw, hword⟩ := hmirrors x hx
    rw [hsymbols, hp, hi] at hj
    have hd : d.values = ⟨[("a", some (-2)), ("b", some 3), ("a", some (-7))]⟩ :=
      congrArg ValueTable.mk hvalues
    rw [hd, hv] at hw
    obtain rfl := Option.some.inj hj
    obtain rfl := Option.some.inj hw
    exact hword
  exact ⟨n, hrun, hslot "a" 1 (-2) (by decide) (by decide), hslot "b" 2 3 (by decide) (by decide)⟩

end OnePass
