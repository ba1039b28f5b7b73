import OnePass.Proofs.Translation

/-!
Which sources compile.

A source compiles exactly if its tokens are those of sentences, its numbers are 64-bit
words, its names are assigned before they are read, and no divisor in it is known to be
zero.  The first condition is about tokens alone, the second about each token, and the
last two about the program that the tokens write.
-/

namespace OnePass

/-! ## Numbers -/

/-- Each number among the tokens is a 64-bit word. -/
def NumbersFit (tokens : List Token) : Prop :=
  ∀ t ∈ tokens, t.kind = .number → t.value.isSome = true

theorem numbersFit_append {a b : List Token} :
    NumbersFit (a ++ b) ↔ NumbersFit a ∧ NumbersFit b :=
  List.forall_mem_append

theorem numbersFit_cons {t : Token} {tokens : List Token} {k : TokenKind} (h : t.kind = k)
    (hk : k ≠ .number) : NumbersFit (t :: tokens) ↔ NumbersFit tokens := by
  unfold NumbersFit
  rw [List.forall_mem_cons]
  exact ⟨And.right, fun htokens => ⟨fun ht => absurd (h.symm.trans ht) hk, htokens⟩⟩

theorem numbersFit_nil : NumbersFit [] := fun _ ht => absurd ht List.not_mem_nil

theorem Phrase.isSome_expr?_binary {l m : Level} {lhs : Phrase l} {rhs : Phrase m}
    {op : BinaryOp} {sign : Token} (h : sign.kind = .operator op)
    (ihl : lhs.expr?.isSome = true ↔ NumbersFit lhs.yield)
    (ihr : rhs.expr?.isSome = true ↔ NumbersFit rhs.yield) :
    (do return Expr.binary op (← lhs.expr?) (← rhs.expr?) : Option Expr).isSome = true ↔
      NumbersFit (lhs.yield ++ sign :: rhs.yield) := by
  rw [numbersFit_append, numbersFit_cons h TokenKind.noConfusion, ← ihl, ← ihr]
  cases lhs.expr? <;> cases rhs.expr? <;> simp

/-- A phrase writes an expression exactly if the numbers in it fit. -/
theorem Phrase.isSome_expr?_iff {l : Level} (p : Phrase l) :
    p.expr?.isSome = true ↔ NumbersFit p.yield := by
  induction p with
  | number t ht => simp [expr?, yield, ht, NumbersFit]
  | name t ht => simp [expr?, yield, ht, NumbersFit]
  | group left hl inner right hr ih =>
    rw [expr?, yield, numbersFit_cons hl TokenKind.noConfusion, numbersFit_append,
      numbersFit_cons hr TokenKind.noConfusion, and_iff_left numbersFit_nil]
    exact ih
  | ofFactor f ih => exact ih
  | product lhs sign op h _ rhs ihl ihr => exact isSome_expr?_binary h ihl ihr
  | ofTerm t ih => exact ih
  | sum lhs sign op h _ rhs ihl ihr => exact isSome_expr?_binary h ihl ihr

theorem Sentence.isSome_statement?_iff (s : Sentence) :
    s.statement?.isSome = true ↔ NumbersFit s.yield := by
  cases s with
  | assign target ht sign hs e semicolon h =>
    rw [statement?, yield, numbersFit_cons ht TokenKind.noConfusion,
      numbersFit_cons hs TokenKind.noConfusion, numbersFit_append,
      numbersFit_cons h TokenKind.noConfusion, and_iff_left numbersFit_nil, Option.isSome_map]
    exact e.isSome_expr?_iff
  | expression e semicolon h =>
    rw [statement?, yield, numbersFit_append, numbersFit_cons h TokenKind.noConfusion,
      and_iff_left numbersFit_nil, Option.isSome_map]
    exact e.isSome_expr?_iff
  | empty semicolon h =>
    rw [statement?, yield, numbersFit_cons h TokenKind.noConfusion]
    exact iff_of_true rfl numbersFit_nil

theorem isSome_sentencesProgram?_iff (ss : List Sentence) :
    (sentencesProgram? ss).isSome = true ↔ NumbersFit (sentencesYield ss) := by
  induction ss with
  | nil => exact iff_of_true rfl numbersFit_nil
  | cons s rest ih =>
    rw [sentencesYield, List.flatMap_cons, numbersFit_append, ← s.isSome_statement?_iff]
    rw [sentencesYield] at ih
    rw [← ih, sentencesProgram?, sentencesProgram?, List.mapM_cons]
    cases s.statement? <;> cases List.mapM Sentence.statement? rest <;> simp

theorem exists_writes {source : String} (hd : Derivable (sourceTokens source))
    (hn : NumbersFit (sourceTokens source)) : ∃ p, Writes source p := by
  obtain ⟨ss, hy⟩ := hd
  rw [← hy, ← isSome_sentencesProgram?_iff] at hn
  obtain ⟨p, hp⟩ := Option.isSome_iff_exists.1 hn
  exact ⟨p, ss, hy, hp⟩

theorem Writes.derivable {source : String} {p : Program} (h : Writes source p) :
    Derivable (sourceTokens source) := by
  obtain ⟨ss, hy, -⟩ := h
  exact ⟨ss, hy⟩

theorem Writes.numbersFit {source : String} {p : Program} (h : Writes source p) :
    NumbersFit (sourceTokens source) := by
  obtain ⟨ss, hy, hp⟩ := h
  rw [← hy, ← isSome_sentencesProgram?_iff, hp]
  rfl

/-! ## Divisors -/

/-- The right operands of the divisions in an expression. -/
def Expr.divisors : Expr → List Expr
  | literal _ => []
  | read _ => []
  | binary op lhs rhs => lhs.divisors ++ rhs.divisors ++ if op = .div then [rhs] else []

def Statement.divisors : Statement → List Expr
  | assign _ e => e.divisors
  | discard e => e.divisors
  | empty => []

/-- No divisor is known to be zero, where a name stands for the value of the latest
assignment to it. -/
def Program.AvoidsZero : Program → Prop :=
  Everywhere fun before s => ∀ values, before.known {} = .ok values →
    ∀ r ∈ s.divisors, r.known values ≠ .ok (some 0)

theorem Expr.exists_known_iff (values : ValueTable) (e : Expr) :
    (∃ v, e.known values = .ok v) ↔ ∀ r ∈ e.divisors, r.known values ≠ .ok (some 0) := by
  induction e with
  | literal value => exact iff_of_true ⟨_, rfl⟩ fun r hr => absurd hr List.not_mem_nil
  | read name => exact iff_of_true ⟨_, rfl⟩ fun r hr => absurd hr List.not_mem_nil
  | binary op lhs rhs ihl ihr =>
    rw [divisors, List.forall_mem_append, List.forall_mem_append, ← ihl, ← ihr]
    cases hl : lhs.known values with
    | error z => simp [known, hl, bind, Except.bind]
    | ok a =>
      cases hr : rhs.known values with
      | error z => simp [known, hl, hr, bind, Except.bind]
      | ok b =>
        -- both operands have values, so only the operator can refuse
        have hknown : (binary op lhs rhs).known values = Value.binary op a b := by
          simp [known, hl, hr, bind, Except.bind]
        rw [hknown]
        cases hv : Value.binary op a b with
        | error z =>
          obtain ⟨rfl, rfl⟩ := Value.binary_eq_error_iff.1 hv
          simp [hr]
        | ok v =>
          have hzero : ¬ (op = .div ∧ b = some 0) := by
            intro hzero
            rw [(Value.binary_eq_error_iff (e := .divideByZero)).2 hzero] at hv
            cases hv
          refine iff_of_true ⟨v, rfl⟩ ⟨⟨⟨a, rfl⟩, ⟨b, rfl⟩⟩, ?_⟩
          intro r hmem hrzero
          by_cases hop : op = .div
          · rw [if_pos hop] at hmem
            obtain rfl := List.mem_singleton.1 hmem
            rw [hr] at hrzero
            exact hzero ⟨hop, Except.ok.inj hrzero⟩
          · rw [if_neg hop] at hmem
            cases hmem

theorem Statement.exists_known_iff (values : ValueTable) (s : Statement) :
    (∃ after, s.known values = .ok after) ↔
      ∀ r ∈ s.divisors, r.known values ≠ .ok (some 0) := by
  cases s with
  | assign name e =>
    rw [divisors, ← e.exists_known_iff, known]
    cases e.known values <;> simp [Except.map]
  | discard e =>
    rw [divisors, ← e.exists_known_iff, known]
    cases e.known values <;> simp [Except.map]
  | empty => exact iff_of_true ⟨values, rfl⟩ fun r hr => absurd hr List.not_mem_nil

/-- A program has compile-time values exactly if it avoids a division by a known zero. -/
theorem Program.exists_known_iff (p : Program) :
    (∃ values, p.known {} = .ok values) ↔ p.AvoidsZero := by
  induction p using List.reverseRecOn with
  | nil => exact iff_of_true ⟨{}, rfl⟩ (everywhere_nil _)
  | append_singleton p s ih =>
    rw [AvoidsZero, everywhere_concat_iff]
    constructor
    · rintro ⟨after, h⟩
      obtain ⟨values, hp, hs⟩ := known_concat_eq_ok_iff.1 h
      refine ⟨ih.1 ⟨values, hp⟩, ?_⟩
      intro other hother
      rw [hp] at hother
      obtain rfl := Except.ok.inj hother
      exact (s.exists_known_iff values).1 ⟨after, hs⟩
    · rintro ⟨hp, hs⟩
      obtain ⟨values, hvalues⟩ := ih.2 hp
      obtain ⟨after, hafter⟩ := (s.exists_known_iff values).2 (hs values hvalues)
      exact ⟨after, known_concat_eq_ok_iff.2 ⟨values, hvalues, hafter⟩⟩

/-! ## Semicolons -/

theorem Phrase.countP_semicolon {l : Level} (p : Phrase l) :
    p.yield.countP (fun t => t.kind = .semicolon) = 0 := by
  induction p with
  | number t ht => simp [yield, ht]
  | name t ht => simp [yield, ht]
  | group left hl inner right hr ih => simp [yield, List.countP_append, hl, hr, ih]
  | ofFactor f ih => exact ih
  | product lhs sign op h _ rhs ihl ihr =>
    simp [yield, List.countP_append, h, ihl, ihr]
  | ofTerm t ih => exact ih
  | sum lhs sign op h _ rhs ihl ihr =>
    simp [yield, List.countP_append, h, ihl, ihr]

/-- Sentences end with semicolons and hold no others. -/
theorem countP_semicolon_sentencesYield (ss : List Sentence) :
    (sentencesYield ss).countP (fun t => t.kind = .semicolon) = ss.length := by
  induction ss with
  | nil => rfl
  | cons s rest ih =>
    have hone : s.yield.countP (fun t => t.kind = .semicolon) = 1 := by
      cases s with
      | assign target ht sign hs e semicolon h =>
        simp [Sentence.yield, List.countP_append, ht, hs, h, e.countP_semicolon]
      | expression e semicolon h =>
        simp [Sentence.yield, List.countP_append, h, e.countP_semicolon]
      | empty semicolon h => simp [Sentence.yield, h]
    rw [sentencesYield] at ih
    rw [sentencesYield, List.flatMap_cons, List.countP_append, hone, ih, List.length_cons]
    omega

/-! ## Sources -/

/-- A source compiles exactly if it is made of sentences, its numbers fit, it reads names
only after it has assigned to them, and it divides by no known zero.  The semicolons count
its statements. -/
theorem compiles_iff (source : String) (options : Options) :
    ((∃ c, compile source options = .ok c) ↔
      Derivable (sourceTokens source) ∧ NumbersFit (sourceTokens source) ∧
        (∀ p, Writes source p → p.Scoped) ∧ ∀ p, Writes source p → p.AvoidsZero) ∧
      ∀ c, compile source options = .ok c →
        c.statements = (sourceTokens source).countP (fun t => t.kind = .semicolon) := by
  constructor
  · constructor
    · rintro ⟨c, h⟩
      obtain ⟨p, values, hp, hscoped, hknown, -⟩ := translates_of_compile h
      refine ⟨hp.derivable, hp.numbersFit, ?_, ?_⟩
      · intro q hq
        rw [hq.unique hp]
        exact hscoped
      · intro q hq
        rw [hq.unique hp]
        exact p.exists_known_iff.1 ⟨values, hknown⟩
    · rintro ⟨hderivable, hnumbers, hscoped, hzero⟩
      obtain ⟨p, hp⟩ := exists_writes hderivable hnumbers
      obtain ⟨values, hknown⟩ := p.exists_known_iff.2 (hzero p hp)
      obtain ⟨c, hc, -⟩ := compile_of_writes hp (hscoped p hp) hknown
      exact ⟨c, hc⟩
  · intro c h
    obtain ⟨p, values, ⟨ss, hy, hp⟩, -, -, hc⟩ := translates_of_compile h
    rw [hc.statements_eq, length_of_sentencesProgram? hp, ← hy, countP_semicolon_sentencesYield]

end OnePass
