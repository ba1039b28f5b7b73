import OnePass.Proofs.Internal
import OnePass.Proofs.Scope

/-!
Compile-time values are exact.

A compile-time value is the exact one whenever it is known, and it is known as long as every
value on the way is a 64-bit word.  Each operator gives the word that equals the exact
result, or nothing; both facts follow from that, along expressions and then along programs.
In a parse they hold between any two statements, and so a divisor that is refused is zero in
the exact reading.
-/

namespace OnePass

/-! ## Operators -/

/-- The exact result of an operator, unless it divides by zero. -/
def BinaryOp.result? : BinaryOp → Int → Int → Option Int
  | .add, a, b => some (a + b)
  | .sub, a, b => some (a - b)
  | .mul, a, b => some (a * b)
  | .div, a, b => if b = 0 then none else some (a.fdiv b)

theorem Expr.exact_binary {store : String → Option Int} (op : BinaryOp) {lhs rhs : Expr} {a b : Int}
    (ha : lhs.exact? store = some a) (hb : rhs.exact? store = some b) :
    Expr.exact? store (binary op lhs rhs) = op.result? a b := by
  unfold Expr.exact?
  rw [ha, hb]
  cases op <;> rfl

/-- No remainder is left, or the operands have one sign.  Otherwise rounding down and rounding
towards zero give different quotients. -/
def SameQuotient (a b : Int) : Prop :=
  b ∣ a ∨ (a < 0 ↔ b < 0)

instance (a b : Int) : Decidable (SameQuotient a b) :=
  inferInstanceAs (Decidable (b ∣ a ∨ (a < 0 ↔ b < 0)))

theorem fdiv_eq (a : Int) {b : Int} (hb : b ≠ 0) :
    a.fdiv b = if SameQuotient a b then a.tdiv b else a.tdiv b - 1 := by
  rw [Int.fdiv_eq_tdiv]
  by_cases hdvd : b ∣ a
  · have hsame : SameQuotient a b := .inl hdvd
    rw [if_pos hdvd, if_pos hsame, Int.sub_zero]
  · have hsame : SameQuotient a b ↔ (a < 0 ↔ b < 0) := or_iff_right hdvd
    simp only [if_neg hdvd, hsame]
    rcases Int.lt_or_gt_of_ne hb with hb | hb
    · rw [Int.sign_eq_neg_one_of_neg hb]
      split <;> split <;> omega
    · rw [Int.sign_eq_one_of_pos hb]
      split <;> split <;> omega

/-- A remainder has the sign of the dividend, so the sign of either can be compared with that
of the divisor. -/
theorem sameQuotient_iff (a b : Int) :
    SameQuotient a b ↔ ¬ (a.tmod b ≠ 0 ∧ (a.tmod b < 0) ≠ (b < 0)) := by
  have hpos : 0 ≤ a → 0 ≤ a.tmod b := Int.tmod_nonneg b
  have hneg : a ≤ 0 → a.tmod b ≤ 0 := by
    intro ha
    have hsign := Int.tmod_nonneg b (a := -a) (by omega)
    rw [Int.neg_tmod] at hsign
    omega
  rw [SameQuotient, Int.dvd_iff_tmod_eq_zero, ne_eq, ne_eq, eq_iff_iff]
  by_cases hzero : a.tmod b = 0
  · simp [hzero]
  · have hsign : a.tmod b < 0 ↔ a < 0 := by omega
    simp [hzero, hsign]

namespace Value

theorem ofInt?_toInt (w : Int64) : ofInt? w.toInt = some w :=
  ofInt?_eq_some_iff.2 rfl

theorem floorDiv_eq (a : Int64) {b : Int64} (hb : b ≠ 0) :
    floorDiv a b = ofInt? (a.toInt.fdiv b.toInt) := by
  have hzero : b.toInt ≠ 0 := fun h => hb (Int64.toInt_inj.1 h)
  by_cases hleast : a = Int64.minValue ∧ b = -1
  · -- the quotient is one above the greatest word
    obtain ⟨rfl, rfl⟩ := hleast
    decide
  · have hquotient : (a / b).toInt = a.toInt.tdiv b.toInt := by
      by_cases ha : a = Int64.minValue
      · exact Int64.toInt_div_of_ne_right a b fun h => hleast ⟨ha, h⟩
      · exact Int64.toInt_div_of_ne_left a b ha
    have hrounding : (a % b ≠ 0 ∧ (a % b < 0) ≠ (b < 0)) ↔ ¬ SameQuotient a.toInt b.toInt := by
      rw [sameQuotient_iff, Classical.not_not, ← Int64.toInt_mod, Int64.lt_iff_toInt_lt,
        Int64.lt_iff_toInt_lt, ne_eq, ← Int64.toInt_inj]
      rfl
    rw [floorDiv, if_neg (by simp [hb, hleast]), fdiv_eq a.toInt hzero]
    by_cases hsame : SameQuotient a.toInt b.toInt
    · rw [if_neg fun h => hrounding.1 h hsame, if_pos hsame, ← hquotient, ofInt?_toInt]
    · rw [if_pos (hrounding.2 hsame), if_neg hsame, hquotient]

/-- An operator gives the word that equals the exact result. -/
theorem combine_eq (op : BinaryOp) (a b : Int64) :
    combine op a b = (op.result? a.toInt b.toInt).bind ofInt? := by
  cases op with
  | add => rfl
  | sub => rfl
  | mul => rfl
  | div =>
    by_cases hb : b = 0
    · rw [combine, floorDiv, if_pos (.inl hb), BinaryOp.result?, hb]
      rfl
    · have hzero : b.toInt ≠ 0 := fun h => hb (Int64.toInt_inj.1 h)
      rw [combine, floorDiv_eq a hb, BinaryOp.result?, if_neg hzero]
      rfl

theorem combine_eq_some_iff {op : BinaryOp} {a b w : Int64} :
    combine op a b = some w ↔ op.result? a.toInt b.toInt = some w.toInt := by
  rw [combine_eq, Option.bind_eq_some_iff]
  constructor
  · rintro ⟨n, hn, hw⟩
    rw [hn, ofInt?_eq_some_iff.1 hw]
  · intro h
    exact ⟨_, h, ofInt?_toInt w⟩

/-- An operator gives a known value only to known operands. -/
theorem binary_eq_ok_some_iff {op : BinaryOp} {lhs rhs : Value} {w : Int64} :
    binary op lhs rhs = .ok (some w) ↔
      ∃ a b, lhs = some a ∧ rhs = some b ∧ op.result? a.toInt b.toInt = some w.toInt := by
  constructor
  · intro h
    unfold binary at h
    split at h
    · cases h
    · split at h
      · next a b _ =>
        exact ⟨a, b, rfl, rfl, combine_eq_some_iff.1 (Except.ok.inj h)⟩
      · cases h
  · rintro ⟨a, b, rfl, rfl, h⟩
    have hzero : ¬ (op = .div ∧ some b = some (0 : Int64)) := by
      rintro ⟨rfl, hb⟩
      rw [Option.some.inj hb] at h
      cases h
    rw [binary, if_neg hzero, combine_eq_some_iff.2 h]

end Value

/-! ## Expressions -/

/-- What the table knows is exact. -/
def ValueTable.Sound (values : ValueTable) (store : String → Option Int) : Prop :=
  ∀ x v, values.get x = some v → store x = some v.toInt

namespace Expr

variable {values : ValueTable} {store : String → Option Int}

theorem known_binary_eq_some_iff {op : BinaryOp} {lhs rhs : Expr} {w : Int64} :
    (binary op lhs rhs).known values = .ok (some w) ↔
      ∃ a b, lhs.known values = .ok (some a) ∧ rhs.known values = .ok (some b) ∧
        op.result? a.toInt b.toInt = some w.toInt := by
  rw [known]
  cases hl : lhs.known values with
  | error z => simp [bind, Except.bind]
  | ok x =>
    cases hr : rhs.known values with
    | error z => simp [bind, Except.bind]
    | ok y => simp [bind, Except.bind, Value.binary_eq_ok_some_iff]

theorem exact_of_known (h : values.Sound store) (e : Expr) {v : Int64}
    (hv : e.known values = .ok (some v)) : e.exact? store = some v.toInt := by
  induction e generalizing v with
  | literal value =>
    obtain rfl := Option.some.inj (Except.ok.inj hv)
    rfl
  | read name => exact h name v (Except.ok.inj hv)
  | binary op lhs rhs ihl ihr =>
    obtain ⟨a, b, hl, hr, hop⟩ := known_binary_eq_some_iff.1 hv
    rw [exact_binary op (ihl hl) (ihr hr), hop]

/-- The expression and all that it is built from. -/
def subexpressions : Expr → List Expr
  | literal value => [literal value]
  | read name => [read name]
  | binary op lhs rhs => binary op lhs rhs :: (lhs.subexpressions ++ rhs.subexpressions)

theorem mem_subexpressions (e : Expr) : e ∈ e.subexpressions := by
  cases e <;> exact List.mem_cons_self

/-- An expression is known if the names that it reads are, and if all values in it are
words. -/
theorem known_of_fits (e : Expr)
    (hreads : ∀ x ∈ e.reads, ∃ v, values.get x = some v ∧ store x = some v.toInt)
    (hfits : ∀ r ∈ e.subexpressions, ∃ v : Int64, r.exact? store = some v.toInt) :
    ∃ v, e.known values = .ok (some v) ∧ e.exact? store = some v.toInt := by
  induction e with
  | literal value => exact ⟨value, rfl, rfl⟩
  | read name =>
    obtain ⟨v, hv, hexact⟩ := hreads name (List.mem_singleton.2 rfl)
    exact ⟨v, congrArg Except.ok hv, hexact⟩
  | binary op lhs rhs ihl ihr =>
    obtain ⟨a, hl, ha⟩ := ihl (fun x hx => hreads x (List.mem_append_left _ hx))
      (fun r hr => hfits r (List.mem_cons_of_mem _ (List.mem_append_left _ hr)))
    obtain ⟨b, hr, hb⟩ := ihr (fun x hx => hreads x (List.mem_append_right _ hx))
      (fun r hr => hfits r (List.mem_cons_of_mem _ (List.mem_append_right _ hr)))
    obtain ⟨w, hw⟩ := hfits _ (mem_subexpressions _)
    have hop : op.result? a.toInt b.toInt = some w.toInt := by
      rw [← hw, exact_binary op ha hb]
    exact ⟨w, known_binary_eq_some_iff.2 ⟨a, b, hl, hr, hop⟩, hw⟩

end Expr

/-! ## Programs -/

namespace Statement

theorem exact_assign_self (store : String → Option Int) (name : String) (e : Expr) :
    (assign name e).exact store name = e.exact? store :=
  if_pos rfl

theorem exact_assign_of_ne (store : String → Option Int) {name x : String} (e : Expr)
    (h : x ≠ name) : (assign name e).exact store x = store x :=
  if_neg h

theorem exact_of_target? {s : Statement} (h : s.target? = none) (store : String → Option Int) :
    s.exact store = store := by
  cases s with
  | assign name e => cases h
  | discard e => rfl
  | empty => rfl

def subexpressions : Statement → List Expr
  | assign _ e => e.subexpressions
  | discard e => e.subexpressions
  | empty => []

theorem sound_of_known {s : Statement} {values after : ValueTable} {store : String → Option Int}
    (hvalues : values.Sound store) (h : s.known values = .ok after) :
    after.Sound (s.exact store) := by
  rcases known_cases h with ⟨name, e, v, rfl, hv, rfl⟩ | ⟨hnone, rfl⟩
  · intro x w hw
    by_cases hx : x = name
    · subst hx
      rw [ValueTable.get_set_self] at hw
      rw [hw] at hv
      rw [exact_assign_self]
      exact e.exact_of_known hvalues hv
    · rw [ValueTable.get_set_of_ne _ _ hx] at hw
      rw [exact_assign_of_ne _ _ hx]
      exact hvalues x w hw
  · rw [exact_of_target? hnone]
    exact hvalues

end Statement

namespace Program

variable {p : Program} {values : ValueTable}

theorem exact_concat (store : String → Option Int) (p : Program) (s : Statement) :
    exact store (p ++ [s]) = s.exact (p.exact store) := by
  rw [exact, List.foldl_append]
  rfl

/-- What is known after a program is exact. -/
theorem sound_of_known (h : p.known {} = .ok values) : values.Sound (p.exact fun _ => none) := by
  induction p using List.reverseRecOn generalizing values with
  | nil =>
    obtain rfl := Except.ok.inj h
    intro x v hv
    cases hv
  | append_singleton p s ih =>
    obtain ⟨before, hp, hs⟩ := known_concat_eq_ok_iff.1 h
    rw [exact_concat]
    exact Statement.sound_of_known (ih hp) hs

/-- Every literal and every other expression within the program has an exact value that is a
64-bit word. -/
def ValuesFit : Program → Prop :=
  Everywhere fun before s => ∀ r ∈ s.subexpressions,
    ∃ v : Int64, r.exact? (before.exact fun _ => none) = some v.toInt

/-- After a program whose values fit, every name that it assigns to is known. -/
theorem get_of_valuesFit (hscoped : p.Scoped) (hfits : p.ValuesFit) (h : p.known {} = .ok values) :
    ∀ x ∈ p.targets, ∃ v, values.get x = some v ∧ p.exact (fun _ => none) x = some v.toInt := by
  induction p using List.reverseRecOn generalizing values with
  | nil => exact fun x hx => absurd hx List.not_mem_nil
  | append_singleton p s ih =>
    obtain ⟨hp, hreads⟩ := scoped_concat_iff.1 hscoped
    obtain ⟨hpfits, hsfits⟩ := everywhere_concat_iff.1 hfits
    obtain ⟨before, hbefore, hs⟩ := known_concat_eq_ok_iff.1 h
    have hold := ih hp hpfits hbefore
    rw [exact_concat]
    intro x hx
    rcases Statement.known_cases hs with ⟨name, e, v, rfl, hv, rfl⟩ | ⟨hnone, rfl⟩
    · by_cases hname : x = name
      · subst hname
        obtain ⟨w, hw, hexact⟩ := e.known_of_fits (fun y hy => hold y (hreads y hy)) hsfits
        rw [hw] at hv
        obtain rfl := Except.ok.inj hv
        exact ⟨w, ValueTable.get_set_self _ _ _, by rw [Statement.exact_assign_self, hexact]⟩
      · rw [ValueTable.get_set_of_ne _ _ hname, Statement.exact_assign_of_ne _ _ hname]
        rcases mem_targets_concat.1 hx with hx | hx
        · exact hold x hx
        · exact absurd (Option.some.inj hx).symm hname
    · rw [Statement.exact_of_target? hnone]
      rcases mem_targets_concat.1 hx with hx | hx
      · exact hold x hx
      · rw [hnone] at hx
        cases hx

end Program

/-! ## Between statements -/

/-- Only between statements is the stack empty. -/
theorem Fragment.eq_start_of_act {f : Fragment} {source : String} {c d : Context}
    (h : f.act source c = .ok [] d) : f = .start ∧ d = c := by
  cases f with
  | opening o =>
    obtain ⟨rfl, rfl⟩ := Opening.eq_start_of_act h
    exact ⟨rfl, rfl⟩
  | operand o t ht =>
    obtain ⟨_, -, h⟩ := Outcome.map_eq_ok_iff.1 h
    cases h
  | closed o lparen ho inner rparen hc =>
    obtain ⟨_, _, -, h⟩ := Outcome.bind_eq_ok_iff.1 h
    obtain ⟨_, -, h⟩ := Outcome.map_eq_ok_iff.1 h
    cases h
  | phrase o p =>
    obtain ⟨_, _, -, h⟩ := Outcome.bind_eq_ok_iff.1 h
    obtain ⟨_, -, h⟩ := Outcome.map_eq_ok_iff.1 h
    cases h
  | clause k =>
    obtain ⟨_, -, h⟩ := Outcome.map_eq_ok_iff.1 h
    cases h
  | ended k semicolon hs =>
    obtain ⟨_, -, h⟩ := Outcome.map_eq_ok_iff.1 h
    cases h

/-- Between statements a parse holds what the program leaves that has been read. -/
theorem Parse.exists_program_of_reaches {source quoted : String} {p : Parse}
    (h : (start (Lexer.new source) (Context.new quoted)).Reaches p) (hstack : p.stack = []) :
    ∃ ss q values, sentencesYield ss ++ p.input = sourceTokens source ∧
      sentencesProgram? ss = some q ∧ q.Scoped ∧ q.known {} = .ok values ∧
      p.context = q.context quoted values := by
  obtain ⟨⟨ss, f⟩, hp, hyield, -⟩ := exists_tracks h
  have hact := hp.act_eq
  rw [hstack] at hact
  obtain ⟨⟨⟩, d, hss, hf⟩ := Outcome.bind_eq_ok_iff.1 hact
  obtain ⟨rfl, hcontext⟩ := Fragment.eq_start_of_act hf
  obtain ⟨q, values, hq, hscoped, hknown, rfl⟩ := context_of_sentencesAct hss
  refine ⟨ss, q, values, ?_, hq, hscoped, hknown, hcontext⟩
  rw [← hyield, Outline.yield, Fragment.yield_start, List.append_nil]

/-! ## Divisions that are refused -/

theorem Failure.marking_eq_divisionByZero {source : String} {loc : Nat} {marker : Marker}
    {report : Marker → CompileError}
    (h : Failure.marking source loc report = .error (.divisionByZero marker)) :
    ∃ place, Marker.place? source loc = some place ∧ report place = .divisionByZero marker := by
  unfold Failure.marking at h
  split at h
  · next place hplace => exact ⟨place, hplace, Failure.error.inj h⟩
  · cases h

/-- An operator is refused as a division by zero only if its right operand is known to be
zero. -/
theorem Context.binary_eq_divisionByZero {c d : Context} {op : BinaryOp} {lhs rhs : Value}
    {loc : Nat} {marker : Marker}
    (h : c.binary op lhs rhs loc = .failed (.error (.divisionByZero marker)) d) :
    op = .div ∧ rhs = some 0 ∧ Marker.place? c.source loc = some marker := by
  unfold binary at h
  split at h
  · cases h
  · cases hv : Value.binary op lhs rhs with
    | ok v => simp [hv] at h
    | error z =>
      rw [hv] at h
      obtain ⟨hop, hzero⟩ := Value.binary_eq_error_iff.1 hv
      obtain ⟨place, hplace, hmarker⟩ :=
        Failure.marking_eq_divisionByZero (Outcome.failed.inj h).1
      rw [← CompileError.divisionByZero.inj hmarker]
      exact ⟨hop, hzero, hplace⟩

/-- The reductions that can end in a division by zero are those of operators. -/
theorem Stack.binary_of_reduce {source : String} {c d : Context} {production : Production}
    {stack : Stack} {marker : Marker}
    (h : reduce source c production stack = .failed (.error (.divisionByZero marker)) d) :
    ∃ op lhs rhs t below, c.binary op lhs rhs t.loc = .failed (.error (.divisionByZero marker)) d ∧
      (production = .termBinary op ∧ stack = .factor rhs :: .token t :: .term lhs :: below ∨
        production = .exprBinary op) := by
  unfold reduce at h
  split at h
  case h_1 => cases h
  case h_2 =>
    have h := Outcome.map_eq_failed_iff.1 h
    unfold Context.assign at h
    split at h
    · cases h
    · dsimp only at h
      split at h <;> cases h
  case h_3 =>
    have h := Outcome.map_eq_failed_iff.1 h
    unfold Context.finishStatement at h
    split at h <;> cases h
  case h_4 =>
    have h := Outcome.map_eq_failed_iff.1 h
    unfold Context.emptyStatement at h
    split at h <;> cases h
  case h_5 => exact ⟨_, _, _, _, [], Outcome.map_eq_failed_iff.1 h, .inr rfl⟩
  case h_6 => cases h
  case h_7 => exact ⟨_, _, _, _, _, Outcome.map_eq_failed_iff.1 h, .inl ⟨rfl, rfl⟩⟩
  case h_8 => cases h
  case h_9 => cases h
  case h_10 =>
    split at h
    · cases h
    · obtain ⟨_, -, hreport⟩ := Failure.marking_eq_divisionByZero (Outcome.failed.inj h).1
      cases hreport
  case h_11 =>
    have h := Outcome.map_eq_failed_iff.1 h
    unfold Context.read at h
    split at h
    · cases h
    · split at h <;> cases h
  case h_12 => cases h

/-- The parse has come to the end of a division and is about to apply its sign, which the
marker stands under.  In the exact reading of the program before it, the right operand is
zero. -/
def Parse.AtZeroDivisor (p : Parse) (source : String) (marker : Marker) : Prop :=
  ∃ (ss : List Sentence) (q : Program) (before : Opening .term) (lhs : Phrase .term) (sign : Token)
    (rhs : Phrase .factor) (r : Expr),
    sourceTokens source =
        sentencesYield ss ++ (before.yield ++ (lhs.yield ++ sign :: (rhs.yield ++ p.input))) ∧
      sentencesProgram? ss = some q ∧ sign.kind = .operator .div ∧
      Marker.place? source sign.loc = some marker ∧ rhs.expr? = some r ∧
      r.exact? (q.exact fun _ => none) = some 0

/-- What the reduction of a product refuses is a division by an exact zero. -/
theorem Parse.Tracks.atZeroDivisor {p : Parse} {source : String} {ss : List Sentence}
    {o : Opening .term} {lhs : Phrase .term} {sign : Token} {op : BinaryOp}
    {h : sign.kind = .operator op} {hop : op.Multiplicative} {f : Phrase .factor} {d : Context}
    {a b : Value} {t : Token} {below : Stack} {marker : Marker}
    (hp : p.Tracks source (Context.new source) ⟨ss, .phrase (.product o lhs sign op h hop) f⟩)
    (hinput : (⟨ss, .phrase (.product o lhs sign op h hop) f⟩ : Outline).yield ++ p.input =
      sourceTokens source)
    (hstack : p.stack = .factor b :: .token t :: .term a :: below)
    (hfail : p.context.binary op a b t.loc = .failed (.error (.divisionByZero marker)) d) :
    p.AtZeroDivisor source marker := by
  have hact := hp.act_eq
  rw [hstack] at hact
  obtain ⟨rfl, rfl, hmarker⟩ := Context.binary_eq_divisionByZero hfail
  obtain ⟨⟨⟩, e, hss, hphrase⟩ := Outcome.bind_eq_ok_iff.1 hact
  obtain ⟨q, values, hq, -, hknown, rfl⟩ := context_of_sentencesAct hss
  obtain ⟨stack, e, hopening, hrhs⟩ := Outcome.bind_eq_ok_iff.1 hphrase
  obtain ⟨code, operands, rfl⟩ := Opening.adds_of_act _ hopening
  obtain ⟨v, hf, hstack⟩ := Outcome.map_eq_ok_iff.1 hrhs
  obtain ⟨r, hr, -, hzero, hcontext⟩ := Phrase.walked_of_act f hf
  -- the sign on the stack is that of the product
  obtain ⟨_, e, -, hlhs⟩ := Outcome.bind_eq_ok_iff.1 hopening
  obtain ⟨_, -, rfl⟩ := Outcome.map_eq_ok_iff.1 hlhs
  obtain ⟨hv, hstack⟩ := List.cons.inj hstack
  obtain ⟨ht, -⟩ := List.cons.inj hstack
  obtain rfl := Symbol.factor.inj hv
  obtain rfl := Symbol.token.inj ht
  rw [hcontext] at hmarker
  refine ⟨ss, q, o, lhs, sign, f, r, ?_, hq, h, hmarker, hr, ?_⟩
  · rw [← hinput]
    simp [Outline.yield, Fragment.yield, Opening.yield]
  · exact r.exact_of_known (Program.sound_of_known hknown) hzero

theorem exists_atZeroDivisor_of_compile {source : String} {options : Options} {marker : Marker}
    (h : compile source options = .error (.error (.divisionByZero marker))) :
    ∃ p stopped, (Parse.start (Lexer.new source) (Context.new source)).Reaches p ∧
      p.step = .failed (.error (.divisionByZero marker)) stopped ∧
      p.AtZeroDivisor source marker := by
  obtain ⟨⟨lexer, d⟩, hparse⟩ := parse_of_compile h
  obtain ⟨p, x, hreaches, hyield, hp, hfails⟩ := exists_failsOn_of_parse hparse
  rcases hfails with ⟨complaint, -, -, hf⟩ | ⟨m, y, rest, hadvance, hact⟩
  · obtain ⟨_, -, hreport⟩ := Failure.marking_eq_divisionByZero hf.symm
    cases hreport
  · refine ⟨p, _, hreaches, hp.step_failed hadvance hact, ?_⟩
    rcases hadvance.shift_or_reduce with ⟨t, hinput, rfl⟩ | ⟨-, production, rfl⟩
    · rw [hinput] at hadvance
      rw [Outline.act_shift hadvance, hp.act_eq] at hact
      cases hact
    · rw [Outline.act_reduce hadvance, hp.act_eq, Outcome.bind_ok] at hact
      generalize hinput : p.input = input at hadvance hyield
      obtain ⟨op, lhs, rhs, t, below, hbinary, ⟨rfl, hstack⟩ | rfl⟩ := Stack.binary_of_reduce hact
      · cases hadvance with
        | within hadvance =>
          cases hadvance
          rw [← hinput] at hyield
          exact hp.atZeroDivisor hyield hstack hbinary
      · -- a sum is no division
        obtain ⟨rfl, -, -⟩ := Context.binary_eq_divisionByZero hbinary
        cases hadvance with
        | within hadvance =>
          cases hadvance with
          | exprBinary => contradiction

/-- Between any two statements a value that is known is the exact one, and all are known if
every value so far is a 64-bit word.  A run that refuses a division as one by zero stops at a
right operand that is zero, whatever has overflowed before it. -/
theorem known_values_exact (source quoted : String) (options : Options) :
    (∀ p, (Parse.start (Lexer.new source) (Context.new quoted)).Reaches p → p.stack = [] →
      ∃ ss q, sentencesYield ss ++ p.input = sourceTokens source ∧
        sentencesProgram? ss = some q ∧
        (∀ x v, p.context.values.get x = some v → q.exact (fun _ => none) x = some v.toInt) ∧
        (q.ValuesFit → ∀ x ∈ q.targets, ∃ v, p.context.values.get x = some v ∧
          q.exact (fun _ => none) x = some v.toInt)) ∧
    ∀ marker, compile source options = .error (.error (.divisionByZero marker)) →
      ∃ p stopped, (Parse.start (Lexer.new source) (Context.new source)).Reaches p ∧
        p.step = .failed (.error (.divisionByZero marker)) stopped ∧
        p.AtZeroDivisor source marker := by
  constructor
  · intro p hreaches hstack
    obtain ⟨ss, q, values, hyield, hq, hscoped, hknown, hcontext⟩ :=
      Parse.exists_program_of_reaches hreaches hstack
    rw [hcontext]
    exact ⟨ss, q, hyield, hq, Program.sound_of_known hknown,
      fun hfits => Program.get_of_valuesFit hscoped hfits hknown⟩
  · intro marker h
    exact exists_atZeroDivisor_of_compile h

end OnePass
