import OnePass.Proofs.RightParse

/-!
How many moves a run can make.

Every token that is still to come has four moves in hand: one that puts it on the stack, and
three that can make it a factor, a term and an expression.  A statement takes one move more,
which the semicolon behind it makes up for.  `credit` is what a parse has in hand.  Each move
spends some of it, whatever move it is, and it is never overdrawn, because statements are
recognised only where a semicolon comes next.  So a run is over when its tokens are paid for,
on any text and in any context.
-/

namespace OnePass

/-! ## Credit -/

/-- The moves that a symbol on the stack has in hand. -/
def Symbol.credit : Symbol → Int
  | token _ => 3
  | factor _ => 2
  | term _ => 1
  | expr _ => 0
  | stmt _ => -1

namespace Stack

def credit : Stack → Int
  | [] => 0
  | s :: below => s.credit + credit below

@[simp]
theorem credit_nil : credit [] = 0 := rfl

@[simp]
theorem credit_cons (s : Symbol) (below : Stack) :
    credit (s :: below) = s.credit + credit below := rfl

/-- Every reduction spends credit. -/
theorem credit_reduce_lt {source : String} {c d : Context} {production : Production}
    {stack after : Stack} (h : reduce source c production stack = .ok after d) :
    credit after < credit stack := by
  unfold reduce at h
  split at h
  -- a number is reduced only if its value fits; elsewhere the shape of the stack is all
  case h_10 =>
    split at h
    · obtain ⟨_, _, rfl⟩ := Outcome.map_eq_ok_iff.1 h
      simp only [credit_cons, Symbol.credit]
      omega
    · cases h
  case h_12 => cases h
  all_goals
    first
    | obtain ⟨_, _, rfl⟩ := Outcome.map_eq_ok_iff.1 h
    | obtain ⟨rfl, rfl⟩ := Outcome.ok.inj h
    simp only [credit_cons, Symbol.credit]
    omega

end Stack

namespace Parse

/-- The moves that a parse has in hand. -/
def credit (p : Parse) : Int :=
  4 * p.input.length + p.stack.credit

variable {p q : Parse}

theorem credit_shifted_lt (h : p.lookahead.kind ≠ .eof) : p.shifted.credit < p.credit := by
  have hinput : p.input = p.lookahead :: p.lexer.coming := if_neg h
  have hstack : p.shifted.stack = .token p.lookahead :: p.stack := rfl
  rw [credit, credit, input_shifted hinput, hinput, hstack, Stack.credit_cons, Symbol.credit,
    List.length_cons]
  omega

theorem credit_reduced_lt {production : Production} (h : p.reduced production = .ok () q) :
    q.credit < p.credit := by
  obtain ⟨hlexer, hlookahead⟩ := lexer_of_reduced h
  have hinput : q.input = p.input := by rw [input, input, hlexer, hlookahead]
  unfold reduced at h
  split at h
  · next hs =>
    obtain ⟨-, rfl⟩ := Outcome.ok.inj h
    rw [credit, credit, hinput]
    exact Int.add_lt_add_left (Stack.credit_reduce_lt hs) _
  · cases h

/-- Every move that is not the last spends credit. -/
theorem credit_lt_of_step (h : p.step = .next q) : q.credit < p.credit := by
  unfold step at h
  split at h
  · next hmove =>
    obtain rfl := Step.next.inj h
    exact credit_shifted_lt (Decision.kind_ne_eof_of_next_eq_shift hmove)
  · split at h
    · next hr =>
      obtain rfl := Step.next.inj h
      exact credit_reduced_lt hr
    · cases h
  · cases h
  · cases h

end Parse

/-! ## No overdraft -/

theorem Level.credit_symbol_nonneg (l : Level) (v : Value) : 0 ≤ (l.symbol v).credit := by
  cases l <;> simp [Level.symbol, Symbol.credit]

theorem Opening.credit_nonneg {l : Level} (o : Opening l) {source : String} {c d : Context}
    {stack : Stack} (h : o.act source c = .ok stack d) : 0 ≤ stack.credit := by
  induction o generalizing stack d with
  | start =>
    obtain ⟨rfl, -⟩ := Outcome.ok.inj h
    exact Int.le_refl 0
  | assign target ht sign hs =>
    obtain ⟨rfl, -⟩ := Outcome.ok.inj h
    simp [Symbol.credit]
  | group before opening ho ih =>
    obtain ⟨below, hbelow, rfl⟩ := Outcome.map_eq_ok_iff.1 h
    have := ih hbelow
    simp only [Stack.credit_cons, Symbol.credit]
    omega
  | ofExpression before ih => exact ih h
  | sum before lhs sign op hs hop ih =>
    obtain ⟨below, e, hbelow, h⟩ := Outcome.bind_eq_ok_iff.1 h
    obtain ⟨v, -, rfl⟩ := Outcome.map_eq_ok_iff.1 h
    have := ih hbelow
    simp only [Stack.credit_cons, Symbol.credit]
    omega
  | ofTerm before ih => exact ih h
  | product before lhs sign op hs hop ih =>
    obtain ⟨below, e, hbelow, h⟩ := Outcome.bind_eq_ok_iff.1 h
    obtain ⟨v, -, rfl⟩ := Outcome.map_eq_ok_iff.1 h
    have := ih hbelow
    simp only [Stack.credit_cons, Symbol.credit]
    omega

/-- Only a statement without its semicolon is one move short. -/
theorem Fragment.credit_cases (f : Fragment) {source : String} {c d : Context} {stack : Stack}
    (h : f.act source c = .ok stack d) :
    0 ≤ stack.credit ∨ (∃ k, f = .clause k) ∧ stack.credit = -1 := by
  cases f with
  | opening o => exact .inl (o.credit_nonneg h)
  | operand o t ht =>
    obtain ⟨below, hbelow, rfl⟩ := Outcome.map_eq_ok_iff.1 h
    have := o.credit_nonneg hbelow
    simp only [Stack.credit_cons, Symbol.credit]
    omega
  | closed o lparen ho inner closing hc =>
    obtain ⟨below, e, hbelow, h⟩ := Outcome.bind_eq_ok_iff.1 h
    obtain ⟨v, -, rfl⟩ := Outcome.map_eq_ok_iff.1 h
    have := o.credit_nonneg hbelow
    simp only [Stack.credit_cons, Symbol.credit]
    omega
  | @phrase l o p =>
    obtain ⟨below, e, v, hbelow, -, rfl⟩ := exists_of_act_phrase h
    have := o.credit_nonneg hbelow
    have := l.credit_symbol_nonneg v
    rw [Stack.credit_cons]
    omega
  | clause k =>
    obtain ⟨v, -, rfl⟩ := Outcome.map_eq_ok_iff.1 h
    exact .inr ⟨⟨k, rfl⟩, rfl⟩
  | ended k semicolon hs =>
    obtain ⟨v, -, rfl⟩ := Outcome.map_eq_ok_iff.1 h
    exact .inl (by simp [Symbol.credit])

/-- A statement without its semicolon has something behind it. -/
def Outline.Followed (x : Outline) (input : List Token) : Prop :=
  ∀ k, x.fragment = .clause k → input ≠ []

theorem Outline.Advance.followed {x y : Outline} {input rest : List Token} {m : Decision}
    (h : x.Advance input m y rest) : y.Followed rest := by
  cases h with
  | within h => cases h <;> simp [Outline.Followed]
  | program => simp [Outline.Followed, Fragment.start]

namespace Parse

variable {p q : Parse} {source : String} {c : Context} {x : Outline}

theorem Tracks.credit_nonneg (hp : p.Tracks source c x) (hx : x.Followed p.input) :
    0 ≤ p.credit := by
  obtain ⟨_, e, -, hact⟩ := Outcome.bind_eq_ok_iff.1 hp.act_eq
  rw [credit]
  rcases x.fragment.credit_cases hact with h | ⟨⟨k, hk⟩, h⟩
  · omega
  · have := List.length_pos_iff.2 (hx k hk)
    omega

/-! ## Runs with a limit -/

/-- What a run comes to, if it is over after `n` moves at most.  The move that ends the run
counts too. -/
def runFor : Nat → Parse → Option (Outcome Parse Unit)
  | 0, _ => none
  | n + 1, p =>
    match p.step with
    | .next q => runFor n q
    | .accept => some (.ok () p)
    | .failed f q => some (.failed f q)

/-- A parse makes no more moves than it has in hand, and the last one. -/
theorem Tracks.runFor_eq {n : Nat} (hp : p.Tracks source c x) (hx : x.Followed p.input)
    (hn : p.credit < n) : p.runFor n = some p.run := by
  -- on the limit, with the outline along: it is what keeps the credit from running out
  induction n generalizing p x with
  | zero =>
    have := hp.credit_nonneg hx
    omega
  | succ n ih =>
    rcases hp.step_cases with ⟨q, m, y, hstep, hy, hq⟩ | ⟨hstep, -⟩ | ⟨f, d, hstep, -⟩
    · have hlt := credit_lt_of_step hstep
      rw [runFor, hstep, run_of_next hstep]
      exact ih hq hy.followed (by omega)
    · rw [runFor, hstep, run_of_accept hstep]
    · rw [runFor, hstep, run_of_failed hstep]

/-! ## Shifts -/

/-- The tokens that a run puts on the stack, in order. -/
def shifts (p : Parse) : List Token :=
  p.events.filterMap Event.shifted?

theorem inStep_start_lexer (l : Lexer) (c : Context) : (start l c).InStep := by
  cases h : l.finished with
  | true =>
    rw [InStep, start, Lexer.next_of_finished h]
    simp [h, Token.endOfSource]
  | false => exact inStep_start h c

theorem InStep.prefix_shifts (hp : p.InStep) : p.shifts <+: p.input := by
  obtain ⟨hrow, hlast⟩ := p.traced_run.1.row_eq hp
  obtain ⟨s, -, hs⟩ := hp.row_eq
  obtain ⟨t, -, ht⟩ := hlast.row_eq
  rw [hs, ht, ← List.append_assoc] at hrow
  exact ⟨_, (List.append_inj' hrow rfl).1⟩

end Parse

namespace Lexer

theorem length_coming (l : Lexer) :
    l.coming.length = l.drain.1.countP fun t => t.kind ≠ .eof := by
  have hcoming : l.coming.countP (fun t => decide (t.kind ≠ .eof)) = l.coming.length :=
    List.countP_eq_length.2 fun t ht => decide_eq_true (kind_ne_eof_of_mem_coming ht)
  cases hf : l.finished with
  | true => rw [coming_of_finished hf, drain_of_finished hf]; rfl
  | false =>
    obtain ⟨last, hlast, hdrain⟩ := drain_eq_coming_concat hf
    rw [hdrain, List.countP_append, hcoming]
    simp [hlast]

theorem nodup_coming (l : Lexer) : l.coming.Nodup := by
  cases hf : l.finished with
  | true => rw [coming_of_finished hf]; exact List.nodup_nil
  | false =>
    obtain ⟨ts, ss, hdrain, -, hparted⟩ := parted_drain hf
    rw [coming, hdrain, List.dropLast_concat]
    exact hparted.pairwise_tokens.imp fun hlt heq => Nat.ne_of_lt hlt (congrArg Token.loc heq)

end Lexer

/-- From any place of a lexer and in any context, a run over `n` tokens is over after `4 n + 1`
moves.  The tokens it puts on the stack are the first of those that the lexer yields, each of
them once, and the token that ends the source is not among them. -/
theorem run_within_moves (l : Lexer) (c : Context) :
    (Parse.start l c).runFor (4 * l.drain.1.countP (fun t => t.kind ≠ .eof) + 1) =
        some (Parse.start l c).run ∧
      (Parse.start l c).shifts <+: l.drain.1 ∧ (Parse.start l c).shifts.Nodup ∧
      ∀ t ∈ (Parse.start l c).shifts, t.kind ≠ .eof := by
  have hshifts := (Parse.inStep_start_lexer l c).prefix_shifts
  rw [Parse.input_start] at hshifts
  refine ⟨?_, hshifts.trans (List.dropLast_prefix _), l.nodup_coming.sublist hshifts.sublist,
    fun t ht => Lexer.kind_ne_eof_of_mem_coming (hshifts.subset ht)⟩
  refine (Parse.tracks_start l c).runFor_eq (fun k hk => by cases hk) ?_
  rw [Parse.credit, Parse.input_start, l.length_coming]
  show _ + (0 : Int) < _
  omega

end OnePass
