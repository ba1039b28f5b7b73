import OnePass.Proofs.Lexing
import OnePass.Proofs.Outline

/-!
A parse tracks an outline.

At every point of a run there is an outline such that performing its actions gives the
stack and the context of the parse.  The decisions of the parse are those by which the
outline grows, and a reduction that fails is a walk over the grown outline that fails.
So a run follows every way that outlines have through a text, and it has no way of its
own.
-/

namespace OnePass

/-! ## The stack of an outline -/

/-- The symbol of a phrase on the stack. -/
def Level.symbol : Level → Value → Symbol
  | .factor => .factor
  | .term => .term
  | .expression => .expr

/-- Perform the actions of an opening and tell the stack that it leaves. -/
def Opening.act (source : String) : {l : Level} → Opening l → Context → Outcome Context Stack
  | _, start, c => .ok [] c
  | _, assign target _ sign _, c => .ok [.token sign, .token target] c
  | _, group before opening _, c => (before.act source c).map (.token opening :: ·)
  | _, ofExpression before, c => before.act source c
  | _, sum before lhs sign _ _ _, c =>
    (before.act source c).bind fun stack d =>
      (lhs.act source d).map fun v => .token sign :: .expr v :: stack
  | _, ofTerm before, c => before.act source c
  | _, product before lhs sign _ _ _, c =>
    (before.act source c).bind fun stack d =>
      (lhs.act source d).map fun v => .token sign :: .term v :: stack

@[simp]
theorem Opening.act_operand {l : Level} (o : Opening l) (source : String) (c : Context) :
    o.operand.act source c = o.act source c := by
  cases l <;> rfl

def Fragment.act (source : String) : Fragment → Context → Outcome Context Stack
  | opening o, c => o.act source c
  | operand o t _, c => (o.act source c).map (.token t :: ·)
  | closed o lparen _ inner closing _, c =>
    (o.act source c).bind fun stack d =>
      (inner.act source d).map fun v => .token closing :: .expr v :: .token lparen :: stack
  | @phrase l o p, c =>
    (o.act source c).bind fun stack d => (p.act source d).map fun v => l.symbol v :: stack
  | clause k, c => (k.act source c).map fun v => [.stmt v]
  | ended k semicolon _, c => (k.act source c).map fun v => [.token semicolon, .stmt v]

def Outline.act (source : String) (x : Outline) (c : Context) : Outcome Context Stack :=
  (sentencesAct source x.complete c).bind fun _ d => x.fragment.act source d

namespace Fragment

theorem act_shift {f g : Fragment} {t : Token} {rest last : List Token}
    (h : f.Advance (t :: rest) .shift g last) (source : String) (c : Context) :
    g.act source c = (f.act source c).map (.token t :: ·) := by
  cases h with
  | shiftOperand h => rfl
  | shiftOpening h => simp only [act, Opening.act_operand, Opening.act]
  | shiftBecomes ht hs => rfl
  | shiftClosing hc =>
    simp only [act, Opening.act, Outcome.bind_map, Outcome.map_bind, Outcome.map_map]
    rfl
  | shiftTight h hop =>
    simp only [act, Opening.act_operand, Opening.act, Outcome.map_bind, Outcome.map_map]
    rfl
  | shiftLoose h hop =>
    simp only [act, Opening.act_operand, Opening.act, Outcome.map_bind, Outcome.map_map]
    rfl
  | shiftSemicolon h => simp only [act, Outcome.map_map]

/-- A reduction does to the stack and the context what the walk over the new phrase
does. -/
theorem act_reduce {f g : Fragment} {input rest : List Token} {production : Production}
    (h : f.Advance input (.reduce production) g rest) (source : String) (c : Context) :
    g.act source c =
      (f.act source c).bind fun stack d => Stack.reduce source d production stack := by
  cases h with
  | @factorNumber o t h next rest ht hn =>
    simp only [act, Outcome.bind_map]
    congr 1
    funext stack d
    rw [Phrase.act, Stack.reduce]
    cases t.value <;> rfl
  | factorName ht hn =>
    simp only [act, Outcome.bind_map]
    rfl
  | factorGroup hn =>
    simp only [act, Outcome.bind_assoc, Outcome.bind_map]
    rfl
  | termFactor =>
    simp only [act, Opening.act, Outcome.bind_assoc, Outcome.bind_map]
    rfl
  | termBinary =>
    simp only [act, Opening.act, Outcome.bind_assoc, Outcome.bind_map, Phrase.act,
      Context.operate, Outcome.map_bind]
    rfl
  | exprTerm hn =>
    simp only [act, Opening.act, Outcome.bind_assoc, Outcome.bind_map]
    rfl
  | exprBinary hn =>
    simp only [act, Opening.act, Outcome.bind_assoc, Outcome.bind_map, Phrase.act,
      Context.operate, Outcome.map_bind]
    rfl
  | stmtExpr h =>
    simp only [act, Opening.act, Clause.act, Outcome.bind_ok, Outcome.bind_map,
      Outcome.map_bind, Outcome.map_map]
    rfl
  | stmtAssign h =>
    simp only [act, Opening.act, Clause.act, Outcome.bind_ok, Outcome.bind_map,
      Outcome.map_bind, Outcome.map_map]
    rfl
  | stmtEmpty h =>
    simp only [act, start, Opening.act_operand, Opening.act, Clause.act, Outcome.bind_ok,
      Outcome.map_map]
    rfl

end Fragment

namespace Outline

theorem act_shift {x y : Outline} {t : Token} {rest last : List Token}
    (h : x.Advance (t :: rest) .shift y last) (source : String) (c : Context) :
    y.act source c = (x.act source c).map (.token t :: ·) := by
  cases h with
  | within h =>
    simp only [act, Outcome.map_bind]
    congr 1
    funext _ d
    exact Fragment.act_shift h source d

theorem act_reduce {x y : Outline} {input rest : List Token} {production : Production}
    (h : x.Advance input (.reduce production) y rest) (source : String) (c : Context) :
    y.act source c =
      (x.act source c).bind fun stack d => Stack.reduce source d production stack := by
  cases h with
  | within h =>
    simp only [act, Outcome.bind_assoc]
    congr 1
    funext _ d
    exact Fragment.act_reduce h source d
  | program =>
    simp only [act, sentencesAct_concat, Clause.clause_sentence, Fragment.act,
      Outcome.bind_assoc, Outcome.bind_map]
    rfl

theorem Advance.shift_or_reduce {x y : Outline} {input rest : List Token} {m : Decision}
    (h : x.Advance input m y rest) :
    (∃ t, input = t :: rest ∧ m = .shift) ∨
      rest = input ∧ ∃ production, m = .reduce production := by
  cases h with
  | within h => cases h <;> simp
  | program => exact .inr ⟨rfl, _, rfl⟩

/-- Once the actions of an outline fail, they fail in the same way as it grows. -/
theorem act_failed_of_advance {x y : Outline} {input rest : List Token} {m : Decision}
    {source : String} {c d : Context} {f : Failure} (h : x.Advance input m y rest)
    (hx : x.act source c = .failed f d) : y.act source c = .failed f d := by
  rcases h.shift_or_reduce with ⟨t, rfl, rfl⟩ | ⟨rfl, production, rfl⟩
  · rw [act_shift h, hx, Outcome.map_failed]
  · rw [act_reduce h, hx, Outcome.bind_failed]

theorem act_failed_of_advances {x y : Outline} {input rest : List Token} {source : String}
    {c d : Context} {f : Failure} (h : x.Advances input y rest)
    (hx : x.act source c = .failed f d) : y.act source c = .failed f d := by
  induction h with
  | refl => exact hx
  | head h _ ih => exact ih (act_failed_of_advance h hx)

theorem act_ok_of_advances {x y : Outline} {input rest : List Token} {source : String}
    {c d : Context} {stack : Stack} (h : x.Advances input y rest)
    (hy : y.act source c = .ok stack d) : ∃ stack' d', x.act source c = .ok stack' d' := by
  cases hx : x.act source c with
  | ok stack' d' => exact ⟨stack', d', rfl⟩
  | failed f e =>
    rw [act_failed_of_advances h hx] at hy
    cases hy

end Outline

/-! ## The decisions on the stack of an outline -/

/-- The strongest operator that can wait for a phrase of the level. -/
def Level.strength : Level → Nat
  | .factor => 2
  | .term => 1
  | .expression => 0

/-- The stack ends where a phrase of the level has to start: it is empty, or its top is a
token that something has to follow. -/
def Stack.Awaits (l : Level) (stack : Stack) : Prop :=
  stack = [] ∨ ∃ t below, stack = .token t :: below ∧
    (t.kind = .lparen ∨ t.kind = .becomes ∨
      ∃ op, t.kind = .operator op ∧ op.precedence ≤ l.strength)

namespace Stack

theorem Awaits.mono {l m : Level} {stack : Stack} (h : stack.Awaits l)
    (hlm : l.strength ≤ m.strength) : stack.Awaits m := by
  rcases h with h | ⟨t, below, hs, hk⟩
  · exact .inl h
  · refine .inr ⟨t, below, hs, ?_⟩
    rcases hk with hk | hk | ⟨op, hk, hop⟩
    · exact .inl hk
    · exact .inr (.inl hk)
    · exact .inr (.inr ⟨op, hk, Nat.le_trans hop hlm⟩)

theorem Awaits.pendingOperator {l : Level} {stack : Stack} (h : stack.Awaits l) {n : Nat}
    (hn : l.strength < n) : stack.pendingOperator n = none := by
  rcases h with rfl | ⟨t, below, rfl, hk⟩
  · rfl
  · rcases hk with hk | hk | ⟨op, hk, hop⟩
    · simp [Stack.pendingOperator, hk, TokenKind.operator?]
    · simp [Stack.pendingOperator, hk, TokenKind.operator?]
    · have hne : ¬ op.precedence = n := by omega
      simp [Stack.pendingOperator, hk, TokenKind.operator?, hne]

theorem Awaits.next {l : Level} {stack : Stack} (h : stack.Awaits l) {t : Token}
    (ht : t.kind.startsOperand = true) : Decision.next stack t = .shift := by
  rcases h with rfl | ⟨s, below, rfl, hk⟩
  · cases hkind : t.kind <;> simp_all [Decision.next, Decision.onEmpty, TokenKind.startsOperand]
  · rcases hk with hk | hk | ⟨op, hk, -⟩ <;> simp [Decision.next, Decision.onToken, hk, ht]

theorem precedence_of_pendingOperator {n : Nat} {stack : Stack} {op : BinaryOp}
    (h : stack.pendingOperator n = some op) : op.precedence = n := by
  unfold Stack.pendingOperator at h
  split at h
  · exact beq_iff_eq.1 (Option.filter_eq_some_iff.1 h).2
  · cases h

end Stack

theorem Opening.awaits_of_act {l : Level} (o : Opening l) {source : String} {c d : Context}
    {stack : Stack} (h : o.act source c = .ok stack d) : stack.Awaits l := by
  induction o generalizing stack d with
  | start =>
    obtain ⟨rfl, -⟩ := Outcome.ok.inj h
    exact .inl rfl
  | assign target ht sign hs =>
    obtain ⟨rfl, -⟩ := Outcome.ok.inj h
    exact .inr ⟨sign, _, rfl, .inr (.inl hs)⟩
  | group before opening ho _ =>
    obtain ⟨below, -, rfl⟩ := Outcome.map_eq_ok_iff.1 h
    exact .inr ⟨opening, below, rfl, .inl ho⟩
  | ofExpression before ih => exact (ih h).mono (by decide)
  | sum before lhs sign op hs hop _ =>
    obtain ⟨below, e, -, h⟩ := Outcome.bind_eq_ok_iff.1 h
    obtain ⟨v, -, rfl⟩ := Outcome.map_eq_ok_iff.1 h
    have hstrength := Nat.le_of_eq (BinaryOp.additive_iff_precedence_eq.1 hop)
    exact .inr ⟨sign, _, rfl, .inr (.inr ⟨op, hs, hstrength⟩)⟩
  | ofTerm before ih => exact (ih h).mono (by decide)
  | product before lhs sign op hs hop _ =>
    obtain ⟨below, e, -, h⟩ := Outcome.bind_eq_ok_iff.1 h
    obtain ⟨v, -, rfl⟩ := Outcome.map_eq_ok_iff.1 h
    have hstrength := Nat.le_of_eq (BinaryOp.multiplicative_iff_precedence_eq.1 hop)
    exact .inr ⟨sign, _, rfl, .inr (.inr ⟨op, hs, hstrength⟩)⟩

/-- Only the opening of a statement leaves an empty stack. -/
theorem Opening.eq_start_of_act {o : Opening .factor} {source : String} {c d : Context}
    (h : o.act source c = .ok [] d) : o = .operand .start ∧ d = c := by
  cases o with
  | product before lhs sign op hs hop =>
    obtain ⟨_, _, -, h⟩ := Outcome.bind_eq_ok_iff.1 h
    obtain ⟨_, -, h⟩ := Outcome.map_eq_ok_iff.1 h
    cases h
  | ofTerm before =>
    cases before with
    | sum before lhs sign op hs hop =>
      obtain ⟨_, _, -, h⟩ := Outcome.bind_eq_ok_iff.1 h
      obtain ⟨_, -, h⟩ := Outcome.map_eq_ok_iff.1 h
      cases h
    | ofExpression before =>
      cases before with
      | start => exact ⟨rfl, (Outcome.ok.inj h).2.symm⟩
      | assign target ht sign hs => cases (Outcome.ok.inj h).1
      | group before opening ho =>
        obtain ⟨_, -, h⟩ := Outcome.map_eq_ok_iff.1 h
        cases h

/-- The token is the first of the tokens to come, or ends the source when none come. -/
def Heads (t : Token) : List Token → Prop
  | [] => t.kind = .eof
  | first :: _ => t = first ∧ first.kind ≠ .eof

theorem Heads.exists_cons {t : Token} {input : List Token} (h : Heads t input)
    (hk : t.kind ≠ .eof) : ∃ rest, input = t :: rest := by
  cases input with
  | nil => exact absurd h hk
  | cons first rest => exact ⟨rest, by rw [h.1]⟩

theorem Heads.eq_nil {t : Token} {input : List Token} (h : Heads t input)
    (hk : t.kind = .eof) : input = [] := by
  cases input with
  | nil => rfl
  | cons first rest => exact absurd (h.1 ▸ hk) h.2

theorem tightNext_iff {t : Token} {input : List Token} (h : Heads t input) :
    TightNext input ↔ ∃ op, t.kind = .operator op ∧ op.Multiplicative := by
  cases input with
  | nil =>
    have hk : t.kind = .eof := h
    simp [TightNext, hk]
  | cons first rest =>
    rw [h.1]
    rfl

theorem Decision.onTerm_eq_shift {below : Stack} {t : Token} {op : BinaryOp}
    (h : t.kind = .operator op) (hop : op.Multiplicative) :
    Decision.onTerm below t = .shift := by
  have htight := BinaryOp.multiplicative_iff_precedence_eq.1 hop
  have hle : ((below.pendingOperator 1).getD .add).precedence = 1 := by
    cases hp : below.pendingOperator 1 with
    | none => rfl
    | some op => exact Stack.precedence_of_pendingOperator hp
  simp [Decision.onTerm, h, TokenKind.operator?, hle, htight]

theorem Decision.onTerm_of_not_tight {below : Stack} {t : Token}
    (h : ¬ ∃ op, t.kind = .operator op ∧ op.Multiplicative) :
    Decision.onTerm below t =
      match below.pendingOperator 1 with
      | some op => .reduce (.exprBinary op)
      | none => .reduce .exprTerm := by
  have hno : (t.kind.operator?.any fun op =>
      decide (((below.pendingOperator 1).getD .add).precedence < op.precedence)) = false := by
    cases hk : t.kind with
    | operator op =>
      have hop : op.precedence ≤ 1 := by
        have hloose : op.precedence ≠ 2 := fun he =>
          h ⟨op, hk, BinaryOp.multiplicative_iff_precedence_eq.2 he⟩
        cases op <;> simp_all [BinaryOp.precedence]
      have hle : 1 ≤ ((below.pendingOperator 1).getD .add).precedence := by
        cases (below.pendingOperator 1).getD .add <;> simp [BinaryOp.precedence]
      simp [TokenKind.operator?]
      omega
    | _ => rfl
  rw [Decision.onTerm, hno]
  rfl

namespace Opening

variable {source : String} {c d : Context} {below : Stack}

theorem pendingOperator_product {before : Opening .term} {lhs : Phrase .term} {sign : Token}
    {op : BinaryOp} {hs : sign.kind = .operator op} {hop : op.Multiplicative}
    (h : (product before lhs sign op hs hop).act source c = .ok below d) :
    below.pendingOperator 2 = some op := by
  obtain ⟨_, _, -, h⟩ := Outcome.bind_eq_ok_iff.1 h
  obtain ⟨v, -, rfl⟩ := Outcome.map_eq_ok_iff.1 h
  simp [Stack.pendingOperator, hs, TokenKind.operator?,
    BinaryOp.multiplicative_iff_precedence_eq.1 hop]

theorem pendingOperator_sum {before : Opening .expression} {lhs : Phrase .expression}
    {sign : Token} {op : BinaryOp} {hs : sign.kind = .operator op} {hop : op.Additive}
    (h : (sum before lhs sign op hs hop).act source c = .ok below d) :
    below.pendingOperator 1 = some op := by
  obtain ⟨_, _, -, h⟩ := Outcome.bind_eq_ok_iff.1 h
  obtain ⟨v, -, rfl⟩ := Outcome.map_eq_ok_iff.1 h
  simp [Stack.pendingOperator, hs, TokenKind.operator?,
    BinaryOp.additive_iff_precedence_eq.1 hop]

theorem opensGroup_group {before : Opening .factor} {opening : Token}
    {ho : opening.kind = .lparen} (h : (group before opening ho).act source c = .ok below d) :
    below.opensGroup = true := by
  obtain ⟨_, -, rfl⟩ := Outcome.map_eq_ok_iff.1 h
  simp [Stack.opensGroup, ho]

end Opening

namespace Fragment

variable {source : String} {c d : Context} {stack : Stack}

theorem exists_of_act_phrase {l : Level} {o : Opening l} {p : Phrase l}
    (h : (phrase o p).act source c = .ok stack d) :
    ∃ below e v, o.act source c = .ok below e ∧ p.act source e = .ok v d ∧
      stack = l.symbol v :: below := by
  obtain ⟨below, e, ho, h⟩ := Outcome.bind_eq_ok_iff.1 h
  obtain ⟨v, hp, rfl⟩ := Outcome.map_eq_ok_iff.1 h
  exact ⟨below, e, v, ho, hp, rfl⟩

/-- The parse decides on the stack of a fragment as the fragment grows. -/
theorem next_of_advance {f g : Fragment} {input rest : List Token} {m : Decision} {t : Token}
    (h : f.Advance input m g rest) (hf : f.act source c = .ok stack d) (ht : Heads t input) :
    Decision.next stack t = m := by
  cases h with
  | shiftOperand hk =>
    obtain ⟨rfl, -⟩ := ht
    exact (Opening.awaits_of_act _ hf).next (by rcases hk with hk | hk <;> rw [hk] <;> rfl)
  | shiftOpening hk =>
    obtain ⟨rfl, -⟩ := ht
    exact (Opening.awaits_of_act _ hf).next (by rw [hk]; rfl)
  | shiftBecomes hname hk =>
    obtain ⟨rfl, -⟩ := ht
    obtain ⟨rfl, -⟩ := Outcome.ok.inj hf
    simp [Decision.next, Decision.onToken, hname, hk]
  | shiftClosing hk =>
    obtain ⟨rfl, -⟩ := ht
    obtain ⟨below, e, v, ho, -, rfl⟩ := exists_of_act_phrase hf
    simp [Decision.next, Level.symbol, Decision.onExpression, hk, Opening.opensGroup_group ho]
  | shiftTight hk hop =>
    obtain ⟨rfl, -⟩ := ht
    obtain ⟨below, e, v, -, -, rfl⟩ := exists_of_act_phrase hf
    exact Decision.onTerm_eq_shift hk hop
  | @shiftLoose _ _ _ op _ hk hop =>
    obtain ⟨rfl, -⟩ := ht
    obtain ⟨below, e, v, -, -, rfl⟩ := exists_of_act_phrase hf
    cases hop <;> simp [Decision.next, Level.symbol, Decision.onExpression, hk]
  | shiftSemicolon hk =>
    obtain ⟨rfl, -⟩ := ht
    obtain ⟨v, -, rfl⟩ := Outcome.map_eq_ok_iff.1 hf
    simp [Decision.next, Decision.onStatement, hk]
  | factorNumber hk hn =>
    obtain ⟨rfl, -⟩ := ht
    obtain ⟨below, -, rfl⟩ := Outcome.map_eq_ok_iff.1 hf
    simp [Decision.next, Decision.onToken, Decision.closeFactor, hk, hn]
  | factorName hk hn =>
    obtain ⟨rfl, -⟩ := ht
    obtain ⟨below, -, rfl⟩ := Outcome.map_eq_ok_iff.1 hf
    have hne : t.kind ≠ .becomes := by
      intro he
      rw [he] at hn
      cases hn
    simp [Decision.next, Decision.onToken, Decision.closeFactor, hk, hn, hne]
  | @factorGroup _ _ _ _ _ hk _ _ hn =>
    obtain ⟨rfl, -⟩ := ht
    obtain ⟨below, e, -, hf⟩ := Outcome.bind_eq_ok_iff.1 hf
    obtain ⟨v, -, rfl⟩ := Outcome.map_eq_ok_iff.1 hf
    simp [Decision.next, Decision.onToken, Decision.closeFactor, hk, hn]
  | @termFactor o =>
    obtain ⟨below, e, v, ho, -, rfl⟩ := exists_of_act_phrase hf
    have hpending := (Opening.awaits_of_act o ho).pendingOperator (n := 2) (by decide)
    simp [Decision.next, Level.symbol, Decision.onFactor, hpending]
  | termBinary =>
    obtain ⟨below, e, v, ho, -, rfl⟩ := exists_of_act_phrase hf
    simp [Decision.next, Level.symbol, Decision.onFactor, Opening.pendingOperator_product ho]
  | @exprTerm o _ _ hn =>
    obtain ⟨below, e, v, ho, -, rfl⟩ := exists_of_act_phrase hf
    have hpending := (Opening.awaits_of_act o ho).pendingOperator (n := 1) (by decide)
    rw [tightNext_iff ht] at hn
    simp [Decision.next, Level.symbol, Decision.onTerm_of_not_tight hn, hpending]
  | exprBinary hn =>
    obtain ⟨below, e, v, ho, -, rfl⟩ := exists_of_act_phrase hf
    rw [tightNext_iff ht] at hn
    simp [Decision.next, Level.symbol, Decision.onTerm_of_not_tight hn,
      Opening.pendingOperator_sum ho]
  | stmtExpr hk =>
    obtain ⟨rfl, -⟩ := ht
    obtain ⟨below, e, v, ho, -, rfl⟩ := exists_of_act_phrase hf
    obtain ⟨rfl, -⟩ := Outcome.ok.inj ho
    simp [Decision.next, Level.symbol, Decision.onExpression, Stack.opensGroup, hk]
  | @stmtAssign _ _ _ hs _ _ _ hk =>
    obtain ⟨rfl, -⟩ := ht
    obtain ⟨below, e, v, ho, -, rfl⟩ := exists_of_act_phrase hf
    obtain ⟨rfl, -⟩ := Outcome.ok.inj ho
    simp [Decision.next, Level.symbol, Decision.onExpression, Stack.opensGroup,
      Stack.opensAssignment, hk, hs]
  | stmtEmpty hk =>
    obtain ⟨rfl, -⟩ := ht
    obtain ⟨rfl, -⟩ := Outcome.ok.inj hf
    simp [Decision.next, Decision.onEmpty, hk]

/-- What the parse can do on the stack of a fragment: go on as the fragment grows, accept
between two sentences, or reject the token that comes next. -/
def Progress (f : Fragment) (stack : Stack) (input : List Token) (t : Token) : Prop :=
  (∃ m g rest, f.Advance input m g rest) ∨
    (f = .start ∧ input = [] ∧ Decision.next stack t = .accept) ∨
    ∃ complaint, Decision.next stack t = .reject complaint

variable {input : List Token} {t : Token}

theorem progress_opening {o : Opening .factor} (hf : o.act source c = .ok stack d)
    (ht : Heads t input) : (opening o).Progress stack input t := by
  by_cases hstart : t.kind.startsOperand = true
  · obtain ⟨rest, rfl⟩ := ht.exists_cons (by intro he; rw [he] at hstart; cases hstart)
    cases hk : t.kind with
    | number => exact .inl ⟨_, _, _, .shiftOperand (.inl hk)⟩
    | name => exact .inl ⟨_, _, _, .shiftOperand (.inr hk)⟩
    | lparen => exact .inl ⟨_, _, _, .shiftOpening hk⟩
    | _ => simp [hk, TokenKind.startsOperand] at hstart
  · rcases Opening.awaits_of_act o hf with rfl | ⟨s, below, rfl, hs⟩
    · obtain ⟨rfl, -⟩ := Opening.eq_start_of_act hf
      by_cases hsemi : t.kind = .semicolon
      · obtain ⟨rest, rfl⟩ := ht.exists_cons (by rw [hsemi]; simp)
        exact .inl ⟨_, _, _, .stmtEmpty hsemi⟩
      · by_cases heof : t.kind = .eof
        · exact .inr (.inl ⟨rfl, ht.eq_nil heof, by simp [Decision.next, Decision.onEmpty, heof]⟩)
        · refine .inr (.inr ⟨.unexpected t.describe, ?_⟩)
          cases hk : t.kind <;>
            simp_all [Decision.next, Decision.onEmpty, TokenKind.startsOperand]
    · refine .inr (.inr ⟨.expectedOperand t.describe, ?_⟩)
      rcases hs with hs | hs | ⟨op, hs, -⟩ <;>
        simp [Decision.next, Decision.onToken, hs, hstart]

theorem progress_operand {o : Opening .factor} {u : Token}
    (hu : u.kind = .number ∨ u.kind = .name) (hf : (operand o u hu).act source c = .ok stack d)
    (ht : Heads t input) : (operand o u hu).Progress stack input t := by
  obtain ⟨below, ho, rfl⟩ := Outcome.map_eq_ok_iff.1 hf
  by_cases hfollows : t.kind.followsOperand = true
  · obtain ⟨rest, rfl⟩ := ht.exists_cons (by intro he; rw [he] at hfollows; cases hfollows)
    rcases hu with hk | hk
    · exact .inl ⟨_, _, _, .factorNumber hk hfollows⟩
    · exact .inl ⟨_, _, _, .factorName hk hfollows⟩
  · by_cases hassign : t.kind = .becomes ∧ below = [] ∧ u.kind = .name
    · obtain ⟨hk, rfl, hname⟩ := hassign
      obtain ⟨rfl, -⟩ := Opening.eq_start_of_act ho
      obtain ⟨rest, rfl⟩ := ht.exists_cons (by rw [hk]; simp)
      exact .inl ⟨_, _, _, .shiftBecomes hname hk⟩
    · refine .inr (.inr ⟨.unexpected t.describe, ?_⟩)
      rcases hu with hk | hk <;>
        simp_all [Decision.next, Decision.onToken, Decision.closeFactor]

theorem progress_closed {o : Opening .factor} {lparen closing : Token}
    {ho : lparen.kind = .lparen} {inner : Phrase .expression} (hc : closing.kind = .rparen)
    (hf : (closed o lparen ho inner closing hc).act source c = .ok stack d)
    (ht : Heads t input) : (closed o lparen ho inner closing hc).Progress stack input t := by
  obtain ⟨below, e, -, hf⟩ := Outcome.bind_eq_ok_iff.1 hf
  obtain ⟨v, -, rfl⟩ := Outcome.map_eq_ok_iff.1 hf
  by_cases hfollows : t.kind.followsOperand = true
  · obtain ⟨rest, rfl⟩ := ht.exists_cons (by intro he; rw [he] at hfollows; cases hfollows)
    exact .inl ⟨_, _, _, .factorGroup hfollows⟩
  · refine .inr (.inr ⟨.unexpected t.describe, ?_⟩)
    simp [Decision.next, Decision.onToken, Decision.closeFactor, hc, hfollows]

theorem progress_term {o : Opening .term} {p : Phrase .term} (ht : Heads t input) :
    (phrase o p).Progress stack input t := by
  by_cases htight : TightNext input
  · cases input with
    | nil => exact absurd htight id
    | cons first rest =>
      obtain ⟨op, hk, hop⟩ := htight
      exact .inl ⟨_, _, _, .shiftTight hk hop⟩
  · cases o with
    | ofExpression before => exact .inl ⟨_, _, _, .exprTerm htight⟩
    | sum before lhs sign op hs hop => exact .inl ⟨_, _, _, .exprBinary htight⟩

theorem progress_expression {o : Opening .expression} {p : Phrase .expression}
    (hf : (phrase o p).act source c = .ok stack d) (ht : Heads t input) :
    (phrase o p).Progress stack input t := by
  obtain ⟨below, e, v, ho, -, rfl⟩ := exists_of_act_phrase hf
  by_cases hloose : ∃ op, t.kind = .operator op ∧ op.Additive
  · obtain ⟨op, hk, hop⟩ := hloose
    obtain ⟨rest, rfl⟩ := ht.exists_cons (by rw [hk]; simp)
    exact .inl ⟨_, _, _, .shiftLoose hk hop⟩
  · have hadd : t.kind ≠ .operator .add := fun hk => hloose ⟨.add, hk, .add⟩
    have hsub : t.kind ≠ .operator .sub := fun hk => hloose ⟨.sub, hk, .sub⟩
    cases o with
    | group before opening hopening =>
      by_cases hk : t.kind = .rparen
      · obtain ⟨rest, rfl⟩ := ht.exists_cons (by rw [hk]; simp)
        exact .inl ⟨_, _, _, .shiftClosing hk⟩
      · refine .inr (.inr ⟨.expected ")" t.describe, ?_⟩)
        simp [Decision.next, Level.symbol, Decision.onExpression, hadd, hsub, hk,
          Opening.opensGroup_group ho]
    | start =>
      obtain ⟨rfl, -⟩ := Outcome.ok.inj ho
      by_cases hk : t.kind = .semicolon
      · obtain ⟨rest, rfl⟩ := ht.exists_cons (by rw [hk]; simp)
        exact .inl ⟨_, _, _, .stmtExpr hk⟩
      · refine .inr (.inr ⟨.unexpected t.describe, ?_⟩)
        simp [Decision.next, Level.symbol, Decision.onExpression, Stack.opensGroup, hadd, hsub,
          hk]
    | assign target htarget sign hsign =>
      obtain ⟨rfl, -⟩ := Outcome.ok.inj ho
      by_cases hk : t.kind = .semicolon
      · obtain ⟨rest, rfl⟩ := ht.exists_cons (by rw [hk]; simp)
        exact .inl ⟨_, _, _, .stmtAssign hk⟩
      · refine .inr (.inr ⟨.unexpected t.describe, ?_⟩)
        simp [Decision.next, Level.symbol, Decision.onExpression, Stack.opensGroup, hadd, hsub,
          hk, hsign]

theorem progress_clause {k : Clause} (hf : (clause k).act source c = .ok stack d)
    (ht : Heads t input) : (clause k).Progress stack input t := by
  obtain ⟨v, -, rfl⟩ := Outcome.map_eq_ok_iff.1 hf
  by_cases hk : t.kind = .semicolon
  · obtain ⟨rest, rfl⟩ := ht.exists_cons (by rw [hk]; simp)
    exact .inl ⟨_, _, _, .shiftSemicolon hk⟩
  · refine .inr (.inr ⟨.expected ";" t.describe, ?_⟩)
    simp [Decision.next, Decision.onStatement, hk]

end Fragment

namespace Outline

variable {source : String} {c d : Context} {stack : Stack} {input rest : List Token} {t : Token}

theorem next_of_advance {x y : Outline} {m : Decision} (h : x.Advance input m y rest)
    (hx : x.act source c = .ok stack d) (ht : Heads t input) : Decision.next stack t = m := by
  obtain ⟨_, e, -, hx⟩ := Outcome.bind_eq_ok_iff.1 hx
  cases h with
  | within h => exact Fragment.next_of_advance h hx ht
  | @program _ _ _ hk =>
    obtain ⟨v, -, rfl⟩ := Outcome.map_eq_ok_iff.1 hx
    simp [Decision.next, Decision.onToken, hk]

/-- The outline can grow, or the parse accepts between two sentences, or it rejects the
token that comes next. -/
theorem advance_or_stop {x : Outline} (hx : x.act source c = .ok stack d) (ht : Heads t input) :
    (∃ m y rest, x.Advance input m y rest) ∨
      (x.fragment = .start ∧ input = [] ∧ Decision.next stack t = .accept) ∨
      ∃ complaint, Decision.next stack t = .reject complaint := by
  obtain ⟨_, e, -, hx⟩ := Outcome.bind_eq_ok_iff.1 hx
  obtain ⟨ss, f⟩ := x
  have hprogress : (∃ k semicolon h, f = .ended k semicolon h) ∨ f.Progress stack input t := by
    cases f with
    | opening o => exact .inr (Fragment.progress_opening hx ht)
    | operand o u hu => exact .inr (Fragment.progress_operand hu hx ht)
    | closed o lparen ho inner closing hc => exact .inr (Fragment.progress_closed hc hx ht)
    | @phrase l o p =>
      cases o with
      | ofTerm before => exact .inr (.inl ⟨_, _, _, .termFactor⟩)
      | product before lhs sign op hs hop => exact .inr (.inl ⟨_, _, _, .termBinary⟩)
      | ofExpression before => exact .inr (Fragment.progress_term ht)
      | sum before lhs sign op hs hop => exact .inr (Fragment.progress_term ht)
      | start => exact .inr (Fragment.progress_expression hx ht)
      | assign target htarget sign hs => exact .inr (Fragment.progress_expression hx ht)
      | group before opening ho => exact .inr (Fragment.progress_expression hx ht)
    | clause k => exact .inr (Fragment.progress_clause hx ht)
    | ended k semicolon h => exact .inl ⟨k, semicolon, h, rfl⟩
  rcases hprogress with ⟨k, semicolon, h, rfl⟩ | ⟨m, g, rest, h⟩ | h
  · exact .inl ⟨_, _, _, .program⟩
  · exact .inl ⟨_, _, _, .within h⟩
  · exact .inr h

end Outline
end OnePass
