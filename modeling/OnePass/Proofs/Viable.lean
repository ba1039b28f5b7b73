import OnePass.Proofs.Course
import OnePass.Proofs.Likeness

/-!
Viable tokens.

Tokens are viable as long as some text of sentences starts with them.  What a run has
read is viable at every point, because each outline can be completed, and a token that
is rejected makes it unviable, because a sentence that went on with the token would have
led the outline through it.
-/

namespace OnePass

/-! ## Kinds -/

/-- Whether tokens are those of sentences is a matter of their kinds. -/
theorem Derivable.of_kinds {ts us : List Token} (h : Derivable us)
    (hk : ts.map Token.kind = us.map Token.kind) : Derivable ts := by
  obtain ⟨ss, rfl⟩ := h
  have hrow : List.Forall₂ (fun u v : Token => u.kind = v.kind) (sentencesYield ss) ts := by
    have hkinds : List.Forall₂ Eq ((sentencesYield ss).map Token.kind) (ts.map Token.kind) := by
      rw [hk]
      exact List.forall₂_refl _
    exact List.forall₂_map_right_iff.1 (List.forall₂_map_left_iff.1 hkinds)
  obtain ⟨rs, hrs, -⟩ := exists_sentences_like (N := fun _ _ => True) Eq.symm
    (fun _ _ => trivial) ss hrow
  exact ⟨rs, hrs⟩

theorem Phrase.kind_ne_eof {l : Level} (p : Phrase l) : ∀ t ∈ p.yield, t.kind ≠ .eof := by
  induction p with
  | number t ht => simp [yield, ht]
  | name t ht => simp [yield, ht]
  | group left hl inner right hr ih => simpa [yield, hl, hr, or_imp, forall_and] using ih
  | ofFactor f ih => exact ih
  | product lhs sign op hs _ rhs ihl ihr =>
    simpa [yield, hs, or_imp, forall_and] using And.intro ihl ihr
  | ofTerm t ih => exact ih
  | sum lhs sign op hs _ rhs ihl ihr =>
    simpa [yield, hs, or_imp, forall_and] using And.intro ihl ihr

theorem Derivable.kind_ne_eof {ts : List Token} (h : Derivable ts) : ∀ t ∈ ts, t.kind ≠ .eof := by
  obtain ⟨ss, rfl⟩ := h
  intro t ht
  obtain ⟨s, -, ht⟩ := List.mem_flatMap.1 ht
  cases s with
  | assign target hn sign hs e semicolon hk =>
    have he := e.kind_ne_eof
    simp only [Sentence.yield, List.mem_cons, List.mem_append, List.not_mem_nil, or_false] at ht
    rcases ht with rfl | rfl | ht | rfl
    · simp [hn]
    · simp [hs]
    · exact he t ht
    · simp [hk]
  | expression e semicolon hk =>
    have he := e.kind_ne_eof
    simp only [Sentence.yield, List.mem_append, List.mem_singleton] at ht
    rcases ht with ht | rfl
    · exact he t ht
    · simp [hk]
  | empty semicolon hk =>
    obtain rfl := List.mem_singleton.1 ht
    simp [hk]

/-! ## Viable tokens -/

/-- Some text of sentences, with the end of the source behind it, starts with tokens of
these kinds. -/
def Viable (kinds : List TokenKind) : Prop :=
  ∃ tokens, Derivable tokens ∧ kinds <+: tokens.map Token.kind ++ [.eof]

theorem Viable.mono {few many : List TokenKind} (h : Viable many) (hle : few <+: many) :
    Viable few := by
  obtain ⟨tokens, hd, hp⟩ := h
  exact ⟨tokens, hd, hle.trans hp⟩

theorem viable_of_derivable {ts more : List Token} (h : Derivable (ts ++ more)) :
    Viable (ts.map Token.kind) := by
  refine ⟨ts ++ more, h, ?_⟩
  rw [List.map_append, List.append_assoc]
  exact List.prefix_append _ _

/-- Where a token can come next, there are sentences that go on with that very token, or
that end where the source does. -/
theorem Viable.exists_input {ts : List Token} {t : Token}
    (h : Viable ((ts ++ [t]).map Token.kind)) :
    ∃ input, Heads t input ∧ Derivable (ts ++ input) := by
  obtain ⟨tokens, hd, hp⟩ := h
  rcases List.prefix_concat_iff.1 hp with heq | ⟨more, heq⟩
  · rw [List.map_append, List.map_singleton] at heq
    obtain ⟨hts, ht⟩ := List.append_inj' heq rfl
    refine ⟨[], List.head_eq_of_cons_eq ht, ?_⟩
    rw [List.append_nil]
    exact hd.of_kinds hts
  · obtain ⟨as, bs, rfl, ha, hb⟩ := List.map_eq_append_iff.1 heq.symm
    have hd' : Derivable ((ts ++ [t]) ++ bs) := by
      refine hd.of_kinds ?_
      rw [List.map_append, ← ha, ← List.map_append]
    have ht := hd'.kind_ne_eof t (by simp)
    refine ⟨t :: bs, ⟨rfl, ht⟩, ?_⟩
    rwa [List.append_assoc, List.singleton_append] at hd'

/-! ## What has been read is viable -/

namespace Opening

/-- A phrase behind an opening can be completed to a clause. -/
theorem exists_clause {l : Level} (o : Opening l) (p : Phrase l) :
    ∃ (k : Clause) (more : List Token), k.yield = o.yield ++ p.yield ++ more := by
  induction o with
  | start => exact ⟨.expression p, [], by simp [Clause.yield, yield]⟩
  | assign target ht sign hs =>
    exact ⟨.assign target ht sign hs p, [], by simp [Clause.yield, yield]⟩
  | group before left hl ih =>
    obtain ⟨k, more, hk⟩ := ih (.group left hl p ⟨.rparen, ")", 0⟩ rfl)
    exact ⟨k, ⟨.rparen, ")", 0⟩ :: more, by simp [hk, yield, Phrase.yield]⟩
  | ofExpression before ih => exact ih (.ofTerm p)
  | sum before lhs sign op hs hop ih =>
    obtain ⟨k, more, hk⟩ := ih (.sum lhs sign op hs hop p)
    exact ⟨k, more, by simp [hk, yield, Phrase.yield]⟩
  | ofTerm before ih => exact ih (.ofFactor p)
  | product before lhs sign op hs hop ih =>
    obtain ⟨k, more, hk⟩ := ih (.product lhs sign op hs hop p)
    exact ⟨k, more, by simp [hk, yield, Phrase.yield]⟩

end Opening

theorem Fragment.exists_clause (f : Fragment) :
    (∃ k semicolon h, f = .ended k semicolon h) ∨
      ∃ (k : Clause) (more : List Token), k.yield = f.yield ++ more := by
  cases f with
  | opening o =>
    obtain ⟨k, more, hk⟩ := o.exists_clause (.number ⟨.number, "0", 0⟩ rfl)
    exact .inr ⟨k, _, by rw [hk, List.append_assoc]; rfl⟩
  | operand o t h =>
    rcases h with ht | ht
    · exact .inr (o.exists_clause (.number t ht))
    · exact .inr (o.exists_clause (.name t ht))
  | closed o left hl inner right hr => exact .inr (o.exists_clause (.group left hl inner right hr))
  | phrase o p => exact .inr (o.exists_clause p)
  | clause k => exact .inr ⟨k, [], (List.append_nil _).symm⟩
  | ended k semicolon h => exact .inl ⟨k, semicolon, h, rfl⟩

/-- Every outline can be completed to sentences. -/
theorem Outline.exists_derivable (x : Outline) : ∃ more, Derivable (x.yield ++ more) := by
  obtain ⟨ss, f⟩ := x
  rcases f.exists_clause with ⟨k, semicolon, h, rfl⟩ | ⟨k, more, hk⟩
  · refine ⟨[], ss ++ [k.sentence semicolon h], ?_⟩
    simp [sentencesYield, Outline.yield, Fragment.yield]
  · refine ⟨more ++ [⟨.semicolon, ";", 0⟩], ss ++ [k.sentence ⟨.semicolon, ";", 0⟩ rfl], ?_⟩
    simp [sentencesYield, Outline.yield, hk]

theorem Outline.viable (x : Outline) : Viable (x.yield.map Token.kind) := by
  obtain ⟨more, h⟩ := x.exists_derivable
  exact viable_of_derivable h

/-! ## A token that is rejected is not viable -/

/-- The tokens to come behind a move. -/
def Decision.leaves : Decision → List Token → List Token
  | shift, input => input.tail
  | _, input => input

/- The growth of an outline looks at the next token only.  So the tokens behind that one
can be exchanged. -/

theorem Fragment.Advance.exchange {f g : Fragment} {t : Token} {more rest : List Token}
    {m : Decision} (h : f.Advance (t :: more) m g rest) (other : List Token) :
    f.Advance (t :: other) m g (m.leaves (t :: other)) := by
  cases h with
  | shiftOperand h => exact .shiftOperand h
  | shiftOpening h => exact .shiftOpening h
  | shiftBecomes ht hs => exact .shiftBecomes ht hs
  | shiftClosing hc => exact .shiftClosing hc
  | shiftTight h hop => exact .shiftTight h hop
  | shiftLoose h hop => exact .shiftLoose h hop
  | shiftSemicolon h => exact .shiftSemicolon h
  | factorNumber ht hn => exact .factorNumber ht hn
  | factorName ht hn => exact .factorName ht hn
  | factorGroup hn => exact .factorGroup hn
  | termFactor => exact .termFactor
  | termBinary => exact .termBinary
  | exprTerm hn => exact .exprTerm hn
  | exprBinary hn => exact .exprBinary hn
  | stmtExpr h => exact .stmtExpr h
  | stmtAssign h => exact .stmtAssign h
  | stmtEmpty h => exact .stmtEmpty h

namespace Outline

theorem Advance.rest_eq {x y : Outline} {input rest : List Token} {m : Decision}
    (h : x.Advance input m y rest) : rest = m.leaves input := by
  rcases h.shift_or_reduce with ⟨t, rfl, rfl⟩ | ⟨rfl, production, rfl⟩ <;> rfl

theorem Advance.exchange {x y : Outline} {input rest other : List Token} {m : Decision}
    (h : x.Advance input m y rest) (hhead : input.head? = other.head?) :
    x.Advance other m y (m.leaves other) := by
  cases input with
  | nil =>
    obtain rfl : other = [] := List.head?_eq_none_iff.1 hhead.symm
    rwa [← h.rest_eq]
  | cons t more =>
    cases other with
    | nil => cases hhead
    | cons s other =>
      obtain rfl : t = s := Option.some.inj hhead
      cases h with
      | within h => exact .within (h.exchange other)
      | program => exact .program

/-- A way to an outline leaves some of the tokens that it starts with. -/
theorem Advances.suffix {x y : Outline} {input last : List Token}
    (h : x.Advances input y last) : last <:+ input := by
  induction h with
  | refl => exact List.suffix_refl _
  | head h _ ih =>
    rcases h.shift_or_reduce with ⟨t, rfl, -⟩ | ⟨rfl, -⟩
    · exact ih.trans (List.suffix_cons t _)
    · exact ih

/-- The tokens that a way leaves can be exchanged for others that start alike. -/
theorem Advances.exchange {x y : Outline} {read last other : List Token}
    (h : x.Advances (read ++ last) y last) (hhead : last.head? = other.head?) :
    x.Advances (read ++ other) y other := by
  generalize hinput : read ++ last = input at h
  induction h generalizing read with
  | refl x input =>
    obtain rfl : read = [] := List.append_left_eq_self.1 hinput
    exact .refl x other
  | @head x y z input rest last m h ht ih =>
    subst hinput
    have hheads : (read ++ last).head? = (read ++ other).head? := by
      simp only [List.head?_append, hhead]
    have hstep := h.exchange hheads
    obtain ⟨read', hrest⟩ := ht.suffix
    have hlater := ih hhead hrest
    rcases h.shift_or_reduce with ⟨t, hshift, rfl⟩ | ⟨hsame, production, rfl⟩
    · -- the shift takes the first token of `read`, since `last` is still left behind it
      rw [← hrest, ← List.cons_append] at hshift
      obtain rfl := List.append_cancel_right hshift
      exact .head hstep hlater
    · obtain rfl := List.append_cancel_right (hrest.trans hsame)
      exact .head hstep hlater

/-- From an outline on the way to sentences the way goes on to them. -/
theorem Advances.toward {x y : Outline} {ss : List Sentence} {input last : List Token}
    (h : x.Advances input y last) (hss : x.Advances input ⟨ss, .start⟩ []) :
    y.Advances last ⟨ss, .start⟩ [] := by
  induction h with
  | refl => exact hss
  | head h _ ih =>
    cases hss with
    | refl => exact absurd h not_advance_start
    | head h' hss' =>
      obtain ⟨rfl, rfl⟩ := h.unique h'
      exact ih hss'

end Outline

namespace Parse

variable {p q : Parse} {source : String} {c : Context} {x : Outline}

theorem head?_input_of_heads {t : Token} {input : List Token} (h : Heads t input) :
    input.head? = if t.kind = .eof then none else some t := by
  cases input with
  | nil =>
    have hk : t.kind = .eof := h
    rw [if_pos hk, List.head?_nil]
  | cons first rest =>
    obtain ⟨rfl, hk⟩ := h
    rw [if_neg hk, List.head?_cons]

/-- No sentence goes on with a token that is rejected. -/
theorem Tracks.not_viable (hp : p.Tracks source c x)
    (hx : Outline.Advances {} (x.yield ++ p.input) x p.input) {complaint : Complaint}
    (hmove : p.move = .reject complaint) :
    ¬ Viable ((x.yield ++ [p.lookahead]).map Token.kind) := by
  intro hviable
  obtain ⟨input, hheads, ss, hss⟩ := hviable.exists_input
  have hhead : p.input.head? = input.head? := by
    rw [head?_input_of_heads p.heads_input, head?_input_of_heads hheads]
  -- the sentences lead through the outline, so it could grow
  have hway := sentences_advances ss [] []
  rw [List.append_nil, List.nil_append, hss] at hway
  have hrest := (hx.exchange hhead).toward hway
  generalize hlast : ([] : List Token) = last at hrest
  cases hrest with
  | refl =>
    have hstack := hp.act_eq
    rw [Outline.act_start] at hstack
    obtain ⟨_, -, hnil⟩ := Outcome.map_eq_ok_iff.1 hstack
    subst hlast
    have hk : p.lookahead.kind = .eof := hheads
    rw [move, ← hnil, Decision.next, Decision.onEmpty, hk] at hmove
    cases hmove
  | head h _ =>
    have hnext := Outline.next_of_advance h hp.act_eq hheads
    rw [show Decision.next p.stack p.lookahead = p.move from rfl, hmove] at hnext
    rcases h.shift_or_reduce with ⟨_, -, rfl⟩ | ⟨-, _, rfl⟩
    · cases hnext
    · cases hnext

end Parse

end OnePass
