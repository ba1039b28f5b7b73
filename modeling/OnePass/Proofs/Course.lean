import OnePass.Proofs.Tracking

/-!
The course of a run.

A step of a parse that tracks an outline either makes the outline grow or ends the run.
From that follow the two halves of what a run does.  On the tokens of sentences whose walk
succeeds it does what the walk does.  And whatever it is given, it ends with an outline
of what it has read: with complete sentences when it accepts, and else with a rejected
token or a walk that fails.
-/

namespace OnePass
namespace Parse

/-! ## The tokens to come -/

/-- The tokens that are not on the stack yet. -/
def input (p : Parse) : List Token :=
  if p.lookahead.kind = .eof then [] else p.lookahead :: p.lexer.coming

theorem heads_input (p : Parse) : Heads p.lookahead p.input := by
  unfold input
  split
  · next hk => exact hk
  · next hk => exact ⟨rfl, hk⟩

theorem input_start (l : Lexer) (c : Context) : (start l c).input = l.coming :=
  (Lexer.coming_eq l).symm

theorem eq_lookahead_of_input {p : Parse} {t : Token} {rest : List Token}
    (h : p.input = t :: rest) : t = p.lookahead ∧ rest = p.lexer.coming := by
  unfold input at h
  split at h
  · cases h
  · exact ⟨(List.cons.inj h).1.symm, (List.cons.inj h).2.symm⟩

theorem input_shifted {p : Parse} {t : Token} {rest : List Token} (h : p.input = t :: rest) :
    p.shifted.input = rest := by
  rw [(eq_lookahead_of_input h).2]
  exact (Lexer.coming_eq p.lexer).symm

/-! ## One step -/

/-- The parse has read the outline `x`: its stack and its context are what the actions of
`x` leave, from `c` on. -/
structure Tracks (p : Parse) (source : String) (c : Context) (x : Outline) : Prop where
  source_eq : p.lexer.source = source
  act_eq : x.act source c = .ok p.stack p.context
  statements_eq : p.statements = x.complete.length

theorem tracks_start (l : Lexer) (c : Context) : (start l c).Tracks l.source c {} where
  source_eq := Lexer.source_next l
  act_eq := rfl
  statements_eq := rfl

variable {p : Parse} {source : String} {c : Context} {x y : Outline} {m : Decision}
  {rest : List Token}

theorem Tracks.move_eq (hp : p.Tracks source c x) (h : x.Advance p.input m y rest) :
    p.move = m :=
  Outline.next_of_advance h hp.act_eq p.heads_input

/-- A step follows the growth of the outline, if the actions of the grown outline
succeed. -/
theorem Tracks.step_next (hp : p.Tracks source c x) (h : x.Advance p.input m y rest)
    {stack : Stack} {d : Context} (hy : y.act source c = .ok stack d) :
    ∃ q, p.step = .next q ∧ q.Tracks source c y ∧ q.input = rest := by
  have hmove := hp.move_eq h
  have hcount := Outline.length_complete_advance h
  rcases h.shift_or_reduce with ⟨t, hinput, rfl⟩ | ⟨hinput, production, rfl⟩
  · have ht := (eq_lookahead_of_input hinput).1
    rw [hinput] at h
    rw [Outline.act_shift h, hp.act_eq, ht] at hy
    obtain ⟨rfl, rfl⟩ := Outcome.ok.inj hy
    refine ⟨p.shifted, by rw [step, hmove], ⟨?_, ?_, ?_⟩, input_shifted hinput⟩
    · rw [← hp.source_eq]
      exact Lexer.source_next p.lexer
    · rw [Outline.act_shift h, hp.act_eq, ht]
      rfl
    · rw [hcount, if_neg (by simp)]
      exact hp.statements_eq
  · have hact := Outline.act_reduce h source c
    rw [hp.act_eq, hy, Outcome.bind_ok] at hact
    have hstep : p.step = .next { p with
        context := d
        stack
        statements := if production = .program then p.statements + 1 else p.statements } := by
      simp only [step, hmove, reduced, hp.source_eq, ← hact]
    refine ⟨_, hstep, ⟨hp.source_eq, hy, ?_⟩, hinput.symm⟩
    rw [hcount, ← hp.statements_eq]
    by_cases hprogram : production = .program <;> simp [hprogram]

theorem Tracks.step_failed (hp : p.Tracks source c x) (h : x.Advance p.input m y rest)
    {f : Failure} {d : Context} (hy : y.act source c = .failed f d) :
    p.step = .failed f { p with context := d } := by
  have hmove := hp.move_eq h
  rcases h.shift_or_reduce with ⟨t, hinput, rfl⟩ | ⟨hinput, production, rfl⟩
  · rw [hinput] at h
    rw [Outline.act_shift h, hp.act_eq] at hy
    cases hy
  · have hact := Outline.act_reduce h source c
    rw [hp.act_eq, hy, Outcome.bind_ok] at hact
    simp only [step, hmove, reduced, hp.source_eq, ← hact]

/-- How a run ends early on an outline: the next token is rejected, or the actions of the
grown outline fail. -/
def FailsOn (p : Parse) (source : String) (c : Context) (x : Outline) (f : Failure)
    (d : Context) : Prop :=
  (∃ complaint, p.move = .reject complaint ∧ d = p.context ∧
      f = Failure.marking source p.lookahead.loc (CompileError.malformed · complaint)) ∨
    ∃ m y rest, x.Advance p.input m y rest ∧ y.act source c = .failed f d

/-- What one step of a parse that tracks an outline can do. -/
theorem Tracks.step_cases (hp : p.Tracks source c x) :
    (∃ q m y, p.step = .next q ∧ x.Advance p.input m y q.input ∧ q.Tracks source c y) ∨
      (p.step = .accept ∧ x.fragment = .start ∧ p.input = []) ∨
      ∃ f d, p.step = .failed f { p with context := d } ∧ p.FailsOn source c x f d := by
  rcases Outline.advance_or_stop hp.act_eq p.heads_input with
    ⟨m, y, rest, h⟩ | ⟨hx, hinput, hmove⟩ | ⟨complaint, hmove⟩
  · cases hy : y.act source c with
    | ok stack d =>
      obtain ⟨q, hstep, hq, rfl⟩ := hp.step_next h hy
      exact .inl ⟨q, m, y, hstep, h, hq⟩
    | failed f d => exact .inr (.inr ⟨f, d, hp.step_failed h hy, .inr ⟨m, y, rest, h, hy⟩⟩)
  · have hmove : p.move = .accept := hmove
    exact .inr (.inl ⟨by rw [step, hmove], hx, hinput⟩)
  · have hmove : p.move = .reject complaint := hmove
    refine .inr (.inr ⟨_, p.context, ?_, .inl ⟨complaint, hmove, rfl, rfl⟩⟩)
    rw [step, hmove, hp.source_eq]

theorem Tracks.of_step {q : Parse} (hp : p.Tracks source c x) (h : p.step = .next q) :
    ∃ y, x.Advance p.input p.move y q.input ∧ q.Tracks source c y := by
  rcases hp.step_cases with ⟨r, m, y, hstep, hadvance, hr⟩ | ⟨hstep, -⟩ | ⟨f, d, hstep, -⟩
  · rw [h] at hstep
    obtain rfl := Step.next.inj hstep
    rw [hp.move_eq hadvance]
    exact ⟨y, hadvance, hr⟩
  · rw [h] at hstep
    cases hstep
  · rw [h] at hstep
    cases hstep

/-! ## A run -/

inductive Reaches : Parse → Parse → Prop
  | refl (p : Parse) : Reaches p p
  | head {p q r : Parse} (h : p.step = .next q) (hr : Reaches q r) : Reaches p r

theorem Reaches.run_eq {p q : Parse} (h : p.Reaches q) : p.run = q.run := by
  induction h with
  | refl => rfl
  | head h _ ih => rw [run_of_next h, ih]

theorem Reaches.concat {p q r : Parse} (h : p.Reaches q) (hstep : q.step = .next r) :
    p.Reaches r := by
  induction h with
  | refl => exact .head hstep (.refl r)
  | head h _ ih => exact .head h (ih hstep)

/-- A run follows every way of outlines whose actions succeed. -/
theorem Tracks.reaches (hp : p.Tracks source c x) (h : x.Advances p.input y rest)
    {stack : Stack} {d : Context} (hy : y.act source c = .ok stack d) :
    ∃ q, p.Reaches q ∧ q.Tracks source c y ∧ q.input = rest := by
  generalize hinput : p.input = input at h
  induction h generalizing p with
  | refl x input => exact ⟨p, .refl p, hp, hinput⟩
  | head h ht ih =>
    subst hinput
    obtain ⟨stack', d', hnext⟩ := Outline.act_ok_of_advances ht hy
    obtain ⟨q, hstep, hq, hqinput⟩ := hp.step_next h hnext
    obtain ⟨r, hr, htracks, hrinput⟩ := ih hq hy hqinput
    exact ⟨r, .head hstep hr, htracks, hrinput⟩

/-- Whatever a run reaches, it tracks an outline there. -/
theorem Tracks.of_reaches {q : Parse} (hp : p.Tracks source c x) (h : p.Reaches q) :
    ∃ y, x.Advances p.input y q.input ∧ q.Tracks source c y := by
  induction h generalizing x with
  | refl p => exact ⟨x, .refl x _, hp⟩
  | @head p q r hstep _ ih =>
    obtain ⟨y, h, hq⟩ := hp.of_step hstep
    obtain ⟨z, hz, hr⟩ := ih hq
    exact ⟨z, .head h hz, hr⟩

/-- Whatever a parse is given, its run accepts behind complete sentences, or it fails on an
outline of what it has read. -/
theorem Tracks.run_cases (hp : p.Tracks source c x) :
    (∃ q y, p.run = .ok () q ∧ x.Advances p.input y [] ∧ y.fragment = .start ∧
        q.Tracks source c y) ∨
      ∃ q y f d, p.run = .failed f { q with context := d } ∧ p.Reaches q ∧
        x.Advances p.input y q.input ∧ q.Tracks source c y ∧ q.FailsOn source c y f d := by
  -- on the bound of the moves to come, since each step changes the parse and the outline
  induction hn : p.fuel using Nat.strongRecOn generalizing p x with
  | _ n ih =>
    subst hn
    rcases hp.step_cases with ⟨q, m, y, hstep, h, hq⟩ | ⟨hstep, hx, hinput⟩ | ⟨f, d, hstep, hf⟩
    · rcases ih q.fuel (fuel_lt_of_step hstep) hq rfl with
        ⟨r, z, hrun, hz, hstart, hr⟩ | ⟨r, z, f, d, hrun, hreach, hz, hr, hf⟩
      · exact .inl ⟨r, z, by rw [run_of_next hstep, hrun], .head h hz, hstart, hr⟩
      · exact .inr ⟨r, z, f, d, by rw [run_of_next hstep, hrun], .head hstep hreach,
          .head h hz, hr, hf⟩
    · refine .inl ⟨p, x, run_of_accept hstep, ?_, hx, hp⟩
      rw [hinput]
      exact .refl x []
    · exact .inr ⟨p, x, f, d, run_of_failed hstep, .refl p, .refl x _, hp, hf⟩

/-- What the run over a source has read at some point, with the way of outlines that led
there. -/
theorem exists_tracks {p : Parse} {source : String} {c : Context}
    (h : (start (Lexer.new source) c).Reaches p) :
    ∃ x, p.Tracks source c x ∧ x.yield ++ p.input = sourceTokens source ∧
      Outline.Advances {} (x.yield ++ p.input) x p.input := by
  obtain ⟨x, hx, hp⟩ := (tracks_start (Lexer.new source) c).of_reaches h
  have hyield := Outline.yield_advances hx
  have hinput : (start (Lexer.new source) c).input = sourceTokens source := input_start _ c
  rw [hinput] at hx hyield
  refine ⟨x, hp, hyield, ?_⟩
  rwa [hyield]

end Parse

/-! ## Parses and compilations -/

theorem Outline.act_start (source : String) (ss : List Sentence) (c : Context) :
    (⟨ss, .start⟩ : Outline).act source c = (sentencesAct source ss c).map fun _ => [] := by
  rw [Outline.act]
  cases sentencesAct source ss c <;> rfl

section

variable {l : Lexer} {c : Context} {ss : List Sentence}

/-- Where the tokens to come begin with those of sentences whose walk succeeds, the run comes to
the end of the sentences, with nothing on its stack and in the context of the walk. -/
theorem Parse.exists_reaches_of_sentencesAct {rest : List Token}
    (hy : l.coming = sentencesYield ss ++ rest) {d : Context}
    (h : sentencesAct l.source ss c = .ok () d) :
    ∃ q, (Parse.start l c).Reaches q ∧ q.Tracks l.source c ⟨ss, .start⟩ ∧ q.stack = [] ∧
      q.context = d ∧ q.input = rest := by
  have hway := sentences_advances ss [] rest
  rw [List.nil_append, ← hy, ← Parse.input_start l c] at hway
  have hact : (⟨ss, .start⟩ : Outline).act l.source c = .ok [] d := by
    rw [Outline.act_start, h]
    rfl
  obtain ⟨q, hreach, hq, hinput⟩ := (Parse.tracks_start l c).reaches hway hact
  obtain ⟨hstack, hcontext⟩ := Outcome.ok.inj (hact.symm.trans hq.act_eq)
  exact ⟨q, hreach, hq, hstack.symm, hcontext.symm, hinput⟩

/-- Sentences whose walk succeeds are parsed, and leave the context of the walk. -/
theorem parse_of_sentencesAct_ok (hy : sentencesYield ss = l.coming) {d : Context}
    (h : sentencesAct l.source ss c = .ok () d) :
    ∃ lexer, parse l c = .ok ss.length (lexer, d) := by
  obtain ⟨q, hreach, hq, hstack, rfl, hinput⟩ :=
    Parse.exists_reaches_of_sentencesAct (by rw [hy, List.append_nil]) h
  have hend := q.heads_input
  rw [hinput] at hend
  have hend : q.lookahead.kind = .eof := hend
  have hmove : q.move = .accept := by
    simp [Parse.move, hstack, Decision.next, Decision.onEmpty, hend]
  have hrun : (Parse.start l c).run = .ok () q := by
    rw [hreach.run_eq, Parse.run_of_accept (by rw [Parse.step, hmove])]
  refine ⟨q.lexer, ?_⟩
  rw [parse, hrun, ← hq.statements_eq]

/-- A parse that succeeds has read sentences, and has done what the walk over them does. -/
theorem exists_sentences_of_parse {n : Nat} {lexer : Lexer} {d : Context}
    (h : parse l c = .ok n (lexer, d)) :
    ∃ ss, sentencesYield ss = l.coming ∧ sentencesAct l.source ss c = .ok () d ∧
      n = ss.length := by
  rcases (Parse.tracks_start l c).run_cases with
    ⟨q, y, hrun, hway, hstart, hq⟩ | ⟨q, y, f, e, hrun, -, -, -, -⟩
  · rw [parse, hrun] at h
    obtain ⟨rfl, hd⟩ := Outcome.ok.inj h
    obtain ⟨rfl, rfl⟩ := Prod.mk.inj hd
    obtain ⟨ss, fragment⟩ := y
    obtain rfl : fragment = .start := hstart
    have hyield := Outline.yield_advances hway
    have hact := hq.act_eq
    rw [Outline.act_start] at hact
    obtain ⟨_, hact, -⟩ := Outcome.map_eq_ok_iff.1 hact
    refine ⟨ss, ?_, hact, hq.statements_eq⟩
    rw [Parse.input_start] at hyield
    simpa [Outline.yield, sentencesYield] using hyield
  · rw [parse, hrun] at h
    cases h

theorem exists_failsOn_of_parse {f : Failure} {lexer : Lexer} {d : Context}
    (h : parse l c = .failed f (lexer, d)) :
    ∃ q y, (Parse.start l c).Reaches q ∧ y.yield ++ q.input = l.coming ∧
      q.Tracks l.source c y ∧ q.FailsOn l.source c y f d := by
  rcases (Parse.tracks_start l c).run_cases with
    ⟨q, y, hrun, -, -, -⟩ | ⟨q, y, f', e, hrun, hreach, hway, hq, hfails⟩
  · rw [parse, hrun] at h
    cases h
  · rw [parse, hrun] at h
    obtain ⟨rfl, hd⟩ := Outcome.failed.inj h
    obtain ⟨-, rfl⟩ := Prod.mk.inj hd
    have hyield := Outline.yield_advances hway
    rw [Parse.input_start] at hyield
    exact ⟨q, y, hreach, hyield, hq, hfails⟩

end

section

variable {source : String} {options : Options} {ss : List Sentence}

/-- A compilation yields what the walk over the sentences of its source leaves. -/
theorem compile_of_sentencesAct_ok (options : Options)
    (hy : sentencesYield ss = sourceTokens source) {d : Context}
    (h : sentencesAct source ss (Context.new source) = .ok () d) :
    ∃ skipped, compile source options = .ok
      { assembly := { entry := options.entry, slots := d.slots, body := d.body }
        symbols := d.symbols
        skipped
        statements := ss.length } := by
  obtain ⟨lexer, hparse⟩ := parse_of_sentencesAct_ok (l := Lexer.new source) hy h
  have hdepth : d.depth = 0 := (depth_of_sentencesAct h).1
  refine ⟨lexer.skipped, ?_⟩
  rw [compile, hparse]
  simp [Context.finish, hdepth]

/-- A source that compiles is one of sentences whose walk succeeds. -/
theorem exists_sentences_of_compile {result : Compilation}
    (h : compile source options = .ok result) :
    ∃ ss d, sentencesYield ss = sourceTokens source ∧
      sentencesAct source ss (Context.new source) = .ok () d := by
  unfold compile at h
  cases hparse : parse (Lexer.new source) (Context.new source) with
  | failed f s => simp [hparse] at h
  | ok n s =>
    obtain ⟨lexer, d⟩ := s
    obtain ⟨ss, hy, hact, -⟩ := exists_sentences_of_parse hparse
    exact ⟨ss, d, hy, hact⟩

end
end OnePass
