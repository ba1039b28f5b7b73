import OnePass.Proofs.Course

/-!
How a run fails.

A run rejects the token that it looks at, or a walk over the outline of what it has read
fails.  In either case there is a token of the source to blame, and the run has met no
stack that its reductions do not fit.  The one other failure is that of operands which
were pending before the run began.
-/

namespace OnePass

/-! ## Walks over outlines -/

/-- All that is new in `d` is code and operands that it leaves. -/
def Context.Adds (c d : Context) : Prop :=
  ∃ code operands, d = { c with body := c.body ++ code, depth := c.depth + operands }

theorem Context.Adds.refl (c : Context) : c.Adds c :=
  ⟨[], 0, by simp⟩

theorem Context.Adds.trans {c d e : Context} (h : c.Adds d) (h' : d.Adds e) : c.Adds e := by
  obtain ⟨code, operands, rfl⟩ := h
  obtain ⟨more, others, rfl⟩ := h'
  exact ⟨code ++ more, operands + others, by simp [Nat.add_assoc]⟩

theorem Phrase.adds_of_act {l : Level} (p : Phrase l) {source : String} {c d : Context} {v : Value}
    (h : p.act source c = .ok v d) : c.Adds d := by
  obtain ⟨e, -, -, -, rfl⟩ := p.walked_of_act h
  exact ⟨e.code c.slot, 1, rfl⟩

namespace Opening

variable {l : Level} {source : String} {c d : Context}

/-- The actions of an opening are those of its phrases, one after the other. -/
theorem related_of_act {R : Context → Context → Prop} (hrefl : ∀ c, R c c)
    (htrans : ∀ {c d e}, R c d → R d e → R c e)
    (hphrase : ∀ {m : Level} (p : Phrase m) {c d : Context} {v : Value},
      p.act source c = .ok v d → R c d)
    (o : Opening l) {stack : Stack} (h : o.act source c = .ok stack d) : R c d := by
  induction o generalizing stack d with
  | start =>
    obtain ⟨-, rfl⟩ := Outcome.ok.inj h
    exact hrefl c
  | assign target ht sign hs =>
    obtain ⟨-, rfl⟩ := Outcome.ok.inj h
    exact hrefl c
  | group before lparen ho ih =>
    obtain ⟨below, hbefore, -⟩ := Outcome.map_eq_ok_iff.1 h
    exact ih hbefore
  | ofExpression before ih => exact ih h
  | sum before lhs sign op hs hop ih =>
    obtain ⟨below, e, hbefore, h⟩ := Outcome.bind_eq_ok_iff.1 h
    obtain ⟨v, hlhs, -⟩ := Outcome.map_eq_ok_iff.1 h
    exact htrans (ih hbefore) (hphrase lhs hlhs)
  | ofTerm before ih => exact ih h
  | product before lhs sign op hs hop ih =>
    obtain ⟨below, e, hbefore, h⟩ := Outcome.bind_eq_ok_iff.1 h
    obtain ⟨v, hlhs, -⟩ := Outcome.map_eq_ok_iff.1 h
    exact htrans (ih hbefore) (hphrase lhs hlhs)

theorem adds_of_act (o : Opening l) {stack : Stack} (h : o.act source c = .ok stack d) :
    c.Adds d :=
  o.related_of_act Context.Adds.refl Context.Adds.trans (fun p => p.adds_of_act) h

theorem source_of_act (o : Opening l) {stack : Stack} (h : o.act source c = .ok stack d) :
    d.source = c.source := by
  obtain ⟨code, operands, rfl⟩ := o.adds_of_act h
  rfl

/-- An opening and the phrase behind it. -/
theorem blames_of_act_phrase {m : Level} (o : Opening m) (p : Phrase l) {f : Failure}
    {g : Stack → Value → Stack}
    (ih : ∀ {d : Context}, o.act source c = .failed f d →
      ∃ t ∈ o.yield, f.Blames source c.source t)
    (h : ((o.act source c).bind fun stack e => (p.act source e).map (g stack)) = .failed f d) :
    ∃ t ∈ o.yield ++ p.yield, f.Blames source c.source t := by
  rcases Outcome.bind_eq_failed_iff.1 h with h | ⟨stack, e, ho, h⟩
  · obtain ⟨t, ht, hb⟩ := ih h
    exact ⟨t, List.mem_append_left _ ht, hb⟩
  · obtain ⟨t, ht, hb⟩ := Phrase.blames_of_act p (Outcome.map_eq_failed_iff.1 h)
    rw [o.source_of_act ho] at hb
    exact ⟨t, List.mem_append_right _ ht, hb⟩

theorem blames_of_act (o : Opening l) {f : Failure} (h : o.act source c = .failed f d) :
    ∃ t ∈ o.yield, f.Blames source c.source t := by
  induction o generalizing d with
  | start => cases h
  | assign target ht sign hs => cases h
  | group before lparen ho ih =>
    obtain ⟨t, ht, hb⟩ := ih (Outcome.map_eq_failed_iff.1 h)
    exact ⟨t, List.mem_append_left _ ht, hb⟩
  | ofExpression before ih => exact ih h
  | sum before lhs sign op hs hop ih =>
    obtain ⟨t, ht, hb⟩ := blames_of_act_phrase before lhs ih h
    rw [yield, ← List.append_assoc]
    exact ⟨t, List.mem_append_left _ ht, hb⟩
  | ofTerm before ih => exact ih h
  | product before lhs sign op hs hop ih =>
    obtain ⟨t, ht, hb⟩ := blames_of_act_phrase before lhs ih h
    rw [yield, ← List.append_assoc]
    exact ⟨t, List.mem_append_left _ ht, hb⟩

end Opening

theorem Fragment.arises_of_act (g : Fragment) {source : String} {c d : Context} {f : Failure}
    (h : g.act source c = .failed f d) : f.Arises source c g.yield := by
  cases g with
  | opening o => exact .inl (o.blames_of_act h)
  | operand o t ht =>
    obtain ⟨s, hs, hb⟩ := o.blames_of_act (Outcome.map_eq_failed_iff.1 h)
    exact .inl ⟨s, List.mem_append_left _ hs, hb⟩
  | closed o lparen ho inner rparen hc =>
    obtain ⟨t, ht, hb⟩ := Opening.blames_of_act_phrase o inner o.blames_of_act h
    refine .inl ⟨t, ?_, hb⟩
    rcases List.mem_append.1 ht with ht | ht
    · exact List.mem_append_left _ ht
    · exact List.mem_append_right _ (List.mem_cons_of_mem _ (List.mem_append_left _ ht))
  | phrase o p => exact .inl (Opening.blames_of_act_phrase o p o.blames_of_act h)
  | clause k => exact Clause.arises_of_act (Outcome.map_eq_failed_iff.1 h)
  | ended k semicolon hs =>
    exact (Clause.arises_of_act (Outcome.map_eq_failed_iff.1 h)).mono rfl rfl
      (List.subset_append_left _ _)

theorem Outline.arises_of_act (x : Outline) {source : String} {c d : Context} {f : Failure}
    (h : x.act source c = .failed f d) : f.Arises source c x.yield := by
  rcases Outcome.bind_eq_failed_iff.1 h with h | ⟨⟨⟩, e, hcomplete, h⟩
  · exact (arises_of_sentencesAct h).mono rfl rfl (List.subset_append_left _ _)
  · exact (x.fragment.arises_of_act h).mono (source_of_sentencesAct hcomplete)
      (depth_of_sentencesAct hcomplete).1 (List.subset_append_right _ _)

/-! ## Runs in place -/

namespace Parse

/-- The token that a parse looks at, and all that its lexer has passed, are where they are
said to be. -/
structure InPlace (p : Parse) : Prop where
  lexer : p.lexer.InPlace
  lookahead : FoundAt p.lexer.source p.lookahead.loc p.lookahead.text.toList

theorem inPlace_start {l : Lexer} (h : l.InPlace) (c : Context) : (start l c).InPlace where
  lexer := h.next
  lookahead := by
    show FoundAt l.next.2.source _ _
    rw [Lexer.source_next]
    exact h.next_token

theorem InPlace.shifted {p : Parse} (h : p.InPlace) : p.shifted.InPlace where
  lexer := h.lexer.next
  lookahead := by
    show FoundAt p.lexer.next.2.source _ _
    rw [Lexer.source_next]
    exact h.lexer.next_token

theorem source_shifted (p : Parse) : p.shifted.lexer.source = p.lexer.source :=
  Lexer.source_next p.lexer

/-- A reduction reads nothing, whether its action succeeds or fails. -/
theorem lexer_state_reduced (p : Parse) (production : Production) :
    (p.reduced production).state.lexer = p.lexer ∧
      (p.reduced production).state.lookahead = p.lookahead := by
  unfold reduced
  split <;> exact ⟨rfl, rfl⟩

theorem lexer_of_reduced {p q : Parse} {production : Production} {u : Unit}
    (h : p.reduced production = .ok u q) : q.lexer = p.lexer ∧ q.lookahead = p.lookahead := by
  have hstate := p.lexer_state_reduced production
  rwa [h] at hstate

theorem InPlace.step {p q : Parse} (h : p.InPlace) (hstep : p.step = .next q) :
    q.InPlace ∧ q.lexer.source = p.lexer.source := by
  unfold Parse.step at hstep
  split at hstep
  · obtain rfl := Step.next.inj hstep
    exact ⟨h.shifted, p.source_shifted⟩
  · split at hstep
    · next hr =>
      obtain rfl := Step.next.inj hstep
      obtain ⟨hlexer, hlookahead⟩ := lexer_of_reduced hr
      refine ⟨⟨?_, ?_⟩, ?_⟩
      · rw [hlexer]
        exact h.lexer
      · rw [hlexer, hlookahead]
        exact h.lookahead
      · rw [hlexer]
    · cases hstep
  · cases hstep
  · cases hstep

theorem Reaches.inPlace {p q : Parse} (h : p.Reaches q) (hp : p.InPlace) :
    q.InPlace ∧ q.lexer.source = p.lexer.source := by
  induction h with
  | refl => exact ⟨hp, rfl⟩
  | head hstep _ ih =>
    obtain ⟨hq, hsource⟩ := hp.step hstep
    obtain ⟨hr, hsource'⟩ := ih hq
    exact ⟨hr, hsource'.trans hsource⟩

end Parse

theorem Lexer.InPlace.foundAt_of_mem_coming {l : Lexer} (h : l.InPlace) {t : Token}
    (ht : t ∈ l.coming) : FoundAt l.source t.loc t.text.toList :=
  h.drain.2.2 t (List.dropLast_subset _ ht)

/-- What a parse that fails complains of: a token of its source, either rejected or to blame
for the failure of a walk, or operands that were pending before. -/
theorem failure_of_parse {l : Lexer} {c d : Context} {f : Failure} {lexer : Lexer}
    (hl : l.InPlace) (h : parse l c = .failed f (lexer, d)) :
    (∃ t, FoundAt l.source t.loc t.text.toList ∧
        ((∃ complaint, f = Failure.marking l.source t.loc (CompileError.malformed · complaint)) ∨
          f.Blames l.source c.source t)) ∨
      c.depth ≠ 0 ∧ ∃ depth expected, f = .error (.unbalancedStatement depth expected) := by
  obtain ⟨q, x, hreach, hyield, -, hfails⟩ := exists_failsOn_of_parse h
  rcases hfails with ⟨complaint, -, -, hf⟩ | ⟨m, y, rest, hadvance, hact⟩
  · obtain ⟨hq, hsource⟩ := hreach.inPlace (Parse.inPlace_start hl c)
    have hfound := hq.lookahead
    rw [hsource] at hfound
    refine .inl ⟨q.lookahead, ?_, .inl ⟨complaint, hf⟩⟩
    rw [← Lexer.source_next l]
    exact hfound
  · rcases y.arises_of_act hact with ⟨t, ht, hb⟩ | hpending
    · -- the grown outline has no token that was not to come at the start
      refine .inl ⟨t, hl.foundAt_of_mem_coming ?_, .inr hb⟩
      rw [← hyield, ← Outline.yield_advance hadvance]
      exact List.mem_append_left _ ht
    · exact .inr hpending

end OnePass
