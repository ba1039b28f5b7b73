import OnePass.CommandLine
import OnePass.Proofs.ByteLexing
import OnePass.Proofs.Failing

/-!
Failures that no source leads to.

A compiler reports a fault of its own where its stack or its count of operands is not what
it should be, and breaks off where it is asked to cut a text inside a character.  Neither
comes about.  Every failure of a run is blamed on a token that is found in the source, save
that of operands pending before the run, which no compilation starts with.
-/

namespace OnePass

/-! ## Blamed failures -/

namespace Failure

theorem isInternal_of_marking {source : String} {loc : Nat} {report : Marker → CompileError}
    {e : CompileError} (hreport : ∀ m, (report m).isInternal = false)
    (h : marking source loc report = .error e) : e.isInternal = false := by
  unfold marking at h
  split at h
  · next m _ =>
    obtain rfl := Failure.error.inj h
    exact hreport m
  · cases h

theorem marking_ne_offBoundary {source : String} {loc : Nat} {word : List Char}
    (h : FoundAt source loc word) (report : Marker → CompileError) :
    marking source loc report ≠ .offBoundary := by
  obtain ⟨front, back, -, hm⟩ := h.place?
  rw [marking, hm]
  exact Failure.noConfusion

theorem Blames.isInternal {source quoted : String} {t : Token} {f : Failure} {e : CompileError}
    (h : f.Blames source quoted t) (hf : f = .error e) : e.isInternal = false := by
  cases h with
  | literal _ _ => exact isInternal_of_marking (fun _ => rfl) hf
  | undefined _ => exact isInternal_of_marking (fun _ => rfl) hf
  | division _ => exact isInternal_of_marking (fun _ => rfl) hf

theorem Blames.ne_offBoundary {source : String} {t : Token} {f : Failure}
    (h : f.Blames source source t) (ht : FoundAt source t.loc t.text.toList) :
    f ≠ .offBoundary := by
  cases h with
  | literal _ _ => exact marking_ne_offBoundary ht _
  | undefined _ => exact marking_ne_offBoundary ht _
  | division _ => exact marking_ne_offBoundary ht _

end Failure

/-! ## Parses -/

section

variable {l : Lexer} {c : Context} {s : Lexer × Context}

/-- The one internal error of a parse tells of operands that were pending before it. -/
theorem unbalanced_of_parse (hl : l.InPlace) {e : CompileError}
    (h : parse l c = .failed (.error e) s) (he : e.isInternal = true) :
    c.depth ≠ 0 ∧ ∃ depth expected, e = .unbalancedStatement depth expected := by
  obtain ⟨lexer, d⟩ := s
  rcases failure_of_parse hl h with ⟨t, -, ⟨complaint, hf⟩ | hb⟩ | ⟨hdepth, depth, expected, hf⟩
  · rw [Failure.isInternal_of_marking (fun _ => rfl) hf.symm] at he
    cases he
  · rw [hb.isInternal rfl] at he
    cases he
  · exact ⟨hdepth, depth, expected, Failure.error.inj hf⟩

theorem isInternal_of_parse (hl : l.InPlace) (hc : c.depth = 0) {e : CompileError}
    (h : parse l c = .failed (.error e) s) : e.isInternal = false := by
  cases he : e.isInternal with
  | false => rfl
  | true => exact absurd hc (unbalanced_of_parse hl h he).1

theorem parse_ne_offBoundary (hl : l.InPlace) (hc : c.source = l.source) :
    parse l c ≠ .failed .offBoundary s := by
  intro h
  obtain ⟨lexer, d⟩ := s
  rcases failure_of_parse hl h with ⟨t, ht, ⟨complaint, hf⟩ | hb⟩ | ⟨-, depth, expected, hf⟩
  · exact Failure.marking_ne_offBoundary ht _ hf.symm
  · rw [hc] at hb
    exact hb.ne_offBoundary ht rfl
  · cases hf

theorem depth_of_parse {n : Nat} {lexer : Lexer} {d : Context}
    (h : parse l c = .ok n (lexer, d)) : d.depth = c.depth ∧ (n ≠ 0 → c.depth = 0) := by
  obtain ⟨ss, -, hact, rfl⟩ := exists_sentences_of_parse h
  obtain ⟨hdepth, hzero⟩ := depth_of_sentencesAct hact
  refine ⟨hdepth, fun hn => hzero ?_⟩
  rintro rfl
  exact hn rfl

end

/-! ## Compilations -/

/-- A compilation fails only with its parse: what the parse leaves can always be finished. -/
theorem parse_of_compile {source : String} {options : Options} {f : Failure}
    (h : compile source options = .error f) :
    ∃ s, parse (Lexer.new source) (Context.new source) = .failed f s := by
  unfold compile at h
  cases hparse : parse (Lexer.new source) (Context.new source) with
  | failed f' s =>
    rw [hparse] at h
    obtain rfl := Except.error.inj h
    exact ⟨s, rfl⟩
  | ok n s =>
    obtain ⟨lexer, d⟩ := s
    have hdepth : d.depth = 0 := (depth_of_parse hparse).1
    simp [hparse, Context.finish, hdepth] at h

theorem isInternal_of_compile {source : String} {options : Options} {e : CompileError}
    (h : compile source options = .error (.error e)) : e.isInternal = false := by
  obtain ⟨s, hs⟩ := parse_of_compile h
  exact isInternal_of_parse (Lexer.inPlace_new source) rfl hs

theorem compile_ne_offBoundary (source : String) (options : Options) :
    compile source options ≠ .error .offBoundary := by
  intro h
  obtain ⟨s, hs⟩ := parse_of_compile h
  exact parse_ne_offBoundary (Lexer.inPlace_new source) rfl hs

theorem code_compileSource (source : String) :
    (CommandLine.compileSource source).code = 0 ∨ (CommandLine.compileSource source).code = 1 := by
  unfold CommandLine.compileSource
  cases h : compile source {} with
  | ok c => exact .inl rfl
  | error f =>
    cases f with
    | offBoundary => exact absurd h (compile_ne_offBoundary source {})
    | error e =>
      simp only [isInternal_of_compile h]
      exact .inr rfl

theorem code_run (arguments : List String) (input : ByteArray) (program : String) :
    (CommandLine.run arguments input program).code = 0 ∨
      (CommandLine.run arguments input program).code = 1 := by
  unfold CommandLine.run
  match arguments with
  | [] =>
    cases CommandLine.firstLine? input with
    | some line => exact code_compileSource _
    | none => exact .inr rfl
  | [source] => exact code_compileSource source
  | _ :: _ :: _ => exact .inr rfl

/-! ## Cuts -/

/-- The cuts that are made at a point of a run: the text and the description of the token
that is looked at, its marker, the text from a skipped character on with its marker, and all
those on the way to the next token, for which the source is read byte by byte. -/
structure Parse.Cuts (p : Parse) : Prop where
  text : Text.slice? p.lexer.source p.lookahead.loc p.lookahead.len = some p.lookahead.text
  description : Token.describeAt? p.lexer.source p.lookahead.kind p.lookahead.loc p.lookahead.len =
    some p.lookahead.describe
  marker : (Marker.place? p.lexer.source p.lookahead.loc).isSome = true
  rest : Text.isBoundary p.lexer.source.toList p.lexer.pos = true
  skipped : ∀ s ∈ p.lexer.skipped, Text.isBoundary p.lexer.source.toList s.loc = true ∧
    (Marker.place? p.lexer.source s.loc).isSome = true
  next : p.lexer.bytewise.next?.isSome = true

theorem Parse.InPlace.cuts {p : Parse} (h : p.InPlace) : p.Cuts where
  text := h.lookahead.slice?_token
  description := h.lookahead.describeAt?
  marker := h.lookahead.isSome_place?
  rest := by
    obtain ⟨front, hs, hpos⟩ := h.lexer.rest
    rw [hs, hpos]
    exact Text.isBoundary_append front p.lexer.rest
  skipped := fun s hs => ⟨(h.lexer.skipped s hs).isBoundary, (h.lexer.skipped s hs).isSome_place?⟩
  next := by
    rw [h.lexer.next?_bytewise]
    rfl

/-- A parse never finds its stack in disorder, whatever its lexer has left and its context
holds.  Where nothing is pending before, nothing is pending behind it and no error is
internal, and where something is pending, no statement gets through.  So no source makes a
compilation fail by a fault of its own or cut a text inside a character, and a run of the
program, whatever name it is called by, ends with the code 0 or 1. -/
theorem internal_failures_unreachable :
    (∀ (l : Lexer) (c : Context), l.Reachable →
      (∀ s expected, parse l c ≠ .failed (.error (.parseStack expected)) s) ∧
      (c.depth = 0 →
        (∀ s needed depth, parse l c ≠ .failed (.error (.stackUnderflow needed depth)) s) ∧
        (∀ s depth expected,
          parse l c ≠ .failed (.error (.unbalancedStatement depth expected)) s) ∧
        ∀ n lexer d, parse l c = .ok n (lexer, d) → d.depth = 0) ∧
      (0 < c.depth → ∀ n s, parse l c = .ok n s → n = 0)) ∧
    (∀ (source : String) (options : Options),
      (∀ e, compile source options = .error (.error e) → e.isInternal = false) ∧
      compile source options ≠ .error .offBoundary ∧
      ∀ p, (Parse.start (Lexer.new source) (Context.new source)).Reaches p →
        p.lexer.source = source ∧ p.Cuts) ∧
    ∀ (arguments : List String) (input : ByteArray) (program : String),
      (CommandLine.run arguments input program).code = 0 ∨
        (CommandLine.run arguments input program).code = 1 := by
  refine ⟨?_, ?_, code_run⟩
  · intro l c hl
    have hplace := hl.inPlace
    refine ⟨?_, ?_, ?_⟩
    · intro s expected h
      obtain ⟨-, _, _, he⟩ := unbalanced_of_parse hplace h rfl
      cases he
    · intro hc
      refine ⟨?_, ?_, ?_⟩
      · intro s needed depth h
        cases isInternal_of_parse hplace hc h
      · intro s depth expected h
        cases isInternal_of_parse hplace hc h
      · intro n lexer d h
        rw [(depth_of_parse h).1, hc]
    · intro hc n s h
      obtain ⟨lexer, d⟩ := s
      have hzero := (depth_of_parse h).2
      omega
  · intro source options
    refine ⟨fun e h => isInternal_of_compile h, compile_ne_offBoundary source options, ?_⟩
    intro p hp
    obtain ⟨hplace, hsource⟩ :=
      hp.inPlace (Parse.inPlace_start (Lexer.inPlace_new source) (Context.new source))
    exact ⟨hsource.trans (Lexer.source_next _), hplace.cuts⟩

end OnePass
