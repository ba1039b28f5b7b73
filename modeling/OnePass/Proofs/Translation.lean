import OnePass.Proofs.Course
import OnePass.Proofs.Scope

/-!
What a source is translated to.

A source that compiles writes one program, and what comes of it is the code of that
program as a walk over its tree would emit it.  The parse keeps no tree, so the tree here
is any whose tokens are those of the source; that there is no second one is
`sentencesYield_injective`.
-/

namespace OnePass

/-- The tokens of the source are those of sentences that write the program. -/
def Writes (source : String) (p : Program) : Prop :=
  ∃ ss, sentencesYield ss = sourceTokens source ∧ sentencesProgram? ss = some p

section

variable {source : String} {options : Options} {p q : Program}

theorem Writes.unique (hp : Writes source p) (hq : Writes source q) : p = q := by
  obtain ⟨ss, hs, hp⟩ := hp
  obtain ⟨ts, ht, hq⟩ := hq
  have heq : ss = ts := sentencesYield_injective (hs.trans ht.symm)
  rw [heq, hq] at hp
  exact (Option.some.inj hp).symm

theorem markable_sourceTokens (source : String) :
    Phrase.Markable (Context.new source) (sourceTokens source) := by
  intro t ht
  obtain ⟨front, back, -, hm⟩ := (foundAt_of_mem_sourceTokens ht).place?
  exact ⟨_, hm⟩

/-- What a compilation yields for a program that the source writes. -/
structure Compilation.Translates (c : Compilation) (options : Options) (p : Program) : Prop where
  entry_eq : c.assembly.entry = options.entry
  slots_eq : c.assembly.slots = p.symbols.size
  body_eq : c.assembly.body = p.code
  symbols_eq : c.symbols = p.symbols
  statements_eq : c.statements = p.length

theorem length_of_sentencesProgram? {ss : List Sentence} (h : sentencesProgram? ss = some p) :
    p.length = ss.length := by
  induction ss using List.reverseRecOn generalizing p with
  | nil =>
    obtain rfl := Option.some.inj h
    rfl
  | append_singleton ss s ih =>
    obtain ⟨q, st, hq, -, rfl⟩ := sentencesProgram?_concat_eq_some_iff.1 h
    rw [List.length_append, List.length_append, ih hq]
    rfl

theorem compile_of_writes {values : ValueTable} (hp : Writes source p) (hscoped : p.Scoped)
    (hknown : p.known {} = .ok values) :
    ∃ c, compile source options = .ok c ∧ c.Translates options p := by
  obtain ⟨ss, hy, hss⟩ := hp
  have hm := markable_sourceTokens source
  rw [← hy] at hm
  have hact := sentencesAct_of_known source hm hss hscoped hknown
  obtain ⟨skipped, hc⟩ := compile_of_sentencesAct_ok options hy hact
  exact ⟨_, hc, rfl, rfl, rfl, rfl, (length_of_sentencesProgram? hss).symm⟩

theorem translates_of_compile {c : Compilation} (h : compile source options = .ok c) :
    ∃ p values, Writes source p ∧ p.Scoped ∧ p.known {} = .ok values ∧
      c.Translates options p := by
  obtain ⟨ss, d, hy, hact⟩ := exists_sentences_of_compile h
  obtain ⟨p, values, hp, hscoped, hknown, rfl⟩ := context_of_sentencesAct hact
  obtain ⟨skipped, hc⟩ := compile_of_sentencesAct_ok options hy hact
  rw [h] at hc
  obtain rfl := Except.ok.inj hc
  exact ⟨p, values, ⟨ss, hy, hp⟩, hscoped, hknown, rfl, rfl, rfl, rfl,
    (length_of_sentencesProgram? hp).symm⟩

end

theorem exists_compile_of_isOk (source : String) (options : Options)
    (h : (compile source options).isOk = true) : ∃ c, compile source options = .ok c := by
  cases hc : compile source options with
  | error f =>
    rw [hc] at h
    cases h
  | ok c => exact ⟨c, rfl⟩

theorem exists_compile_of_check (source : String) (options : Options) (check : Compilation → Bool)
    (h : (compile source options).toOption.any check = true) :
    ∃ c, compile source options = .ok c ∧ check c = true := by
  cases hc : compile source options with
  | error f =>
    rw [hc] at h
    cases h
  | ok c =>
    rw [hc] at h
    exact ⟨c, rfl, h⟩

/-- One pass does what two would: the code that a compilation emits while it parses is that
of a walk over the tree of the source, whichever tree of the grammar one takes. -/
theorem compile_eq_code {source : String} {options : Options} {c : Compilation}
    (h : compile source options = .ok c) :
    (∃! ss, sentencesYield ss = sourceTokens source) ∧
      ∀ ss, sentencesYield ss = sourceTokens source →
        ∃ p, sentencesProgram? ss = some p ∧
          c.assembly.body = p.code ∧
          c.symbols = p.symbols ∧
          c.symbols.entries = (p.filterMap Statement.target?).eraseDups.zipIdx 1 ∧
          c.statements = ss.length := by
  obtain ⟨p, values, ⟨ss, hy, hp⟩, -, -, hc⟩ := translates_of_compile h
  have hunique : ∀ ts, sentencesYield ts = sourceTokens source → ts = ss :=
    fun ts ht => sentencesYield_injective (ht.trans hy.symm)
  refine ⟨⟨ss, hy, hunique⟩, ?_⟩
  intro ts ht
  obtain rfl := hunique ts ht
  refine ⟨p, hp, hc.body_eq, hc.symbols_eq, ?_, ?_⟩
  · rw [hc.symbols_eq, SymbolTable.entries, Program.names_symbols]
    rfl
  · rw [hc.statements_eq, length_of_sentencesProgram? hp]

/-- Products within sums, differences that group to the left, a group that overrides both,
and a name that is assigned again. -/
theorem compile_eq_code_grouped :
    ∃ c, compile "b := 8 - 2 - 3 * (4 / 2); a := b; b := a; ; b;" {} = .ok c ∧
      (∃! ss, sentencesYield ss = sourceTokens "b := 8 - 2 - 3 * (4 / 2); a := b; b := a; ; b;") ∧
      ∀ ss, sentencesYield ss = sourceTokens "b := 8 - 2 - 3 * (4 / 2); a := b; b := a; ; b;" →
        ∃ p, sentencesProgram? ss = some p ∧
          c.assembly.body = p.code ∧
          c.symbols = p.symbols ∧
          c.symbols.entries = (p.filterMap Statement.target?).eraseDups.zipIdx 1 ∧
          c.statements = ss.length := by
  obtain ⟨c, h⟩ := exists_compile_of_isOk
    "b := 8 - 2 - 3 * (4 / 2); a := b; b := a; ; b;" {} (by decide +kernel)
  exact ⟨c, h, compile_eq_code h⟩

end OnePass
