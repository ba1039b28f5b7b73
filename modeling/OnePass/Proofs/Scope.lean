import Mathlib.Data.List.Induction
import OnePass.Proofs.Walk

/-!
Programs statement by statement.

A program grows at its end, as it does for a compiler that reads it from left to right.
The tables of a longer program agree with those of a shorter one on the names that the
shorter one assigns, so code once emitted stays right.  The main results are
`context_of_sentencesAct` and `sentencesAct_of_known`: the walk over sentences succeeds
exactly on the programs whose reads come after assignments and whose compile-time values
exist, and what it leaves is the code of the program.
-/

namespace OnePass

/-! ## Slots -/

namespace SymbolTable

variable {t : SymbolTable} {name other : String}

theorem isSome_slot? : (t.slot? name).isSome = true ↔ name ∈ t.names := by
  simp [slot?]

theorem mem_of_slot? {slot : Nat} (h : t.slot? name = some slot) : name ∈ t.names :=
  isSome_slot?.1 (Option.isSome_of_eq_some h)

theorem names_bind (t : SymbolTable) (name : String) :
    (t.bind name).2.names = if name ∈ t.names then t.names else t.names ++ [name] := by
  cases hs : t.slot? name with
  | some slot => rw [bind_of_slot? hs, if_pos (mem_of_slot? hs)]
  | none =>
    have hmem := slot?_eq_none_iff.1 hs
    rw [bind_of_not_mem hmem, if_neg hmem]

theorem mem_names_bind : other ∈ (t.bind name).2.names ↔ other = name ∨ other ∈ t.names := by
  rw [names_bind]
  split
  · next hmem => exact ⟨.inr, fun h => h.elim (fun he => he ▸ hmem) id⟩
  · rw [List.mem_append, List.mem_singleton, or_comm]

theorem slot?_eq_some_of_mem (h : name ∈ t.names) : ∃ i, t.slot? name = some i := by
  cases hs : t.slot? name with
  | none => exact absurd h (slot?_eq_none_iff.1 hs)
  | some i => exact ⟨i, rfl⟩

theorem slot?_bind_of_mem (h : other ∈ t.names) : (t.bind name).2.slot? other = t.slot? other := by
  by_cases hmem : name ∈ t.names
  · obtain ⟨i, hi⟩ := slot?_eq_some_of_mem hmem
    rw [bind_of_slot? hi]
  · rw [bind_of_not_mem hmem]
    simp only [slot?, List.idxOf?, List.findIdx?_append]
    obtain ⟨i, hi⟩ := Option.isSome_iff_exists.1 (List.isSome_idxOf?.2 h)
    rw [List.idxOf?] at hi
    rw [hi]
    rfl

theorem slot?_bind_self (t : SymbolTable) (name : String) :
    (t.bind name).2.slot? name = some (t.bind name).1 := by
  by_cases hmem : name ∈ t.names
  · obtain ⟨i, hi⟩ := slot?_eq_some_of_mem hmem
    rw [bind_of_slot? hi, hi]
  · have hnone : t.names.idxOf? name = none := List.idxOf?_eq_none_iff.2 hmem
    rw [List.idxOf?] at hnone
    rw [bind_of_not_mem hmem]
    simp [slot?, List.idxOf?, List.findIdx?_append, hnone, size, List.findIdx?_cons]

/-- No two names share a slot. -/
theorem slot?_injective {i : Nat} (h : t.slot? name = some i) (h' : t.slot? other = some i) :
    name = other := by
  obtain ⟨j, hj, rfl⟩ := Option.map_eq_some_iff.1 h
  obtain ⟨k, hk, hjk⟩ := Option.map_eq_some_iff.1 h'
  obtain rfl : k = j := by omega
  obtain ⟨_, hname, -⟩ := List.idxOf?_eq_some_iff.1 hj
  obtain ⟨_, hother, -⟩ := List.idxOf?_eq_some_iff.1 hk
  rw [← hname, hother]

end SymbolTable

/-! ## Code and slots -/

/-- The code of an expression depends on the slots of the names that it reads only. -/
theorem Expr.code_congr {e : Expr} {f g : String → Nat} (h : ∀ x ∈ e.reads, f x = g x) :
    e.code f = e.code g := by
  induction e with
  | literal value => rfl
  | read name => rw [code, code, h name (List.mem_singleton.2 rfl)]
  | binary op lhs rhs ihl ihr =>
    rw [code, code, ihl fun x hx => h x (List.mem_append_left _ hx),
      ihr fun x hx => h x (List.mem_append_right _ hx)]

theorem Statement.code_congr {s : Statement} {f g : String → Nat}
    (h : ∀ x ∈ s.reads, f x = g x) (ht : ∀ x, s.target? = some x → f x = g x) :
    s.code f = s.code g := by
  cases s with
  | assign name e => rw [code, code, Expr.code_congr h, ht name rfl]
  | discard e => rw [code, code, Expr.code_congr h]
  | empty => rfl

namespace Program

/-- The names that a program assigns to, in order and with repetitions. -/
def targets (p : Program) : List String :=
  p.filterMap Statement.target?

/-- The property holds of every statement with the statements before it. -/
def Everywhere (property : Program → Statement → Prop) (p : Program) : Prop :=
  ∀ before s after, p = before ++ s :: after → property before s

/-- Every name that a statement reads is assigned to by a statement before it. -/
def Scoped : Program → Prop :=
  Everywhere fun before s => ∀ x ∈ s.reads, x ∈ targets before

theorem everywhere_nil (property : Program → Statement → Prop) : Everywhere property [] := by
  intro before s after hnil
  simp at hnil

theorem everywhere_concat_iff {property : Program → Statement → Prop} {p : Program}
    {s : Statement} :
    Everywhere property (p ++ [s]) ↔ Everywhere property p ∧ property p s := by
  constructor
  · intro h
    refine ⟨?_, h p s [] rfl⟩
    intro before t after hp
    exact h before t (after ++ [s]) (by simp [hp])
  · rintro ⟨hp, hs⟩ before t after heq
    rcases List.eq_nil_or_concat after with rfl | ⟨more, last, rfl⟩
    · obtain ⟨rfl, hst⟩ := List.append_inj' heq rfl
      obtain rfl := (List.cons.inj hst).1
      exact hs
    · rw [List.concat_eq_append, ← List.cons_append, ← List.append_assoc] at heq
      exact hp before t more (List.append_inj' heq rfl).1

theorem everywhere_cons_iff {property : Program → Statement → Prop} {s : Statement} {p : Program} :
    Everywhere property (s :: p) ↔
      property [] s ∧ Everywhere (fun before t => property (s :: before) t) p := by
  constructor
  · intro h
    refine ⟨h [] s p rfl, ?_⟩
    rintro before t after rfl
    exact h (s :: before) t after rfl
  · rintro ⟨hs, hp⟩ before t after heq
    cases before with
    | nil =>
      obtain ⟨rfl, -⟩ := List.cons.inj heq
      exact hs
    | cons first before =>
      obtain ⟨rfl, hrest⟩ := List.cons.inj heq
      exact hp before t after hrest

instance everywhereDecidable (property : Program → Statement → Prop)
    [∀ before s, Decidable (property before s)] : (p : Program) → Decidable (Everywhere property p)
  | [] => .isTrue (everywhere_nil property)
  | s :: p =>
    have := everywhereDecidable (fun before t => property (s :: before) t) p
    decidable_of_iff _ everywhere_cons_iff.symm

instance (p : Program) : Decidable p.Scoped :=
  inferInstanceAs (Decidable (Everywhere _ p))

/-- What holds everywhere holds in front of a statement and at it. -/
theorem everywhere_front {property : Program → Statement → Prop} {p q : Program} {s : Statement}
    (h : Everywhere property (p ++ s :: q)) : Everywhere property p ∧ property p s := by
  refine ⟨?_, h p s q rfl⟩
  rintro before t after rfl
  exact h before t (after ++ s :: q) (by simp)

@[simp]
theorem targets_append (p q : Program) : targets (p ++ q) = targets p ++ targets q :=
  List.filterMap_append

theorem targets_concat (p : Program) (s : Statement) :
    targets (p ++ [s]) = targets p ++ s.target?.toList := by
  rw [targets_append]
  cases h : s.target? <;> simp [targets, h]

theorem mem_targets_concat {p : Program} {s : Statement} {x : String} :
    x ∈ targets (p ++ [s]) ↔ x ∈ targets p ∨ s.target? = some x := by
  rw [targets_concat, List.mem_append, Option.mem_toList]

theorem scoped_concat_iff {p : Program} {s : Statement} :
    Scoped (p ++ [s]) ↔ Scoped p ∧ ∀ x ∈ s.reads, x ∈ targets p :=
  everywhere_concat_iff

theorem Scoped.reads_subset {p : Program} (h : p.Scoped) {s : Statement} (hs : s ∈ p) {x : String}
    (hx : x ∈ s.reads) : x ∈ targets p := by
  obtain ⟨before, after, rfl⟩ := List.append_of_mem hs
  rw [targets_append]
  exact List.mem_append_left _ (h before s after rfl x hx)

/-! ## Tables -/

theorem symbols_concat (p : Program) (s : Statement) :
    symbols (p ++ [s]) =
      match s.target? with
      | some name => (p.symbols.bind name).2
      | none => p.symbols := by
  unfold symbols
  rw [List.filterMap_append, List.foldl_append]
  cases h : s.target? <;> simp [h]

theorem eraseDups_concat (names : List String) (name : String) :
    (names ++ [name]).eraseDups =
      if name ∈ names then names.eraseDups else names.eraseDups ++ [name] := by
  rw [List.eraseDups_append]
  by_cases h : name ∈ names
  · rw [if_pos h]
    simp [h, List.removeAll]
  · rw [if_neg h]
    simp [h, List.removeAll, List.eraseDups_cons]

/-- Names that are bound in a row stand in the table in the order of their first bindings. -/
theorem names_foldl_bind (names : List String) :
    (names.foldl (fun t name => (SymbolTable.bind t name).2) {}).names = names.eraseDups := by
  induction names using List.reverseRecOn with
  | nil => rfl
  | append_singleton names name ih =>
    rw [List.foldl_append, List.foldl_cons, List.foldl_nil, SymbolTable.names_bind, ih,
      eraseDups_concat]
    simp only [List.mem_eraseDups]

/-- The names of a program in the order of their first assignments. -/
theorem names_symbols (p : Program) : p.symbols.names = (targets p).eraseDups :=
  names_foldl_bind _

theorem mem_names_symbols {p : Program} {x : String} : x ∈ p.symbols.names ↔ x ∈ targets p := by
  rw [names_symbols, List.mem_eraseDups]

/-- A name keeps its slot as the program grows. -/
theorem slot_concat {p : Program} {x : String} (h : x ∈ targets p) (s : Statement) :
    slot (p ++ [s]) x = p.slot x := by
  rw [slot, symbols_concat, slot]
  cases s.target? with
  | none => rfl
  | some name => rw [SymbolTable.slot?_bind_of_mem (mem_names_symbols.2 h)]

/-- The code of a program in scope is not changed by what follows it. -/
theorem code_concat {p : Program} (h : p.Scoped) (s : Statement) :
    code (p ++ [s]) = p.code ++ s.code (slot (p ++ [s])) := by
  have hfront : p.flatMap (Statement.code (slot (p ++ [s]))) =
      p.flatMap (Statement.code p.slot) := by
    simp only [List.flatMap]
    congr 1
    refine List.map_congr_left fun t ht => Statement.code_congr ?_ ?_
    · exact fun x hx => slot_concat (h.reads_subset ht hx) s
    · exact fun x hx => slot_concat (List.mem_filterMap.2 ⟨t, ht, hx⟩) s
  rw [code, List.flatMap_append, hfront, List.flatMap_singleton]
  rfl

theorem known_append (values : ValueTable) (p q : Program) :
    known values (p ++ q) = (known values p).bind fun v => known v q := by
  rw [known, List.foldlM_append]
  rfl

theorem known_append_eq_ok_iff {values after : ValueTable} {p q : Program} :
    known values (p ++ q) = .ok after ↔ ∃ v, known values p = .ok v ∧ known v q = .ok after := by
  rw [known_append]
  cases known values p with
  | error e => simp [Except.bind]
  | ok v => simp [Except.bind]

theorem known_singleton (values : ValueTable) (s : Statement) :
    known values [s] = s.known values := by
  simp only [known, List.foldlM_cons, List.foldlM_nil, bind_pure]

theorem known_concat_eq_ok_iff {values after : ValueTable} {p : Program} {s : Statement} :
    known values (p ++ [s]) = .ok after ↔
      ∃ v, known values p = .ok v ∧ s.known v = .ok after := by
  rw [known_append_eq_ok_iff]
  simp only [known_singleton]

end Program

/-- A statement stores the value of its expression, or it leaves the table as it is. -/
theorem Statement.known_cases {s : Statement} {values after : ValueTable}
    (h : s.known values = .ok after) :
    (∃ name e v, s = .assign name e ∧ e.known values = .ok v ∧ after = values.set name v) ∨
      s.target? = none ∧ after = values := by
  cases s with
  | assign name e =>
    cases hv : e.known values with
    | error z => simp [known, hv, Except.map] at h
    | ok v => exact .inl ⟨name, e, v, rfl, hv, by simpa [known, hv, Except.map] using h.symm⟩
  | discard e =>
    cases hv : e.known values with
    | error z => simp [known, hv, Except.map] at h
    | ok v => exact .inr ⟨rfl, by simpa [known, hv, Except.map] using h.symm⟩
  | empty => exact .inr ⟨rfl, (Except.ok.inj h).symm⟩

theorem Statement.contains_known {s : Statement} {values after : ValueTable}
    (h : s.known values = .ok after) (x : String) :
    after.contains x = true ↔ values.contains x = true ∨ s.target? = some x := by
  rcases known_cases h with ⟨name, e, v, rfl, -, rfl⟩ | ⟨hnone, rfl⟩
  · rw [ValueTable.contains_set, Bool.or_eq_true, beq_iff_eq, target?, Option.some.injEq, or_comm,
      eq_comm (a := x)]
  · simp [hnone]

namespace Program

theorem contains_known {p : Program} {values : ValueTable} (h : p.known {} = .ok values)
    (x : String) : values.contains x = true ↔ x ∈ targets p := by
  induction p using List.reverseRecOn generalizing values with
  | nil =>
    obtain rfl := Except.ok.inj h
    simp [targets, ValueTable.contains]
  | append_singleton p s ih =>
    obtain ⟨before, hp, hs⟩ := known_concat_eq_ok_iff.1 h
    rw [Statement.contains_known hs, ih hp, mem_targets_concat]

/-! ## Contexts between statements -/

/-- The state of a compilation that has read the program and has found the values. -/
def context (p : Program) (source : String) (values : ValueTable) : Context where
  source := source
  symbols := p.symbols
  values := values
  depth := 0
  slots := p.symbols.size
  body := p.code

theorem defines_context {p : Program} {source : String} {values : ValueTable}
    (h : p.known {} = .ok values) (x : String) :
    (p.context source values).Defines x ↔ x ∈ targets p := by
  unfold Context.Defines
  rw [context, mem_names_symbols, contains_known h, and_self]

theorem bind_symbols (p : Program) (name : String) (e : Expr) :
    (p.symbols.bind name).1 = slot (p ++ [.assign name e]) name := by
  rw [slot, symbols_concat]
  simp only [Statement.target?, SymbolTable.slot?_bind_self, Option.getD_some]

theorem code_slot_concat {p : Program} {e : Expr} (h : ∀ x ∈ e.reads, x ∈ targets p)
    (s : Statement) : e.code p.slot = e.code (slot (p ++ [s])) :=
  Expr.code_congr fun x hx => (slot_concat (h x hx) s).symm

theorem size_bind (t : SymbolTable) (name : String) :
    (if t.size < (t.bind name).2.size then t.size + 1 else t.size) = (t.bind name).2.size := by
  by_cases hmem : name ∈ t.names
  · obtain ⟨i, hi⟩ := SymbolTable.slot?_eq_some_of_mem hmem
    simp [SymbolTable.bind_of_slot? hi]
  · simp [SymbolTable.bind_of_not_mem hmem, SymbolTable.size]

/-- One more statement takes the state of a program to that of the longer one. -/
theorem ended_context {p : Program} {s : Statement} {source : String}
    {values after : ValueTable} (hp : p.Scoped) (hs : ∀ x ∈ s.reads, x ∈ targets p)
    (h : s.known values = .ok after) :
    (p.context source values).ended after s = context (p ++ [s]) source after := by
  have hsymbols := symbols_concat p s
  cases s with
  | assign name e =>
    simp only [Statement.target?] at hsymbols
    simp only [Context.ended, context, hsymbols, code_concat hp, Statement.code, ← bind_symbols,
      ← code_slot_concat hs]
    congr 1
    exact size_bind p.symbols name
  | discard e =>
    simp only [Statement.target?] at hsymbols
    obtain ⟨v, -, rfl⟩ : ∃ v, e.known values = .ok v ∧ values = after := by
      cases hv : e.known values with
      | error z => simp [Statement.known, hv, Except.map] at h
      | ok v => exact ⟨v, rfl, by simpa [Statement.known, hv, Except.map] using h⟩
    simp only [Context.ended, context, hsymbols, code_concat hp, Statement.code,
      ← code_slot_concat hs]
    rfl
  | empty =>
    simp only [Statement.target?] at hsymbols
    obtain rfl := Except.ok.inj h
    simp only [Context.ended, context, hsymbols, code_concat hp, Statement.code, List.append_nil]

end Program

/-! ## Walks over sentences -/

theorem sentencesProgram?_concat_eq_some_iff {ss : List Sentence} {s : Sentence} {p : Program} :
    sentencesProgram? (ss ++ [s]) = some p ↔
      ∃ q st, sentencesProgram? ss = some q ∧ s.statement? = some st ∧ p = q ++ [st] := by
  simp only [sentencesProgram?, List.mapM_append, List.mapM_cons, List.mapM_nil]
  cases List.mapM Sentence.statement? ss with
  | none => simp
  | some q => cases s.statement? <;> simp [eq_comm]

/-- The walk over sentences leaves what a program leaves that reads only what it has
assigned. -/
theorem context_of_sentencesAct {source text : String} {ss : List Sentence} {d : Context}
    (h : sentencesAct text ss (Context.new source) = .ok () d) :
    ∃ p values, sentencesProgram? ss = some p ∧ p.Scoped ∧ p.known {} = .ok values ∧
      d = p.context source values := by
  -- from the end, where a program grows: only there do the slots of the front stay
  induction ss using List.reverseRecOn generalizing d with
  | nil =>
    obtain ⟨-, rfl⟩ := Outcome.ok.inj h
    exact ⟨[], {}, rfl, Program.everywhere_nil _, rfl, rfl⟩
  | append_singleton ss s ih =>
    rw [sentencesAct_concat] at h
    obtain ⟨⟨⟩, b, hss, h⟩ := Outcome.bind_eq_ok_iff.1 h
    obtain ⟨p, values, hp, hscoped, hknown, rfl⟩ := ih hss
    obtain ⟨v, h, -⟩ := Outcome.map_eq_ok_iff.1 h
    obtain ⟨-, st, hst, hreads, hvalues, hd⟩ := Clause.walked_of_act h
    have hreads' : ∀ x ∈ st.reads, x ∈ p.targets := fun x hx =>
      (Program.defines_context hknown x).1 (hreads x hx)
    refine ⟨p ++ [st], d.values, ?_, ?_, ?_, ?_⟩
    · exact sentencesProgram?_concat_eq_some_iff.2 ⟨p, st, hp, s.statement?_clause ▸ hst, rfl⟩
    · exact Program.scoped_concat_iff.2 ⟨hscoped, hreads'⟩
    · exact Program.known_concat_eq_ok_iff.2 ⟨values, hknown, hvalues⟩
    · rw [← Program.ended_context hscoped hreads' hvalues]
      exact hd

/-- The walk succeeds on every program that reads only what it has assigned and divides by
no known zero. -/
theorem sentencesAct_of_known {source : String} (text : String) {ss : List Sentence} {p : Program}
    {values : ValueTable} (hm : Phrase.Markable (Context.new source) (sentencesYield ss))
    (hp : sentencesProgram? ss = some p) (hscoped : p.Scoped) (hknown : p.known {} = .ok values) :
    sentencesAct text ss (Context.new source) = .ok () (p.context source values) := by
  induction ss using List.reverseRecOn generalizing p values with
  | nil =>
    obtain rfl := Option.some.inj hp
    obtain rfl := Except.ok.inj hknown
    rfl
  | append_singleton ss s ih =>
    obtain ⟨q, st, hq, hst, rfl⟩ := sentencesProgram?_concat_eq_some_iff.1 hp
    obtain ⟨hqscoped, hreads⟩ := Program.scoped_concat_iff.1 hscoped
    obtain ⟨before, hbefore, hafter⟩ := Program.known_concat_eq_ok_iff.1 hknown
    have hyield : sentencesYield (ss ++ [s]) = sentencesYield ss ++ s.yield := by
      simp [sentencesYield]
    rw [hyield] at hm
    have hwalked : s.clause.Walked (q.context source before)
        (Program.context (q ++ [st]) source values) := by
      refine ⟨rfl, st, s.statement?_clause.trans hst, ?_, hafter, ?_⟩
      · exact fun x hx => (Program.defines_context hbefore x).2 (hreads x hx)
      · exact (Program.ended_context hqscoped hreads hafter).symm
    have hmark : Phrase.Markable (q.context source before) s.clause.yield := fun t ht =>
      hm t (List.mem_append_right _ (s.mem_yield_of_mem_clause ht))
    obtain ⟨v, hs⟩ := Clause.act_of_walked text hmark hwalked
    rw [sentencesAct_concat, ih (fun t ht => hm t (List.mem_append_left _ ht)) hq hqscoped hbefore,
      Outcome.bind_ok, hs]
    rfl

end OnePass
