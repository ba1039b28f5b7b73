import OnePass.Proofs.Counterparts
import OnePass.Proofs.Translation

/-!
What of a source matters.

Two sources have tokens of the same kinds, and the names of the one are those of the other
under a renaming that keeps them apart.  Their trees then have one shape, so their code
differs in the literals only, and these are the numbers that each source writes.  If the
numbers are the same too, the two compilations go in step, and neither blanks nor spellings
nor places decide anything.
-/

namespace OnePass

/-! ## Code of one shape -/

/-- The instructions are the same, or both push a literal. -/
inductive Instruction.Like : Instruction → Instruction → Prop
  | same (i : Instruction) : Like i i
  | literals (m n : Int64) : Like (.pushLiteral m) (.pushLiteral n)

section

variable {N : String → String → Prop} {slot slot' : String → Nat}

theorem Instruction.like_refl (code : List Instruction) :
    List.Forall₂ Instruction.Like code code :=
  List.forall₂_same.2 fun i _ => .same i

theorem Expr.Like.code {e f : Expr} (h : e.Like N f) (hslot : ∀ x y, N x y → slot x = slot' y) :
    List.Forall₂ Instruction.Like (e.code slot) (f.code slot') := by
  induction h with
  | literal m n => exact .cons (.literals m n) .nil
  | read h =>
    rw [Expr.code, Expr.code, hslot _ _ h]
    exact Instruction.like_refl _
  | binary op _ _ ihl ihr =>
    exact List.rel_append (List.rel_append ihl ihr) (Instruction.like_refl _)

theorem Statement.Like.code {s t : Statement} (h : s.Like N t)
    (hslot : ∀ x y, N x y → slot x = slot' y) :
    List.Forall₂ Instruction.Like (s.code slot) (t.code slot') := by
  cases h with
  | assign h he =>
    rw [Statement.code, Statement.code, hslot _ _ h]
    exact List.rel_append (he.code hslot) (Instruction.like_refl _)
  | discard he => exact List.rel_append (he.code hslot) (Instruction.like_refl _)
  | empty => exact .nil

namespace Program

variable {p q : Program} (hN : Relator.BiUnique N) (h : List.Forall₂ (Statement.Like N) p q)
include hN h

theorem names_related : List.Forall₂ N p.symbols.names q.symbols.names := by
  have htargets : List.Forall₂ N (p.filterMap Statement.target?)
      (q.filterMap Statement.target?) := by
    refine List.rel_filterMap (fun s t hst => ?_) h
    cases hst with
    | assign h _ => exact .some h
    | discard _ => exact .none
    | empty => exact .none
  exact List.rel_foldl (R := N)
    (P := fun t u : SymbolTable => List.Forall₂ N t.names u.names)
    (fun _ _ ht _ _ hx => (bind_related hN hx ht).2) List.Forall₂.nil htargets

theorem slot_related {x y : String} (hx : N x y) : p.slot x = q.slot y := by
  rw [slot, slot, slot?_related hN hx (names_related hN h)]

theorem code_related : List.Forall₂ Instruction.Like p.code q.code :=
  List.rel_flatMap h fun _ _ hst => hst.code fun _ _ hx => slot_related hN h hx

end Program
end

/-! ## Programs of one shape -/

/-- Sources of corresponding tokens write programs of one shape. -/
theorem Writes.like {N : String → String → Prop} {T : Token → Token → Prop}
    (hkind : ∀ {u v}, T u v → v.kind = u.kind)
    (hname : ∀ {u v}, T u v → u.kind = .name → N u.text v.text) {s t : String} {p q : Program}
    (hp : Writes s p) (hq : Writes t q)
    (h : List.Forall₂ T (sourceTokens s) (sourceTokens t)) :
    List.Forall₂ (Statement.Like N) p q := by
  obtain ⟨ss, hss, hp⟩ := hp
  obtain ⟨ts, hts, hq⟩ := hq
  rw [← hss, ← hts] at h
  obtain ⟨rs, hrs, hlike⟩ := exists_sentences_like hkind hname ss h
  obtain rfl := sentencesYield_injective hrs
  exact hlike p q hp hq

/-! ## The literals of the code -/

/-- The literals that code pushes, in order. -/
def literals (code : List Instruction) : List Int64 :=
  code.filterMap fun
    | .pushLiteral n => some n
    | _ => none

/-- What the numbers among tokens write, in order. -/
def numerals (tokens : List Token) : List Value :=
  (tokens.filter (·.kind = .number)).map Token.value

@[simp]
theorem literals_append (a b : List Instruction) : literals (a ++ b) = literals a ++ literals b :=
  List.filterMap_append

@[simp]
theorem literals_block (op : BinaryOp) : literals op.block = [] := by
  cases op <;> rfl

@[simp]
theorem numerals_append (a b : List Token) : numerals (a ++ b) = numerals a ++ numerals b := by
  simp [numerals]

theorem numerals_cons_of_ne {t : Token} (h : t.kind ≠ .number) (ts : List Token) :
    numerals (t :: ts) = numerals ts := by
  simp [numerals, h]

/-- The literals of a tree are the numbers in its text, each as it is written. -/
theorem Phrase.literals_code {l : Level} (p : Phrase l) {e : Expr} (h : p.expr? = some e)
    (slot : String → Nat) : (literals (e.code slot)).map some = numerals p.yield := by
  induction p generalizing e with
  | number t ht =>
    obtain ⟨n, hn, rfl⟩ := Option.map_eq_some_iff.1 h
    simp [numerals, yield, ht, hn, Expr.code, literals]
  | name t ht =>
    obtain rfl := Option.some.inj h
    simp [numerals, yield, ht, Expr.code, literals]
  | group left hl inner right hr ih =>
    rw [yield, numerals_cons_of_ne (by simp [hl]), numerals_append, ← ih h,
      numerals_cons_of_ne (by simp [hr])]
    exact (List.append_nil _).symm
  | ofFactor f ih => exact ih h
  | product lhs sign op hs hop rhs ihl ihr =>
    obtain ⟨a, b, ha, hb, rfl⟩ := Expr.exists_operands h
    simp [Expr.code, yield, numerals_cons_of_ne (t := sign) (by simp [hs]), ihl ha, ihr hb]
  | ofTerm t ih => exact ih h
  | sum lhs sign op hs hop rhs ihl ihr =>
    obtain ⟨a, b, ha, hb, rfl⟩ := Expr.exists_operands h
    simp [Expr.code, yield, numerals_cons_of_ne (t := sign) (by simp [hs]), ihl ha, ihr hb]

theorem Sentence.literals_code (s : Sentence) {st : Statement} (h : s.statement? = some st)
    (slot : String → Nat) : (literals (st.code slot)).map some = numerals s.yield := by
  cases s with
  | assign target ht sign hs e semicolon hk =>
    obtain ⟨x, hx, rfl⟩ := Option.map_eq_some_iff.1 h
    rw [yield, numerals_cons_of_ne (by simp [ht]), numerals_cons_of_ne (by simp [hs]),
      numerals_append, numerals_cons_of_ne (by simp [hk]), ← e.literals_code hx slot,
      Statement.code, literals_append, List.map_append]
    rfl
  | expression e semicolon hk =>
    obtain ⟨x, hx, rfl⟩ := Option.map_eq_some_iff.1 h
    rw [yield, numerals_append, numerals_cons_of_ne (by simp [hk]), ← e.literals_code hx slot,
      Statement.code, literals_append, List.map_append]
    rfl
  | empty semicolon hk =>
    obtain rfl := Option.some.inj h
    rw [yield, numerals_cons_of_ne (by simp [hk])]
    rfl

theorem literals_flatMap_code {ss : List Sentence} {p : Program}
    (h : sentencesProgram? ss = some p) (slot : String → Nat) :
    (literals (p.flatMap (Statement.code slot))).map some = numerals (sentencesYield ss) := by
  induction ss generalizing p with
  | nil =>
    obtain rfl := Option.some.inj h
    rfl
  | cons s rest ih =>
    obtain ⟨st, q, hst, hq, rfl⟩ := sentencesProgram?_cons_eq_some_iff.1 h
    rw [List.flatMap_cons, literals_append, List.map_append, s.literals_code hst, ih hq,
      ← numerals_append]
    rfl

/-- Nothing that is computed gets into the code: its literals are the numbers of the
source. -/
theorem Writes.literals_code {source : String} {p : Program} (h : Writes source p) :
    (literals p.code).map some = numerals (tokenize source).1 := by
  obtain ⟨ss, hss, hp⟩ := h
  obtain ⟨last, hlast, htokens⟩ := tokenize_eq_concat source
  rw [Program.code, literals_flatMap_code hp, hss, htokens, numerals_append,
    numerals_cons_of_ne (by simp [hlast])]
  exact (List.append_nil _).symm

/-! ## Sources that correspond -/

/-- The name that a token is, if it is one. -/
def Token.name? (t : Token) : Option String :=
  if t.kind = .name then some t.text else none

/-- The names that stand in a source, in order and with repetitions. -/
def sourceNames (source : String) : List String :=
  (tokenize source).1.filterMap Token.name?

/-- Token by token, the second source is of the kinds of the first and has its names as `r`
renames them.  `r` keeps the names of the first source apart. -/
structure Renames (r : String → String) (s t : String) : Prop where
  injective : ∀ x ∈ sourceNames s, ∀ y ∈ sourceNames s, r x = r y → x = y
  kinds_eq : (tokenize t).1.map Token.kind = (tokenize s).1.map Token.kind
  names_eq : (tokenize t).1.map Token.name? = (tokenize s).1.map fun u => u.name?.map r

/-- The tokens have the same place in the two sources. -/
def SamePlace (s t : String) (u v : Token) : Prop :=
  ∃ k : Nat, (tokenize s).1[k]? = some u ∧ (tokenize t).1[k]? = some v

theorem SamePlace.eq_of_map_eq {α : Type} {s t : String} {u v : Token} (h : SamePlace s t u v)
    {f g : Token → α} (hmap : (tokenize t).1.map g = (tokenize s).1.map f) : g v = f u := by
  obtain ⟨k, hu, hv⟩ := h
  have hk := congrArg (·[k]?) hmap
  simpa [hu, hv] using hk

namespace Renames

variable {r : String → String} {s t : String} (h : Renames r s t)
include h

theorem forall₂_samePlace : List.Forall₂ (SamePlace s t) (tokenize s).1 (tokenize t).1 := by
  have hlength : (tokenize s).1.length = (tokenize t).1.length := by
    simpa using congrArg List.length h.kinds_eq.symm
  refine List.forall₂_of_length_eq_of_get hlength fun k hk hk' => ⟨k, ?_, ?_⟩
  · exact List.getElem?_eq_getElem hk
  · exact List.getElem?_eq_getElem hk'

theorem forall₂_sourceTokens : List.Forall₂ (SamePlace s t) (sourceTokens s) (sourceTokens t) := by
  have hrow := h.forall₂_samePlace
  rw [sourceTokens, sourceTokens, List.dropLast_eq_take, List.dropLast_eq_take, ← hrow.length_eq]
  exact List.forall₂_take _ hrow

/-- Which names correspond. -/
def Names (_ : Renames r s t) (x y : String) : Prop :=
  x ∈ sourceNames s ∧ y = r x

theorem biUnique_names : Relator.BiUnique h.Names := by
  constructor
  · rintro x y z ⟨hx, rfl⟩ ⟨hy, hxy⟩
    exact h.injective x hx y hy hxy
  · rintro x y z ⟨-, rfl⟩ ⟨-, rfl⟩
    rfl

theorem kind_eq {u v : Token} (huv : SamePlace s t u v) : v.kind = u.kind :=
  huv.eq_of_map_eq h.kinds_eq

theorem names {u v : Token} (huv : SamePlace s t u v) (hk : u.kind = .name) :
    h.Names u.text v.text := by
  have hv : v.kind = .name := (h.kind_eq huv).trans hk
  have hname := huv.eq_of_map_eq h.names_eq
  rw [Token.name?, Token.name?, if_pos hk, if_pos hv] at hname
  obtain ⟨k, hu, -⟩ := huv
  refine ⟨List.mem_filterMap.2 ⟨u, List.mem_of_getElem? hu, if_pos hk⟩, ?_⟩
  exact Option.some.inj hname

end Renames

/-- The second compilation is the first with its names replaced and other literals in the
code. -/
structure Compilation.Renamed (r : String → String) (a b : Compilation) : Prop where
  statements_eq : b.statements = a.statements
  reservedBytes_eq : b.assembly.reservedBytes = a.assembly.reservedBytes
  entries_eq : b.symbols.entries = a.symbols.entries.map fun entry => (r entry.1, entry.2)
  body : List.Forall₂ Instruction.Like a.assembly.body b.assembly.body

namespace Renames

variable {r : String → String} {s t : String} (h : Renames r s t)
include h

theorem renamed {options : Options} {a b : Compilation} (ha : compile s options = .ok a)
    (hb : compile t options = .ok b) :
    a.Renamed r b ∧ (literals a.assembly.body).map some = numerals (tokenize s).1 ∧
      (literals b.assembly.body).map some = numerals (tokenize t).1 := by
  obtain ⟨p, -, hp, -, -, ha⟩ := translates_of_compile ha
  obtain ⟨q, -, hq, -, -, hb⟩ := translates_of_compile hb
  have hlike := Writes.like h.kind_eq h.names hp hq h.forall₂_sourceTokens
  have hnames := Program.names_related h.biUnique_names hlike
  rw [ha.body_eq, hb.body_eq]
  refine ⟨⟨?_, ?_, ?_, ?_⟩, hp.literals_code, hq.literals_code⟩
  · rw [ha.statements_eq, hb.statements_eq, hlike.length_eq]
  · rw [Assembly.reservedBytes, Assembly.reservedBytes, ha.slots_eq, hb.slots_eq,
      SymbolTable.size, SymbolTable.size, hnames.length_eq]
  · have hmap : q.symbols.names = p.symbols.names.map r := by
      have hrel := List.forall₂_map_left_iff.2 (hnames.imp fun _ _ hxy => hxy.2.symm)
      rw [List.forall₂_eq_eq_eq] at hrel
      exact hrel.symm
    rw [ha.symbols_eq, hb.symbols_eq, SymbolTable.entries, SymbolTable.entries, hmap,
      List.zipIdx_map]
    rfl
  · rw [ha.body_eq, hb.body_eq]
    exact Program.code_related h.biUnique_names hlike

/-- The two compilations go in step where the numbers are the same. -/
def correspondence (h : Renames r s t)
    (hv : (tokenize t).1.map Token.value = (tokenize s).1.map Token.value) : Correspondence where
  first := s
  second := t
  Names := h.Names
  Tokens := SamePlace s t
  unique := h.biUnique_names
  kind_eq huv := (h.kind_eq huv).symm
  value_eq huv := (huv.eq_of_map_eq hv).symm
  name := h.names
  found := fun ⟨_, hu, _⟩ => foundAt_of_mem_tokenize (List.mem_of_getElem? hu)
  found' := fun ⟨_, _, hv⟩ => foundAt_of_mem_tokenize (List.mem_of_getElem? hv)

theorem parses_start (hv : (tokenize t).1.map Token.value = (tokenize s).1.map Token.value) :
    (h.correspondence hv).Parses 0 (Parse.start (Lexer.new s) (Context.new s))
      (Parse.start (Lexer.new t) (Context.new t)) where
  inStep := Parse.inStep_start rfl _
  inStep' := Parse.inStep_start rfl _
  source_eq := Lexer.source_next _
  source_eq' := Lexer.source_next _
  row := by
    rw [Parse.row_start, Parse.row_start]
    exact h.forall₂_samePlace
  stack := .nil
  context := ⟨rfl, rfl, .nil, .nil, rfl, rfl, rfl⟩
  statements_eq := rfl
  tracks := ⟨_, _, Parse.tracks_start _ _⟩

end Renames

/-- Only the kinds of tokens, the numbers and which names are the same matter.  Sources that
correspond and compile yield the same but for the names in the table and the literals in the
code, and each has the numbers of its own source for literals.  If the numbers are the same,
both compile to one text, or both fail with errors of one variant about the tokens at one
place. -/
theorem compile_renamed {r : String → String} {s t : String} (h : Renames r s t)
    (options : Options) :
    (∀ a b, compile s options = .ok a → compile t options = .ok b →
      a.Renamed r b ∧ (literals a.assembly.body).map some = numerals (tokenize s).1 ∧
        (literals b.assembly.body).map some = numerals (tokenize t).1) ∧
    ((tokenize t).1.map Token.value = (tokenize s).1.map Token.value →
      (∃ a b, compile s options = .ok a ∧ compile t options = .ok b ∧
        a.assembly.render = b.assembly.render) ∨
      ∃ e e' u v, compile s options = .error (.error e) ∧
        compile t options = .error (.error e') ∧ e.Alike e' ∧
        SamePlace s t u v ∧ e.Accuses s u ∧ e'.Accuses t v) := by
  refine ⟨fun a b => h.renamed, ?_⟩
  intro hv
  have hends := (h.parses_start hv).parse (.refl _)
  unfold compile
  generalize ho : parse (Lexer.new s) (Context.new s) = o at hends ⊢
  generalize ho' : parse (Lexer.new t) (Context.new t) = o' at hends ⊢
  cases hends with
  | @ok _ m c d hcount hcontexts =>
    obtain ⟨l, c⟩ := c
    obtain ⟨l', d⟩ := d
    have hdepth : c.depth = 0 := (depth_of_parse ho).1
    have hdepth' : d.depth = 0 := (depth_of_parse ho').1
    left
    simp only [Context.finish, hdepth, hdepth', if_true]
    refine ⟨_, _, rfl, rfl, ?_⟩
    rw [hcontexts.slots_eq, hcontexts.body_eq]
  | @failed f g c d hf hcontexts =>
    obtain ⟨e, e', rfl, rfl, halike, hinternal | ⟨u, v, huv, he, he'⟩⟩ := hf.exists_errors
    · rw [isInternal_of_parse (Lexer.inPlace_new s) rfl ho] at hinternal
      cases hinternal
    · exact .inr ⟨e, e', u, v, rfl, rfl, halike, huv, he, he'⟩

def exchangedNames (name : String) : String :=
  if name = "a" then "x_1" else if name = "b" then "a" else name

/-- Another name for each of the two, one of which was the other's before, other blanks, a
character that is skipped, and a leading zero. -/
theorem compile_renamed_exchanged :
    Renames exchangedNames "a := 07 - 1; b := a / (3 - 3 * a); a;"
        "x_1:= 7 - 1 ;é a := x_1 / (3-03*x_1); x_1;" ∧
      ∃ a b, compile "a := 07 - 1; b := a / (3 - 3 * a); a;" {} = .ok a ∧
        compile "x_1:= 7 - 1 ;é a := x_1 / (3-03*x_1); x_1;" {} = .ok b ∧
        a.Renamed exchangedNames b ∧ a.assembly.render = b.assembly.render := by
  have h : Renames exchangedNames "a := 07 - 1; b := a / (3 - 3 * a); a;"
      "x_1:= 7 - 1 ;é a := x_1 / (3-03*x_1); x_1;" :=
    ⟨by decide +kernel, by decide +kernel, by decide +kernel⟩
  obtain ⟨hboth, hsame⟩ := compile_renamed h {}
  rcases hsame (by decide +kernel) with ⟨a, b, ha, hb, hrender⟩ | ⟨e, -, -, -, he, -⟩
  · exact ⟨h, a, b, ha, hb, (hboth a b ha hb).1, hrender⟩
  · obtain ⟨a, ha⟩ := exists_compile_of_isOk "a := 07 - 1; b := a / (3 - 3 * a); a;" {}
      (by decide +kernel)
    rw [ha] at he
    cases he

end OnePass
