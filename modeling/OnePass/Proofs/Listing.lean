import Mathlib.Data.List.Nodup
import OnePass.Proofs.Translation

/-!
What the text of a function tells of its program.

The text tells all but what the normal form of a program leaves out: empty statements, and
how the variables are called.  One way, a text is cut into lines, a line of the code is that
of one instruction, and a decoder that keeps the trees of pending operands reads the
statements back from the instructions.  The other way, the code and the size of the frame
are those of the normal form.
-/

namespace OnePass

/-! ## Normal forms -/

/-- An expression whose variables are numbers. -/
inductive Shape
  | literal (value : Int64)
  | read (index : Nat)
  | binary (op : BinaryOp) (lhs rhs : Shape)
  deriving DecidableEq, Repr

/-- A statement that does something. -/
inductive Shape.Statement
  | assign (index : Nat) (e : Shape)
  | discard (e : Shape)
  deriving DecidableEq, Repr

def Expr.shape (index : String → Nat) : Expr → Shape
  | literal value => .literal value
  | read name => .read (index name)
  | binary op lhs rhs => .binary op (lhs.shape index) (rhs.shape index)

def Statement.shape? (index : String → Nat) : Statement → Option Shape.Statement
  | assign name e => some (.assign (index name) (e.shape index))
  | discard e => some (.discard (e.shape index))
  | empty => none

namespace Program

/-- The place of a name among the names that the program assigns to, in the order of their
first assignments. -/
def rank (p : Program) (name : String) : Nat :=
  p.targets.eraseDups.idxOf name

/-- The program without its empty statements, and with the place of its first assignment for
every name. -/
def normal (p : Program) : List Shape.Statement :=
  p.filterMap (Statement.shape? p.rank)

end Program

/-! ## Code of normal forms -/

namespace Shape

def code : Shape → List Instruction
  | literal value => [.pushLiteral value]
  | read index => [.pushSlot (index + 1)]
  | binary op lhs rhs => lhs.code ++ rhs.code ++ op.block

def Statement.code : Shape.Statement → List Instruction
  | assign index e => e.code ++ [.popSlot (index + 1)]
  | discard e => e.code ++ [.popRegister .eax]

end Shape

section

variable {slot index : String → Nat}

theorem Expr.code_shape {e : Expr} (h : ∀ x ∈ e.reads, slot x = index x + 1) :
    (e.shape index).code = e.code slot := by
  induction e with
  | literal value => rfl
  | read name =>
    show [Instruction.pushSlot (index name + 1)] = [Instruction.pushSlot (slot name)]
    rw [h name (List.mem_singleton.2 rfl)]
  | binary op lhs rhs ihl ihr =>
    show (lhs.shape index).code ++ (rhs.shape index).code ++ _ = _
    rw [ihl fun x hx => h x (List.mem_append_left _ hx),
      ihr fun x hx => h x (List.mem_append_right _ hx)]
    rfl

theorem flatMap_code_shape {p : Program}
    (hreads : ∀ s ∈ p, ∀ x ∈ s.reads, slot x = index x + 1)
    (htargets : ∀ x ∈ p.targets, slot x = index x + 1) :
    (p.filterMap (Statement.shape? index)).flatMap Shape.Statement.code =
      p.flatMap (Statement.code slot) := by
  induction p with
  | nil => rfl
  | cons s p ih =>
    have hs := hreads s List.mem_cons_self
    have hrest := ih (fun t ht => hreads t (List.mem_cons_of_mem s ht)) fun x hx => by
      obtain ⟨t, ht, hx⟩ := List.mem_filterMap.1 hx
      exact htargets x (List.mem_filterMap.2 ⟨t, List.mem_cons_of_mem s ht, hx⟩)
    rw [List.flatMap_cons, ← hrest]
    cases s with
    | assign name e =>
      have hname := htargets name (List.mem_filterMap.2 ⟨_, List.mem_cons_self, rfl⟩)
      show (e.shape index).code ++ [.popSlot (index name + 1)] ++ _ = _
      rw [Expr.code_shape hs, ← hname]
      rfl
    | discard e =>
      show (e.shape index).code ++ [.popRegister .eax] ++ _ = _
      rw [Expr.code_shape hs]
      rfl
    | empty => rfl

end

namespace Program

variable {p q : Program}

theorem slot_eq_rank {x : String} (h : x ∈ p.targets) : p.slot x = p.rank x + 1 := by
  rw [slot, SymbolTable.slot?, names_symbols, rank, List.idxOf_eq_getD_idxOf?]
  obtain ⟨i, hi⟩ := Option.isSome_iff_exists.1
    (List.isSome_idxOf?.2 (List.mem_eraseDups.2 h))
  rw [hi]
  rfl

theorem code_normal (h : p.Scoped) : p.normal.flatMap Shape.Statement.code = p.code :=
  flatMap_code_shape (fun _ hs _ hx => slot_eq_rank (h.reads_subset hs hx))
    fun _ hx => slot_eq_rank hx

/-! The size of the frame shows in the normal form: each number below it is that of a
variable that is assigned. -/

theorem nodup_eraseDups (names : List String) : names.eraseDups.Nodup := by
  induction names using List.reverseRecOn with
  | nil => exact List.nodup_nil
  | append_singleton names name ih =>
    rw [eraseDups_concat]
    by_cases h : name ∈ names
    · rwa [if_pos h]
    · rw [if_neg h]
      have hnot : name ∉ names.eraseDups := mt List.mem_eraseDups.1 h
      exact ih.append (List.nodup_singleton name) (List.disjoint_singleton.2 hnot)

theorem exists_rank_eq {k : Nat} (h : k < p.symbols.size) : ∃ x ∈ p.targets, p.rank x = k := by
  rw [SymbolTable.size, names_symbols] at h
  refine ⟨p.targets.eraseDups[k], List.mem_eraseDups.1 (List.getElem_mem h), ?_⟩
  exact (nodup_eraseDups p.targets).idxOf_getElem k h

theorem rank_lt {x : String} (h : x ∈ p.targets) : p.rank x < p.symbols.size := by
  rw [SymbolTable.size, names_symbols]
  exact List.idxOf_lt_length_of_mem (List.mem_eraseDups.2 h)

theorem exists_assign_iff {k : Nat} :
    (∃ e, .assign k e ∈ p.normal) ↔ k < p.symbols.size := by
  constructor
  · rintro ⟨e, he⟩
    obtain ⟨s, hs, hshape⟩ := List.mem_filterMap.1 he
    cases s with
    | assign name x =>
      obtain ⟨rfl, -⟩ := Shape.Statement.assign.inj (Option.some.inj hshape)
      exact rank_lt (List.mem_filterMap.2 ⟨_, hs, rfl⟩)
    | discard x => cases Option.some.inj hshape
    | empty => cases hshape
  · intro hk
    obtain ⟨x, hx, rfl⟩ := exists_rank_eq hk
    obtain ⟨s, hs, htarget⟩ := List.mem_filterMap.1 hx
    cases s with
    | assign name e =>
      obtain rfl := Option.some.inj htarget
      exact ⟨e.shape p.rank, List.mem_filterMap.2 ⟨_, hs, rfl⟩⟩
    | discard e => cases htarget
    | empty => cases htarget

theorem size_eq_of_normal_eq (h : p.normal = q.normal) : p.symbols.size = q.symbols.size := by
  have hiff : ∀ k, k < p.symbols.size ↔ k < q.symbols.size := fun k => by
    rw [← exists_assign_iff, ← exists_assign_iff, h]
  have hp := (hiff q.symbols.size).1
  have hq := (hiff p.symbols.size).2
  omega

end Program

/-! ## Decoding -/

/-- Read statements back from their code.  The list on the right holds the operands that are
pending, the latest first. -/
def decode : List Instruction → List Shape → Option (List Shape.Statement)
  | [], [] => some []
  | .pushLiteral value :: rest, pending => decode rest (.literal value :: pending)
  | .pushSlot slot :: rest, pending => decode rest (.read (slot - 1) :: pending)
  | .popSlot slot :: rest, [e] => (decode rest []).map (.assign (slot - 1) e :: ·)
  | .popRegister .eax :: rest, [e] => (decode rest []).map (.discard e :: ·)
  | .popRegister .ebx :: .popRegister .eax :: .add .ebx .eax :: .pushRegister .eax :: rest,
      b :: a :: pending => decode rest (.binary .add a b :: pending)
  | .popRegister .ebx :: .popRegister .eax :: .sub .ebx .eax :: .pushRegister .eax :: rest,
      b :: a :: pending => decode rest (.binary .sub a b :: pending)
  | .popRegister .ebx :: .popRegister .eax :: .mul .ebx .eax :: .pushRegister .eax :: rest,
      b :: a :: pending => decode rest (.binary .mul a b :: pending)
  | .popRegister .ebx :: .popRegister .eax :: .extendSign :: .divide .ebx ::
      .pushRegister .eax :: rest,
      b :: a :: pending => decode rest (.binary .div a b :: pending)
  | _, _ => none

theorem decode_block (op : BinaryOp) (rest : List Instruction) (a b : Shape)
    (pending : List Shape) :
    decode (op.block ++ rest) (b :: a :: pending) =
      decode rest (.binary op a b :: pending) := by
  cases op <;> rfl

theorem Shape.decode_code (e : Shape) (rest : List Instruction) (pending : List Shape) :
    decode (e.code ++ rest) pending = decode rest (e :: pending) := by
  induction e generalizing rest pending with
  | literal value => rfl
  | read index => rfl
  | binary op lhs rhs ihl ihr =>
    rw [code, List.append_assoc, List.append_assoc, ihl, ihr, decode_block]

theorem decode_flatMap_code (statements : List Shape.Statement) :
    decode (statements.flatMap Shape.Statement.code) [] = some statements := by
  induction statements with
  | nil => rfl
  | cons s rest ih =>
    cases s with
    | assign index e =>
      rw [List.flatMap_cons, Shape.Statement.code, List.append_assoc, e.decode_code]
      show (decode (rest.flatMap Shape.Statement.code) []).map _ = _
      rw [ih]
      rfl
    | discard e =>
      rw [List.flatMap_cons, Shape.Statement.code, List.append_assoc, e.decode_code]
      show (decode (rest.flatMap Shape.Statement.code) []).map _ = _
      rw [ih]
      rfl

theorem Program.normal_eq_of_code_eq {p q : Program} (hp : p.Scoped) (hq : q.Scoped)
    (h : p.code = q.code) : p.normal = q.normal := by
  have hdecode := congrArg (decode · []) h
  simp only [← code_normal hp, ← code_normal hq, decode_flatMap_code] at hdecode
  exact Option.some.inj hdecode

/-! ## Lines -/

/-- Read a number in decimal, with a minus before it if it is negative. -/
def readDecimal : List Char → Int
  | '-' :: digits => -(Nat.ofDigitChars 10 digits 0 : Nat)
  | digits => (Nat.ofDigitChars 10 digits 0 : Nat)

theorem ofDigitChars_repr (n : Nat) : Nat.ofDigitChars 10 n.repr.toList 0 = n := by
  rw [Nat.toList_repr, Nat.ofDigitChars_toDigits (by decide) (Nat.le_refl 10)]

theorem isDigit_of_mem_repr {n : Nat} {c : Char} (h : c ∈ n.repr.toList) : c.isDigit = true := by
  rw [Nat.toList_repr] at h
  exact Nat.isDigit_of_mem_toDigits (by decide) (Nat.le_refl 10) h

/-- Read the address of a slot, from behind its minus. -/
def readSlot (address : List Char) : Nat :=
  Nat.ofDigitChars 10 (address.takeWhile Char.isDigit) 0 / slotSize

/-- The instructions of statements whose text has no number in it. -/
def fixedInstructions : List Instruction :=
  [.popRegister .eax, .popRegister .ebx, .pushRegister .eax, .add .ebx .eax, .sub .ebx .eax,
    .mul .ebx .eax, .extendSign, .divide .ebx]

/-- Read an instruction of a statement back from its line. -/
def readLine? : List Char → Option Instruction
  | 'p' :: 'u' :: 's' :: 'h' :: 'l' :: ' ' :: '$' :: number =>
    some (.pushLiteral (Int64.ofInt (readDecimal number)))
  | 'p' :: 'u' :: 's' :: 'h' :: 'l' :: ' ' :: '-' :: address => some (.pushSlot (readSlot address))
  | 'p' :: 'o' :: 'p' :: ' ' :: '-' :: address => some (.popSlot (readSlot address))
  | line => fixedInstructions.find? (·.render.toList = line)

/-- The instructions that the code of statements is made of. -/
inductive Instruction.InBody : Instruction → Prop
  | literal (value : Int64) : InBody (.pushLiteral value)
  | load (slot : Nat) : InBody (.pushSlot slot)
  | store (slot : Nat) : InBody (.popSlot slot)
  | fixed {i : Instruction} (h : i ∈ fixedInstructions) : InBody i

/-! The characters of the lines that have a number in them. -/

theorem toList_repr_negSucc (n : Nat) :
    (Int.negSucc n).repr.toList = '-' :: (n + 1).repr.toList := by
  show ("-" ++ (n + 1).repr).toList = _
  simp [String.toList_append]

theorem toList_render_pushLiteral (value : Int64) :
    (Instruction.pushLiteral value).render.toList =
      "pushl $".toList ++ value.toInt.repr.toList := by
  show ("pushl" ++ " " ++ ("$" ++ value.toInt.repr)).toList = _
  simp [String.toList_append]

theorem toList_slotAddress (slot : Nat) :
    (slotAddress slot).toList = '-' :: ((slotSize * slot).repr.toList ++ "(%ebp)".toList) := by
  show ("-" ++ (slotSize * slot).repr ++ "(" ++ "%ebp" ++ ")").toList = _
  simp [String.toList_append]

theorem toList_render_pushSlot (slot : Nat) :
    (Instruction.pushSlot slot).render.toList =
      "pushl -".toList ++ ((slotSize * slot).repr.toList ++ "(%ebp)".toList) := by
  show ("pushl" ++ " " ++ slotAddress slot).toList = _
  simp [String.toList_append, toList_slotAddress]

theorem toList_render_popSlot (slot : Nat) :
    (Instruction.popSlot slot).render.toList =
      "pop -".toList ++ ((slotSize * slot).repr.toList ++ "(%ebp)".toList) := by
  show ("pop" ++ " " ++ slotAddress slot).toList = _
  simp [String.toList_append, toList_slotAddress]

theorem toList_render_reserve (bytes : Nat) :
    (Instruction.reserve bytes).render.toList =
      "subl $".toList ++ (bytes.repr.toList ++ ", %esp".toList) := by
  show ("subl" ++ " " ++ ("$" ++ bytes.repr ++ ", " ++ "%esp")).toList = _
  simp [String.toList_append]

/-! Lines are read back. -/

theorem readDecimal_repr (n : Int) : readDecimal n.repr.toList = n := by
  cases n with
  | ofNat n =>
    show readDecimal n.repr.toList = n
    unfold readDecimal
    split
    · next digits hminus =>
      have hdigit : '-'.isDigit = true := isDigit_of_mem_repr (hminus ▸ List.mem_cons_self)
      cases hdigit
    · rw [ofDigitChars_repr]
  | negSucc n =>
    rw [toList_repr_negSucc]
    show -((Nat.ofDigitChars 10 (n + 1).repr.toList 0 : Nat) : Int) = _
    rw [ofDigitChars_repr]
    rfl

theorem readSlot_address (slot : Nat) :
    readSlot ((slotSize * slot).repr.toList ++ "(%ebp)".toList) = slot := by
  have hdigits : ((slotSize * slot).repr.toList ++ "(%ebp)".toList).takeWhile Char.isDigit =
      (slotSize * slot).repr.toList := by
    rw [List.takeWhile_append_of_pos fun _ hc => isDigit_of_mem_repr hc]
    exact List.append_nil _
  rw [readSlot, hdigits, ofDigitChars_repr, Nat.mul_div_cancel_left _ (by decide)]

theorem readLine?_of_mem_fixed :
    ∀ i ∈ fixedInstructions, readLine? i.render.toList = some i := by
  decide

theorem Instruction.InBody.readLine?_render {i : Instruction} (h : i.InBody) :
    readLine? i.render.toList = some i := by
  cases h with
  | literal value =>
    rw [toList_render_pushLiteral]
    show some (pushLiteral (Int64.ofInt (readDecimal value.toInt.repr.toList))) = _
    rw [readDecimal_repr, Int64.ofInt_toInt]
  | load slot =>
    rw [toList_render_pushSlot]
    show some (pushSlot (readSlot ((slotSize * slot).repr.toList ++ "(%ebp)".toList))) = _
    rw [readSlot_address]
  | store slot =>
    rw [toList_render_popSlot]
    show some (popSlot (readSlot ((slotSize * slot).repr.toList ++ "(%ebp)".toList))) = _
    rw [readSlot_address]
  | fixed h => exact readLine?_of_mem_fixed i h

theorem eq_of_map_render_eq {xs ys : List Instruction} (hxs : ∀ i ∈ xs, i.InBody)
    (hys : ∀ i ∈ ys, i.InBody)
    (h : xs.map Instruction.render = ys.map Instruction.render) : xs = ys := by
  have hread : ∀ zs : List Instruction, (∀ i ∈ zs, i.InBody) →
      (zs.map Instruction.render).map (fun line => readLine? line.toList) = zs.map some := by
    intro zs hzs
    rw [List.map_map]
    exact List.map_congr_left fun i hi => (hzs i hi).readLine?_render
  have hsome := hread xs hxs
  rw [h, hread ys hys] at hsome
  exact (List.map_injective_iff.2 (fun _ _ => Option.some.inj) hsome).symm

theorem inBody_of_mem_block (op : BinaryOp) : ∀ i ∈ op.block, i.InBody := by
  have hfixed : ∀ i ∈ op.block, i ∈ fixedInstructions := by
    cases op <;> decide
  exact fun i hi => .fixed (hfixed i hi)

theorem Shape.inBody_of_mem_code (e : Shape) : ∀ i ∈ e.code, i.InBody := by
  induction e with
  | literal value =>
    intro i hi
    rw [List.mem_singleton.1 hi]
    exact .literal value
  | read index =>
    intro i hi
    rw [List.mem_singleton.1 hi]
    exact .load (index + 1)
  | binary op lhs rhs ihl ihr =>
    intro i hi
    rcases List.mem_append.1 hi with hi | hi
    · rcases List.mem_append.1 hi with hi | hi
      · exact ihl i hi
      · exact ihr i hi
    · exact inBody_of_mem_block op i hi

theorem Shape.Statement.inBody_of_mem_code (s : Shape.Statement) : ∀ i ∈ s.code, i.InBody := by
  intro i hi
  cases s with
  | assign index e =>
    rcases List.mem_append.1 hi with hi | hi
    · exact e.inBody_of_mem_code i hi
    · rw [List.mem_singleton.1 hi]
      exact .store (index + 1)
  | discard e =>
    rcases List.mem_append.1 hi with hi | hi
    · exact e.inBody_of_mem_code i hi
    · rw [List.mem_singleton.1 hi]
      exact .fixed (by decide)

theorem Program.inBody_of_mem_code {p : Program} (h : p.Scoped) : ∀ i ∈ p.code, i.InBody := by
  rw [← code_normal h]
  intro i hi
  obtain ⟨s, -, hi⟩ := List.mem_flatMap.1 hi
  exact s.inBody_of_mem_code i hi

/-! ## The text -/

theorem newline_not_mem_repr (n : Nat) : '\n' ∉ n.repr.toList := by
  intro h
  cases isDigit_of_mem_repr h

theorem newline_not_mem_decimal (n : Int) : '\n' ∉ n.repr.toList := by
  cases n with
  | ofNat n => exact newline_not_mem_repr n
  | negSucc n =>
    rw [toList_repr_negSucc, List.mem_cons]
    rintro (h | h)
    · cases h
    · exact newline_not_mem_repr _ h

theorem Instruction.InBody.newline_not_mem_render {i : Instruction} (h : i.InBody) :
    '\n' ∉ i.render.toList := by
  cases h with
  | literal value =>
    rw [toList_render_pushLiteral]
    exact List.not_mem_append (by decide) (newline_not_mem_decimal _)
  | load slot =>
    rw [toList_render_pushSlot]
    exact List.not_mem_append (by decide)
      (List.not_mem_append (newline_not_mem_repr _) (by decide))
  | store slot =>
    rw [toList_render_popSlot]
    exact List.not_mem_append (by decide)
      (List.not_mem_append (newline_not_mem_repr _) (by decide))
  | fixed h =>
    have hfixed : ∀ i ∈ fixedInstructions, '\n' ∉ i.render.toList := by decide
    exact hfixed i h

namespace Assembly

theorem lines_eq_of_render_eq {a b : Assembly} (ha : ∀ i ∈ a.instructions, '\n' ∉ i.render.toList)
    (hb : ∀ i ∈ b.instructions, '\n' ∉ i.render.toList) (h : a.render = b.render) :
    a.instructions.map Instruction.render = b.instructions.map Instruction.render := by
  have hsplit : ∀ c : Assembly, (∀ i ∈ c.instructions, '\n' ∉ i.render.toList) →
      c.render.toList.splitOn '\n' =
        (c.instructions.map Instruction.render).map String.toList := by
    intro c hc
    rw [render, String.toList_intercalate]
    refine List.splitOn_intercalate '\n' ?_ ?_
    · intro line hline
      obtain ⟨text, htext, rfl⟩ := List.mem_map.1 hline
      obtain ⟨i, hi, rfl⟩ := List.mem_map.1 htext
      exact hc i hi
    · simp [instructions, preamble]
  have hlines := hsplit a ha
  rw [h, hsplit b hb] at hlines
  exact (List.map_injective_iff.2 (fun _ _ => String.toList_injective) hlines).symm

theorem body_lines_of_lines {a b : Assembly}
    (h : a.instructions.map Instruction.render = b.instructions.map Instruction.render) :
    a.body.map Instruction.render = b.body.map Instruction.render := by
  simp only [instructions, List.map_append] at h
  have hfront := (List.append_inj' h rfl).1
  exact (List.append_inj hfront rfl).2

/-- The function of a program, under the usual entry, is written in lines. -/
theorem newline_not_mem_render {a : Assembly} (hentry : a.entry = "_main")
    (hbody : ∀ i ∈ a.body, i.InBody) : ∀ i ∈ a.instructions, '\n' ∉ i.render.toList := by
  intro i hi
  simp only [instructions, preamble, epilogue, hentry, List.mem_append, List.mem_cons,
    List.not_mem_nil, or_false] at hi
  rcases hi with ((rfl | rfl | rfl | rfl | rfl) | hi) | rfl | rfl
  · decide
  · decide
  · decide
  · decide
  · rw [toList_render_reserve]
    exact List.not_mem_append (by decide)
      (List.not_mem_append (newline_not_mem_repr _) (by decide))
  · exact (hbody i hi).newline_not_mem_render
  · decide
  · decide

/-- The text of such a function tells its code. -/
theorem body_eq_of_render_eq {a b : Assembly} (ha : a.entry = "_main") (hb : b.entry = "_main")
    (habody : ∀ i ∈ a.body, i.InBody) (hbbody : ∀ i ∈ b.body, i.InBody)
    (h : a.render = b.render) : a.body = b.body :=
  eq_of_map_render_eq habody hbbody (body_lines_of_lines (lines_eq_of_render_eq
    (newline_not_mem_render ha habody) (newline_not_mem_render hb hbbody) h))

end Assembly

theorem exists_compile_of_generate {source text : String} (h : generate source = .ok text) :
    ∃ c, compile source {} = .ok c ∧ c.assembly.render = text := by
  unfold generate at h
  cases hc : compile source {} with
  | error f =>
    rw [hc] at h
    cases h
  | ok c =>
    rw [hc] at h
    exact ⟨c, rfl, Except.ok.inj h⟩

theorem Compilation.Translates.assembly_eq {c : Compilation} {options : Options} {p : Program}
    (h : c.Translates options p) :
    c.assembly = { entry := options.entry, slots := p.symbols.size, body := p.code } := by
  rw [← h.entry_eq, ← h.slots_eq, ← h.body_eq]

/-- The text of a function tells the program of its source up to the normal form, and no
more.  So grouping and order of operands show in it, and parentheses that express no
grouping, leading zeros, empty statements and the spelling of names do not. -/
theorem generate_eq_iff {s t a b : String} (hs : generate s = .ok a) (ht : generate t = .ok b) :
    (∃! p, Writes s p) ∧ (∃! q, Writes t q) ∧
      ∀ p q, Writes s p → Writes t q → (a = b ↔ p.normal = q.normal) := by
  obtain ⟨c, hc, rfl⟩ := exists_compile_of_generate hs
  obtain ⟨d, hd, rfl⟩ := exists_compile_of_generate ht
  obtain ⟨p, -, hp, hpscoped, -, hc⟩ := translates_of_compile hc
  obtain ⟨q, -, hq, hqscoped, -, hd⟩ := translates_of_compile hd
  refine ⟨⟨p, hp, fun _ h => h.unique hp⟩, ⟨q, hq, fun _ h => h.unique hq⟩, ?_⟩
  intro p' q' hp' hq'
  obtain rfl := hp'.unique hp
  obtain rfl := hq'.unique hq
  rw [hc.assembly_eq, hd.assembly_eq]
  constructor
  · intro h
    exact Program.normal_eq_of_code_eq hpscoped hqscoped (Assembly.body_eq_of_render_eq rfl rfl
      (Program.inBody_of_mem_code hpscoped) (Program.inBody_of_mem_code hqscoped) h)
  · intro h
    rw [Program.size_eq_of_normal_eq h, ← Program.code_normal hpscoped,
      ← Program.code_normal hqscoped, h]

theorem exists_generate_of_isOk (source : String) (h : (compile source {}).isOk = true) :
    ∃ text, generate source = .ok text := by
  obtain ⟨c, hc⟩ := exists_compile_of_isOk source {} h
  exact ⟨c.assembly.render, by rw [generate, hc]; rfl⟩

/-- A group that is not the one that its operators have by themselves. -/
theorem generate_eq_iff_grouped :
    ∃ a b, generate "8 - (3 - 2);" = .ok a ∧ generate "8 - 3 - 2;" = .ok b ∧ a ≠ b := by
  obtain ⟨a, ha⟩ := exists_generate_of_isOk "8 - (3 - 2);" (by decide +kernel)
  obtain ⟨b, hb⟩ := exists_generate_of_isOk "8 - 3 - 2;" (by decide +kernel)
  have hp : Writes "8 - (3 - 2);"
      [.discard (.binary .sub (.literal 8) (.binary .sub (.literal 3) (.literal 2)))] := by
    refine ⟨[.expression (.sum (.ofTerm (.ofFactor (.number ⟨.number, "8", 0⟩ rfl)))
      ⟨.operator .sub, "-", 2⟩ .sub rfl .sub (.ofFactor (.group ⟨.lparen, "(", 4⟩ rfl
        (.sum (.ofTerm (.ofFactor (.number ⟨.number, "3", 5⟩ rfl)))
          ⟨.operator .sub, "-", 7⟩ .sub rfl .sub (.ofFactor (.number ⟨.number, "2", 9⟩ rfl)))
        ⟨.rparen, ")", 10⟩ rfl))) ⟨.semicolon, ";", 11⟩ rfl], ?_, ?_⟩
    · decide +kernel
    · decide +kernel
  have hq : Writes "8 - 3 - 2;"
      [.discard (.binary .sub (.binary .sub (.literal 8) (.literal 3)) (.literal 2))] := by
    refine ⟨[.expression (.sum (.sum (.ofTerm (.ofFactor (.number ⟨.number, "8", 0⟩ rfl)))
        ⟨.operator .sub, "-", 2⟩ .sub rfl .sub (.ofFactor (.number ⟨.number, "3", 4⟩ rfl)))
      ⟨.operator .sub, "-", 6⟩ .sub rfl .sub (.ofFactor (.number ⟨.number, "2", 8⟩ rfl)))
      ⟨.semicolon, ";", 9⟩ rfl], ?_, ?_⟩
    · decide +kernel
    · decide +kernel
  obtain ⟨-, -, hiff⟩ := generate_eq_iff ha hb
  refine ⟨a, b, ha, hb, ?_⟩
  intro hab
  have hnormal := (hiff _ _ hp hq).1 hab
  revert hnormal
  decide

end OnePass
