import OnePass.Machine
import OnePass.Proofs.Translation

/-!
The code of a program means what the program means.

Code for an expression leaves the slots alone and puts one word on the stack, whatever
lies below it; the induction over expressions carries that stack along.  Code for a
statement leaves the stack as it was.  A name that has been assigned has its word in its
slot, which is all that later statements rely on, so the slots may hold anything at the
start.
-/

namespace OnePass

/-! ## Signed division -/

/-- With its sign extended, a dividend of two words is the number that its lower word
is. -/
theorem Word.toInt_extend_append (a : Word) :
    ((if a.msb then BitVec.allOnes 32 else 0) ++ a : BitVec 64).toInt = a.toInt := by
  have hones : (BitVec.allOnes 32).toInt = -1 := rfl
  have hzero : (0 : Word).toInt = 0 := rfl
  rw [BitVec.toInt_append, BitVec.toInt_eq_msb_cond a]
  by_cases hmsb : a.msb = true
  · rw [if_pos hmsb, if_pos hmsb, hones]
    show (2 : Int) ^ 32 * -1 + a.toNat = a.toNat - (2 : Int) ^ 32
    omega
  · rw [if_neg hmsb, if_neg hmsb, hzero]
    show (2 : Int) ^ 32 * 0 + a.toNat = a.toNat
    omega

namespace Machine

variable {m n : Machine} {a b : List Instruction}

theorem run_append_of_ok (h : m.run a = .ok n) : m.run (a ++ b) = n.run b := by
  rw [run_append, h]

theorem run_append_of_error {f : Fault} (h : m.run a = .error f) : m.run (a ++ b) = .error f := by
  rw [run_append, h]

/-! ## Expressions -/

/-- The code leaves one word above `below` and the slots as they are, or faults on a
division where there is no word to leave. -/
def Leaves (m : Machine) (code : List Instruction) (below : List Word) : Option Word → Prop
  | none => m.run code = .error .division
  | some w => ∃ n, m.run code = .ok n ∧ n.slots = m.slots ∧ n.stack = w :: below

theorem Leaves.of_run {code : List Instruction} {below : List Word} {r : Option Word}
    (h : m.Leaves code below r) (hn : m.run code = .ok n) :
    ∃ w, r = some w ∧ n.slots = m.slots ∧ n.stack = w :: below := by
  cases r with
  | none =>
    rw [show m.run code = .error .division from h] at hn
    cases hn
  | some w =>
    obtain ⟨o, ho, hslots, hstack⟩ := h
    rw [ho] at hn
    obtain rfl := Except.ok.inj hn
    exact ⟨w, rfl, hslots, hstack⟩

/-- Behind an extended sign the division of two words is the division of numbers. -/
theorem divide_of_extended (m : Machine) (y : Word)
    (h : m.edx = if (m.registers .eax).msb then BitVec.allOnes 32 else 0) :
    m.divide y =
      match Word.divide? (m.registers .eax) y with
      | none => .error .division
      | some q => .ok { m.setRegister .eax q with
          edx := BitVec.ofInt 32 ((m.registers .eax).toInt.tmod y.toInt) } := by
  have hdividend : (m.edx ++ m.registers .eax).toInt = (m.registers .eax).toInt := by
    rw [h]
    exact Word.toInt_extend_append _
  rw [divide, Word.divide?, hdividend]
  by_cases hy : y = 0
  · rw [if_pos hy, if_pos hy]
  · cases Word.ofInt? ((m.registers .eax).toInt.tdiv y.toInt) with
    | none => simp only [if_neg hy]
    | some q => simp only [if_neg hy]

/-- The machine with the operands in the registers and the sign of the left one extended. -/
def loaded (m : Machine) (x y : Word) (below : List Word) : Machine where
  registers := fun s => if s = .eax then x else if s = .ebx then y else m.registers s
  edx := if x.msb then BitVec.allOnes 32 else 0
  slots := m.slots
  stack := below

theorem run_load {x y : Word} {below : List Word} (h : m.stack = y :: x :: below) :
    m.run [.popRegister .ebx, .popRegister .eax, .extendSign] = .ok (m.loaded x y below) := by
  simp [run_cons, step, pop, setRegister, loaded, h]

/-- A division does not depend on what `%edx` held before. -/
theorem leaves_divide {x y : Word} {below : List Word} (h : m.stack = y :: x :: below) :
    m.Leaves (BinaryOp.block .div) below (Word.divide? x y) := by
  have hdivide := (m.loaded x y below).divide_of_extended y rfl
  have hcode : m.run (BinaryOp.block .div) =
      (m.loaded x y below).run [.divide .ebx, .pushRegister .eax] :=
    run_append_of_ok (b := [.divide .ebx, .pushRegister .eax]) (run_load h)
  have heax : (m.loaded x y below).registers .eax = x := rfl
  have hebx : (m.loaded x y below).registers .ebx = y := rfl
  rw [heax] at hdivide
  cases hq : Word.divide? x y with
  | none =>
    rw [hq] at hdivide
    show m.run _ = _
    rw [hcode, run_cons, step, hebx, hdivide]
  | some q =>
    rw [hq] at hdivide
    refine ⟨{ (m.loaded x y below).setRegister .eax q with
      edx := BitVec.ofInt 32 (x.toInt.tmod y.toInt), stack := q :: below }, ?_, rfl, rfl⟩
    rw [hcode, run_cons, step, hebx, hdivide]
    rfl

/-- The code of an operator takes its operands off the stack, the right one first. -/
theorem leaves_arithmetic {i : Instruction} {g : Word → Word → Word}
    (hi : ∀ n : Machine,
      n.step i = .ok (n.setRegister .eax (g (n.registers .eax) (n.registers .ebx))))
    {x y : Word} {below : List Word} (h : m.stack = y :: x :: below) :
    m.Leaves [.popRegister .ebx, .popRegister .eax, i, .pushRegister .eax] below
      (some (g x y)) := by
  simp only [Leaves, run_cons, hi]
  simp [step, pop, push, setRegister, h]

theorem leaves_binary (op : BinaryOp) {x y : Word} {below : List Word}
    (h : m.stack = y :: x :: below) :
    m.Leaves op.block below (Word.binary? op x y) := by
  cases op with
  | add => exact leaves_arithmetic (fun _ => rfl) h
  | sub => exact leaves_arithmetic (fun _ => rfl) h
  | mul => exact leaves_arithmetic (fun _ => rfl) h
  | div => exact leaves_divide h

/-- Code that goes on from the word that other code leaves. -/
theorem Leaves.append {code more : List Instruction} {below rest : List Word} {r : Option Word}
    {k : Word → Option Word} (h : m.Leaves code below r)
    (hk : ∀ (n : Machine) w, n.slots = m.slots → n.stack = w :: below →
      n.Leaves more rest (k w)) : m.Leaves (code ++ more) rest (r.bind k) := by
  cases r with
  | none => exact run_append_of_error h
  | some w =>
    obtain ⟨n, hrun, hslots, hstack⟩ := h
    have hn := hk n w hslots hstack
    show m.Leaves _ _ (k w)
    cases hw : k w with
    | none =>
      rw [hw] at hn
      show m.run _ = _
      rw [run_append_of_ok hrun]
      exact hn
    | some v =>
      rw [hw] at hn
      obtain ⟨o, horun, hoslots, hostack⟩ := hn
      refine ⟨o, ?_, ?_, hostack⟩
      · rw [run_append_of_ok hrun, horun]
      · rw [hoslots, hslots]

theorem leaves_code (slot : String → Nat) {store : String → Word} (e : Expr) {m : Machine}
    (h : ∀ x ∈ e.reads, m.slots (slot x) = store x) :
    m.Leaves (e.code slot) m.stack (e.eval? store) := by
  induction e generalizing m with
  | literal value => exact ⟨m.push _, rfl, rfl, rfl⟩
  | read name =>
    refine ⟨m.push (m.slots (slot name)), rfl, rfl, ?_⟩
    rw [← h name (List.mem_singleton.2 rfl)]
    rfl
  | binary op lhs rhs ihl ihr =>
    rw [Expr.code, Expr.eval?, List.append_assoc]
    have hl := ihl (m := m) fun x hx => h x (List.mem_append_left _ hx)
    apply hl.append
    intro n a hslots hstack
    have hr := ihr (m := n) fun x hx => by
      rw [hslots]
      exact h x (List.mem_append_right _ hx)
    -- the right operand is computed on top of the word of the left one
    rw [hstack] at hr
    apply hr.append
    intro o b _ hostack
    exact leaves_binary op hostack

/-! ## Statements -/

/-- The code leaves the stack as it is and the words of `store` in the slots of the names,
or faults on a division where there is no store to reach. -/
def Stores (m : Machine) (code : List Instruction) (slot : String → Nat) (names : List String) :
    Option (String → Word) → Prop
  | none => m.run code = .error .division
  | some store => ∃ n, m.run code = .ok n ∧ n.stack = m.stack ∧
      ∀ x ∈ names, n.slots (slot x) = store x

theorem Stores.of_run {code : List Instruction} {slot : String → Nat} {names : List String}
    {r : Option (String → Word)} (h : m.Stores code slot names r)
    (hn : m.run code = .ok n) :
    ∃ store, r = some store ∧ ∀ x ∈ names, n.slots (slot x) = store x := by
  cases r with
  | none =>
    rw [show m.run code = .error .division from h] at hn
    cases hn
  | some store =>
    obtain ⟨o, ho, -, hslots⟩ := h
    rw [ho] at hn
    obtain rfl := Except.ok.inj hn
    exact ⟨store, rfl, hslots⟩

theorem Stores.append {code more : List Instruction} {slot : String → Nat}
    {names others : List String} {r : Option (String → Word)}
    {k : (String → Word) → Option (String → Word)} (h : m.Stores code slot names r)
    (hk : ∀ (n : Machine) store, (∀ x ∈ names, n.slots (slot x) = store x) →
      n.Stores more slot others (k store)) :
    m.Stores (code ++ more) slot others (r.bind k) := by
  cases r with
  | none => exact run_append_of_error h
  | some store =>
    obtain ⟨n, hrun, hstack, hslots⟩ := h
    have hn := hk n store hslots
    show m.Stores _ _ _ (k store)
    cases hafter : k store with
    | none =>
      rw [hafter] at hn
      show m.run _ = _
      rw [run_append_of_ok hrun]
      exact hn
    | some after =>
      rw [hafter] at hn
      obtain ⟨o, horun, hostack, hoslots⟩ := hn
      refine ⟨o, ?_, ?_, hoslots⟩
      · rw [run_append_of_ok hrun, horun]
      · rw [hostack, hstack]

/-- A statement ends with one instruction that takes the word of its expression off the
stack. -/
theorem Leaves.stores {code : List Instruction} {i : Instruction} {slot : String → Nat}
    {names : List String} {r : Option Word} {g : Word → String → Word}
    (h : m.Leaves code m.stack r)
    (hi : ∀ (n : Machine) w, n.slots = m.slots → n.stack = w :: m.stack →
      ∃ o, n.step i = .ok o ∧ o.stack = m.stack ∧ ∀ x ∈ names, o.slots (slot x) = g w x) :
    m.Stores (code ++ [i]) slot names (r.map g) := by
  cases r with
  | none => exact run_append_of_error h
  | some w =>
    obtain ⟨n, hrun, hslots, hstack⟩ := h
    obtain ⟨o, hstep, hostack, hoslots⟩ := hi n w hslots hstack
    refine ⟨o, ?_, hostack, hoslots⟩
    rw [run_append_of_ok hrun, run_cons, hstep]
    rfl

/-- One statement, behind statements that have assigned `names`.  The store to the target
reaches no other name because no two names share a slot. -/
theorem stores_statement {slot : String → Nat} {store : String → Word} {names : List String}
    (s : Statement) (hreads : ∀ x ∈ s.reads, x ∈ names)
    (hslot : ∀ x ∈ names, ∀ y, s.target? = some y → slot x = slot y → x = y)
    (h : ∀ x ∈ names, m.slots (slot x) = store x) :
    m.Stores (s.code slot) slot (names ++ s.target?.toList) (s.exec? store) := by
  cases s with
  | assign name e =>
    have he := leaves_code slot e fun x hx => h x (hreads x hx)
    apply he.stores
    intro n w hslots hstack
    refine ⟨{ n with stack := m.stack }.setSlot (slot name) w, ?_, rfl, ?_⟩
    · simp [step, pop, hstack]
    · intro x hx
      show (if slot x = slot name then w else n.slots (slot x)) = if x = name then w else store x
      rcases List.mem_append.1 hx with hx | hx
      · by_cases hname : x = name
        · rw [if_pos hname, if_pos (by rw [hname])]
        · rw [if_neg hname, if_neg fun heq => hname (hslot x hx name rfl heq), hslots, h x hx]
      · obtain rfl : x = name := by simpa [Statement.target?] using hx
        rw [if_pos rfl, if_pos rfl]
  | discard e =>
    have he := leaves_code slot e fun x hx => h x (hreads x hx)
    apply he.stores
    intro n w hslots hstack
    refine ⟨{ n with stack := m.stack }.setRegister .eax w, ?_, rfl, ?_⟩
    · simp [step, pop, hstack]
    · intro x hx
      show n.slots (slot x) = store x
      rw [hslots]
      exact h x (by simpa [Statement.target?] using hx)
  | empty => exact ⟨m, rfl, rfl, fun x hx => h x (by simpa [Statement.target?] using hx)⟩

end Machine

/-! ## Programs -/

theorem Program.exec?_append (store : String → Word) (p q : Program) :
    exec? store (p ++ q) = (exec? store p).bind fun after => exec? after q := by
  rw [exec?, List.foldlM_append]
  rfl

theorem Program.exec?_concat (store : String → Word) (p : Program) (s : Statement) :
    exec? store (p ++ [s]) = (exec? store p).bind fun after => s.exec? after := by
  rw [exec?_append]
  simp only [exec?, List.foldlM_cons, List.foldlM_nil, bind_pure]

/-- The words that the slots hold at the start do not matter, since a program in scope
reads a name only after it has assigned to it. -/
theorem Machine.stores_program {slot : String → Nat} {p : Program} (hp : p.Scoped)
    (hslot : ∀ x ∈ p.targets, ∀ y ∈ p.targets, slot x = slot y → x = y)
    (store : String → Word) (m : Machine) :
    m.Stores (p.flatMap (Statement.code slot)) slot p.targets (p.exec? store) := by
  induction p using List.reverseRecOn with
  | nil => exact ⟨m, rfl, rfl, fun x hx => absurd hx List.not_mem_nil⟩
  | append_singleton p s ih =>
    obtain ⟨hp, hreads⟩ := Program.scoped_concat_iff.1 hp
    have hfront := ih hp fun x hx y hy =>
      hslot x (Program.mem_targets_concat.2 (.inl hx)) y (Program.mem_targets_concat.2 (.inl hy))
    rw [List.flatMap_append, List.flatMap_singleton, Program.exec?_concat, Program.targets_concat]
    apply hfront.append
    intro n after hslots
    apply n.stores_statement s hreads ?_ hslots
    intro x hx y hy
    exact hslot x (Program.mem_targets_concat.2 (.inl hx)) y
      (Program.mem_targets_concat.2 (.inr hy))

theorem Program.slot_of_slot? {p : Program} {x : String} {i : Nat}
    (h : p.symbols.slot? x = some i) : p.slot x = i := by
  rw [slot, h, Option.getD_some]

theorem Program.slot?_of_mem_targets {p : Program} {x : String} (h : x ∈ p.targets) :
    p.symbols.slot? x = some (p.slot x) := by
  obtain ⟨i, hi⟩ := SymbolTable.slot?_eq_some_of_mem (mem_names_symbols.2 h)
  rw [hi, slot_of_slot? hi]

theorem Program.slot_injective {p : Program} {x y : String} (hx : x ∈ p.targets)
    (hy : y ∈ p.targets) (h : p.slot x = p.slot y) : x = y := by
  have hsx := slot?_of_mem_targets hx
  rw [h] at hsx
  exact SymbolTable.slot?_injective hsx (slot?_of_mem_targets hy)

theorem Program.stores_code {p : Program} (hp : p.Scoped) (store : String → Word) (m : Machine) :
    m.Stores p.code p.slot p.targets (p.exec? store) :=
  Machine.stores_program hp (fun _ hx _ hy => slot_injective hx hy) store m

/-- The code of a source faults exactly if the program that the source writes does.
Otherwise it leaves the operands below alone and the final word of every variable in its
slot, from whatever words the machine starts with. -/
theorem compile_preserves_meaning {source : String} {options : Options} {c : Compilation}
    (h : compile source options = .ok c) :
    (∃! p, Writes source p) ∧
      ∀ p, Writes source p → ∀ (m : Machine) (store : String → Word),
        ((∃ f, m.run c.assembly.body = .error f) ↔ p.exec? store = none) ∧
        ∀ after, p.exec? store = some after →
          ∃ n, m.run c.assembly.body = .ok n ∧ n.stack = m.stack ∧
            ∀ x ∈ p.targets, ∃ i, c.symbols.slot? x = some i ∧ n.slots i = after x := by
  obtain ⟨p, values, hp, hscoped, -, hc⟩ := translates_of_compile h
  refine ⟨⟨p, hp, fun q hq => hq.unique hp⟩, ?_⟩
  intro q hq m store
  obtain rfl := hq.unique hp
  have hstores := Program.stores_code hscoped store m
  rw [hc.body_eq, hc.symbols_eq]
  cases hafter : q.exec? store with
  | none =>
    rw [hafter] at hstores
    have hrun : m.run q.code = .error .division := hstores
    rw [hrun]
    simp
  | some after =>
    rw [hafter] at hstores
    obtain ⟨n, hrun, hstack, hslots⟩ := hstores
    rw [hrun]
    constructor
    · simp
    · intro last hlast
      obtain rfl := Option.some.inj hlast
      exact ⟨n, rfl, hstack, fun x hx => ⟨q.slot x, Program.slot?_of_mem_targets hx, hslots x hx⟩⟩

/-- A negative dividend, a name that is assigned again, and a value that is dropped. -/
theorem compile_preserves_meaning_division :
    ∃ c, compile "a := 2 - 9; b := a / 2 - a; a := b; a;" {} = .ok c ∧
      (∃! p, Writes "a := 2 - 9; b := a / 2 - a; a := b; a;" p) ∧
      ∀ p, Writes "a := 2 - 9; b := a / 2 - a; a := b; a;" p →
        ∀ (m : Machine) (store : String → Word),
          ((∃ f, m.run c.assembly.body = .error f) ↔ p.exec? store = none) ∧
          ∀ after, p.exec? store = some after →
            ∃ n, m.run c.assembly.body = .ok n ∧ n.stack = m.stack ∧
              ∀ x ∈ p.targets, ∃ i, c.symbols.slot? x = some i ∧ n.slots i = after x := by
  obtain ⟨c, h⟩ := exists_compile_of_isOk
    "a := 2 - 9; b := a / 2 - a; a := b; a;" {} (by decide +kernel)
  exact ⟨c, h, compile_preserves_meaning h⟩

end OnePass
