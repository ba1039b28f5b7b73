import OnePass.Processor
import OnePass.Proofs.Translation

/-!
The frame of a function is left as it was found.

Which addresses a body touches depends on two numbers that its code fixes: the slot of
each variable, and how many operands are pending at each instruction.  Code that `Carries`
one count of operands to another keeps the base of the frame in place and the top of the
stack below the variables, whatever words it computes; the code of every program in scope
carries none to none.
-/

namespace OnePass

/-! ## Code that fits a frame -/

/-- The register is none of those that hold the frame. -/
def Register.Scratch (r : Register) : Prop :=
  r ≠ .ebp ∧ r ≠ .esp

namespace Instruction

/-- The instruction may stand in a body with `slots` variables where `depth` operands are
pending. -/
def Fits (slots depth : Nat) : Instruction → Prop
  | pushLiteral _ | pushRegister _ | extendSign | divide _ => True
  | pushSlot slot => 1 ≤ slot ∧ slot ≤ slots
  | popSlot slot => 0 < depth ∧ 1 ≤ slot ∧ slot ≤ slots
  | popRegister r => 0 < depth ∧ r.Scratch
  | add _ target | sub _ target | mul _ target => target.Scratch
  | _ => False

/-- The code fits a body from its first instruction to its last, and takes the number of
operands pending from `depth` to `after`. -/
def Carries (slots : Nat) : List Instruction → Nat → Nat → Prop
  | [], depth, after => depth = after
  | i :: rest, depth, after => i.Fits slots depth ∧ Carries slots rest (i.depthAfter depth) after

theorem carries_append {slots : Nat} {a b : List Instruction} {depth after : Nat} :
    Carries slots (a ++ b) depth after ↔
      ∃ between, Carries slots a depth between ∧ Carries slots b between after := by
  induction a generalizing depth with
  | nil => exact ⟨fun h => ⟨depth, rfl, h⟩, fun ⟨_, rfl, h⟩ => h⟩
  | cons i rest ih =>
    rw [List.cons_append, Carries, ih]
    constructor
    · rintro ⟨hi, between, ha, hb⟩
      exact ⟨between, ⟨hi, ha⟩, hb⟩
    · rintro ⟨between, ⟨hi, ha⟩, hb⟩
      exact ⟨hi, between, ha, hb⟩

theorem carries_binary (op : BinaryOp) (slots depth : Nat) :
    Carries slots (binary op) (depth + 2) (depth + 1) := by
  have hebx : (popRegister .ebx).Fits slots (depth + 2) := ⟨Nat.succ_pos _, by decide, by decide⟩
  have heax : (popRegister .eax).Fits slots (depth + 1) := ⟨Nat.succ_pos _, by decide, by decide⟩
  have hpush : Carries slots [pushRegister .eax] depth (depth + 1) := ⟨trivial, rfl⟩
  cases op with
  | add => exact ⟨hebx, heax, ⟨by decide, by decide⟩, hpush⟩
  | sub => exact ⟨hebx, heax, ⟨by decide, by decide⟩, hpush⟩
  | mul => exact ⟨hebx, heax, ⟨by decide, by decide⟩, hpush⟩
  | div => exact ⟨hebx, heax, trivial, trivial, hpush⟩

/-- In two parts of code the one that runs second can be the one with the most operands. -/
theorem peak_le_of_append {slots : Nat} {a b : List Instruction} {depth between : Nat}
    (h : Carries slots a depth between) : peak between b ≤ peak depth (a ++ b) := by
  induction a generalizing depth with
  | nil =>
    obtain rfl : depth = between := h
    exact Nat.le_refl _
  | cons i rest ih => exact Nat.le_trans (ih h.2) (Nat.le_max_right _ _)

theorem peak_le_append (depth : Nat) (a b : List Instruction) :
    peak depth a ≤ peak depth (a ++ b) := by
  induction a generalizing depth with
  | nil => exact le_peak depth b
  | cons i rest ih =>
    have hrest := ih (i.depthAfter depth)
    rw [List.cons_append, peak, peak]
    omega

end Instruction

open Instruction (Carries)

theorem Expr.carries_code {slots : Nat} {slot : String → Nat} (e : Expr)
    (h : ∀ x ∈ e.reads, 1 ≤ slot x ∧ slot x ≤ slots) (depth : Nat) :
    Carries slots (e.code slot) depth (depth + 1) := by
  induction e generalizing depth with
  | literal value => exact ⟨trivial, rfl⟩
  | read name => exact ⟨h name (List.mem_singleton.2 rfl), rfl⟩
  | binary op lhs rhs ihl ihr =>
    have hl := ihl (fun x hx => h x (List.mem_append_left _ hx)) depth
    have hr := ihr (fun x hx => h x (List.mem_append_right _ hx)) (depth + 1)
    have hlr := Instruction.carries_append.2 ⟨depth + 1, hl, hr⟩
    exact Instruction.carries_append.2 ⟨depth + 2, hlr, Instruction.carries_binary op slots depth⟩

theorem Statement.carries_code {slots : Nat} {slot : String → Nat} (s : Statement)
    (hreads : ∀ x ∈ s.reads, 1 ≤ slot x ∧ slot x ≤ slots)
    (htarget : ∀ x, s.target? = some x → 1 ≤ slot x ∧ slot x ≤ slots) :
    Carries slots (s.code slot) 0 0 := by
  cases s with
  | assign name e =>
    have hstore : Carries slots [.popSlot (slot name)] 1 0 :=
      ⟨⟨Nat.one_pos, htarget name rfl⟩, rfl⟩
    exact Instruction.carries_append.2 ⟨1, e.carries_code hreads 0, hstore⟩
  | discard e =>
    have hdrop : Carries slots [.popRegister .eax] 1 0 :=
      ⟨⟨Nat.one_pos, by decide, by decide⟩, rfl⟩
    exact Instruction.carries_append.2 ⟨1, e.carries_code hreads 0, hdrop⟩
  | empty => rfl

theorem SymbolTable.slot?_bounds {t : SymbolTable} {name : String} {i : Nat}
    (h : t.slot? name = some i) : 1 ≤ i ∧ i ≤ t.size := by
  obtain ⟨j, hj, rfl⟩ := Option.map_eq_some_iff.1 h
  obtain ⟨hlt, -, -⟩ := List.idxOf?_eq_some_iff.1 hj
  exact ⟨Nat.le_add_left 1 j, hlt⟩

namespace Program

variable {p : Program}

theorem slot_bounds {x : String} (h : x ∈ p.targets) :
    1 ≤ p.slot x ∧ p.slot x ≤ p.symbols.size := by
  obtain ⟨i, hi⟩ := SymbolTable.slot?_eq_some_of_mem (mem_names_symbols.2 h)
  rw [slot, hi, Option.getD_some]
  exact SymbolTable.slot?_bounds hi

/-- The code of a program in scope fits a frame with one slot for each of its variables. -/
theorem carries_code (h : p.Scoped) : Carries p.symbols.size p.code 0 0 := by
  have hall : ∀ q : Program, q ⊆ p →
      Carries p.symbols.size (q.flatMap (Statement.code p.slot)) 0 0 := by
    intro q
    induction q with
    | nil => exact fun _ => rfl
    | cons s rest ih =>
      intro hq
      have hs : s ∈ p := hq List.mem_cons_self
      have hrest := ih fun t ht => hq (List.mem_cons_of_mem s ht)
      rw [List.flatMap_cons]
      refine Instruction.carries_append.2 ⟨0, s.carries_code ?_ ?_, hrest⟩
      · exact fun x hx => slot_bounds (h.reads_subset hs hx)
      · exact fun x hx => slot_bounds (List.mem_filterMap.2 ⟨s, hs, hx⟩)
  exact hall p (List.Subset.refl p)

end Program

/-! ## Inside a body -/

namespace Processor

variable {m n entry : Processor} {slots depth : Nat} {i : Instruction}

/-- The frame of a function that was entered in the state `entry`: the base lies one word
below the top of the stack then, the operands lie below the variables, and from the base
upwards memory holds what the caller left there. -/
structure Framed (m entry : Processor) (slots depth : Nat) : Prop where
  ebp_eq : m.ebp.toNat + 4 = entry.esp.toNat
  esp_eq : m.esp.toNat + 4 + 4 * slots + 4 * depth = entry.esp.toNat
  saved : m.memory m.ebp = entry.ebp
  kept : ∀ a : Word, entry.esp.toNat ≤ a.toNat → m.memory a = entry.memory a

theorem Framed.toNat_address (h : m.Framed entry slots depth) {slot : Nat} (hle : slot ≤ slots) :
    (m.address slot).toNat + 4 + 4 * slot = entry.esp.toNat := by
  have hbase := h.ebp_eq
  have htop := h.esp_eq
  have hentry := entry.esp.isLt
  have hoffset : (BitVec.ofNat 32 (slotSize * slot)).toNat = 4 * slot := by
    rw [BitVec.toNat_ofNat, slotSize, Nat.mod_eq_of_lt (by omega)]
  have hsub : (m.address slot).toNat = m.ebp.toNat - 4 * slot := by
    rw [address, BitVec.toNat_sub_of_le, hoffset]
    rw [BitVec.le_def, hoffset]
    omega
  omega

/-- A push has its place below the variables. -/
theorem Framed.toNat_push (h : m.Framed entry slots depth)
    (hroom : 4 + 4 * slots + 4 * (depth + 1) ≤ entry.esp.toNat) :
    (m.esp - 4).toNat + 4 + 4 * slots + 4 * (depth + 1) = entry.esp.toNat := by
  have htop := h.esp_eq
  have hle : (4 : Word) ≤ m.esp := by
    rw [BitVec.le_def]
    show 4 ≤ m.esp.toNat
    omega
  have hsub : (m.esp - 4).toNat = m.esp.toNat - 4 := BitVec.toNat_sub_of_le hle
  omega

theorem Framed.toNat_drop (h : m.Framed entry slots (depth + 1)) :
    (m.esp + 4).toNat + 4 + 4 * slots + 4 * depth = entry.esp.toNat := by
  have htop := h.esp_eq
  have hentry := entry.esp.isLt
  have hadd : (m.esp + 4).toNat = m.esp.toNat + 4 := by
    rw [BitVec.toNat_add]
    exact Nat.mod_eq_of_lt (by show m.esp.toNat + 4 < _; omega)
  omega

theorem Framed.push (h : m.Framed entry slots depth) (w : Word)
    (hroom : 4 + 4 * slots + 4 * (depth + 1) ≤ entry.esp.toNat) :
    (m.push w).Framed entry slots (depth + 1) := by
  have hbase := h.ebp_eq
  have hplace := h.toNat_push hroom
  have habove : ∀ a : Word, entry.esp.toNat ≤ a.toNat + 4 → (m.push w).memory a = m.memory a := by
    intro a ha
    apply memory_push_of_ne
    rintro rfl
    omega
  refine ⟨hbase, hplace, ?_, ?_⟩
  · rw [ebp_push, habove m.ebp (by omega)]
    exact h.saved
  · intro a ha
    rw [habove a (by omega)]
    exact h.kept a ha

theorem Framed.dropped (h : m.Framed entry slots (depth + 1)) :
    m.dropped.Framed entry slots depth :=
  ⟨h.ebp_eq, h.toNat_drop, h.saved, h.kept⟩

/-- A store to a variable leaves the frame as it is. -/
theorem Framed.store (h : m.Framed entry slots depth) {slot : Nat} (hslot : 1 ≤ slot ∧ slot ≤ slots)
    (w : Word) : (m.write (m.address slot) w).Framed entry slots depth := by
  have hbase := h.ebp_eq
  have hplace := h.toNat_address hslot.2
  have habove : ∀ a : Word, entry.esp.toNat ≤ a.toNat + 4 →
      (m.write (m.address slot) w).memory a = m.memory a := by
    intro a ha
    apply if_neg
    rintro rfl
    omega
  refine ⟨hbase, h.esp_eq, ?_, ?_⟩
  · exact (habove m.ebp (by omega)).trans h.saved
  · intro a ha
    exact (habove a (by omega)).trans (h.kept a ha)

/-- What is done in registers other than those of the frame. -/
def SameFrame (m n : Processor) : Prop :=
  n.esp = m.esp ∧ n.ebp = m.ebp ∧ n.memory = m.memory

theorem sameFrame_setRegister {r : Register} (hr : r.Scratch) (w : Word) :
    m.SameFrame (m.setRegister r w) :=
  ⟨if_neg hr.2.symm, if_neg hr.1.symm, rfl⟩

theorem divide_cases (m : Processor) (divisor : Register) :
    m.step (.divide divisor) = .fault ∨
      ∃ n, m.step (.divide divisor) = .next n ∧ m.SameFrame n := by
  simp only [step, arithmetic, Machine.step, Machine.divide]
  by_cases hzero : m.registers divisor = 0
  · simp [hzero]
  · rw [if_neg hzero]
    split
    · next heq =>
      split at heq
      · cases heq
      · obtain rfl := Except.ok.inj heq
        exact .inr ⟨_, rfl, rfl, rfl, rfl⟩
    · exact .inl rfl

/-- All that an instruction of a body can do: push a word, take one off for a variable or a
register, or compute in registers. -/
theorem step_cases (m : Processor) (hi : i.Fits slots depth) :
    (i.isPush = true ∧ ∃ w, m.step i = .next (m.push w)) ∨
      (∃ slot, i = .popSlot slot ∧ 0 < depth ∧ (1 ≤ slot ∧ slot ≤ slots) ∧
        m.step i = .next (m.dropped.write (m.address slot) m.top)) ∨
      (∃ r n, i = .popRegister r ∧ 0 < depth ∧ m.step i = .next n ∧ m.dropped.SameFrame n) ∨
      i.isPush = false ∧ i.isPop = false ∧
        (m.step i = .fault ∨ ∃ n, m.step i = .next n ∧ m.SameFrame n) := by
  cases i with
  | pushLiteral value => exact .inl ⟨rfl, _, rfl⟩
  | pushSlot slot => exact .inl ⟨rfl, _, rfl⟩
  | pushRegister r => exact .inl ⟨rfl, _, rfl⟩
  | popSlot slot => exact .inr (.inl ⟨slot, rfl, hi.1, hi.2, rfl⟩)
  | popRegister r =>
    exact .inr (.inr (.inl ⟨r, _, rfl, hi.1, rfl, sameFrame_setRegister hi.2 _⟩))
  | add source target =>
    exact .inr (.inr (.inr ⟨rfl, rfl, .inr ⟨_, rfl, sameFrame_setRegister hi _⟩⟩))
  | sub source target =>
    exact .inr (.inr (.inr ⟨rfl, rfl, .inr ⟨_, rfl, sameFrame_setRegister hi _⟩⟩))
  | mul source target =>
    exact .inr (.inr (.inr ⟨rfl, rfl, .inr ⟨_, rfl, sameFrame_setRegister hi _⟩⟩))
  | extendSign => exact .inr (.inr (.inr ⟨rfl, rfl, .inr ⟨_, rfl, rfl, rfl, rfl⟩⟩))
  | divide divisor => exact .inr (.inr (.inr ⟨rfl, rfl, m.divide_cases divisor⟩))
  | _ => exact absurd hi id

theorem Framed.of_sameFrame (h : m.Framed entry slots depth) (hn : m.SameFrame n) :
    n.Framed entry slots depth := by
  obtain ⟨hesp, hebp, hmemory⟩ := hn
  refine ⟨?_, ?_, ?_, ?_⟩
  · rw [hebp]
    exact h.ebp_eq
  · rw [hesp]
    exact h.esp_eq
  · rw [hmemory, hebp]
    exact h.saved
  · rw [hmemory]
    exact h.kept

/-- One instruction of a body faults or keeps the frame. -/
theorem Framed.step (h : m.Framed entry slots depth) (hi : i.Fits slots depth)
    (hroom : 4 + 4 * slots + 4 * i.depthAfter depth ≤ entry.esp.toNat) :
    m.step i = .fault ∨ ∃ n, m.step i = .next n ∧ n.Framed entry slots (i.depthAfter depth) := by
  rcases m.step_cases hi with ⟨hpush, w, hstep⟩ | ⟨slot, rfl, hpos, hslot, hstep⟩ |
    ⟨r, n, rfl, hpos, hstep, hn⟩ | ⟨hpush, hpop, hstep⟩
  · have hdepth : i.depthAfter depth = depth + 1 := by rw [Instruction.depthAfter, if_pos hpush]
    rw [hdepth] at hroom ⊢
    exact .inr ⟨_, hstep, h.push w hroom⟩
  · obtain ⟨below, rfl⟩ : ∃ below, depth = below + 1 := ⟨depth - 1, by omega⟩
    exact .inr ⟨_, hstep, h.dropped.store hslot m.top⟩
  · obtain ⟨below, rfl⟩ : ∃ below, depth = below + 1 := ⟨depth - 1, by omega⟩
    exact .inr ⟨n, hstep, h.dropped.of_sameFrame hn⟩
  · have hdepth : i.depthAfter depth = depth := by
      rw [Instruction.depthAfter, hpush, hpop]
      rfl
    rw [hdepth]
    rcases hstep with hstep | ⟨n, hstep, hn⟩
    · exact .inl hstep
    · exact .inr ⟨n, hstep, h.of_sameFrame hn⟩

/-- The memory that an instruction of a body touches, for a function entered with the top of
its stack at `entry`: its variables are among the words of the frame, a push goes below all
of them, and from the last variable upwards only a store to a variable changes a word. -/
structure Confined (m : Processor) (entry : Word) (slots : Nat) (i : Instruction) : Prop where
  variable_at : ∀ slot, i = .pushSlot slot ∨ i = .popSlot slot →
    ∃ k, 1 ≤ k ∧ k ≤ slots ∧ (m.address slot).toNat + 4 + 4 * k = entry.toNat
  push_below : i.isPush = true →
    (∃ w, m.step i = .next (m.push w)) ∧ (m.esp - 4).toNat + 4 + 4 * slots < entry.toNat
  unchanged : ∀ n, m.step i = .next n → ∀ a : Word, entry.toNat ≤ a.toNat + 4 + 4 * slots →
    (∀ slot, i = .popSlot slot → a ≠ m.address slot) → n.memory a = m.memory a

theorem Framed.confined (h : m.Framed entry slots depth) (hi : i.Fits slots depth)
    (hroom : 4 + 4 * slots + 4 * i.depthAfter depth ≤ entry.esp.toNat) :
    m.Confined entry.esp slots i := by
  have hplace : i.isPush = true → (m.esp - 4).toNat + 4 + 4 * slots < entry.esp.toNat := by
    intro hpush
    rw [Instruction.depthAfter, if_pos hpush] at hroom
    have hplace := h.toNat_push hroom
    omega
  refine ⟨?_, ?_, ?_⟩
  · rintro slot (rfl | rfl)
    · exact ⟨slot, hi.1, hi.2, h.toNat_address hi.2⟩
    · exact ⟨slot, hi.2.1, hi.2.2, h.toNat_address hi.2.2⟩
  · intro hpush
    refine ⟨?_, hplace hpush⟩
    rcases m.step_cases hi with ⟨-, hw⟩ | ⟨slot, rfl, -⟩ | ⟨r, n, rfl, -⟩ | ⟨hno, -⟩
    · exact hw
    · cases hpush
    · cases hpush
    · rw [hno] at hpush
      cases hpush
  · intro n hn a ha hstore
    rcases m.step_cases hi with ⟨hpush, w, hstep⟩ | ⟨slot, rfl, -, -, hstep⟩ |
      ⟨r, o, rfl, -, hstep, ho⟩ | ⟨-, -, hstep | ⟨o, hstep, ho⟩⟩
    · rw [hn] at hstep
      obtain rfl := Step.next.inj hstep
      have hlow := hplace hpush
      apply memory_push_of_ne
      rintro rfl
      omega
    · rw [hn] at hstep
      obtain rfl := Step.next.inj hstep
      exact if_neg (hstore slot rfl)
    · rw [hn] at hstep
      obtain rfl := Step.next.inj hstep
      rw [ho.2.2, memory_dropped]
    · rw [hn] at hstep
      cases hstep
    · rw [hn] at hstep
      obtain rfl := Step.next.inj hstep
      rw [ho.2.2]

/-- Code that fits faults or keeps the frame, if the stack has room for its operands. -/
theorem Framed.run (h : m.Framed entry slots depth) {code : List Instruction} {after : Nat}
    (hcode : Carries slots code depth after)
    (hroom : 4 + 4 * slots + 4 * Instruction.peak depth code ≤ entry.esp.toNat) :
    m.run code = .fault ∨ ∃ n, m.run code = .next n ∧ n.Framed entry slots after := by
  induction code generalizing m depth with
  | nil =>
    obtain rfl : depth = after := hcode
    exact .inr ⟨m, rfl, h⟩
  | cons i rest ih =>
    obtain ⟨hi, hrest⟩ := hcode
    have hle := Instruction.le_peak (i.depthAfter depth) rest
    rw [Instruction.peak] at hroom
    rcases h.step hi (by omega) with hfault | ⟨n, hnext, hn⟩
    · exact .inl (by rw [Processor.run, hfault])
    · rw [run_cons_of_next hnext]
      exact ih hn hrest (by omega)

/-! ## Into the body and out of it -/

/-- The preamble leaves a frame without operands. -/
theorem framed_preamble (m : Processor) (a : Assembly)
    (hroom : 4 + 4 * a.slots ≤ m.esp.toNat) :
    ∃ n, m.run a.preamble = .next n ∧ n.Framed m a.slots 0 := by
  have hentry := m.esp.isLt
  have hbase : (m.esp - 4).toNat + 4 = m.esp.toNat := by
    have hle : (4 : Word) ≤ m.esp := by
      rw [BitVec.le_def]
      show 4 ≤ m.esp.toNat
      omega
    have hsub : (m.esp - 4).toNat = m.esp.toNat - 4 := BitVec.toNat_sub_of_le hle
    omega
  have hbytes : (BitVec.ofNat 32 a.reservedBytes).toNat = 4 * a.slots := by
    rw [BitVec.toNat_ofNat, Assembly.reservedBytes, slotSize, Nat.mod_eq_of_lt (by omega)]
  have htop : (m.esp - 4 - BitVec.ofNat 32 a.reservedBytes).toNat + 4 + 4 * a.slots =
      m.esp.toNat := by
    have hle : BitVec.ofNat 32 a.reservedBytes ≤ m.esp - 4 := by
      rw [BitVec.le_def, hbytes]
      omega
    rw [BitVec.toNat_sub_of_le hle, hbytes]
    omega
  refine ⟨_, rfl, hbase, htop, if_pos rfl, ?_⟩
  intro a ha
  apply memory_push_of_ne
  rintro rfl
  omega

/-- The epilogue finds the caller's base and the return address where they were put. -/
theorem Framed.epilogue (h : m.Framed entry slots depth) :
    ∃ n, m.run Assembly.epilogue = .returned (entry.memory entry.esp) n ∧
      n.ebp = entry.ebp ∧ n.esp = entry.esp + 4 ∧
      ∀ a : Word, entry.esp.toNat ≤ a.toNat → n.memory a = entry.memory a := by
  have htop : m.ebp + 4 = entry.esp := by
    have hbase := h.ebp_eq
    have hentry := entry.esp.isLt
    apply BitVec.eq_of_toNat_eq
    rw [BitVec.toNat_add, ← hbase]
    exact Nat.mod_eq_of_lt (by show m.ebp.toNat + 4 < _; omega)
  have hreturn : m.memory (m.ebp + 4) = entry.memory entry.esp := by
    rw [htop]
    exact h.kept _ (Nat.le_refl _)
  rw [← hreturn, ← htop]
  refine ⟨_, rfl, h.saved, rfl, ?_⟩
  rw [htop]
  exact h.kept

end Processor

theorem Assembly.instructions_eq (a : Assembly) :
    a.instructions = a.preamble ++ (a.body ++ epilogue) := by
  rw [instructions, List.append_assoc]

/-- A function that is entered with room on the stack touches nothing but its frame.  The
variables of its body lie in the words below the saved base, one for each name, and every
push lies below them.  Unless a division faults, the top of the stack is back under the
variables at the end of the body, and the caller gets back its base, its stack and its
memory at the address it is to go on from. -/
theorem function_keeps_frame {source : String} {options : Options} {c : Compilation}
    (h : compile source options = .ok c) {m : Processor}
    (hroom : c.assembly.room ≤ m.esp.toNat) :
    (∀ done i rest n, c.assembly.body = done ++ i :: rest →
      m.run (c.assembly.preamble ++ done) = .next n → n.Confined m.esp c.symbols.size i) ∧
    (m.run c.assembly.instructions ≠ .fault →
      (∃ n, m.run (c.assembly.preamble ++ c.assembly.body) = .next n ∧
        n.esp.toNat + 4 * c.symbols.size = n.ebp.toNat) ∧
      ∃ n, m.run c.assembly.instructions = .returned (m.memory m.esp) n ∧
        n.ebp = m.ebp ∧ n.esp = m.esp + 4 ∧
        ∀ a : Word, m.esp.toNat ≤ a.toNat → n.memory a = m.memory a) := by
  obtain ⟨p, values, -, hscoped, -, hc⟩ := translates_of_compile h
  have hslots : c.assembly.slots = c.symbols.size := by rw [hc.slots_eq, hc.symbols_eq]
  have hbody : Carries c.symbols.size c.assembly.body 0 0 := by
    rw [hc.symbols_eq, hc.body_eq]
    exact p.carries_code hscoped
  rw [Assembly.room, slotSize, hslots] at hroom
  obtain ⟨entered, hpreamble, hentered⟩ := m.framed_preamble c.assembly (by omega)
  rw [hslots] at hentered
  constructor
  · intro done i rest n hsplit hn
    rw [hsplit] at hbody hroom
    obtain ⟨between, hdone, hi, -⟩ := Instruction.carries_append.1 hbody
    have hfront := Instruction.peak_le_append 0 done (i :: rest)
    have hback := Instruction.peak_le_of_append (b := i :: rest) hdone
    rw [Processor.run_append_of_next hpreamble] at hn
    rcases hentered.run hdone (by omega) with hfault | ⟨o, ho, hframed⟩
    · rw [hfault] at hn
      cases hn
    · rw [ho] at hn
      obtain rfl := Processor.Step.next.inj hn
      have hnext := Instruction.le_peak (i.depthAfter between) rest
      rw [Instruction.peak] at hback
      exact hframed.confined hi (by omega)
  · intro hsafe
    rw [Assembly.instructions_eq, Processor.run_append_of_next hpreamble] at hsafe ⊢
    rw [Processor.run_append_of_next hpreamble]
    rcases hentered.run hbody (by omega) with hfault | ⟨n, hn, hframed⟩
    · exact absurd (Processor.run_append_of_fault hfault Assembly.epilogue) hsafe
    · have hbase := hframed.ebp_eq
      have htop := hframed.esp_eq
      rw [Processor.run_append_of_next hn]
      exact ⟨⟨n, hn, by omega⟩, hframed.epilogue⟩

/-- Two variables and three operands at once on a stack that has just the room for them. -/
theorem function_keeps_frame_tight :
    ∃ (c : Compilation) (m : Processor), compile "a := 2; b := a * (3 - a) / 2; b;" {} = .ok c ∧
      m.esp = 24 ∧ c.assembly.room = 24 ∧
      (∀ done i rest n, c.assembly.body = done ++ i :: rest →
        m.run (c.assembly.preamble ++ done) = .next n → n.Confined m.esp c.symbols.size i) ∧
      (∃ n, m.run (c.assembly.preamble ++ c.assembly.body) = .next n ∧
        n.esp.toNat + 4 * c.symbols.size = n.ebp.toNat) ∧
      ∃ n, m.run c.assembly.instructions = .returned (m.memory m.esp) n ∧
        n.ebp = m.ebp ∧ n.esp = m.esp + 4 ∧
        ∀ a : Word, m.esp.toNat ≤ a.toNat → n.memory a = m.memory a := by
  let m : Processor := ⟨fun _ => 24, 0, id⟩
  obtain ⟨c, h, hcheck⟩ := exists_compile_of_check "a := 2; b := a * (3 - a) / 2; b;" {}
    (fun c => decide (c.assembly.room = 24) &&
      match m.run c.assembly.instructions with
      | .fault => false
      | _ => true) (by decide +kernel)
  obtain ⟨hroom, hrun⟩ := Bool.and_eq_true_iff.1 hcheck
  have hroom := of_decide_eq_true hroom
  have hsafe : m.run c.assembly.instructions ≠ .fault := by
    intro hfault
    rw [hfault] at hrun
    cases hrun
  obtain ⟨hbody, hreturn⟩ := function_keeps_frame h (m := m) (by rw [hroom]; decide)
  exact ⟨c, m, h, rfl, hroom, hbody, hreturn hsafe⟩

end OnePass
