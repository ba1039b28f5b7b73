import OnePass.Assembly
import OnePass.Machine

/-!
The processor that runs a whole function.

Operands, variables, the saved base and the return address lie in one memory here, and
nothing but their addresses keeps them apart.  Memory is read and written by words; an
address is that of the first byte of a word.
-/

namespace OnePass

/-- The registers and the memory.  `edx` holds the upper half of a dividend. -/
structure Processor where
  registers : Register → Word
  edx : Word
  memory : Word → Word

namespace Processor

/-- The address of the top of the stack, which grows downwards. -/
def esp (m : Processor) : Word :=
  m.registers .esp

/-- The base of the frame. -/
def ebp (m : Processor) : Word :=
  m.registers .ebp

def setRegister (m : Processor) (r : Register) (w : Word) : Processor :=
  { m with registers := fun s => if s = r then w else m.registers s }

def write (m : Processor) (address w : Word) : Processor :=
  { m with memory := fun a => if a = address then w else m.memory a }

/-- The address of a slot of the frame. -/
def address (m : Processor) (slot : Nat) : Word :=
  m.ebp - BitVec.ofNat 32 (slotSize * slot)

/-- Put a word on the stack, below all that is there. -/
def push (m : Processor) (w : Word) : Processor :=
  (m.write (m.esp - 4) w).setRegister .esp (m.esp - 4)

/-- The word on top of the stack. -/
def top (m : Processor) : Word :=
  m.memory m.esp

/-- The processor with the topmost word taken off the stack. -/
def dropped (m : Processor) : Processor :=
  m.setRegister .esp (m.esp + 4)

/-- What one instruction leads to. -/
inductive Step
  /-- Control goes on to the next instruction. -/
  | next (m : Processor)
  /-- Control goes to the address that a return takes off the stack. -/
  | returned (address : Word) (m : Processor)
  /-- A division by zero, or a quotient that is no word. -/
  | fault

/-- Arithmetic is done in registers alone, as by the machine that runs bodies. -/
def arithmetic (m : Processor) (i : Instruction) : Step :=
  match Machine.step ⟨m.registers, m.edx, fun _ => 0, []⟩ i with
  | .ok n => .next { m with registers := n.registers, edx := n.edx }
  | .error _ => .fault

/-- Run one instruction.  Lines that only name something do nothing. -/
def step (m : Processor) (i : Instruction) : Step :=
  match i with
  | .global _ | .label _ => .next m
  | .pushLiteral value => .next (m.push (BitVec.ofInt 32 value.toInt))
  | .pushSlot slot => .next (m.push (m.memory (m.address slot)))
  | .pushRegister r => .next (m.push (m.registers r))
  | .popSlot slot => .next (m.dropped.write (m.address slot) m.top)
  | .popRegister r => .next (m.dropped.setRegister r m.top)
  | .copy source target => .next (m.setRegister target (m.registers source))
  | .reserve bytes => .next (m.setRegister .esp (m.esp - BitVec.ofNat 32 bytes))
  | .add .. | .sub .. | .mul .. | .extendSign | .divide _ => m.arithmetic i
  | .leave =>
    let below := m.setRegister .esp m.ebp
    .next (below.dropped.setRegister .ebp below.top)
  | .ret => .returned m.top m.dropped

/-- Run code until it ends, returns or faults. -/
def run (m : Processor) : List Instruction → Step
  | [] => .next m
  | i :: rest =>
    match m.step i with
    | .next n => n.run rest
    | stop => stop

/-! ## Equations -/

@[simp]
theorem ebp_push (m : Processor) (w : Word) : (m.push w).ebp = m.ebp := rfl

theorem memory_push_of_ne (m : Processor) (w : Word) {a : Word} (h : a ≠ m.esp - 4) :
    (m.push w).memory a = m.memory a :=
  if_neg h

@[simp]
theorem memory_dropped (m : Processor) : m.dropped.memory = m.memory := rfl

theorem run_cons_of_next {m n : Processor} {i : Instruction} (h : m.step i = .next n)
    (rest : List Instruction) : m.run (i :: rest) = n.run rest := by
  rw [run, h]

theorem run_append_of_next {m n : Processor} {a : List Instruction} (h : m.run a = .next n)
    (b : List Instruction) : m.run (a ++ b) = n.run b := by
  induction a generalizing m with
  | nil =>
    obtain rfl := Step.next.inj h
    rfl
  | cons i rest ih =>
    rw [run] at h
    cases hi : m.step i with
    | next o =>
      rw [hi] at h
      rw [List.cons_append, run_cons_of_next hi]
      exact ih h
    | returned address o =>
      rw [hi] at h
      cases h
    | fault =>
      rw [hi] at h
      cases h

theorem run_append_of_fault {m : Processor} {a : List Instruction} (h : m.run a = .fault)
    (b : List Instruction) : m.run (a ++ b) = .fault := by
  induction a generalizing m with
  | nil => cases h
  | cons i rest ih =>
    rw [run] at h
    rw [List.cons_append, run]
    cases hi : m.step i with
    | next o =>
      rw [hi] at h
      exact ih h
    | returned address o =>
      rw [hi] at h
      cases h
    | fault => rfl

end Processor

/-! ## Room on the stack -/

namespace Instruction

/-- The instruction puts an operand on the stack. -/
def isPush : Instruction → Bool
  | pushLiteral _ | pushSlot _ | pushRegister _ => true
  | _ => false

/-- The instruction takes an operand off the stack. -/
def isPop : Instruction → Bool
  | popSlot _ | popRegister _ => true
  | _ => false

/-- The operands behind an instruction that finds `depth` of them. -/
def depthAfter (depth : Nat) (i : Instruction) : Nat :=
  if i.isPush then depth + 1 else if i.isPop then depth - 1 else depth

/-- The most operands at once in the course of code that finds `depth` of them. -/
def peak (depth : Nat) : List Instruction → Nat
  | [] => depth
  | i :: rest => max depth (peak (i.depthAfter depth) rest)

theorem le_peak (depth : Nat) (code : List Instruction) : depth ≤ peak depth code := by
  cases code with
  | nil => exact Nat.le_refl _
  | cons i rest => exact Nat.le_max_left _ _

end Instruction

/-- Bytes that a function takes of the stack: for the saved base, the variables, and the
operands where they are most. -/
def Assembly.room (a : Assembly) : Nat :=
  slotSize * (1 + a.slots + Instruction.peak 0 a.body)

end OnePass
