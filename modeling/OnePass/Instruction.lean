import OnePass.Operator

/-!
Instructions of the target: a 32-bit machine whose operands wait on the hardware
stack and whose variables live in the frame.

An instruction is a value of its own, so that its effect can be read off it; `line`
gives the assembly text.
-/

namespace OnePass

/-- The registers that instructions name. -/
inductive Register
  | eax
  | ebx
  | ebp
  | esp
  deriving DecidableEq, Repr

/-- A register in assembly text. -/
def Register.text : Register → String
  | eax => "%eax"
  | ebx => "%ebx"
  | ebp => "%ebp"
  | esp => "%esp"

/-- Bytes of one slot of the frame. -/
def slotSize : Nat := 4

/-- The address of a slot, below the base of the frame. -/
def slotAddress (slot : Nat) : String :=
  s!"-{slotSize * slot}({Register.ebp.text})"

inductive Instruction
  /-- Make a name visible to the linker. -/
  | global (name : String)
  /-- Name the place where the function starts. -/
  | label (name : String)
  | pushLiteral (value : Int64)
  | pushSlot (slot : Nat)
  | pushRegister (r : Register)
  | popSlot (slot : Nat)
  | popRegister (r : Register)
  | copy (source target : Register)
  /-- Make room for the slots of the frame. -/
  | reserve (bytes : Nat)
  /-- Sum: `target` becomes `target + source`. -/
  | add (source target : Register)
  /-- Difference: `target` becomes `target - source`. -/
  | sub (source target : Register)
  /-- Product: `target` becomes `target * source`. -/
  | mul (source target : Register)
  /-- Extend the sign of `%eax` into `%edx`, which holds the upper half of a
  dividend. -/
  | extendSign
  /-- Divide `%edx:%eax` by the register; the quotient goes to `%eax`. -/
  | divide (divisor : Register)
  /-- Give up the frame. -/
  | leave
  /-- Return to the caller. -/
  | ret
  deriving DecidableEq, Repr

/-- A line of assembly: a mnemonic, and operands unless it takes none. -/
structure Line where
  mnemonic : String
  operand : Option String := none
  deriving DecidableEq, Repr

def Line.render (l : Line) : String :=
  match l.operand with
  | some operand => l.mnemonic ++ " " ++ operand
  | none => l.mnemonic

namespace Instruction

/-- The line an instruction is written as. -/
def line : Instruction → Line
  | global name => ⟨".globl", some name⟩
  | label name => ⟨name ++ ":", none⟩
  | pushLiteral value => ⟨"pushl", some s!"${value.toInt}"⟩
  | pushSlot slot => ⟨"pushl", some (slotAddress slot)⟩
  | pushRegister r => ⟨"pushl", some r.text⟩
  | popSlot slot => ⟨"pop", some (slotAddress slot)⟩
  | popRegister r => ⟨"popl", some r.text⟩
  | copy source target => ⟨"movl", some s!"{source.text}, {target.text}"⟩
  | reserve bytes => ⟨"subl", some s!"${bytes}, {Register.esp.text}"⟩
  | add source target => ⟨"addl", some s!"{source.text}, {target.text}"⟩
  | sub source target => ⟨"subl", some s!"{source.text}, {target.text}"⟩
  | mul source target => ⟨"imull", some s!"{source.text}, {target.text}"⟩
  | extendSign => ⟨"cltd", none⟩
  | divide divisor => ⟨"idivl", some divisor.text⟩
  | leave => ⟨"leave", none⟩
  | ret => ⟨"ret", none⟩

def render (i : Instruction) : String :=
  i.line.render

/-- The code that combines the two topmost operands.  The right operand was pushed
last, so it comes off first, into `%ebx`; a division needs the sign of the dividend
in `%edx`. -/
def binary : BinaryOp → List Instruction
  | .add => [popRegister .ebx, popRegister .eax, add .ebx .eax, pushRegister .eax]
  | .sub => [popRegister .ebx, popRegister .eax, sub .ebx .eax, pushRegister .eax]
  | .mul => [popRegister .ebx, popRegister .eax, mul .ebx .eax, pushRegister .eax]
  | .div => [popRegister .ebx, popRegister .eax, extendSign, divide .ebx, pushRegister .eax]

/-- The code that drops the topmost operand. -/
def discard : Instruction :=
  popRegister .eax

end Instruction
end OnePass
