import OnePass.Expr.Meaning

/-!
The machine that runs the body of a function.

It has the registers, one word for each slot of the frame, and the operands on a
stack.  The frame itself is not part of it, so instructions that set a frame up or
give it up stop it.
-/

namespace OnePass

/-- The state of the machine.  `edx` holds the upper half of a dividend. -/
structure Machine where
  registers : Register → Word
  edx : Word
  slots : Nat → Word
  stack : List Word

namespace Machine

/-- Why the machine stops before the end of the code. -/
inductive Fault
  /-- A division by zero, or a quotient that is no word. -/
  | division
  /-- A pop with no operand on the stack. -/
  | emptyStack
  /-- An instruction that does not belong in a body. -/
  | outsideBody
  deriving DecidableEq, Repr

def push (m : Machine) (w : Word) : Machine :=
  { m with stack := w :: m.stack }

def setRegister (m : Machine) (r : Register) (w : Word) : Machine :=
  { m with registers := fun s => if s = r then w else m.registers s }

def setSlot (m : Machine) (slot : Nat) (w : Word) : Machine :=
  { m with slots := fun i => if i = slot then w else m.slots i }

/-- Take the topmost operand off the stack and hand it on. -/
def pop (m : Machine) (use : Machine → Word → Machine) : Except Fault Machine :=
  match m.stack with
  | w :: rest => .ok (use { m with stack := rest } w)
  | [] => .error .emptyStack

/-- Divide the 64 bits of `%edx:%eax`, truncating towards zero. -/
def divide (m : Machine) (divisor : Word) : Except Fault Machine :=
  let dividend := (m.edx ++ m.registers .eax).toInt
  if divisor = 0 then .error .division
  else
    match Word.ofInt? (dividend.tdiv divisor.toInt) with
    | none => .error .division
    | some quotient =>
      .ok { m.setRegister .eax quotient with
        edx := BitVec.ofInt 32 (dividend.tmod divisor.toInt) }

/-- Run one instruction. -/
def step (m : Machine) : Instruction → Except Fault Machine
  | .pushLiteral value => .ok (m.push (BitVec.ofInt 32 value.toInt))
  | .pushSlot slot => .ok (m.push (m.slots slot))
  | .pushRegister r => .ok (m.push (m.registers r))
  | .popSlot slot => m.pop fun m w => m.setSlot slot w
  | .popRegister r => m.pop fun m w => m.setRegister r w
  | .add source target => .ok (m.setRegister target (m.registers target + m.registers source))
  | .sub source target => .ok (m.setRegister target (m.registers target - m.registers source))
  | .mul source target => .ok (m.setRegister target (m.registers target * m.registers source))
  | .extendSign =>
    .ok { m with edx := if (m.registers .eax).msb then BitVec.allOnes 32 else 0 }
  | .divide divisor => m.divide (m.registers divisor)
  | .global _ | .label _ | .copy .. | .reserve _ | .leave | .ret => .error .outsideBody

/-- Run code from its first instruction to its last. -/
def run (m : Machine) : List Instruction → Except Fault Machine
  | [] => .ok m
  | i :: rest =>
    match m.step i with
    | .ok n => n.run rest
    | .error f => .error f

@[simp]
theorem run_nil (m : Machine) : m.run [] = .ok m := rfl

theorem run_cons (m : Machine) (i : Instruction) (rest : List Instruction) :
    m.run (i :: rest) =
      match m.step i with
      | .ok n => n.run rest
      | .error f => .error f := rfl

/-- Running code in two parts is running it whole. -/
theorem run_append (m : Machine) (a b : List Instruction) :
    m.run (a ++ b) =
      match m.run a with
      | .ok n => n.run b
      | .error f => .error f := by
  induction a generalizing m with
  | nil => rfl
  | cons i rest ih =>
    rw [List.cons_append, run_cons, run_cons]
    cases m.step i with
    | ok n => exact ih n
    | error f => rfl

end Machine
end OnePass
