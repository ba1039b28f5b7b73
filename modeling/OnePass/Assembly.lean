import OnePass.Instruction

/-!
A complete function: the code of a program between the lines that set its frame up
and the lines that give it up.
-/

namespace OnePass

/-- A function with the name it is entered by, the number of slots in its frame and
the code of its statements. -/
structure Assembly where
  entry : String
  slots : Nat
  body : List Instruction
  deriving DecidableEq, Repr

namespace Assembly

/-- Bytes of the frame that hold variables. -/
def reservedBytes (a : Assembly) : Nat :=
  slotSize * a.slots

/-- Save the caller's frame and make room for the variables. -/
def preamble (a : Assembly) : List Instruction :=
  [.global a.entry, .label a.entry, .pushRegister .ebp, .copy .esp .ebp,
    .reserve a.reservedBytes]

/-- Restore the caller's frame and return. -/
def epilogue : List Instruction :=
  [.leave, .ret]

def instructions (a : Assembly) : List Instruction :=
  a.preamble ++ a.body ++ epilogue

/-- The lines of the function, without a line end behind the last. -/
def render (a : Assembly) : String :=
  "\n".intercalate (a.instructions.map Instruction.render)

end Assembly
end OnePass
