import OnePass.Operator

/-!
Values known while a program is compiled.

Every expression is built from literals and names assigned earlier, so its value
is known unless an intermediate result leaves the range of a 64-bit word.  From
then on it is unknown, and so is everything built on it.  No value reaches the
emitted program: they serve only to refuse a division by a known zero.
-/

namespace OnePass

/-- A compile-time value: a 64-bit word, or `none` when it is not known. -/
abbrev Value := Option Int64

namespace Value

/-- The word that equals an integer, if there is one. -/
def ofInt? (n : Int) : Value :=
  if Int64.minValue.toInt ≤ n ∧ n ≤ Int64.maxValue.toInt then some (Int64.ofInt n) else none

/-- Division rounding down.  The word division rounds towards zero, so the quotient
is one too large when a remainder is left whose sign differs from the divisor's.
The one quotient of two words that is no word is that of the least word and
`-1`. -/
def floorDiv (a b : Int64) : Value :=
  if b = 0 ∨ (a = Int64.minValue ∧ b = -1) then none
  else
    let quotient := a / b
    let remainder := a % b
    if remainder ≠ 0 ∧ (remainder < 0) ≠ (b < 0) then ofInt? (quotient.toInt - 1)
    else some quotient

/-- Combine two known words. -/
def combine : BinaryOp → Int64 → Int64 → Value
  | .add, a, b => ofInt? (a.toInt + b.toInt)
  | .sub, a, b => ofInt? (a.toInt - b.toInt)
  | .mul, a, b => ofInt? (a.toInt * b.toInt)
  | .div, a, b => floorDiv a b

/-- The divisor is known to be zero. -/
inductive DivideByZero
  | divideByZero
  deriving DecidableEq, Repr

/-- Combine two operands.  A divisor known to be zero is refused whatever the
dividend is; otherwise an unknown operand gives an unknown result. -/
def binary (op : BinaryOp) (lhs rhs : Value) : Except DivideByZero Value :=
  if op = .div ∧ rhs = some 0 then .error .divideByZero
  else
    match lhs, rhs with
    | some a, some b => .ok (combine op a b)
    | _, _ => .ok none

/-- The text of a value in reports of what a run did. -/
def describe : Value → String
  | none => "None"
  | some n => s!"Some({n.toInt})"

theorem ofInt?_eq_some_iff {n : Int} {w : Int64} : ofInt? n = some w ↔ w.toInt = n := by
  constructor
  · intro h
    unfold ofInt? at h
    split at h
    · next hn =>
      rw [Int64.toInt_minValue, Int64.toInt_maxValue] at hn
      obtain rfl := Option.some.inj h
      exact Int64.toInt_ofInt_of_le hn.1 (by omega)
    · cases h
  · intro h
    have hlo := w.le_toInt
    have hhi := w.toInt_lt
    subst h
    rw [ofInt?, Int64.toInt_minValue, Int64.toInt_maxValue, if_pos ⟨hlo, by omega⟩,
      Int64.ofInt_toInt]

/-- A division by a known zero is the only refusal. -/
theorem binary_eq_error_iff {op : BinaryOp} {lhs rhs : Value} {e : DivideByZero} :
    binary op lhs rhs = .error e ↔ op = .div ∧ rhs = some 0 := by
  cases e
  unfold binary
  split
  · simp_all
  · split <;> simp_all

end Value
end OnePass
