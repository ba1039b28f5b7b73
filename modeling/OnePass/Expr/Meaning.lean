import OnePass.Expr

/-!
What programs mean.

There are three readings, and they differ only in the arithmetic.  At run time words
have 32 bits, sums, differences and products wrap, and division truncates and can
fault.  The exact reading has all integers and division rounding down.  The
compile-time reading is that of `Value.binary`, which follows the exact one as long
as it stays within 64 bits.
-/

namespace OnePass

/-! ## Words -/

/-- A word of the target machine. -/
abbrev Word := BitVec 32

namespace Word

/-- The word that an integer is the signed reading of, if there is one. -/
def ofInt? (n : Int) : Option Word :=
  if (BitVec.intMin 32).toInt ≤ n ∧ n ≤ (BitVec.intMax 32).toInt then some (BitVec.ofInt 32 n)
  else none

/-- Signed division that truncates towards zero.  It faults on a zero divisor and on a
quotient that is no word. -/
def divide? (a b : Word) : Option Word :=
  if b = 0 then none else ofInt? (a.toInt.tdiv b.toInt)

/-- The effect of an operator on two words. -/
def binary? : BinaryOp → Word → Word → Option Word
  | .add, a, b => some (a + b)
  | .sub, a, b => some (a - b)
  | .mul, a, b => some (a * b)
  | .div, a, b => divide? a b

theorem ofInt?_eq_some_iff {n : Int} {w : Word} : ofInt? n = some w ↔ w.toInt = n := by
  have hmin : (BitVec.intMin 32).toInt = -2147483648 := by decide
  have hmax : (BitVec.intMax 32).toInt = 2147483647 := by decide
  unfold ofInt?
  rw [hmin, hmax]
  constructor
  · intro h
    split at h
    · next hn =>
      obtain rfl := Option.some.inj h
      exact BitVec.toInt_ofInt_eq_self (by decide) hn.1 (by omega)
    · cases h
  · rintro rfl
    have hlo := BitVec.le_toInt w
    have hhi := BitVec.toInt_lt (x := w)
    rw [if_pos ⟨by omega, by omega⟩, BitVec.ofInt_toInt]

end Word

/-! ## Run time -/

/-- The value of an expression in words, or `none` when a division in it faults. -/
def Expr.eval? (store : String → Word) : Expr → Option Word
  | literal value => some (BitVec.ofInt 32 value.toInt)
  | read name => some (store name)
  | binary op lhs rhs => do
    let a ← lhs.eval? store
    let b ← rhs.eval? store
    Word.binary? op a b

/-- The store after a statement. -/
def Statement.exec? (store : String → Word) : Statement → Option (String → Word)
  | assign name e => (e.eval? store).map fun w => fun x => if x = name then w else store x
  | discard e => (e.eval? store).map fun _ => store
  | empty => some store

/-- The store after a program. -/
def Program.exec? (store : String → Word) (p : Program) : Option (String → Word) :=
  p.foldlM Statement.exec? store

/-! ## Exact values -/

/-- The exact value of an expression, or `none` when it divides by zero. -/
def Expr.exact? (store : String → Option Int) : Expr → Option Int
  | literal value => some value.toInt
  | read name => store name
  | binary op lhs rhs => do
    let a ← lhs.exact? store
    let b ← rhs.exact? store
    match op with
    | .add => return a + b
    | .sub => return a - b
    | .mul => return a * b
    | .div => if b = 0 then none else return a.fdiv b

/-- The exact values of the names after a statement. -/
def Statement.exact (store : String → Option Int) : Statement → String → Option Int
  | assign name e => fun x => if x = name then e.exact? store else store x
  | _ => store

/-- The exact values of the names after a program. -/
def Program.exact (store : String → Option Int) (p : Program) : String → Option Int :=
  p.foldl Statement.exact store

/-! ## Compile time -/

/-- The compile-time value of an expression, unless it divides by a known zero. -/
def Expr.known (values : ValueTable) : Expr → Except Value.DivideByZero Value
  | literal value => .ok (some value)
  | read name => .ok (values.get name)
  | binary op lhs rhs => do
    let a ← lhs.known values
    let b ← rhs.known values
    Value.binary op a b

/-- The compile-time values after a statement. -/
def Statement.known (values : ValueTable) : Statement → Except Value.DivideByZero ValueTable
  | assign name e => (e.known values).map (values.set name)
  | discard e => (e.known values).map fun _ => values
  | empty => .ok values

/-- The compile-time values after a program. -/
def Program.known (values : ValueTable) (p : Program) : Except Value.DivideByZero ValueTable :=
  p.foldlM Statement.known values

end OnePass
