import Mathlib.Data.Rat.Floor
import OnePass.Proofs.Exactness

/-!
Checked arithmetic against the integers and the rationals.

The exact result of a sum, a difference or a product is the integer; that of a quotient is the
floor of the rational one.  An operator on two words gives the word that equals the exact
result, and nothing if there is none.  Division comes by the floor in two steps, from a
quotient that truncates, and the second step always stays within the words: the one quotient
that is no word is refused before.
-/

namespace OnePass

/-! ## Quotients -/

/-- The exact result of an operator.  A quotient is rounded down; by zero it stands for
nothing. -/
def BinaryOp.exactResult : BinaryOp → Int → Int → Int
  | .add, a, b => a + b
  | .sub, a, b => a - b
  | .mul, a, b => a * b
  | .div, a, b => ⌊(a : ℚ) / b⌋

theorem fdiv_eq_floor (a b : Int) : a.fdiv b = ⌊(a : ℚ) / b⌋ := by
  rcases Int.le_total 0 b with hb | hb
  · rw [Int.fdiv_eq_ediv_of_nonneg a hb, Int.floor_div_cast_of_nonneg hb, Int.floor_intCast]
  · have hsigns : (a : ℚ) / b = ((-a : Int) : ℚ) / ((-b : Int) : ℚ) := by
      rw [Int.cast_neg, Int.cast_neg, neg_div_neg_eq]
    have hpos : 0 ≤ -b := Int.neg_nonneg_of_nonpos hb
    rw [← Int.neg_fdiv_neg, Int.fdiv_eq_ediv_of_nonneg _ hpos, hsigns,
      Int.floor_div_cast_of_nonneg hpos, Int.floor_intCast]

theorem BinaryOp.result?_eq_exactResult {op : BinaryOp} {a b : Int} (h : ¬ (op = .div ∧ b = 0)) :
    op.result? a b = some (op.exactResult a b) := by
  cases op with
  | add => rfl
  | sub => rfl
  | mul => rfl
  | div =>
    have hb : b ≠ 0 := fun hb => h ⟨rfl, hb⟩
    rw [result?, if_neg hb, fdiv_eq_floor]
    rfl

/-- A positive divisor takes the dividend no further from zero, and the bound itself is a
quotient only of the bound by one. -/
theorem fdiv_bounds_of_pos {a b : Int} (hb : 0 < b) (hlo : -2 ^ 63 ≤ a) (hhi : a ≤ 2 ^ 63) :
    -2 ^ 63 ≤ a.fdiv b ∧ (a.fdiv b < 2 ^ 63 ∨ a = 2 ^ 63 ∧ b = 1) := by
  have hsplit := Int.mul_fdiv_add_fmod a b
  have hnonneg := Int.fmod_nonneg_of_pos a hb
  have hlt := Int.fmod_lt_of_pos a hb
  constructor
  · apply Int.le_of_not_gt
    intro hq
    have hle : b * (a.fdiv b + 1) ≤ b * -2 ^ 63 :=
      Int.mul_le_mul_of_nonneg_left (by omega) (by omega)
    rw [Int.mul_add, Int.mul_one] at hle
    omega
  · by_cases hq : a.fdiv b < 2 ^ 63
    · exact .inl hq
    · have hle : b * 2 ^ 63 ≤ b * a.fdiv b :=
        Int.mul_le_mul_of_nonneg_left (by omega) (by omega)
      exact .inr ⟨by omega, by omega⟩

/-- The quotient of two words rounded down is a word, but for the quotient of the least one
and `-1`. -/
theorem fdiv_bounds {a b : Int} (hlo : -2 ^ 63 ≤ a) (hhi : a < 2 ^ 63) (hb : b ≠ 0)
    (hleast : ¬ (a = -2 ^ 63 ∧ b = -1)) : -2 ^ 63 ≤ a.fdiv b ∧ a.fdiv b < 2 ^ 63 := by
  rcases Int.lt_or_gt_of_ne hb with hneg | hpos
  · have hbounds := fdiv_bounds_of_pos (a := -a) (b := -b) (by omega) (by omega) (by omega)
    rw [Int.neg_fdiv_neg] at hbounds
    omega
  · have hbounds := fdiv_bounds_of_pos hpos hlo (by omega)
    omega

/-! ## Words -/

namespace Value

/-- The integers that are words. -/
theorem exists_toInt_iff {n : Int} :
    (∃ w : Int64, w.toInt = n) ↔ -2 ^ 63 ≤ n ∧ n ≤ 2 ^ 63 - 1 := by
  constructor
  · rintro ⟨w, rfl⟩
    have hlo := w.le_toInt
    have hhi := w.toInt_lt
    omega
  · rintro ⟨hlo, hhi⟩
    exact ⟨Int64.ofInt n, Int64.toInt_ofInt_of_le hlo (by omega)⟩

theorem ofInt?_eq_none_iff {n : Int} : ofInt? n = none ↔ ¬ ∃ w : Int64, w.toInt = n := by
  cases h : ofInt? n with
  | none =>
    refine iff_of_true rfl ?_
    rintro ⟨w, hw⟩
    rw [ofInt?_eq_some_iff.2 hw] at h
    cases h
  | some w => exact iff_of_false (by simp) (fun hn => hn ⟨w, ofInt?_eq_some_iff.1 h⟩)

theorem floorDiv_eq_none_iff {a b : Int64} (hb : b ≠ 0) :
    floorDiv a b = none ↔ a = Int64.minValue ∧ b = -1 := by
  constructor
  · intro h
    rw [floorDiv_eq a hb, ofInt?_eq_none_iff, exists_toInt_iff] at h
    have hzero : b.toInt ≠ 0 := fun hzero => hb (Int64.toInt_inj.1 hzero)
    have hlo := a.le_toInt
    have hhi := a.toInt_lt
    by_cases hleast : a.toInt = -2 ^ 63 ∧ b.toInt = -1
    · exact ⟨Int64.toInt_inj.1 hleast.1, Int64.toInt_inj.1 hleast.2⟩
    · have hbounds := fdiv_bounds hlo hhi hzero hleast
      omega
  · rintro ⟨rfl, rfl⟩
    decide

/-- Where the truncated quotient is one too large, the next smaller integer is a word. -/
theorem floorDiv_eq_decremented {a b : Int64} (hb : b ≠ 0) (hremainder : a % b ≠ 0)
    (hsigns : (a % b < 0) ≠ (b < 0)) :
    ∃ q, ofInt? ((a / b).toInt - 1) = some q ∧ floorDiv a b = some q := by
  have hleast : ¬ (a = Int64.minValue ∧ b = -1) := by
    rintro ⟨rfl, rfl⟩
    exact hremainder (by decide)
  have hbranch : floorDiv a b = ofInt? ((a / b).toInt - 1) := by
    rw [floorDiv, if_neg (by simp [hb, hleast])]
    exact if_pos ⟨hremainder, hsigns⟩
  cases hq : floorDiv a b with
  | none => exact absurd ((floorDiv_eq_none_iff hb).1 hq) hleast
  | some q => exact ⟨q, by rw [← hbranch, hq], rfl⟩

theorem binary_eq_ok_none_of_unknown {op : BinaryOp} {lhs rhs : Value}
    (h : ¬ (op = .div ∧ rhs = some 0)) (hunknown : lhs = none ∨ rhs = none) :
    binary op lhs rhs = .ok none := by
  unfold binary
  rw [if_neg h]
  rcases hunknown with rfl | rfl
  · rfl
  · cases lhs <;> rfl

/-- On known operands an operator is the exact result, taken as a word. -/
theorem binary_eq_ofInt? {op : BinaryOp} {a b : Int64} (h : ¬ (op = .div ∧ b = 0)) :
    binary op (some a) (some b) = .ok (ofInt? (op.exactResult a.toInt b.toInt)) := by
  have hzero : ¬ (op = .div ∧ b.toInt = 0) := fun hzero =>
    h ⟨hzero.1, Int64.toInt_inj.1 hzero.2⟩
  have hsome : ¬ (op = .div ∧ some b = some 0) := fun hsome =>
    h ⟨hsome.1, Option.some.inj hsome.2⟩
  rw [binary, if_neg hsome]
  show Except.ok (combine op a b) = _
  rw [combine_eq, BinaryOp.result?_eq_exactResult hzero, Option.bind_some]

end Value

/-- Combining two values refuses a divisor known to be zero, whatever the dividend is, and
nothing else.  Where it refuses nothing, an unknown operand makes the result unknown, and two
words give the word that equals the exact result, or an unknown value if the exact result is
no word.  The flooring of a quotient stays within the words, and the least word divided by
`-1` is the one quotient that leaves them. -/
theorem binary_eq_exact (op : BinaryOp) (lhs rhs : Value) :
    (Value.binary op lhs rhs = .error .divideByZero ↔ op = .div ∧ rhs = some 0) ∧
    (¬ (op = .div ∧ rhs = some 0) →
      (lhs = none ∨ rhs = none → Value.binary op lhs rhs = .ok none) ∧
      ∀ a b, lhs = some a → rhs = some b →
        ((∃ r : Int64, r.toInt = op.exactResult a.toInt b.toInt ∧
            Value.binary op lhs rhs = .ok (some r)) ↔
          -2 ^ 63 ≤ op.exactResult a.toInt b.toInt ∧
            op.exactResult a.toInt b.toInt ≤ 2 ^ 63 - 1) ∧
        (Value.binary op lhs rhs = .ok none ↔
          ¬ (-2 ^ 63 ≤ op.exactResult a.toInt b.toInt ∧
            op.exactResult a.toInt b.toInt ≤ 2 ^ 63 - 1))) ∧
    (∀ a b : Int64, b ≠ 0 → a % b ≠ 0 → (a % b < 0) ≠ (b < 0) →
      ∃ q, Value.ofInt? ((a / b).toInt - 1) = some q ∧ Value.floorDiv a b = some q) ∧
    ∀ a b : Int64, b ≠ 0 →
      (Value.binary .div (some a) (some b) = .ok none ↔ a = Int64.minValue ∧ b = -1) := by
  refine ⟨Value.binary_eq_error_iff, ?_, ?_, ?_⟩
  · intro hrefused
    refine ⟨Value.binary_eq_ok_none_of_unknown hrefused, ?_⟩
    rintro a b rfl rfl
    have hword : Value.binary op (some a) (some b) =
        .ok (Value.ofInt? (op.exactResult a.toInt b.toInt)) :=
      Value.binary_eq_ofInt? fun h => hrefused ⟨h.1, congrArg some h.2⟩
    rw [hword, ← Value.exists_toInt_iff, Except.ok.injEq, Value.ofInt?_eq_none_iff]
    refine ⟨exists_congr fun r => ?_, Iff.rfl⟩
    rw [Except.ok.injEq, Value.ofInt?_eq_some_iff, and_self]
  · intro a b hb hremainder hsigns
    exact Value.floorDiv_eq_decremented hb hremainder hsigns
  · intro a b hb
    have hsome : ¬ (BinaryOp.div = .div ∧ some b = some 0) := fun h => hb (Option.some.inj h.2)
    have hquotient : Value.binary .div (some a) (some b) = .ok (Value.floorDiv a b) :=
      if_neg hsome
    rw [hquotient, Except.ok.injEq, Value.floorDiv_eq_none_iff hb]

-- Rounding down differs from truncation only where the signs differ and a remainder is left.
example : Value.binary .div (some (-7)) (some 2) = .ok (some (-4)) ∧
    Value.binary .div (some Int64.minValue) (some (-1)) = .ok none ∧
    Value.binary .div none (some 0) = .error .divideByZero := by
  decide

end OnePass
