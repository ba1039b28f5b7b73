/-!
Text addressed by byte offsets.

Offsets count the bytes of the UTF-8 form, while a caret under a line counts
characters.  This module holds the passage between the two: where a text can be
cut, the piece that stands between two offsets, and the column of an offset.
-/

namespace OnePass
namespace Text

/-- Bytes that the characters take in UTF-8. -/
def byteLength : List Char → Nat
  | [] => 0
  | c :: cs => c.utf8Size + byteLength cs

@[simp]
theorem byteLength_nil : byteLength [] = 0 := rfl

@[simp]
theorem byteLength_cons (c : Char) (cs : List Char) :
    byteLength (c :: cs) = c.utf8Size + byteLength cs := rfl

@[simp]
theorem byteLength_append (a b : List Char) :
    byteLength (a ++ b) = byteLength a + byteLength b := by
  induction a with
  | nil => simp
  | cons c cs ih => simp [ih, Nat.add_assoc]

/-- Cut the characters at a byte offset.  There is no cut inside a character or
past the end. -/
def splitAt? : List Char → Nat → Option (List Char × List Char)
  | cs, 0 => some ([], cs)
  | [], _ + 1 => none
  | c :: cs, n + 1 =>
    if c.utf8Size ≤ n + 1 then
      (splitAt? cs (n + 1 - c.utf8Size)).map fun (front, back) => (c :: front, back)
    else none

/-- The offset lies between two characters, before the first or after the last. -/
def isBoundary (cs : List Char) (n : Nat) : Bool :=
  (splitAt? cs n).isSome

/-- Characters that start before a byte offset. -/
def column : List Char → Nat → Nat
  | _, 0 => 0
  | [], _ + 1 => 0
  | c :: cs, n + 1 => column cs (n + 1 - c.utf8Size) + 1

/-- The piece of `source` that starts at byte `loc` and takes `len` bytes, if both
of its ends are boundaries. -/
def slice? (source : String) (loc len : Nat) : Option String := do
  let (_, back) ← splitAt? source.toList loc
  let (piece, _) ← splitAt? back len
  return String.ofList piece

/-! ## Cuts -/

@[simp]
theorem splitAt?_zero (cs : List Char) : splitAt? cs 0 = some ([], cs) := by
  cases cs <;> rfl

theorem splitAt?_cons {c : Char} (cs : List Char) {n : Nat} (h : c.utf8Size ≤ n) :
    splitAt? (c :: cs) n =
      (splitAt? cs (n - c.utf8Size)).map fun (front, back) => (c :: front, back) := by
  have hc := c.utf8Size_pos
  obtain ⟨m, rfl⟩ : ∃ m, n = m + 1 := ⟨n - 1, by omega⟩
  simp only [splitAt?, if_pos h]

/-- Every cut of a list of characters is found at the length of its front. -/
theorem splitAt?_append (front back : List Char) :
    splitAt? (front ++ back) (byteLength front) = some (front, back) := by
  induction front with
  | nil => simp
  | cons c cs ih =>
    rw [List.cons_append, byteLength_cons, splitAt?_cons _ (Nat.le_add_right _ _)]
    simp [ih]

/-- At the length of a front, the column is the number of its characters. -/
theorem column_append (front back : List Char) :
    column (front ++ back) (byteLength front) = front.length := by
  induction front with
  | nil => cases back <;> rfl
  | cons c cs ih =>
    have hc := c.utf8Size_pos
    obtain ⟨m, hm⟩ : ∃ m, c.utf8Size + byteLength cs = m + 1 :=
      ⟨c.utf8Size + byteLength cs - 1, by omega⟩
    have hsub : m + 1 - c.utf8Size = byteLength cs := by omega
    rw [List.cons_append, byteLength_cons, hm, column, hsub, ih, List.length_cons]

theorem isBoundary_append (front back : List Char) :
    isBoundary (front ++ back) (byteLength front) = true := by
  simp [isBoundary, splitAt?_append]

end Text
end OnePass
