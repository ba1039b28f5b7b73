import OnePass.Proofs.Composition
import OnePass.Proofs.Listing

/-!
Tables of names under any row of calls.

A table numbers names by their first occurrence: what it holds after a row of calls are the
distinct names bound, in the order of their first bind, and a name answers with its place
whenever it is bound.

A search through the names is not the only way to find a slot.  A table may keep the names
twice, as a row and as an index from names to places in it.  The two are one table, since
each place in the row is the one that the index gives its name, and the index gives no other.
-/

namespace OnePass

/-! ## Calls -/

inductive TableCall
  /-- Give a name a slot. -/
  | bind (name : String)
  /-- Ask for the slot of a name. -/
  | slot (name : String)
  /-- Ask for the number of names. -/
  | size
  /-- Ask for the names with their slots. -/
  | entries
  deriving DecidableEq, Repr

inductive TableAnswer
  | bound (slot : Nat)
  | slot (slot : Option Nat)
  | size (size : Nat)
  | entries (entries : List (String × Nat))
  deriving DecidableEq, Repr

namespace TableCall

/-- The name that a call binds. -/
def bound? : TableCall → Option String
  | .bind name => some name
  | _ => none

section

variable {τ υ : Type} (f : τ → TableCall → TableAnswer × τ) (g : υ → TableCall → TableAnswer × υ)

/-- Make calls one after the other: their answers, and the table that is left. -/
def run : τ → List TableCall → List TableAnswer × τ
  | t, [] => ([], t)
  | t, call :: rest => ((f t call).1 :: (run (f t call).2 rest).1, (run (f t call).2 rest).2)

theorem run_snd (t : τ) (calls : List TableCall) :
    (run f t calls).2 = calls.foldl (fun t call => (f t call).2) t := by
  induction calls generalizing t with
  | nil => rfl
  | cons call rest ih => exact ih _

/-- A call is answered by the table that the calls in front of it leave. -/
theorem getElem?_run (t : τ) (calls : List TableCall) (i : Nat) :
    (run f t calls).1[i]? =
      calls[i]?.map fun call => (f (run f t (calls.take i)).2 call).1 := by
  induction calls generalizing t i with
  | nil => rfl
  | cons call rest ih =>
    cases i with
    | zero => rfl
    | succ i => exact ih _ i

/-- Two tables that answer each call alike and stay alike answer every row of calls alike. -/
theorem run_related {R : τ → υ → Prop}
    (hstep : ∀ t u call, R t u → (f t call).1 = (g u call).1 ∧ R (f t call).2 (g u call).2)
    {t : τ} {u : υ} (h : R t u) (calls : List TableCall) :
    (run f t calls).1 = (run g u calls).1 ∧ R (run f t calls).2 (run g u calls).2 := by
  induction calls generalizing t u with
  | nil => exact ⟨rfl, h⟩
  | cons call rest ih =>
    obtain ⟨hanswer, hafter⟩ := hstep t u call h
    obtain ⟨hanswers, hend⟩ := ih hafter
    exact ⟨congr_arg₂ List.cons hanswer hanswers, hend⟩

end
end TableCall

/-! ## The table of names -/

namespace SymbolTable

def answer (t : SymbolTable) : TableCall → TableAnswer × SymbolTable
  | .bind name => (.bound (t.bind name).1, (t.bind name).2)
  | .slot name => (.slot (t.slot? name), t)
  | .size => (.size t.size, t)
  | .entries => (.entries t.entries, t)

/-- The answers that a new table gives to calls. -/
def answers (calls : List TableCall) : List TableAnswer :=
  (TableCall.run answer {} calls).1

/-- What calls make of a new table. -/
def after (calls : List TableCall) : SymbolTable :=
  (TableCall.run answer {} calls).2

theorem after_append (front back : List TableCall) :
    after (front ++ back) = (TableCall.run answer (after front) back).2 := by
  simp only [after, TableCall.run_snd, List.foldl_append]

theorem after_eq_foldl_bind (calls : List TableCall) :
    after calls = (calls.filterMap TableCall.bound?).foldl (fun t name => (t.bind name).2) {} := by
  rw [after, TableCall.run_snd, List.foldl_filterMap]
  congr 1
  funext t call
  cases call <;> rfl

theorem names_after (calls : List TableCall) :
    (after calls).names = (calls.filterMap TableCall.bound?).eraseDups := by
  rw [after_eq_foldl_bind, Program.names_foldl_bind]

theorem nodup_names_after (calls : List TableCall) : (after calls).names.Nodup := by
  rw [names_after]
  exact Program.nodup_eraseDups _

/-- The slot of a name is its place, where no name has two. -/
theorem slot?_eq_some_iff {t : SymbolTable} (h : t.names.Nodup) {name : String} {i : Nat} :
    t.slot? name = some i ↔ (name, i) ∈ t.entries := by
  rw [entries, List.mk_mem_zipIdx_iff_le_and_getElem?_sub, slot?, Option.map_eq_some_iff]
  constructor
  · rintro ⟨k, hk, rfl⟩
    obtain ⟨hlt, hname, -⟩ := List.idxOf?_eq_some_iff.1 hk
    exact ⟨by omega, List.getElem?_eq_some_iff.2 ⟨hlt, hname⟩⟩
  · rintro ⟨hi, hname⟩
    obtain ⟨hlt, rfl⟩ := List.getElem?_eq_some_iff.1 hname
    refine ⟨i - 1, List.idxOf?_eq_some_iff.2 ⟨hlt, rfl, fun j hj he => ?_⟩, by omega⟩
    exact absurd (h.getElem_inj_iff.1 he) (by omega)

/-- A slot once given stays, whatever is called behind. -/
theorem slot?_run_of_mem {t : SymbolTable} {name : String} (h : name ∈ t.names)
    (calls : List TableCall) : (TableCall.run answer t calls).2.slot? name = t.slot? name := by
  induction calls generalizing t with
  | nil => rfl
  | cons call rest ih =>
    cases call with
    | bind other =>
      exact (ih (mem_names_bind.2 (.inr h))).trans (slot?_bind_of_mem h)
    | slot _ => exact ih h
    | size => exact ih h
    | entries => exact ih h

/-- A bind is answered with the slot that the name has in the end. -/
theorem getElem?_answers_of_bind {calls : List TableCall} {i : Nat} {name : String}
    (h : calls[i]? = some (.bind name)) :
    ∃ slot, (after calls).slot? name = some slot ∧ (answers calls)[i]? = some (.bound slot) := by
  obtain ⟨hi, hcall⟩ := List.getElem?_eq_some_iff.1 h
  have hsplit : calls = calls.take i ++ .bind name :: calls.drop (i + 1) := by
    rw [← hcall, ← List.drop_eq_getElem_cons hi, List.take_append_drop]
  refine ⟨((after (calls.take i)).bind name).1, ?_, ?_⟩
  · have hmem : name ∈ ((after (calls.take i)).bind name).2.names := mem_names_bind.2 (.inl rfl)
    have hend : after calls = (TableCall.run answer (after (calls.take i))
        (.bind name :: calls.drop (i + 1))).2 := by
      rw [← after_append, ← hsplit]
    rw [hend]
    exact (slot?_run_of_mem hmem _).trans (slot?_bind_self _ name)
  · rw [answers, TableCall.getElem?_run, h]
    rfl

end SymbolTable

/-! ## The table kept twice -/

/-- Names as a row, and an index from each name to its place in the row, counted from one. -/
structure IndexedTable where
  index : Std.HashMap String Nat := {}
  row : Array String := #[]

namespace IndexedTable

variable {t : IndexedTable} {u : SymbolTable} {name : String}

def size (t : IndexedTable) : Nat :=
  t.row.size

def slot? (t : IndexedTable) (name : String) : Option Nat :=
  t.index[name]?

/-- Give a name a slot, and say which.  A new name is put on the row first, and then its
place on the index. -/
def bind (t : IndexedTable) (name : String) : Nat × IndexedTable :=
  match t.slot? name with
  | some slot => (slot, t)
  | none =>
    let row := t.row.push name
    (row.size, { index := t.index.insert name row.size, row })

def entries (t : IndexedTable) : List (String × Nat) :=
  t.row.toList.zipIdx 1

def answer (t : IndexedTable) : TableCall → TableAnswer × IndexedTable
  | .bind name => (.bound (t.bind name).1, (t.bind name).2)
  | .slot name => (.slot (t.slot? name), t)
  | .size => (.size t.size, t)
  | .entries => (.entries t.entries, t)

/-- The answers that a new table gives to calls. -/
def answers (calls : List TableCall) : List TableAnswer :=
  (TableCall.run answer {} calls).1

/-- What calls make of a new table. -/
def after (calls : List TableCall) : IndexedTable :=
  (TableCall.run answer {} calls).2

theorem bind_of_slot? {slot : Nat} (h : t.slot? name = some slot) : t.bind name = (slot, t) := by
  rw [bind, h]

theorem bind_of_slot?_eq_none (h : t.slot? name = none) :
    t.bind name = (t.size + 1,
      { index := t.index.insert name (t.size + 1), row := t.row.push name }) := by
  rw [bind, h]
  simp only [Array.size_push]
  rfl

/-- Each side tells what the other one does: a name has the place in the index at which it
stands in the row. -/
def Agrees (t : IndexedTable) : Prop :=
  ∀ name i, t.index[name]? = some i ↔ 1 ≤ i ∧ t.row[i - 1]? = some name

/-- A name without a place stands nowhere in the row. -/
theorem Agrees.getElem?_row_ne (ht : t.Agrees) (h : t.slot? name = none) (i : Nat) :
    t.row[i]? ≠ some name := by
  intro hi
  have hslot : t.slot? name = some (i + 1) := (ht name (i + 1)).2 ⟨by omega, hi⟩
  rw [h] at hslot
  cases hslot

/-- A name that has no place yet takes the next one on both sides. -/
theorem Agrees.push (ht : t.Agrees) (h : t.slot? name = none) :
    Agrees { index := t.index.insert name (t.size + 1), row := t.row.push name } := by
  intro other i
  rw [Std.HashMap.getElem?_insert, Array.getElem?_push, size]
  by_cases hother : name = other
  · subst hother
    rw [beq_self_eq_true, if_pos rfl, Option.some.injEq]
    constructor
    · rintro rfl
      exact ⟨by omega, if_pos (by omega)⟩
    · rintro ⟨hi, hrow⟩
      split at hrow
      · omega
      · exact absurd hrow (ht.getElem?_row_ne h _)
  · rw [if_neg (by simpa using hother), ht]
    refine and_congr_right fun hi => ?_
    split
    · next hend =>
      rw [hend, Array.getElem?_eq_none (Nat.le_refl _), Option.some.injEq]
      exact iff_of_false (by simp) hother
    · rfl

theorem Agrees.bind (ht : t.Agrees) (name : String) : (t.bind name).2.Agrees := by
  cases hs : t.slot? name with
  | some slot => rwa [bind_of_slot? hs]
  | none =>
    rw [bind_of_slot?_eq_none hs]
    exact ht.push hs

theorem Agrees.nodup_row (ht : t.Agrees) : t.row.toList.Nodup := by
  refine List.pairwise_iff_getElem.2 fun i j hi hj hij he => ?_
  have hplace : ∀ k, t.row[k]? = some t.row.toList[i] → t.slot? t.row.toList[i] = some (k + 1) :=
    fun k hk => (ht _ (k + 1)).2 ⟨by omega, hk⟩
  have hfirst := hplace i (by simp)
  have hsecond := hplace j (by simp [he])
  have := Option.some.inj (hfirst.symm.trans hsecond)
  omega

/-- The table stands for one that searches: its sides agree, and its row lists the names. -/
structure Represents (t : IndexedTable) (u : SymbolTable) : Prop where
  agrees : t.Agrees
  row_eq : t.row.toList = u.names

theorem represents_empty : Represents {} {} where
  agrees := by simp [Agrees]
  row_eq := rfl

theorem Represents.slot?_eq (h : t.Represents u) (name : String) :
    t.slot? name = u.slot? name := by
  refine Option.ext fun i => ?_
  rw [SymbolTable.slot?_eq_some_iff (h.row_eq ▸ h.agrees.nodup_row), SymbolTable.entries,
    ← h.row_eq, List.mk_mem_zipIdx_iff_le_and_getElem?_sub, Array.getElem?_toList]
  exact h.agrees name i

theorem Represents.size_eq (h : t.Represents u) : t.size = u.size := by
  rw [size, SymbolTable.size, ← h.row_eq, Array.length_toList]

theorem Represents.entries_eq (h : t.Represents u) : t.entries = u.entries := by
  rw [entries, SymbolTable.entries, h.row_eq]

theorem Represents.bind (h : t.Represents u) (name : String) :
    (t.bind name).1 = (u.bind name).1 ∧ (t.bind name).2.Represents (u.bind name).2 := by
  have hslot := h.slot?_eq name
  have hagrees := h.agrees.bind name
  cases hs : t.slot? name with
  | some slot =>
    rw [bind_of_slot? hs, SymbolTable.bind_of_slot? (hslot ▸ hs)]
    exact ⟨rfl, h⟩
  | none =>
    rw [bind_of_slot?_eq_none hs] at hagrees ⊢
    rw [SymbolTable.bind_of_not_mem (SymbolTable.slot?_eq_none_iff.1 (hslot ▸ hs))]
    refine ⟨by rw [h.size_eq], hagrees, ?_⟩
    rw [Array.toList_push, h.row_eq]

theorem Represents.answer (h : t.Represents u) (call : TableCall) :
    (t.answer call).1 = (u.answer call).1 ∧ (t.answer call).2.Represents (u.answer call).2 := by
  cases call with
  | bind name =>
    obtain ⟨hnumber, hafter⟩ := h.bind name
    exact ⟨congrArg TableAnswer.bound hnumber, hafter⟩
  | slot name => exact ⟨congrArg TableAnswer.slot (h.slot?_eq name), h⟩
  | size => exact ⟨congrArg TableAnswer.size h.size_eq, h⟩
  | entries => exact ⟨congrArg TableAnswer.entries h.entries_eq, h⟩

theorem run_represents (calls : List TableCall) :
    answers calls = SymbolTable.answers calls ∧
      (after calls).Represents (SymbolTable.after calls) :=
  TableCall.run_related answer SymbolTable.answer (fun _ _ call h => h.answer call)
    represents_empty calls

end IndexedTable

/-- A table of names numbers them by their first occurrence.  After any row of calls on a new
table, its entries are the distinct names bound, in the order of their first bind and numbered
from one without a gap; a name has the slot that its entry says, and a name without an entry
has none; every bind of a name was answered with that one slot; and a further bind leaves the
entries standing in front.  The table that keeps its names twice gives the same answers to the
same calls, and in what they leave of it the index holds a place for a name exactly if the
name stands in that place of the row. -/
theorem table_numbers_first_occurrences (calls : List TableCall) :
    (SymbolTable.after calls).entries =
      (calls.filterMap TableCall.bound?).eraseDups.zipIdx 1 ∧
    (SymbolTable.after calls).size = (calls.filterMap TableCall.bound?).eraseDups.length ∧
    (∀ name i, (SymbolTable.after calls).slot? name = some i ↔
      (name, i) ∈ (SymbolTable.after calls).entries) ∧
    (∀ name, .bind name ∈ calls → ∃ slot, (name, slot) ∈ (SymbolTable.after calls).entries ∧
      ∀ i : Nat, calls[i]? = some (.bind name) →
        (SymbolTable.answers calls)[i]? = some (.bound slot)) ∧
    (∀ name, (SymbolTable.after calls).entries <+:
      (SymbolTable.after (calls ++ [.bind name])).entries) ∧
    IndexedTable.answers calls = SymbolTable.answers calls ∧
    (IndexedTable.after calls).entries = (SymbolTable.after calls).entries ∧
    ∀ name i, (IndexedTable.after calls).index[name]? = some i ↔
      1 ≤ i ∧ (IndexedTable.after calls).row[i - 1]? = some name := by
  obtain ⟨hanswers, hafter⟩ := IndexedTable.run_represents calls
  have hslots : ∀ name i, (SymbolTable.after calls).slot? name = some i ↔
      (name, i) ∈ (SymbolTable.after calls).entries := fun name i =>
    SymbolTable.slot?_eq_some_iff (SymbolTable.nodup_names_after calls)
  refine ⟨?_, ?_, hslots, ?_, ?_, hanswers, hafter.entries_eq, hafter.agrees⟩
  · rw [SymbolTable.entries, SymbolTable.names_after]
  · rw [SymbolTable.size, SymbolTable.names_after]
  · intro name hbound
    obtain ⟨k, hk⟩ := List.mem_iff_getElem?.1 hbound
    obtain ⟨slot, hslot, -⟩ := SymbolTable.getElem?_answers_of_bind hk
    refine ⟨slot, (hslots name slot).1 hslot, fun i hi => ?_⟩
    obtain ⟨other, hother, hanswer⟩ := SymbolTable.getElem?_answers_of_bind hi
    rw [hanswer, Option.some.inj (hother.symm.trans hslot)]
  · intro name
    rw [SymbolTable.after_append]
    exact SymbolTable.prefix_entries (SymbolTable.prefix_names_bind _ name)

example : SymbolTable.answers [.bind "b", .bind "a", .bind "b", .slot "c", .entries] =
    [.bound 1, .bound 2, .bound 1, .slot none, .entries [("b", 1), ("a", 2)]] := by
  decide

end OnePass
