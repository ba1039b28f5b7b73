import OnePass.Value

/-!
The variables of a program: which slot of the frame each one has, and which value it
is known to hold.

The two tables are filled together but answer different questions, so each is a type
of its own.
-/

namespace OnePass

/-- Names in the order of their first assignment.  The slot of a name is its place in
that order, counted from one, and so it never changes once it is given. -/
structure SymbolTable where
  names : List String := []
  deriving DecidableEq, Repr

namespace SymbolTable

def size (t : SymbolTable) : Nat :=
  t.names.length

def isEmpty (t : SymbolTable) : Bool :=
  t.names.isEmpty

/-- The slot of a name, if it has one. -/
def slot? (t : SymbolTable) (name : String) : Option Nat :=
  (t.names.idxOf? name).map (· + 1)

/-- Give a name a slot, and say which.  A name that has one keeps it. -/
def bind (t : SymbolTable) (name : String) : Nat × SymbolTable :=
  match t.slot? name with
  | some slot => (slot, t)
  | none => (t.size + 1, { names := t.names ++ [name] })

/-- The names with their slots, in the order of the slots. -/
def entries (t : SymbolTable) : List (String × Nat) :=
  t.names.zipIdx 1

theorem slot?_eq_none_iff {t : SymbolTable} {name : String} :
    t.slot? name = none ↔ name ∉ t.names := by
  simp [slot?]

theorem bind_of_slot? {t : SymbolTable} {name : String} {slot : Nat}
    (h : t.slot? name = some slot) : t.bind name = (slot, t) := by
  simp [bind, h]

theorem bind_of_not_mem {t : SymbolTable} {name : String} (h : name ∉ t.names) :
    t.bind name = (t.size + 1, { names := t.names ++ [name] }) := by
  simp [bind, slot?_eq_none_iff.2 h]

end SymbolTable

/-- The values assigned so far, the latest first, so that it hides those before it. -/
structure ValueTable where
  assigned : List (String × Value) := []
  deriving DecidableEq, Repr

namespace ValueTable

/-- Record an assignment. -/
def set (t : ValueTable) (name : String) (value : Value) : ValueTable :=
  { assigned := (name, value) :: t.assigned }

/-- The name has been assigned, to whatever value. -/
def contains (t : ValueTable) (name : String) : Bool :=
  (t.assigned.lookup name).isSome

/-- The value of the latest assignment.  It is unknown for a name never assigned. -/
def get (t : ValueTable) (name : String) : Value :=
  (t.assigned.lookup name).join

@[simp]
theorem get_set_self (t : ValueTable) (name : String) (value : Value) :
    (t.set name value).get name = value := by
  simp [set, get]

theorem get_set_of_ne (t : ValueTable) {name other : String} (value : Value)
    (h : other ≠ name) : (t.set name value).get other = t.get other := by
  have hb : (other == name) = false := by simpa using h
  simp [set, get, List.lookup_cons, hb]

@[simp]
theorem contains_set (t : ValueTable) (name other : String) (value : Value) :
    (t.set name value).contains other = (other == name || t.contains other) := by
  cases h : other == name <;> simp [set, contains, List.lookup_cons, h]

end ValueTable
end OnePass
