import OnePass.Marker

/-!
What can go wrong in a compilation, and the words it is reported in.
-/

namespace OnePass

/-- What is wrong with the form of a source at the place where an error is
reported. -/
inductive Complaint
  /-- No continuation of the text before `got` starts with `got`. -/
  | unexpected (got : String)
  /-- Only `what` can stand where `got` stands. -/
  | expected (what got : String)
  /-- An operand has to start where `got` stands. -/
  | expectedOperand (got : String)
  /-- The digits write a number that is no 64-bit word. -/
  | literalOutOfRange
  /-- A complaint in words of its own. -/
  | other (text : String)
  deriving DecidableEq, Repr

/-- The words of a complaint. -/
def Complaint.message : Complaint → String
  | unexpected got => s!"unexpected token \"{got}\""
  | expected what got => s!"expected \"{what}\", but got \"{got}\""
  | expectedOperand got => s!"expected a number, name or \"(\", but got \"{got}\""
  | literalOutOfRange => "integer literal out of range"
  | other text => text

/-- Why a compilation is refused.  The last three report a state that no source leads
to: they tell of a fault of the compiler, and so they carry no place. -/
inductive CompileError
  | malformed (marker : Marker) (complaint : Complaint)
  | undefinedVariable (marker : Marker) (name : String)
  | divisionByZero (marker : Marker)
  /-- An action takes `needed` pending operands, but only `depth` are there. -/
  | stackUnderflow (needed depth : Nat)
  /-- A statement ends with `depth` pending operands in place of `expected`. -/
  | unbalancedStatement (depth expected : Nat)
  /-- The top of the parse stack is not the symbol that a reduction takes. -/
  | parseStack (expected : String)
  deriving DecidableEq, Repr

namespace CompileError

def message : CompileError → String
  | malformed marker complaint => marker.render ++ " " ++ complaint.message
  | undefinedVariable marker name => marker.render ++ s!" undefined variable '{name}'"
  | divisionByZero marker => marker.render ++ " division by zero"
  | stackUnderflow needed depth =>
    s!"internal error: {needed} pending operand(s) required, stack depth is {depth}"
  | unbalancedStatement depth expected =>
    s!"internal error: statement ended with stack depth {depth}, expected {expected}"
  | parseStack expected => s!"internal error: expected {expected} on top of the parse stack"

/-- The error tells of a fault of the compiler and not of the source. -/
def isInternal : CompileError → Bool
  | malformed .. | undefinedVariable .. | divisionByZero .. => false
  | stackUnderflow .. | unbalancedStatement .. | parseStack .. => true

end CompileError

/-- How a run can stop early.  Besides the errors it reports, a run breaks off when it
is asked to mark a place inside a character. -/
inductive Failure
  | error (e : CompileError)
  | offBoundary
  deriving DecidableEq, Repr

namespace Failure

/-- The failure that reports an error with a marker at byte `loc` of `source`. -/
def marking (source : String) (loc : Nat) (report : Marker → CompileError) : Failure :=
  match Marker.place? source loc with
  | some marker => .error (report marker)
  | none => .offBoundary

end Failure

/-- What comes of a computation that changes a state: a result and the new state, or a
failure and the state that it leaves. -/
inductive Outcome (σ : Type) (α : Type)
  | ok (result : α) (state : σ)
  | failed (failure : Failure) (state : σ)
  deriving DecidableEq, Repr

namespace Outcome

variable {σ α β : Type}

/-- The state in the end, whether the computation succeeded or not. -/
def state : Outcome σ α → σ
  | ok _ s => s
  | failed _ s => s

/-- Change the result of a computation that succeeds. -/
def map (f : α → β) : Outcome σ α → Outcome σ β
  | ok a s => ok (f a) s
  | failed e s => failed e s

@[simp]
theorem state_map (f : α → β) (o : Outcome σ α) : (o.map f).state = o.state := by
  cases o <;> rfl

theorem map_eq_ok_iff {f : α → β} {o : Outcome σ α} {b : β} {s : σ} :
    o.map f = ok b s ↔ ∃ a, o = ok a s ∧ f a = b := by
  cases o with
  | ok a t =>
    simp only [map, ok.injEq]
    exact ⟨fun ⟨hb, hs⟩ => ⟨a, ⟨rfl, hs⟩, hb⟩, fun ⟨_, ⟨ha, hs⟩, hb⟩ => ⟨ha ▸ hb, hs⟩⟩
  | failed e t => simp [map]

theorem map_eq_failed_iff {f : α → β} {o : Outcome σ α} {e : Failure} {s : σ} :
    o.map f = failed e s ↔ o = failed e s := by
  cases o <;> simp [map]

end Outcome
end OnePass
