import Mathlib.Data.List.TakeWhile
import OnePass.Derivation
import OnePass.Event
import OnePass.Proofs.Actions
import OnePass.Proofs.Refusal
import OnePass.Proofs.Spans

/-!
What the events of a compilation tell.

An action tells of what it does to the table and to the body, and `Traced` follows a run move
by move, with the events of each.  Every reading of the events is then an induction over it: the
tokens shifted are those read, the instructions and the slots told of are those that the context
has in the end, the statements are counted, and the characters warned of are those that the
lexer has passed.  The reductions of a source that is accepted, read backwards, derive its
tokens from the right, because the stack of a parse and its tokens to come are at every point
a form that rewrites to the form before.
-/

namespace OnePass

/-! ## Readings of events -/

namespace Event

def shifted? : Event → Option Token
  | shift token => some token
  | _ => none

def reduction? : Event → Option Production
  | reduce production => some production
  | _ => none

def instruction? : Event → Option Instruction
  | emitted i => some i
  | _ => none

def allocation? : Event → Option (String × Nat)
  | allocated name slot => some (name, slot)
  | _ => none

def statementNumber? : Event → Option Nat
  | statement number _ => some number
  | _ => none

def skipped? : Event → Option Skipped
  | skipped s => some s
  | _ => none

/-- Only skipped characters are warned of. -/
theorem filter_warn (events : List Event) :
    events.filter (fun e => e.level = .warn) = (events.filterMap skipped?).map skipped := by
  induction events with
  | nil => rfl
  | cons e rest ih =>
    cases e with
    | skipped s =>
      rw [List.filter_cons_of_pos rfl, ih]
      rfl
    | _ =>
      rw [List.filter_cons_of_neg Bool.false_ne_true, ih]
      rfl

end Event

theorem filterMap_map_none {α β : Type} {f : Event → Option β} {g : α → Event}
    (h : ∀ a, f (g a) = none) (l : List α) : (l.map g).filterMap f = [] := by
  simp [h]

theorem filterMap_map_some {α : Type} {f : Event → Option α} {g : α → Event}
    (h : ∀ a, f (g a) = some a) (l : List α) : (l.map g).filterMap f = l := by
  simp [List.filterMap_map, h]

/-! ## Actions with their events -/

namespace Context

/-- The events tell how one context became another: of the slots that were given, and then of
the code that was added. -/
def Tells (c : Context) (events : List Event) (d : Context) : Prop :=
  ∃ (slots : List (String × Nat)) (code : List Instruction),
    events = (slots.map fun x => .allocated x.1 x.2) ++ code.map .emitted ∧
      d.symbols.entries = c.symbols.entries ++ slots ∧ d.body = c.body ++ code

variable {c d : Context} {events : List Event}

theorem Tells.refl (c : Context) : c.Tells [] c :=
  ⟨[], [], rfl, (List.append_nil _).symm, (List.append_nil _).symm⟩

theorem Tells.of_code (code : List Instruction) (hsymbols : d.symbols = c.symbols)
    (hbody : d.body = c.body ++ code) : c.Tells (code.map .emitted) d :=
  ⟨[], code, rfl, by rw [hsymbols, List.append_nil], hbody⟩

theorem Tells.body_eq (h : c.Tells events d) :
    c.body ++ events.filterMap Event.instruction? = d.body := by
  obtain ⟨slots, code, rfl, -, hbody⟩ := h
  rw [List.filterMap_append, filterMap_map_none (fun _ => rfl), List.nil_append,
    filterMap_map_some (g := Event.emitted) (fun _ => rfl), hbody]

theorem Tells.entries_eq (h : c.Tells events d) :
    c.symbols.entries ++ events.filterMap Event.allocation? = d.symbols.entries := by
  obtain ⟨slots, code, rfl, hentries, -⟩ := h
  rw [List.filterMap_append, filterMap_map_none (g := Event.emitted) (fun _ => rfl),
    List.append_nil, hentries,
    filterMap_map_some (g := fun x : String × Nat => .allocated x.1 x.2) (fun _ => rfl)]

theorem Tells.filterMap_none {α : Type} {f : Event → Option α} (h : c.Tells events d)
    (ha : ∀ name slot, f (.allocated name slot) = none) (hi : ∀ i, f (.emitted i) = none) :
    events.filterMap f = [] := by
  obtain ⟨slots, code, rfl, -, -⟩ := h
  rw [List.filterMap_append, filterMap_map_none hi, List.append_nil]
  exact filterMap_map_none (fun x : String × Nat => ha x.1 x.2) slots

theorem tells_read (c : Context) (name : String) (loc : Nat) :
    c.Tells (c.told (.read name loc)) (c.read name loc).state := by
  rw [told]
  cases h : c.read name loc with
  | ok v d =>
    obtain ⟨⟨hname, -⟩, -, rfl⟩ := read_eq_ok h
    obtain ⟨slot, hslot⟩ := SymbolTable.slot?_eq_some_of_mem hname
    have hread : c.slot name = slot := by rw [Context.slot, hslot, Option.getD_some]
    rw [hslot, hread]
    exact .of_code [.pushSlot slot] rfl rfl
  | failed f d =>
    obtain rfl := eq_of_read_failed h
    exact .refl d

theorem tells_binary (c : Context) (op : BinaryOp) (lhs rhs : Value) (loc : Nat) :
    c.Tells (c.told (.binary op lhs rhs loc)) (c.binary op lhs rhs loc).state := by
  rw [told]
  cases h : c.binary op lhs rhs loc with
  | ok v d =>
    unfold binary at h
    split at h
    · cases h
    · split at h
      · cases h
      · obtain ⟨-, rfl⟩ := Outcome.ok.inj h
        exact .of_code (Instruction.binary op) rfl rfl
  | failed f d =>
    obtain rfl := eq_of_binary_failed h
    exact .refl d

/-- A store tells of the slot first, if the name has none before. -/
theorem tells_assign (c : Context) (name : String) (value : Value) :
    c.Tells (c.told (.assign name value)) (c.assign name value).state := by
  rw [told, state_assign]
  by_cases hdepth : c.depth < 1
  · rw [if_pos hdepth, if_pos hdepth]
    exact .refl c
  · rw [if_neg hdepth, if_neg hdepth]
    cases hslot : c.symbols.slot? name with
    | some slot =>
      have hbind := SymbolTable.bind_of_slot? hslot
      refine ⟨[], [.popSlot slot], rfl, ?_, ?_⟩
      · rw [symbols_stored, hbind, List.append_nil]
      · rw [stored, hbind]
        rfl
    | none =>
      have hbind := SymbolTable.bind_of_not_mem (SymbolTable.slot?_eq_none_iff.1 hslot)
      refine ⟨[(name, c.symbols.size + 1)], [.popSlot (c.symbols.size + 1)], rfl, ?_, ?_⟩
      · rw [symbols_stored, hbind]
        simp [SymbolTable.entries, SymbolTable.size, List.zipIdx_append, Nat.add_comm]
      · rw [stored, hbind]
        rfl

/-- What an action tells of is what it does to the table and to the body. -/
theorem tells_perform (c : Context) (a : Action) : c.Tells (c.told a) (c.perform a).state := by
  cases a with
  | literal value => exact .of_code [.pushLiteral value] rfl rfl
  | read name loc =>
    rw [perform, Outcome.state_map]
    exact c.tells_read name loc
  | binary op lhs rhs loc =>
    rw [perform, Outcome.state_map]
    exact c.tells_binary op lhs rhs loc
  | assign name value =>
    rw [perform, Outcome.state_map]
    exact c.tells_assign name value
  | finishStatement =>
    rw [perform, Outcome.state_map, told, finishStatement]
    by_cases hdepth : c.depth = 1
    · rw [if_pos hdepth, if_pos hdepth]
      exact .of_code [Instruction.discard] rfl rfl
    · rw [if_neg hdepth, if_neg hdepth]
      exact .refl c
  | emptyStatement =>
    rw [perform, Outcome.state_map, told, emptyStatement]
    by_cases hdepth : c.depth = 0
    · rw [if_pos hdepth]
      exact .refl c
    · rw [if_neg hdepth]
      exact .refl c

end Context

/-- A reduction does to the context what its action does. -/
theorem Stack.state_reduce (source : String) (c : Context) (production : Production)
    (stack : Stack) :
    (reduce source c production stack).state =
      (production.action? stack).elim c fun a => (c.perform a).state := by
  -- a case for each production whose handle is on top, and one for the others
  unfold reduce
  split
  case h_2 | h_3 | h_4 | h_5 | h_7 | h_11 => simp [Production.action?, Context.perform]
  case h_10 =>
    split
    · next hn => simp [Production.action?, Context.perform, hn]
    · next hn => simp [Production.action?, hn, Outcome.state]
  case h_12 =>
    have haction : production.action? stack = none := by
      unfold Production.action?
      split <;> grind
    rw [haction]
    rfl
  all_goals rfl

/-! ## Runs with their events -/

namespace Parse

/-- The run from one parse ends in another, and the events happen on the way. -/
inductive Traced : Parse → List Event → Parse → Prop
  | shift {p last : Parse} {events : List Event} (h : p.move = .shift)
      (hrest : Traced p.shifted events last) : Traced p (p.moveEvents ++ events) last
  | reduce {p q last : Parse} {production : Production} {events : List Event}
      (h : p.move = .reduce production) (hr : p.reduced production = .ok () q)
      (hrest : Traced q events last) : Traced p (p.moveEvents ++ events) last
  | failed {p last : Parse} {production : Production} {f : Failure}
      (h : p.move = .reduce production) (hr : p.reduced production = .failed f last) :
      Traced p p.moveEvents last
  | stop {p : Parse} (h : p.move = .accept ∨ ∃ complaint, p.move = .reject complaint) :
      Traced p [] p

/-- The events of a parse are those of its run, and a run that succeeds stops by
accepting. -/
theorem traced_run (p : Parse) :
    Traced p p.events p.run.state ∧ ∀ q, p.run = .ok () q → q.move = .accept := by
  -- on the bound of the moves to come, by which the run and its events are defined
  induction hn : p.fuel using Nat.strongRecOn generalizing p with
  | _ n ih =>
    subst hn
    cases hmove : p.move with
    | shift =>
      have hstep : p.step = .next p.shifted := by rw [step, hmove]
      rw [events_of_next hstep, run_of_next hstep]
      obtain ⟨hrest, haccept⟩ := ih _ (fuel_lt_of_step hstep) _ rfl
      exact ⟨.shift hmove hrest, haccept⟩
    | reduce production =>
      cases hr : p.reduced production with
      | ok u q =>
        have hstep : p.step = .next q := by rw [step, hmove]; simp only [hr]
        rw [events_of_next hstep, run_of_next hstep]
        obtain ⟨hrest, haccept⟩ := ih _ (fuel_lt_of_step hstep) _ rfl
        exact ⟨.reduce hmove hr hrest, haccept⟩
      | failed f q =>
        have hstep : p.step = .failed f q := by rw [step, hmove]; simp only [hr]
        rw [events_of_ne_next (by simp [hstep]), run_of_failed hstep]
        exact ⟨.failed hmove hr, fun r hok => by cases hok⟩
    | accept =>
      have hstep : p.step = .accept := by rw [step, hmove]
      have hevents : p.moveEvents = [] := by rw [moveEvents, hmove]
      rw [events_of_ne_next (by simp [hstep]), run_of_accept hstep, hevents]
      refine ⟨.stop (.inl hmove), fun q hok => ?_⟩
      rw [← (Outcome.ok.inj hok).2, hmove]
    | reject complaint =>
      obtain ⟨f, hstep⟩ : ∃ f, p.step = .failed f p := ⟨_, by rw [step, hmove]⟩
      have hevents : p.moveEvents = [] := by rw [moveEvents, hmove]
      rw [events_of_ne_next (by simp [hstep]), run_of_failed hstep, hevents]
      exact ⟨.stop (.inr ⟨complaint, hmove⟩), fun r hok => by cases hok⟩

variable {p q : Parse} {production : Production} {events : List Event}

theorem moveEvents_of_shift (h : p.move = .shift) :
    p.moveEvents = p.lexer.skips.map Event.skipped ++ [.shift p.lookahead] := by
  rw [moveEvents, h]

theorem moveEvents_of_reduce (h : p.move = .reduce production) :
    p.moveEvents = .reduce production :: (p.acted production ++ p.completed production) := by
  rw [moveEvents, h]

/-- A reduction tells of its action, and so of what it does to the context. -/
theorem tells_acted (p : Parse) (production : Production) :
    p.context.Tells (p.acted production) (p.reduced production).state.context := by
  have hstate : (p.reduced production).state.context =
      (Stack.reduce p.lexer.source p.context production p.stack).state := by
    unfold reduced
    cases Stack.reduce p.lexer.source p.context production p.stack <;> rfl
  rw [hstate, Stack.state_reduce, acted]
  cases production.action? p.stack with
  | none => exact .refl p.context
  | some a => exact p.context.tells_perform a

theorem filterMap_completed_none {α : Type} {f : Event → Option α}
    (h : ∀ number value, f (.statement number value) = none) (p : Parse)
    (production : Production) : (p.completed production).filterMap f = [] := by
  unfold completed
  split
  · split
    · simp [h]
    · rfl
  · rfl

/-- Code, slots and statements are all that a reduction tells of besides itself. -/
theorem filterMap_reduce {α : Type} {f : Event → Option α} (hm : p.move = .reduce production)
    (hr : f (.reduce production) = none) (ha : ∀ name slot, f (.allocated name slot) = none)
    (hi : ∀ i, f (.emitted i) = none) (hs : ∀ number value, f (.statement number value) = none) :
    p.moveEvents.filterMap f = [] := by
  rw [moveEvents_of_reduce hm, List.filterMap_cons_none hr, List.filterMap_append,
    (p.tells_acted production).filterMap_none ha hi, filterMap_completed_none hs,
    List.append_nil]

theorem filterMap_shift {α : Type} {f : Event → Option α} (hm : p.move = .shift)
    (hs : ∀ s, f (.skipped s) = none) (ht : ∀ token, f (.shift token) = none) :
    p.moveEvents.filterMap f = [] := by
  rw [moveEvents_of_shift hm, List.filterMap_append, filterMap_map_none hs, List.nil_append,
    List.filterMap_cons_none (ht _), List.filterMap_nil]

/-! ## Tokens -/

theorem InStep.of_reduced (hp : p.InStep) (production : Production) :
    (p.reduced production).state.InStep ∧ (p.reduced production).state.row = p.row := by
  obtain ⟨hlexer, hlookahead⟩ := p.lexer_state_reduced production
  rw [InStep, row, hlexer, hlookahead]
  exact ⟨hp, rfl⟩

/-- The tokens that are shifted are taken from the front of the row. -/
theorem Traced.row_eq (h : Traced p events q) (hp : p.InStep) :
    events.filterMap Event.shifted? ++ q.row = p.row ∧ q.InStep := by
  induction h with
  | @shift p last events hmove hrest ih =>
    have hk := Decision.kind_ne_eof_of_next_eq_shift hmove
    obtain ⟨hrow, hlast⟩ := ih (hp.shifted hk)
    have htoken : p.moveEvents.filterMap Event.shifted? = [p.lookahead] := by
      rw [moveEvents_of_shift hmove, List.filterMap_append, filterMap_map_none (fun _ => rfl)]
      rfl
    refine ⟨?_, hlast⟩
    rw [hp.row_shifted hk, List.filterMap_append, htoken, List.append_assoc, hrow]
    rfl
  | @reduce p q last production events hmove hr hrest ih =>
    have hq := hp.of_reduced production
    rw [hr] at hq
    obtain ⟨hrow, hlast⟩ := ih hq.1
    refine ⟨?_, hlast⟩
    rw [List.filterMap_append, filterMap_reduce hmove rfl (fun _ _ => rfl) (fun _ => rfl)
      (fun _ _ => rfl), List.nil_append, hrow]
    exact hq.2
  | @failed p last production f hmove hr =>
    have hlast := hp.of_reduced production
    rw [hr] at hlast
    rw [filterMap_reduce hmove rfl (fun _ _ => rfl) (fun _ => rfl) (fun _ _ => rfl)]
    exact ⟨hlast.2, hlast.1⟩
  | stop => exact ⟨rfl, hp⟩

/-! ## Skipped characters -/

/-- The lookahead parts the skipped characters: those that the lexer has passed stand before it,
and the lexer stands behind it. -/
structure Ahead (p : Parse) : Prop where
  inStep : p.InStep
  passed : ∀ s ∈ p.lexer.skipped, s.loc < p.lookahead.loc
  behind : p.lookahead.loc ≤ p.lexer.pos

end Parse

/-- A scan goes forward: the characters that it skips stand before its token, and it stops behind
it. -/
theorem scan_forward (pos : Nat) (cs : List Char) :
    pos ≤ (scan pos cs).token.loc ∧ (scan pos cs).token.loc ≤ (scan pos cs).pos ∧
      ∀ s ∈ (scan pos cs).skipped, s.loc < (scan pos cs).token.loc := by
  fun_induction scan pos cs with
  | case1 pos => exact ⟨Nat.le_refl pos, Nat.le_refl pos, by simp⟩
  | case2 pos c cs hb ih => exact ⟨by omega, ih.2⟩
  | case3 pos c cs hb l hl => exact ⟨Nat.le_refl pos, Nat.le_add_right pos _, by simp⟩
  | case4 pos c cs hb hl later ih =>
    obtain ⟨hle, hbehind, hpassed⟩ := ih
    have hc := c.utf8Size_pos
    refine ⟨Nat.le_trans (Nat.le_add_right _ _) hle, hbehind, fun s hs => ?_⟩
    rcases List.mem_cons.1 hs with rfl | hs
    · exact Nat.lt_of_lt_of_le (Nat.lt_add_of_pos_right hc) hle
    · exact hpassed s hs

namespace Parse

variable {p q : Parse} {production : Production} {events : List Event}

theorem ahead_next {l : Lexer} (h : l.finished = false) (hl : ∀ s ∈ l.skipped, s.loc < l.pos)
    (c : Context) (stack : Stack) (n : Nat) : Ahead ⟨l.next.2, c, l.next.1, stack, n⟩ := by
  obtain ⟨hle, hbehind, hpassed⟩ := scan_forward l.pos l.rest
  have hinStep := Lexer.finished_next h
  rw [Lexer.next_of_not_finished h] at hinStep ⊢
  refine ⟨hinStep, fun s hs => ?_, hbehind⟩
  rcases List.mem_append.1 hs with hs | hs
  · exact Nat.lt_of_lt_of_le (hl s hs) hle
  · exact hpassed s hs

theorem ahead_start (source : String) (c : Context) : (start (Lexer.new source) c).Ahead :=
  ahead_next rfl (by simp [Lexer.new]) c [] 0

theorem Ahead.shifted (h : p.Ahead) (hk : p.lookahead.kind ≠ .eof) : p.shifted.Ahead :=
  ahead_next (h.inStep.finished_eq_false hk)
    (fun s hs => Nat.lt_of_lt_of_le (h.passed s hs) h.behind) p.context _ p.statements

theorem Ahead.of_reduced (h : p.Ahead) (production : Production) :
    (p.reduced production).state.Ahead := by
  obtain ⟨hlexer, hlookahead⟩ := p.lexer_state_reduced production
  refine ⟨(h.inStep.of_reduced production).1, ?_, ?_⟩
  · rw [hlexer, hlookahead]
    exact h.passed
  · rw [hlexer, hlookahead]
    exact h.behind

end Parse

/-- Reading a token adds the characters skipped on the way. -/
theorem Lexer.skipped_next (l : Lexer) : l.next.2.skipped = l.skipped ++ l.skips := by
  cases h : l.finished with
  | true =>
    rw [next_of_finished h, skips, if_pos h, List.append_nil]
  | false =>
    rw [next_of_not_finished h, skips, if_neg (by simp [h])]
    rfl

theorem Lexer.drain_next {l : Lexer} : l.next.2.drain.2 = l.drain.2 := by
  cases h : l.finished with
  | true => rw [next_of_finished h]
  | false => rw [next_of_not_finished h, drain_of_not_finished h]

namespace Parse

variable {p q : Parse} {production : Production} {events : List Event}

/-- The characters that are warned of are those that the lexer passes. -/
theorem Traced.skipped_eq (h : Traced p events q) :
    p.lexer.skipped ++ events.filterMap Event.skipped? = q.lexer.skipped := by
  induction h with
  | @shift p last events hmove hrest ih =>
    have hshifted : p.shifted.lexer.skipped = p.lexer.skipped ++ p.lexer.skips :=
      p.lexer.skipped_next
    have hnew : p.moveEvents.filterMap Event.skipped? = p.lexer.skips := by
      rw [moveEvents_of_shift hmove, List.filterMap_append,
        filterMap_map_some (g := Event.skipped) (fun _ => rfl)]
      exact List.append_nil p.lexer.skips
    rw [← ih, hshifted, List.filterMap_append, hnew, List.append_assoc]
  | @reduce p q last production events hmove hr hrest ih =>
    have hlexer := (p.lexer_state_reduced production).1
    rw [hr] at hlexer
    rw [List.filterMap_append, filterMap_reduce hmove rfl (fun _ _ => rfl) (fun _ => rfl)
      (fun _ _ => rfl), List.nil_append, ← ih, show q.lexer = p.lexer from hlexer]
  | @failed p last production f hmove hr =>
    have hlexer := (p.lexer_state_reduced production).1
    rw [hr] at hlexer
    rw [filterMap_reduce hmove rfl (fun _ _ => rfl) (fun _ => rfl) (fun _ _ => rfl),
      List.append_nil, show last.lexer = p.lexer from hlexer]
  | stop => exact List.append_nil _

/-- In the end the lookahead is still ahead, and the lexer has the same text before it. -/
theorem Traced.ahead (h : Traced p events q) (hp : p.Ahead) :
    q.Ahead ∧ q.lexer.drain.2 = p.lexer.drain.2 := by
  induction h with
  | @shift p last events hmove hrest ih =>
    obtain ⟨hlast, hdrain⟩ := ih (hp.shifted (Decision.kind_ne_eof_of_next_eq_shift hmove))
    exact ⟨hlast, hdrain.trans Lexer.drain_next⟩
  | @reduce p q last production events hmove hr hrest ih =>
    have hq := hp.of_reduced production
    have hlexer := (p.lexer_state_reduced production).1
    rw [hr] at hq hlexer
    obtain ⟨hlast, hdrain⟩ := ih hq
    rw [show q.lexer = p.lexer from hlexer] at hdrain
    exact ⟨hlast, hdrain⟩
  | @failed p last production f hmove hr =>
    have hlast := hp.of_reduced production
    have hlexer := (p.lexer_state_reduced production).1
    rw [hr] at hlast hlexer
    rw [show last.lexer = p.lexer from hlexer]
    exact ⟨hlast, rfl⟩
  | stop => exact ⟨hp, rfl⟩

/-- The lexer has skipped what is to be skipped before the lookahead, and no more. -/
theorem Ahead.takeWhile_skipped (h : p.Ahead) :
    p.lexer.drain.2.skipped.takeWhile (fun s => s.loc < p.lookahead.loc) = p.lexer.skipped := by
  have hpassed : ∀ s ∈ p.lexer.skipped, decide (s.loc < p.lookahead.loc) = true :=
    fun s hs => decide_eq_true (h.passed s hs)
  cases hf : p.lexer.finished with
  | true =>
    rw [Lexer.drain_of_finished hf]
    exact List.takeWhile_eq_self_iff.2 hpassed
  | false =>
    obtain ⟨ts, ss, -, hskipped, hparted⟩ := Lexer.parted_drain hf
    have hlater : ss.takeWhile (fun s => s.loc < p.lookahead.loc) = [] := by
      cases ss with
      | nil => rfl
      | cons s more =>
        have hmem : s.span ∈ spans ts (s :: more) :=
          List.mem_append_right _ List.mem_cons_self
        have hle : p.lexer.pos ≤ s.loc := (hparted.within s.span hmem).1
        have hbehind := h.behind
        exact List.takeWhile_cons_of_neg (by simp; omega)
    rw [hskipped, List.takeWhile_append_of_pos hpassed, hlater, List.append_nil]

/-! ## Code and slots -/

/-- What the actions tell of a part of the context adds up over a run. -/
theorem Traced.part_eq {α : Type} {f : Event → Option α} {part : Context → List α}
    (hpart : ∀ {c d : Context} {told : List Event}, c.Tells told d →
      part c ++ told.filterMap f = part d)
    (hk : ∀ s, f (.skipped s) = none) (ht : ∀ token, f (.shift token) = none)
    (hr : ∀ production, f (.reduce production) = none)
    (hs : ∀ number value, f (.statement number value) = none) (h : Traced p events q) :
    part p.context ++ events.filterMap f = part q.context := by
  have hreduce : ∀ {p : Parse} {production : Production}, p.move = .reduce production →
      part p.context ++ p.moveEvents.filterMap f =
        part (p.reduced production).state.context := by
    intro p production hm
    rw [moveEvents_of_reduce hm, List.filterMap_cons_none (hr production), List.filterMap_append,
      filterMap_completed_none hs, List.append_nil, hpart (p.tells_acted production)]
  induction h with
  | @shift p last events hmove hrest ih =>
    rw [List.filterMap_append, filterMap_shift hmove hk ht, List.nil_append]
    exact ih
  | @reduce p q last production events hmove hr hrest ih =>
    have hq := hreduce hmove
    rw [hr] at hq
    rw [List.filterMap_append, ← List.append_assoc, hq]
    exact ih
  | @failed p last production f hmove hr =>
    have hlast := hreduce hmove
    rwa [hr] at hlast
  | stop => exact List.append_nil _

/-- The instructions that are told of are those that the run adds to the body. -/
theorem Traced.body_eq (h : Traced p events q) :
    p.context.body ++ events.filterMap Event.instruction? = q.context.body :=
  h.part_eq Context.Tells.body_eq (fun _ => rfl) (fun _ => rfl) (fun _ => rfl) fun _ _ => rfl

/-- The slots that are told of are those that the run adds to the table. -/
theorem Traced.entries_eq (h : Traced p events q) :
    p.context.symbols.entries ++ events.filterMap Event.allocation? =
      q.context.symbols.entries :=
  h.part_eq Context.Tells.entries_eq (fun _ => rfl) (fun _ => rfl) (fun _ => rfl) fun _ _ => rfl

/-! ## Statements -/

variable {source : String} {c : Context} {x : Outline}

/-- A reduction that is decided on is one by which the outline can grow. -/
theorem Tracks.advance_of_reduce (hp : p.Tracks source c x) (hm : p.move = .reduce production) :
    ∃ y rest, x.Advance p.input (.reduce production) y rest := by
  rcases Outline.advance_or_stop hp.act_eq p.heads_input with
    ⟨m, y, rest, h⟩ | ⟨-, -, hmove⟩ | ⟨complaint, hmove⟩
  · rw [← hm, hp.move_eq h]
    exact ⟨y, rest, h⟩
  · cases hmove.symm.trans hm
  · cases hmove.symm.trans hm

/-- What is reduced to a program is a statement and its semicolon. -/
theorem Tracks.stack_of_program (hp : p.Tracks source c x) (hm : p.move = .reduce .program) :
    ∃ t v, p.stack = [.token t, .stmt v] := by
  obtain ⟨y, rest, h⟩ := hp.advance_of_reduce hm
  obtain ⟨_, e, -, hact⟩ := Outcome.bind_eq_ok_iff.1 hp.act_eq
  generalize p.input = input at h
  cases h with
  | within h => cases h
  | @program ss k semicolon hk =>
    obtain ⟨v, -, hstack⟩ := Outcome.map_eq_ok_iff.1 hact
    exact ⟨semicolon, v, hstack.symm⟩

theorem completed_of_ne_program (h : production ≠ .program) : p.completed production = [] := by
  unfold completed
  split
  · exact absurd rfl h
  · rfl

/-- The statements that a reduction completes, at most one, get the next numbers. -/
theorem Tracks.numbers_reduce (hp : p.Tracks source c x) (hm : p.move = .reduce production) :
    ∃ n, (p.reduced production).state.statements = p.statements + n ∧
      p.moveEvents.filterMap Event.statementNumber? = List.range' (p.statements + 1) n := by
  rw [moveEvents_of_reduce hm, List.filterMap_cons_none rfl, List.filterMap_append,
    (p.tells_acted production).filterMap_none (fun _ _ => rfl) (fun _ => rfl), List.nil_append]
  by_cases hprogram : production = .program
  · subst hprogram
    obtain ⟨t, v, hstack⟩ := hp.stack_of_program hm
    refine ⟨1, ?_, ?_⟩
    · simp [reduced, hstack, Stack.reduce, Outcome.state]
    · simp [completed, hstack, Event.statementNumber?]
  · refine ⟨0, ?_, ?_⟩
    · unfold reduced
      split <;> simp [hprogram, Outcome.state]
    · rw [completed_of_ne_program hprogram]
      rfl

theorem Traced.numbers (h : Traced p events q) (hp : p.Tracks source c x) :
    ∃ n, q.statements = p.statements + n ∧
      events.filterMap Event.statementNumber? = List.range' (p.statements + 1) n := by
  induction h generalizing x with
  | @shift p last events hmove hrest ih =>
    obtain ⟨y, -, hy⟩ := hp.of_step (by rw [step, hmove])
    rw [List.filterMap_append, filterMap_shift hmove (fun _ => rfl) (fun _ => rfl),
      List.nil_append]
    exact ih hy
  | @reduce p q last production events hmove hr hrest ih =>
    obtain ⟨y, -, hy⟩ := hp.of_step (q := q) (by rw [step, hmove]; simp only [hr])
    obtain ⟨m, hm, hnumbers⟩ := hp.numbers_reduce hmove
    obtain ⟨n, hn, hrest⟩ := ih hy
    rw [hr] at hm
    have hm : q.statements = p.statements + m := hm
    refine ⟨m + n, by omega, ?_⟩
    rw [List.filterMap_append, hnumbers, hrest, hm, Nat.add_right_comm, List.range'_append_1]
  | @failed p last production f hmove hr =>
    have hnumbers := hp.numbers_reduce hmove
    rwa [hr] at hnumbers
  | stop => exact ⟨0, rfl, rfl⟩

end Parse

/-! ## Derivations -/

def Level.nonterminal : Level → Nonterminal
  | factor => .factor
  | term => .term
  | expression => .expression

def Opening.form : {l : Level} → Opening l → Form
  | _, start => []
  | _, assign .. => [.terminal .name, .terminal .becomes]
  | _, group before .. => before.form ++ [.terminal .lparen]
  | _, ofExpression before => before.form
  | _, sum before _ _ op _ _ =>
    before.form ++ [.nonterminal .expression, .terminal (.operator op)]
  | _, ofTerm before => before.form
  | _, product before _ _ op _ _ =>
    before.form ++ [.nonterminal .term, .terminal (.operator op)]

@[simp]
theorem Opening.form_operand {l : Level} (o : Opening l) : o.operand.form = o.form := by
  cases l <;> rfl

def Fragment.form : Fragment → Form
  | opening o => o.form
  | operand o t _ => o.form ++ [.terminal t.kind]
  | closed o .. => o.form ++ [.terminal .lparen, .nonterminal .expression, .terminal .rparen]
  | @phrase l o _ => o.form ++ [.nonterminal l.nonterminal]
  | clause _ => [.nonterminal .statement]
  | ended .. => [.nonterminal .statement, .terminal .semicolon]

def terminals (tokens : List Token) : Form :=
  (tokens.map Token.kind).map .terminal

namespace Outline

/-- An outline with only the names of what it has recognised.  The sentences that are complete
make a program. -/
def form (x : Outline) : Form :=
  .nonterminal .program :: x.fragment.form

variable {x y : Outline} {input rest : List Token} {production : Production}

/-- A shift keeps the form of the outline and the tokens to come. -/
theorem form_shift (h : x.Advance input .shift y rest) :
    y.form ++ terminals rest = x.form ++ terminals input := by
  cases h with
  | within h =>
    cases h <;> simp_all [form, Fragment.form, Opening.form, terminals, Level.nonterminal]

/-- A reduction undoes a rule of the grammar at the end of the outline. -/
theorem form_reduce (h : x.Advance input (.reduce production) y rest) :
    production.rule ∈ grammarRules ∧ rest = input ∧
      ∃ front, y.form = front ++ [.nonterminal production.rule.input] ∧
        x.form = front ++ production.rule.output := by
  cases h with
  | within h =>
    cases h with
    | @factorNumber o t _ _ _ ht _ =>
      refine ⟨by decide, rfl, .nonterminal .program :: o.form, rfl, ?_⟩
      rw [form, Fragment.form, ht]
      rfl
    | @factorName o t _ _ _ ht _ =>
      refine ⟨by decide, rfl, .nonterminal .program :: o.form, rfl, ?_⟩
      rw [form, Fragment.form, ht]
      rfl
    | @factorGroup o => exact ⟨by decide, rfl, .nonterminal .program :: o.form, rfl, rfl⟩
    | @termFactor o => exact ⟨by decide, rfl, .nonterminal .program :: o.form, rfl, rfl⟩
    | @termBinary o lhs sign op hs hop f =>
      refine ⟨?_, rfl, .nonterminal .program :: o.form, rfl, ?_⟩
      · cases op <;> first | decide | cases hop
      · simp [form, Fragment.form, Opening.form, Production.rule, Level.nonterminal]
    | @exprTerm o => exact ⟨by decide, rfl, .nonterminal .program :: o.form, rfl, rfl⟩
    | @exprBinary o lhs sign op hs hop t =>
      refine ⟨?_, rfl, .nonterminal .program :: o.form, rfl, ?_⟩
      · cases op <;> first | decide | cases hop
      · simp [form, Fragment.form, Opening.form, Production.rule, Level.nonterminal]
    | stmtExpr => exact ⟨by decide, rfl, [.nonterminal .program], rfl, rfl⟩
    | stmtAssign => exact ⟨by decide, rfl, [.nonterminal .program], rfl, rfl⟩
    | stmtEmpty => exact ⟨by decide, rfl, [.nonterminal .program], rfl, rfl⟩
  | program => exact ⟨by decide, rfl, [], rfl, rfl⟩

end Outline

namespace Parse

variable {p q : Parse} {production : Production} {events : List Event} {source : String}
  {c : Context} {x : Outline}

open ContextFreeRule (DerivesRightmost derivesRightmost_concat)

theorem filterMap_reduction_reduce (h : p.move = .reduce production) :
    p.moveEvents.filterMap Event.reduction? = [production] := by
  rw [moveEvents_of_reduce h, List.filterMap_cons_some (f := Event.reduction?) rfl,
    List.filterMap_append,
    (p.tells_acted production).filterMap_none (fun _ _ => rfl) (fun _ => rfl),
    filterMap_completed_none (fun _ _ => rfl), List.append_nil]

theorem kind_eq_eof_of_input (h : p.input = []) : p.lookahead.kind = .eof := by
  have hheads := p.heads_input
  rwa [h] at hheads

theorem move_of_reduced_failed {f : Failure} (h : p.reduced production = .failed f q) :
    q.move = p.move := by
  unfold reduced at h
  split at h
  · cases h
  · obtain ⟨-, rfl⟩ := Outcome.failed.inj h
    rfl

theorem Traced.rules (h : Traced p events q) (hp : p.Tracks source c x) :
    ∀ production ∈ events.filterMap Event.reduction?, production.rule ∈ grammarRules := by
  induction h generalizing x with
  | @shift p last events hmove hrest ih =>
    obtain ⟨y, -, hy⟩ := hp.of_step (by rw [step, hmove])
    rw [List.filterMap_append, filterMap_shift hmove (fun _ => rfl) (fun _ => rfl),
      List.nil_append]
    exact ih hy
  | @reduce p q last production events hmove hr hrest ih =>
    obtain ⟨y, hadvance, hy⟩ := hp.of_step (q := q) (by rw [step, hmove]; simp only [hr])
    rw [hmove] at hadvance
    rw [List.filterMap_append, filterMap_reduction_reduce hmove]
    exact List.forall_mem_cons.2 ⟨(Outline.form_reduce hadvance).1, ih hy⟩
  | @failed p last production f hmove hr =>
    obtain ⟨y, rest, hadvance⟩ := hp.advance_of_reduce hmove
    rw [filterMap_reduction_reduce hmove]
    exact List.forall_mem_singleton.2 (Outline.form_reduce hadvance).1
  | stop => exact fun _ h => by cases h

/-- The reductions of a run that accepts, read backwards, derive what the outline has recognised
and the tokens to come, none of which is left in the end. -/
theorem Traced.derives (h : Traced p events q) (hp : p.Tracks source c x)
    (haccept : q.move = .accept) :
    q.input = [] ∧
      DerivesRightmost ((events.filterMap Event.reduction?).reverse.map Production.rule)
        [.nonterminal .program] (x.form ++ terminals p.input) := by
  induction h generalizing x with
  | @shift p last events hmove hrest ih =>
    obtain ⟨y, hadvance, hy⟩ := hp.of_step (by rw [step, hmove])
    rw [hmove] at hadvance
    rw [List.filterMap_append, filterMap_shift hmove (fun _ => rfl) (fun _ => rfl),
      List.nil_append, ← Outline.form_shift hadvance]
    exact ih hy haccept
  | @reduce p q last production events hmove hr hrest ih =>
    obtain ⟨y, hadvance, hy⟩ := hp.of_step (q := q) (by rw [step, hmove]; simp only [hr])
    rw [hmove] at hadvance
    obtain ⟨-, hinput, front, hafter, hbefore⟩ := Outline.form_reduce hadvance
    obtain ⟨hend, hderives⟩ := ih hy haccept
    refine ⟨hend, ?_⟩
    -- read backwards, the first reduction is the last step of the derivation
    rw [List.filterMap_append, filterMap_reduction_reduce hmove, List.reverse_append,
      List.map_append]
    refine derivesRightmost_concat.2 ⟨_, hderives, front, p.input.map Token.kind, ?_, ?_⟩
    · rw [hafter, hinput]
      rfl
    · rw [hbefore]
      rfl
  | @failed p last production f hmove hr =>
    rw [move_of_reduced_failed hr, hmove] at haccept
    cases haccept
  | @stop p hstop =>
    rcases hp.step_cases with ⟨r, m, y, hstep, -⟩ | ⟨-, hstart, hinput⟩ | ⟨f, d, hstep, -⟩
    · rw [step, haccept] at hstep
      cases hstep
    · refine ⟨hinput, ?_⟩
      rw [Outline.form, hstart, hinput]
      rfl
    · rw [step, haccept] at hstep
      cases hstep

end Parse

/-! ## Traces -/

section

variable {source : String} {options : Options}

/-- What is read off a trace apart from warnings is read off the moves. -/
theorem filterMap_trace {α : Type} {f : Event → Option α} (hs : ∀ s, f (.skipped s) = none)
    (hc : ∀ statements slots instructions, f (.compiled statements slots instructions) = none) :
    (trace source options).filterMap f =
      (Parse.start (Lexer.new source) (Context.new source)).events.filterMap f := by
  unfold trace
  split
  · rw [List.filterMap_append, List.filterMap_append, filterMap_map_none hs,
      List.filterMap_cons_none (hc _ _ _), List.filterMap_nil, List.append_nil, List.nil_append]
  · rw [List.filterMap_append, filterMap_map_none hs, List.nil_append]

theorem filterMap_skipped_trace :
    (trace source options).filterMap Event.skipped? =
      (Parse.start (Lexer.new source) (Context.new source)).run.state.lexer.skipped := by
  have hstart : (Parse.start (Lexer.new source) (Context.new source)).lexer.skipped =
      (Lexer.new source).skips := (Lexer.new source).skipped_next
  rw [← (Parse.traced_run _).1.skipped_eq, hstart]
  unfold trace
  split
  · rw [List.filterMap_append, List.filterMap_append,
      filterMap_map_some (g := Event.skipped) (fun _ => rfl)]
    exact List.append_nil _
  · rw [List.filterMap_append, filterMap_map_some (g := Event.skipped) (fun _ => rfl)]

theorem state_parse (l : Lexer) (c : Context) :
    (parse l c).state =
      ((Parse.start l c).run.state.lexer, (Parse.start l c).run.state.context) := by
  unfold parse
  cases (Parse.start l c).run <;> rfl

/-- A source that compiles is accepted, and its statements are those that the parse has
counted. -/
theorem accept_of_compile {result : Compilation} (h : compile source options = .ok result) :
    (Parse.start (Lexer.new source) (Context.new source)).run.state.move = .accept ∧
      (Parse.start (Lexer.new source) (Context.new source)).run.state.statements =
        result.statements := by
  unfold compile parse at h
  cases hrun : (Parse.start (Lexer.new source) (Context.new source)).run with
  | failed f q => simp [hrun] at h
  | ok u q =>
    refine ⟨(Parse.traced_run _).2 q hrun, ?_⟩
    rw [hrun] at h
    dsimp only at h
    split at h
    · cases h
    · obtain rfl := Except.ok.inj h
      rfl

end

/-- The events tell of the parse of a source. -/
structure RightParse (source : String) (options : Options) (events : List Event) : Prop where
  shifted : events.filterMap Event.shifted? <+: sourceTokens source
  /-- The code told of is the code in the context that the parse leaves, also when it fails. -/
  emitted : events.filterMap Event.instruction? =
    (parse (Lexer.new source) (Context.new source)).state.2.body
  /-- The slots told of are those of its table. -/
  allocated : events.filterMap Event.allocation? =
    (parse (Lexer.new source) (Context.new source)).state.2.symbols.entries
  numbered : ∃ n, events.filterMap Event.statementNumber? = List.range' 1 n
  /-- The lookahead that is read last parts the characters that are warned of from the others. -/
  warned : ∃ last, events.filterMap Event.shifted? ++
      last :: (parse (Lexer.new source) (Context.new source)).state.1.drain.1 =
        (tokenize source).1 ∧
    events.filter (fun e => e.level = .warn) =
      ((tokenize source).2.takeWhile fun s => s.loc < last.loc).map Event.skipped
  reduced : ∀ production ∈ events.filterMap Event.reduction?,
    production.rule ∈ grammarRules ∧ production.text = ruleText production.rule
  /-- Of a source that is accepted the events tell all. -/
  accepted : ∀ result, compile source options = .ok result →
    events.filterMap Event.shifted? = sourceTokens source ∧
    events.filterMap Event.statementNumber? = List.range' 1 result.statements ∧
    events.filter (fun e => e.level = .warn) = (tokenize source).2.map Event.skipped ∧
    ContextFreeRule.DerivesRightmost
      ((events.filterMap Event.reduction?).reverse.map Production.rule ++ [emptyProgram])
      [.nonterminal .program] (terminals (sourceTokens source))

/-- The trace of a compilation is a right parse of its source. -/
theorem trace_right_parse (source : String) (options : Options) :
    RightParse source options (trace source options) := by
  have htracks := Parse.tracks_start (Lexer.new source) (Context.new source)
  have htraced := (Parse.traced_run (Parse.start (Lexer.new source) (Context.new source))).1
  obtain ⟨hrow, hinStep⟩ := htraced.row_eq (Parse.inStep_start rfl _)
  rw [Parse.row_start] at hrow
  have hsource := sourceTokens_of_row hinStep hrow
  obtain ⟨n, hcount, hnumbers⟩ := htraced.numbers htracks
  obtain ⟨hahead, hdrain⟩ := htraced.ahead (Parse.ahead_start source _)
  have hskipped : (tokenize source).2 =
      (Parse.start (Lexer.new source) (Context.new source)).run.state.lexer.drain.2.skipped := by
    rw [hdrain]
    exact congrArg Lexer.skipped Lexer.drain_next.symm
  constructor
  case shifted =>
    rw [filterMap_trace (fun _ => rfl) (fun _ _ _ => rfl), hsource]
    exact List.prefix_append _ _
  case emitted =>
    rw [filterMap_trace (fun _ => rfl) (fun _ _ _ => rfl), state_parse]
    exact htraced.body_eq
  case allocated =>
    rw [filterMap_trace (fun _ => rfl) (fun _ _ _ => rfl), state_parse]
    exact htraced.entries_eq
  case numbered =>
    rw [filterMap_trace (fun _ => rfl) (fun _ _ _ => rfl)]
    exact ⟨n, hnumbers⟩
  case warned =>
    rw [filterMap_trace (fun _ => rfl) (fun _ _ _ => rfl), Event.filter_warn,
      filterMap_skipped_trace, state_parse, hskipped]
    exact ⟨_, hrow, congrArg _ hahead.takeWhile_skipped.symm⟩
  case reduced =>
    rw [filterMap_trace (fun _ => rfl) (fun _ _ _ => rfl)]
    exact fun production hmem => ⟨htraced.rules htracks production hmem, production.text_eq⟩
  case accepted =>
    intro result hresult
    obtain ⟨hmove, hstatements⟩ := accept_of_compile hresult
    obtain ⟨hend, hderives⟩ := htraced.derives htracks hmove
    have hfinished := hinStep.2 (Parse.kind_eq_eof_of_input hend)
    refine ⟨?_, ?_, ?_, ?_⟩
    · rw [filterMap_trace (fun _ => rfl) (fun _ _ _ => rfl), hsource, hend, List.append_nil]
    · have hn : result.statements = n := by
        rw [← hstatements, hcount]
        exact Nat.zero_add n
      rw [filterMap_trace (fun _ => rfl) (fun _ _ _ => rfl), hn]
      exact hnumbers
    · rw [Event.filter_warn, filterMap_skipped_trace, hskipped,
        Lexer.drain_of_finished hfinished]
    · rw [filterMap_trace (fun _ => rfl) (fun _ _ _ => rfl)]
      rw [Parse.input_start] at hderives
      -- the empty program is rewritten last, in front of all the tokens
      exact ContextFreeRule.derivesRightmost_concat.2
        ⟨_, hderives, [], (sourceTokens source).map Token.kind, rfl, rfl⟩

example : (trace "x := 1;" {}).filterMap Event.reduction? =
    [.factorNumber, .termFactor, .exprTerm, .stmtAssign, .program] := by
  decide +kernel

end OnePass
