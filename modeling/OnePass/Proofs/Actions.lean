import OnePass.Proofs.Frame

/-!
Runs of a context, in any order and with failures.

A parse calls the actions of a context in an order that keeps it tidy, but the context does
not count on that.  Its count of pending operands, its two tables, its count of slots and the
code that it has emitted agree after every row of actions, also when some of them fail and
the row goes on.  `Acts` says once what an action can make of a context, `Sound` is what every
such change keeps, and the results about runs are read off it.
-/

namespace OnePass

/-! ## Pushes and pops in code -/

namespace Instruction

/-- The slot of the frame that an instruction addresses. -/
def slot? : Instruction → Option Nat
  | pushSlot slot | popSlot slot => some slot
  | _ => none

def pushes (code : List Instruction) : Nat :=
  code.countP isPush

def pops (code : List Instruction) : Nat :=
  code.countP isPop

theorem pushes_cons (i : Instruction) (code : List Instruction) :
    pushes (i :: code) = pushes code + if i.isPush then 1 else 0 :=
  List.countP_cons

theorem pops_cons (i : Instruction) (code : List Instruction) :
    pops (i :: code) = pops code + if i.isPop then 1 else 0 :=
  List.countP_cons

theorem Fits.pos_of_isPop {slots depth : Nat} {i : Instruction} (h : i.Fits slots depth)
    (hi : i.isPop = true) : 0 < depth := by
  cases i with
  | popSlot slot => exact h.1
  | popRegister r => exact h.1
  | _ => cases hi

theorem Fits.depthAfter_add {slots depth : Nat} {i : Instruction} (h : i.Fits slots depth) :
    i.depthAfter depth + (if i.isPop then 1 else 0) = depth + if i.isPush then 1 else 0 := by
  have hpos := h.pos_of_isPop
  cases i with
  | popSlot slot =>
    have := hpos rfl
    simp only [depthAfter, isPush, isPop, if_true, Bool.false_eq_true, if_false]
    omega
  | popRegister r =>
    have := hpos rfl
    simp only [depthAfter, isPush, isPop, if_true, Bool.false_eq_true, if_false]
    omega
  | _ => rfl

namespace Carries

variable {slots depth after : Nat} {code : List Instruction}

/-- Code that takes one number of operands to another has pushed and popped the
difference. -/
theorem counts (h : Carries slots code depth after) :
    depth + pushes code = after + pops code := by
  induction code generalizing depth with
  | nil =>
    obtain rfl : depth = after := h
    rfl
  | cons i rest ih =>
    have hrest := ih h.2
    have hi := h.1.depthAfter_add
    rw [pushes_cons, pops_cons]
    omega

theorem mono {more : Nat} (hle : slots ≤ more) (h : Carries slots code depth after) :
    Carries more code depth after := by
  induction code generalizing depth with
  | nil => exact h
  | cons i rest ih =>
    refine ⟨?_, ih h.2⟩
    cases i with
    | pushSlot slot => exact ⟨h.1.1, Nat.le_trans h.1.2 hle⟩
    | popSlot slot => exact ⟨h.1.1, h.1.2.1, Nat.le_trans h.1.2.2 hle⟩
    | _ => exact h.1

/-- A pop stands only behind code that has pushed more than it has popped. -/
theorem pops_lt_pushes {front back : List Instruction} {i : Instruction}
    (h : Carries slots (front ++ i :: back) 0 after) (hi : i.isPop = true) :
    pops front < pushes front := by
  obtain ⟨between, hfront, hback⟩ := carries_append.1 h
  have hpos := hback.1.pos_of_isPop hi
  have hcounts := hfront.counts
  omega

theorem slot_bounds (h : Carries slots code depth after) {i : Instruction} (hi : i ∈ code)
    {slot : Nat} (hslot : i.slot? = some slot) : 1 ≤ slot ∧ slot ≤ slots := by
  obtain ⟨front, back, rfl⟩ := List.append_of_mem hi
  obtain ⟨between, -, hback⟩ := carries_append.1 h
  have hfits := hback.1
  cases i with
  | pushSlot s =>
    obtain rfl := Option.some.inj hslot
    exact hfits
  | popSlot s =>
    obtain rfl := Option.some.inj hslot
    exact hfits.2
  | _ => cases hslot

end Carries

/-- Every load from a slot stands behind a store to it. -/
def StoresFirst (body : List Instruction) : Prop :=
  ∀ front slot back, body = front ++ pushSlot slot :: back → popSlot slot ∈ front

theorem StoresFirst.append {body code : List Instruction} (h : StoresFirst body)
    (hcode : ∀ slot, pushSlot slot ∈ code → popSlot slot ∈ body) :
    StoresFirst (body ++ code) := by
  intro front slot back heq
  -- the load stands in the new code, at its start or behind it, or in the old
  rcases List.append_eq_append_iff.1 heq with ⟨more, rfl, hcut⟩ | ⟨more, hbody, hcut⟩
  · exact List.mem_append_left _ (hcode slot (by rw [hcut]; simp))
  · cases more with
    | nil =>
      rw [List.append_nil] at hbody
      rw [← hbody]
      exact hcode slot (by rw [← List.nil_append code, ← hcut]; simp)
    | cons i more =>
      obtain ⟨rfl, -⟩ := List.cons.inj hcut
      exact h front slot more hbody

end Instruction

open Instruction (Carries StoresFirst pushes pops)

/-! ## Operands of the machine -/

namespace Machine

variable {slots : Nat} {m : Machine}

theorem pop_of_pos (h : 0 < m.stack.length) (use : Machine → Word → Machine) :
    ∃ w rest, m.stack = w :: rest ∧ m.pop use = .ok (use { m with stack := rest } w) := by
  cases hstack : m.stack with
  | nil => simp [hstack] at h
  | cons w rest => exact ⟨w, rest, rfl, by rw [pop, hstack]⟩

theorem stack_of_divide {n : Machine} {divisor : Word} (h : m.divide divisor = .ok n) :
    n.stack = m.stack := by
  unfold divide at h
  simp only at h
  split at h
  · cases h
  · split at h
    · cases h
    · obtain rfl := Except.ok.inj h
      rfl

theorem divide_ne_emptyStack (divisor : Word) : m.divide divisor ≠ .error .emptyStack := by
  unfold divide
  simp only
  split
  · simp
  · split <;> simp

/-- An instruction that fits finds the operands it takes, and leaves as many as its kind
says. -/
theorem step_of_fits {i : Instruction} (h : i.Fits slots m.stack.length) :
    m.step i ≠ .error .emptyStack ∧
      ∀ n, m.step i = .ok n → n.stack.length = i.depthAfter m.stack.length := by
  cases i with
  | popSlot slot =>
    obtain ⟨w, rest, hstack, hpop⟩ := pop_of_pos h.1 fun m w => m.setSlot slot w
    rw [step, hpop, hstack]
    refine ⟨by simp, fun n hn => ?_⟩
    obtain rfl := Except.ok.inj hn
    rfl
  | popRegister r =>
    obtain ⟨w, rest, hstack, hpop⟩ := pop_of_pos h.1 fun m w => m.setRegister r w
    rw [step, hpop, hstack]
    refine ⟨by simp, fun n hn => ?_⟩
    obtain rfl := Except.ok.inj hn
    rfl
  | divide divisor =>
    refine ⟨divide_ne_emptyStack _, fun n hn => ?_⟩
    rw [stack_of_divide hn]
    rfl
  | pushLiteral _ | pushSlot _ | pushRegister _ | add _ _ | sub _ _ | mul _ _ | extendSign =>
    refine ⟨by simp [step], fun n hn => ?_⟩
    obtain rfl := Except.ok.inj hn
    rfl
  | _ => exact absurd h id

/-- A machine that has the operands that code starts from never runs out of them, and at the
end of the code it has those that the code leaves. -/
theorem run_of_carries {depth after : Nat} {code : List Instruction}
    (h : Carries slots code depth after) (hm : m.stack.length = depth) :
    m.run code ≠ .error .emptyStack ∧ ∀ n, m.run code = .ok n → n.stack.length = after := by
  induction code generalizing m depth with
  | nil =>
    obtain rfl : depth = after := h
    refine ⟨by simp, fun n hn => ?_⟩
    obtain rfl := Except.ok.inj hn
    exact hm
  | cons i rest ih =>
    subst hm
    obtain ⟨hne, hstep⟩ := step_of_fits h.1
    rw [run_cons]
    cases hi : m.step i with
    | ok o => exact ih h.2 (hstep o hi)
    | error f =>
      rw [hi] at hne
      exact ⟨hne, fun n hn => by cases hn⟩

end Machine

/-! ## One action -/

namespace Context

/-- The state after code that leaves one operand less. -/
def popped (c : Context) (code : List Instruction) : Context :=
  { c.emit code with depth := c.depth - 1 }

/-- What an action can make of a context. -/
inductive Acts (c : Context) : Action → Context → Prop
  | unchanged (a : Action) : Acts c a c
  | literal (value : Int64) : Acts c (.literal value) (c.pushed [.pushLiteral value])
  | read {name : String} {loc : Nat} (h : c.Defines name) :
    Acts c (.read name loc) (c.pushed [.pushSlot (c.slot name)])
  | binary {op : BinaryOp} {lhs rhs : Value} {loc : Nat} (h : 2 ≤ c.depth) :
    Acts c (.binary op lhs rhs loc) (c.popped (Instruction.binary op))
  | assign {name : String} {value : Value} (h : 1 ≤ c.depth) :
    Acts c (.assign name value) (c.stored name value)
  | finishStatement (h : c.depth = 1) :
    Acts c .finishStatement (c.popped [Instruction.discard])

theorem eq_of_read_failed {c d : Context} {name : String} {loc : Nat} {f : Failure}
    (h : c.read name loc = .failed f d) : d = c := by
  unfold Context.read at h
  split at h
  · exact (Outcome.failed.inj h).2.symm
  · split at h
    · cases h
    · exact (Outcome.failed.inj h).2.symm

theorem eq_of_binary_failed {c d : Context} {op : BinaryOp} {lhs rhs : Value} {loc : Nat}
    {f : Failure} (h : c.binary op lhs rhs loc = .failed f d) : d = c := by
  unfold binary at h
  split at h
  · exact (Outcome.failed.inj h).2.symm
  · split at h
    · exact (Outcome.failed.inj h).2.symm
    · cases h

theorem acts_read (c : Context) (name : String) (loc : Nat) :
    c.Acts (.read name loc) (c.read name loc).state := by
  cases h : c.read name loc with
  | ok v d =>
    obtain ⟨hd, -, rfl⟩ := read_eq_ok h
    exact .read hd
  | failed f d =>
    obtain rfl := eq_of_read_failed h
    exact .unchanged _

theorem acts_binary (c : Context) (op : BinaryOp) (lhs rhs : Value) (loc : Nat) :
    c.Acts (.binary op lhs rhs loc) (c.binary op lhs rhs loc).state := by
  unfold Context.binary
  by_cases hdepth : c.depth < 2
  · rw [if_pos hdepth]
    exact .unchanged _
  · rw [if_neg hdepth]
    cases Value.binary op lhs rhs with
    | error e => exact .unchanged _
    | ok v => exact .binary (by omega)

/-- With an operand pending an assignment stores, whether or not it succeeds. -/
theorem state_assign (c : Context) (name : String) (value : Value) :
    (c.assign name value).state = if c.depth < 1 then c else c.stored name value := by
  unfold Context.assign
  by_cases hdepth : c.depth < 1
  · rw [if_pos hdepth, if_pos hdepth]
    rfl
  · rw [if_neg hdepth, if_neg hdepth]
    by_cases hzero : (c.stored name value).depth = 0
    · simp only [if_pos hzero]
      rfl
    · simp only [if_neg hzero]
      rfl

theorem acts_assign (c : Context) (name : String) (value : Value) :
    c.Acts (.assign name value) (c.assign name value).state := by
  rw [state_assign]
  by_cases hdepth : c.depth < 1
  · rw [if_pos hdepth]
    exact .unchanged _
  · rw [if_neg hdepth]
    exact .assign (by omega)

theorem acts_finishStatement (c : Context) : c.Acts .finishStatement c.finishStatement.state := by
  unfold Context.finishStatement
  by_cases hdepth : c.depth = 1
  · rw [if_pos hdepth]
    exact .finishStatement hdepth
  · rw [if_neg hdepth]
    exact .unchanged _

theorem acts_emptyStatement (c : Context) : c.Acts .emptyStatement c.emptyStatement.state := by
  unfold Context.emptyStatement
  by_cases hdepth : c.depth = 0
  · rw [if_pos hdepth]
    exact .unchanged _
  · rw [if_neg hdepth]
    exact .unchanged _

/-- Whether it succeeds or fails, an action makes of a context what it can. -/
theorem acts_perform (c : Context) (a : Action) : c.Acts a (c.perform a).state := by
  cases a with
  | literal value => exact .literal value
  | read name loc =>
    rw [perform, Outcome.state_map]
    exact c.acts_read name loc
  | binary op lhs rhs loc =>
    rw [perform, Outcome.state_map]
    exact c.acts_binary op lhs rhs loc
  | assign name value =>
    rw [perform, Outcome.state_map]
    exact c.acts_assign name value
  | finishStatement =>
    rw [perform, Outcome.state_map]
    exact c.acts_finishStatement
  | emptyStatement =>
    rw [perform, Outcome.state_map]
    exact c.acts_emptyStatement

/-! ## What every action keeps -/

/-- The tables, the counts and the code of a context agree. -/
structure Sound (c : Context) : Prop where
  slots_eq : c.slots = c.symbols.size
  assigned_iff : ∀ name, name ∈ c.symbols.names ↔ c.values.contains name = true
  carries : Carries c.slots c.body 0 c.depth
  stored : ∀ name slot, c.symbols.slot? name = some slot → .popSlot slot ∈ c.body
  storesFirst : StoresFirst c.body

theorem sound_new (source : String) : (new source).Sound where
  slots_eq := rfl
  assigned_iff := by simp [new, ValueTable.contains]
  carries := rfl
  stored := by simp [new, SymbolTable.slot?]
  storesFirst := by
    intro front slot back heq
    simp [new] at heq

variable {c : Context}

theorem Defines.slot?_eq {name : String} (h : c.Defines name) :
    c.symbols.slot? name = some (c.slot name) := by
  obtain ⟨i, hi⟩ := SymbolTable.slot?_eq_some_of_mem h.1
  rw [slot, hi, Option.getD_some]

/-- Code that leaves the tables alone, brings the operands to their new number and loads from
no slot that has not been stored to. -/
theorem Sound.emit (h : c.Sound) {code : List Instruction} {depth : Nat}
    (hcode : Carries c.slots code c.depth depth)
    (hloads : ∀ slot, .pushSlot slot ∈ code → .popSlot slot ∈ c.body) :
    Sound { c.emit code with depth } where
  slots_eq := h.slots_eq
  assigned_iff := h.assigned_iff
  carries := Instruction.carries_append.2 ⟨c.depth, h.carries, hcode⟩
  stored := fun name slot hs => List.mem_append_left code (h.stored name slot hs)
  storesFirst := h.storesFirst.append hloads

theorem Sound.store (h : c.Sound) (hdepth : 1 ≤ c.depth) (name : String) (value : Value) :
    (c.stored name value).Sound := by
  have hself := c.symbols.slot?_bind_self name
  have hslots : (c.stored name value).slots = (c.symbols.bind name).2.size := by
    show (if c.symbols.size < (c.symbols.bind name).2.size then c.slots + 1 else c.slots) = _
    rw [h.slots_eq, Program.size_bind]
  have hmore : c.slots ≤ (c.symbols.bind name).2.size := by
    rw [h.slots_eq, ← Program.size_bind]
    split <;> omega
  refine ⟨hslots, ?_, ?_, ?_, ?_⟩
  · intro other
    rw [symbols_stored, values_stored, SymbolTable.mem_names_bind, ValueTable.contains_set,
      Bool.or_eq_true, beq_iff_eq, h.assigned_iff]
  · have hbounds := SymbolTable.slot?_bounds hself
    rw [hslots]
    exact Instruction.carries_append.2 ⟨c.depth, h.carries.mono hmore, ⟨hdepth, hbounds⟩, rfl⟩
  · intro other slot hslot
    rw [symbols_stored] at hslot
    show _ ∈ c.body ++ [_]
    by_cases hother : other ∈ c.symbols.names
    · rw [SymbolTable.slot?_bind_of_mem hother] at hslot
      exact List.mem_append_left _ (h.stored other slot hslot)
    · -- a name that is new in the table is the one that is stored
      obtain rfl : other = name :=
        (SymbolTable.mem_names_bind.1 (SymbolTable.mem_of_slot? hslot)).resolve_right hother
      obtain rfl := Option.some.inj (hself.symm.trans hslot)
      exact List.mem_append_right _ (List.mem_singleton.2 rfl)
  · exact h.storesFirst.append fun slot hslot => by simp at hslot

theorem not_pushSlot_mem_binary (op : BinaryOp) (slot : Nat) :
    .pushSlot slot ∉ Instruction.binary op := by
  cases op <;> simp [Instruction.binary]

theorem Acts.sound {d : Context} {a : Action} (h : c.Acts a d) (hc : c.Sound) : d.Sound := by
  cases h with
  | unchanged => exact hc
  | literal value => exact hc.emit ⟨trivial, rfl⟩ (by simp)
  | @read name loc hd =>
    have hslot := hd.slot?_eq
    have hbounds := SymbolTable.slot?_bounds hslot
    rw [← hc.slots_eq] at hbounds
    refine hc.emit ⟨hbounds, rfl⟩ fun slot hmem => ?_
    obtain rfl := Instruction.pushSlot.inj (List.mem_singleton.1 hmem)
    exact hc.stored name _ hslot
  | @binary op _ _ _ hdepth =>
    have hcode := Instruction.carries_binary op c.slots (c.depth - 2)
    rw [show c.depth - 2 + 2 = c.depth by omega, show c.depth - 2 + 1 = c.depth - 1 by omega]
      at hcode
    exact hc.emit hcode fun slot hmem => absurd hmem (not_pushSlot_mem_binary op slot)
  | assign hdepth => exact hc.store hdepth _ _
  | finishStatement hdepth =>
    refine hc.emit ⟨⟨by omega, by decide, by decide⟩, rfl⟩ fun slot hmem => ?_
    simp [Instruction.discard] at hmem

/-! ## Runs -/

/-- The context behind an action.  There is none when the action breaks off. -/
def after? (c : Context) (a : Action) : Option Context :=
  match c.perform a with
  | .ok _ d => some d
  | .failed (.error _) d => some d
  | .failed .offBoundary _ => none

/-- The context behind actions in a row.  An action that fails keeps what it changed, and the
row goes on; an action that breaks off ends the row. -/
def performAll (c : Context) : List Action → Context
  | [] => c
  | a :: rest =>
    match c.after? a with
    | some d => d.performAll rest
    | none => c

theorem acts_of_after? {d : Context} {a : Action} (h : c.after? a = some d) : c.Acts a d := by
  have hacts := c.acts_perform a
  unfold after? at h
  split at h
  · next hp =>
    obtain rfl := Option.some.inj h
    rwa [hp] at hacts
  · next hp =>
    obtain rfl := Option.some.inj h
    rwa [hp] at hacts
  · cases h

/-- What every action keeps, every run keeps. -/
theorem performAll_induction {property : Context → Prop} (hc : property c)
    (hstep : ∀ c d a, Acts c a d → property c → property d) (actions : List Action) :
    property (c.performAll actions) := by
  induction actions generalizing c with
  | nil => exact hc
  | cons a rest ih =>
    rw [performAll]
    cases h : c.after? a with
    | none => exact hc
    | some d => exact ih (hstep c d a (acts_of_after? h) hc)

theorem sound_performAll (source : String) (actions : List Action) :
    ((new source).performAll actions).Sound :=
  performAll_induction (sound_new source) (fun _ _ _ h hc => h.sound hc) actions

theorem finish_eq_ok_iff {options : Options} {assembly : Assembly} {symbols : SymbolTable} :
    c.finish options = .ok (assembly, symbols) ↔
      c.depth = 0 ∧ assembly = { entry := options.entry, slots := c.slots, body := c.body } ∧
        symbols = c.symbols := by
  unfold finish
  split
  · next h => simp [h, eq_comm]
  · next h => simp [h]

/-! ## Operands -/

/-- The actions that take more operands than they leave. -/
def Action.lowers : Action → Bool
  | .binary .. | .assign .. | .finishStatement => true
  | .literal _ | .read .. | .emptyStatement => false

/-- An action that takes operands and emits code finds one to take. -/
theorem Acts.depth_of_lowers {d : Context} {a : Action} (h : c.Acts a d) (ha : a.lowers = true)
    (hbody : d.body ≠ c.body) : d.depth + 1 = c.depth := by
  cases h with
  | unchanged => exact absurd rfl hbody
  | literal value => cases ha
  | read hd => cases ha
  | binary hdepth =>
    show c.depth - 1 + 1 = c.depth
    omega
  | assign hdepth =>
    show c.depth - 1 + 1 = c.depth
    omega
  | finishStatement hdepth =>
    show c.depth - 1 + 1 = c.depth
    omega

/-- After every run of a new context, the count of pending operands is the number of pushes
less the number of pops in its body.  Every pop in the body has an operand to take, so a
machine that runs the body on an empty stack never runs out of operands.  No action lowers
the count below zero, and the body can be made a function exactly when the count is zero. -/
theorem depth_counts_operands (source : String) (actions : List Action) :
    let c := (new source).performAll actions
    (c.depth : Int) = pushes c.body - pops c.body ∧
    (∀ front i back, c.body = front ++ i :: back → i.isPop = true → pops front < pushes front) ∧
    (∀ m : Machine, m.stack = [] → m.run c.body ≠ .error .emptyStack) ∧
    (∀ a : Action, a.lowers = true → (c.perform a).state.body ≠ c.body →
      (c.perform a).state.depth + 1 = c.depth) ∧
    ∀ options, (∃ result, c.finish options = .ok result) ↔ pushes c.body = pops c.body := by
  intro c
  have hc : c.Sound := sound_performAll source actions
  have hcounts := hc.carries.counts
  refine ⟨by omega, ?_, ?_, ?_, ?_⟩
  · intro front i back hbody hi
    have hcarries := hc.carries
    rw [hbody] at hcarries
    exact hcarries.pops_lt_pushes hi
  · intro m hm
    exact (Machine.run_of_carries hc.carries (by rw [hm]; rfl)).1
  · exact fun a => (c.acts_perform a).depth_of_lowers
  · intro options
    constructor
    · rintro ⟨⟨assembly, symbols⟩, hfinish⟩
      have hdepth := (finish_eq_ok_iff.1 hfinish).1
      omega
    · intro heq
      exact ⟨(_, _), finish_eq_ok_iff.2 ⟨by omega, rfl, rfl⟩⟩

/-! ## Slots -/

/-- The name that an action assigns to.  An assignment assigns also when it leaves operands
behind and so fails, but not when it has no operand to store. -/
def Action.target? (c : Context) : Action → Option String
  | .assign name value =>
    match c.assign name value with
    | .failed (.error (.stackUnderflow ..)) _ => none
    | _ => some name
  | _ => none

/-- The names that a run assigns to, in order and with repetitions. -/
def assigned (c : Context) : List Action → List String
  | [] => []
  | a :: rest =>
    match c.after? a with
    | some d => (a.target? c).toList ++ d.assigned rest
    | none => []

theorem symbols_of_after? {d : Context} {a : Action} (h : c.after? a = some d) :
    d.symbols = (a.target? c).toList.foldl (fun t name => (t.bind name).2) c.symbols := by
  cases a with
  | assign name value =>
    unfold after? perform at h
    unfold Action.target?
    unfold Context.assign at h ⊢
    by_cases hdepth : c.depth < 1
    · simp only [if_pos hdepth, Outcome.map_failed, Option.some.injEq] at h ⊢
      rw [← h]
      rfl
    · by_cases hzero : (c.stored name value).depth = 0
      · simp only [if_neg hdepth, if_pos hzero, Outcome.map_ok, Option.some.injEq] at h ⊢
        rw [← h]
        rfl
      · simp only [if_neg hdepth, if_neg hzero, Outcome.map_failed, Option.some.injEq] at h ⊢
        rw [← h]
        rfl
  | _ => cases acts_of_after? h <;> rfl

theorem symbols_performAll (c : Context) (actions : List Action) :
    (c.performAll actions).symbols =
      (c.assigned actions).foldl (fun t name => (t.bind name).2) c.symbols := by
  induction actions generalizing c with
  | nil => rfl
  | cons a rest ih =>
    rw [performAll, assigned]
    cases h : c.after? a with
    | none => rfl
    | some d =>
      simp only
      rw [ih d, symbols_of_after? h, List.foldl_append]

/-- No action takes a slot away from a name. -/
theorem Acts.slot?_eq {d : Context} {a : Action} (h : c.Acts a d) {name : String} {slot : Nat}
    (hslot : c.symbols.slot? name = some slot) : d.symbols.slot? name = some slot := by
  cases h with
  | @assign other value hdepth =>
    rw [symbols_stored, SymbolTable.slot?_bind_of_mem (SymbolTable.mem_of_slot? hslot)]
    exact hslot
  | _ => exact hslot

/-- After every run of a new context, the count of slots, the table of slots, the table of
values and the slots that the body addresses agree.  What is loaded has been stored, a name
keeps its slot and shares it with no other, and the function made of the body reserves one
slot for each name that the run has assigned to. -/
theorem slots_agree (source : String) (actions : List Action) :
    let c := (new source).performAll actions
    c.slots = c.symbols.size ∧
    (∀ name, (c.symbols.slot? name).isSome = c.values.contains name) ∧
    (∀ i ∈ c.body, ∀ slot, i.slot? = some slot → 1 ≤ slot ∧ slot ≤ c.slots) ∧
    (∀ front slot back, c.body = front ++ .pushSlot slot :: back → .popSlot slot ∈ front) ∧
    (∀ name slot, c.symbols.slot? name = some slot →
      (∀ more, (c.performAll more).symbols.slot? name = some slot) ∧
      ∀ other, c.symbols.slot? other = some slot → other = name) ∧
    ∀ options assembly symbols, c.finish options = .ok (assembly, symbols) →
      assembly.reservedBytes = 4 * symbols.size ∧
      (∀ n, .reserve n ∈ assembly.preamble ↔ n = 4 * symbols.size) ∧
      symbols.size = ((new source).assigned actions).eraseDups.length := by
  intro c
  have hc : c.Sound := sound_performAll source actions
  refine ⟨hc.slots_eq, ?_, ?_, hc.storesFirst, ?_, ?_⟩
  · intro name
    rw [Bool.eq_iff_iff, SymbolTable.isSome_slot?, hc.assigned_iff]
  · exact fun i hi slot hslot => hc.carries.slot_bounds hi hslot
  · intro name slot hslot
    refine ⟨fun more => ?_, fun other hother => SymbolTable.slot?_injective hother hslot⟩
    exact performAll_induction hslot (fun _ _ _ h => h.slot?_eq) more
  · intro options assembly symbols hfinish
    obtain ⟨-, rfl, rfl⟩ := finish_eq_ok_iff.1 hfinish
    have hbytes : slotSize * c.slots = 4 * c.symbols.size := by rw [hc.slots_eq]; rfl
    refine ⟨hbytes, ?_, ?_⟩
    · intro n
      simp [Assembly.preamble, Assembly.reservedBytes, hbytes]
    · rw [SymbolTable.size, symbols_performAll]
      exact congrArg List.length (Program.names_foldl_bind _)

-- An assignment that leaves an operand behind fails, but its store stands.
example :
    let c := (new "").performAll [.literal 1, .literal 2, .assign "x" none]
    c.symbols.slot? "x" = some 1 ∧ c.slots = 1 ∧ c.depth = 1 := by
  decide

end Context
end OnePass
