import OnePass.Proofs.Acceptance
import OnePass.Proofs.Exactness
import OnePass.Proofs.Preservation

/-!
Divisors at run time.

Whether a divisor is zero is judged by compile-time values, where division rounds down, and
the division that is emitted rounds towards zero.  So a divisor that is `-1` to the judge
can be zero to the machine.  That takes a quotient which the two round differently, and one
that contributes to the divisor: a value that no such quotient contributes to is the same in
both readings as long as it is a word, and then no division by zero is left to the machine.
-/

namespace OnePass

/-! ## Words -/

namespace Word

/-- An operator on words gives the exact result if that is a word, unless a quotient is
rounded the other way. -/
theorem binary?_of_exact {op : BinaryOp} {x y w : Word}
    (h : op.result? x.toInt y.toInt = some w.toInt)
    (hsame : op = .div → SameQuotient x.toInt y.toInt) : binary? op x y = some w := by
  cases op with
  | add =>
    rw [binary?, ← BitVec.ofInt_toInt (x := w), ← Option.some.inj h, BitVec.ofInt_add,
      BitVec.ofInt_toInt, BitVec.ofInt_toInt]
  | sub =>
    rw [binary?, ← BitVec.ofInt_toInt (x := w), ← Option.some.inj h, Int.sub_eq_add_neg,
      BitVec.ofInt_add, BitVec.ofInt_neg, BitVec.ofInt_toInt, BitVec.ofInt_toInt,
      BitVec.sub_eq_add_neg]
  | mul =>
    rw [binary?, ← BitVec.ofInt_toInt (x := w), ← Option.some.inj h, BitVec.ofInt_mul,
      BitVec.ofInt_toInt, BitVec.ofInt_toInt]
  | div =>
    by_cases hzero : y.toInt = 0
    · rw [BinaryOp.result?, if_pos hzero] at h
      cases h
    · have hy : y ≠ 0 := by
        rintro rfl
        exact hzero rfl
      rw [BinaryOp.result?, if_neg hzero, fdiv_eq _ hzero, if_pos (hsame rfl)] at h
      rw [binary?, divide?, if_neg hy]
      exact ofInt?_eq_some_iff.2 (Option.some.inj h).symm

end Word

/-! ## Zero divisors in a run -/

namespace Machine

variable {m : Machine} {a b : List Instruction}

/-- No division that the machine comes to in the code has a zero divisor. -/
def AvoidsZeroDivisor (m : Machine) (code : List Instruction) : Prop :=
  ∀ done r rest n, code = done ++ .divide r :: rest → m.run done = .ok n → n.registers r ≠ 0

theorem avoidsZeroDivisor_of_forall_ne (h : ∀ i ∈ a, ∀ r, i ≠ .divide r) :
    m.AvoidsZeroDivisor a := by
  intro done r rest n hcode
  have hmem : Instruction.divide r ∈ a := by
    rw [hcode]
    exact List.mem_append_right _ List.mem_cons_self
  exact absurd rfl (h _ hmem r)

theorem AvoidsZeroDivisor.append (ha : m.AvoidsZeroDivisor a)
    (hb : ∀ n, m.run a = .ok n → n.AvoidsZeroDivisor b) : m.AvoidsZeroDivisor (a ++ b) := by
  intro done r rest n hcode hrun
  rcases List.append_eq_append_iff.1 hcode with ⟨more, rfl, hb'⟩ | ⟨more, rfl, hrest⟩
  · -- the division is in the second part
    cases ho : m.run a with
    | error f =>
      rw [run_append_of_error ho] at hrun
      cases hrun
    | ok o =>
      rw [run_append_of_ok ho] at hrun
      exact hb o ho more r rest n hb' hrun
  · cases more with
    | nil =>
      rw [List.append_nil] at hb
      exact hb n hrun [] r rest n hrest.symm rfl
    | cons i more =>
      obtain ⟨rfl, -⟩ := List.cons.inj hrest
      exact ha done r more n rfl hrun

/-- A division of two operands looks at the one on top of the stack. -/
theorem avoidsZeroDivisor_binary (op : BinaryOp) {x y : Word} {below : List Word}
    (h : m.stack = y :: x :: below) (hy : op = .div → y ≠ 0) :
    m.AvoidsZeroDivisor op.block := by
  cases op with
  | div =>
    have hload : m.AvoidsZeroDivisor [.popRegister .ebx, .popRegister .eax, .extendSign] :=
      avoidsZeroDivisor_of_forall_ne (by simp)
    apply hload.append (b := [.divide .ebx, .pushRegister .eax])
    intro n hn
    rw [run_load h] at hn
    obtain rfl := Except.ok.inj hn
    have hdivide : (m.loaded x y below).AvoidsZeroDivisor [.divide .ebx] := by
      intro done r rest n hcode hrun
      cases done with
      | nil =>
        obtain ⟨hr, -⟩ := List.cons.inj hcode
        obtain rfl := Instruction.divide.inj hr
        obtain rfl := Except.ok.inj hrun
        exact hy rfl
      | cons i more => simp at hcode
    exact hdivide.append fun n _ => avoidsZeroDivisor_of_forall_ne (by simp)
  | _ => exact avoidsZeroDivisor_of_forall_ne (by simp [BinaryOp.block])

/-- The code of an expression divides by the words of its divisors. -/
theorem avoidsZeroDivisor_code (slot : String → Nat) {store : String → Word} (e : Expr)
    {m : Machine} (h : ∀ x ∈ e.reads, m.slots (slot x) = store x)
    (hdivisors : ∀ r ∈ e.divisors, r.eval? store ≠ some 0) : m.AvoidsZeroDivisor (e.code slot) := by
  induction e generalizing m with
  | literal value => exact avoidsZeroDivisor_of_forall_ne (by simp [Expr.code])
  | read name => exact avoidsZeroDivisor_of_forall_ne (by simp [Expr.code])
  | binary op lhs rhs ihl ihr =>
    have hreads : ∀ x ∈ lhs.reads, m.slots (slot x) = store x := fun x hx =>
      h x (List.mem_append_left _ hx)
    have hl := ihl hreads fun r hr =>
      hdivisors r (List.mem_append_left _ (List.mem_append_left _ hr))
    rw [Expr.code, List.append_assoc]
    apply hl.append
    intro n hn
    obtain ⟨x, -, hslots, hstack⟩ := (leaves_code slot lhs hreads).of_run hn
    have hreads' : ∀ x ∈ rhs.reads, n.slots (slot x) = store x := by
      intro x hx
      rw [hslots]
      exact h x (List.mem_append_right _ hx)
    have hr := ihr hreads' fun r hr =>
      hdivisors r (List.mem_append_left _ (List.mem_append_right _ hr))
    apply hr.append
    intro o ho
    obtain ⟨y, hy, -, hostack⟩ := (leaves_code slot rhs hreads').of_run ho
    rw [hstack] at hostack
    apply avoidsZeroDivisor_binary op hostack
    rintro rfl rfl
    exact hdivisors rhs (List.mem_append_right _ (List.mem_singleton.2 rfl)) hy

theorem avoidsZeroDivisor_statement (slot : String → Nat) {store : String → Word} (s : Statement)
    (h : ∀ x ∈ s.reads, m.slots (slot x) = store x)
    (hdivisors : ∀ r ∈ s.divisors, r.eval? store ≠ some 0) :
    m.AvoidsZeroDivisor (s.code slot) := by
  cases s with
  | assign name e =>
    exact (avoidsZeroDivisor_code slot e h hdivisors).append fun n _ =>
      avoidsZeroDivisor_of_forall_ne (by simp)
  | discard e =>
    exact (avoidsZeroDivisor_code slot e h hdivisors).append fun n _ =>
      avoidsZeroDivisor_of_forall_ne (by simp)
  | empty => exact avoidsZeroDivisor_of_forall_ne (by simp [Statement.code])

/-- The machine comes to a zero divisor if the operands of a division evaluate and the right
one to zero. -/
theorem not_avoidsZeroDivisor_code (slot : String → Nat) {store : String → Word} {lhs rhs : Expr}
    {x : Word} (h : ∀ y ∈ (Expr.binary .div lhs rhs).reads, m.slots (slot y) = store y)
    (hl : lhs.eval? store = some x) (hr : rhs.eval? store = some 0) (more : List Instruction) :
    ¬ m.AvoidsZeroDivisor ((Expr.binary .div lhs rhs).code slot ++ more) := by
  have hlhs := leaves_code slot lhs fun y hy => h y (List.mem_append_left _ hy)
  rw [hl] at hlhs
  obtain ⟨n, hn, hslots, hstack⟩ := hlhs
  have hrhs : n.Leaves (rhs.code slot) n.stack (rhs.eval? store) := by
    apply leaves_code slot rhs
    intro y hy
    rw [hslots]
    exact h y (List.mem_append_right _ hy)
  rw [hr] at hrhs
  obtain ⟨o, ho, -, hostack⟩ := hrhs
  rw [hstack] at hostack
  intro havoids
  refine havoids (lhs.code slot ++ (rhs.code slot ++
    [.popRegister .ebx, .popRegister .eax, .extendSign])) .ebx (.pushRegister .eax :: more)
    (o.loaded x 0 m.stack) ?_ ?_ rfl
  · simp [Expr.code, BinaryOp.block]
  · rw [run_append_of_ok hn, run_append_of_ok ho, run_load hostack]

theorem avoidsZeroDivisor_program {slot : String → Nat} {p : Program} (hp : p.Scoped)
    (hslot : ∀ x ∈ p.targets, ∀ y ∈ p.targets, slot x = slot y → x = y) (store : String → Word)
    (hdivisors : p.Everywhere fun before s => ∀ mid, before.exec? store = some mid →
      ∀ r ∈ s.divisors, r.eval? mid ≠ some 0) (m : Machine) :
    m.AvoidsZeroDivisor (p.flatMap (Statement.code slot)) := by
  induction p using List.reverseRecOn with
  | nil => exact avoidsZeroDivisor_of_forall_ne (by simp)
  | append_singleton p s ih =>
    obtain ⟨hp, hreads⟩ := Program.scoped_concat_iff.1 hp
    obtain ⟨hfront, hlast⟩ := Program.everywhere_concat_iff.1 hdivisors
    have hslot' : ∀ x ∈ Program.targets p, ∀ y ∈ Program.targets p, slot x = slot y → x = y :=
      fun x hx y hy => hslot x (Program.mem_targets_concat.2 (.inl hx)) y
        (Program.mem_targets_concat.2 (.inl hy))
    rw [List.flatMap_append, List.flatMap_singleton]
    apply (ih hp hslot' hfront).append
    intro n hn
    obtain ⟨mid, hmid, hslots⟩ := (stores_program hp hslot' store m).of_run hn
    exact n.avoidsZeroDivisor_statement slot s (fun x hx => hslots x (hreads x hx))
      (hlast mid hmid)

end Machine

/-! ## Values that are words -/

namespace Program

variable {p q : Program} {e : Expr} {x : String}

/-- The compile-time value of an expression behind a program, if it is known and a word. -/
def knownWord? (p : Program) (e : Expr) : Option Word :=
  match p.known {} with
  | .ok values =>
    match e.known values with
    | .ok (some v) => Word.ofInt? v.toInt
    | _ => none
  | .error _ => none

theorem knownWord?_eq_some_iff {values : ValueTable} (h : p.known {} = .ok values) {w : Word} :
    p.knownWord? e = some w ↔ ∃ v, e.known values = .ok (some v) ∧ w.toInt = v.toInt := by
  simp only [knownWord?, h]
  cases he : e.known values with
  | error z => simp
  | ok value =>
    cases value with
    | none => simp
    | some v => simp [Word.ofInt?_eq_some_iff]

/-- The word of an operator is the exact result on the words of its operands. -/
theorem result?_of_knownWord? {values : ValueTable} (h : p.known {} = .ok values)
    {op : BinaryOp} {lhs rhs : Expr} {x y w : Word} (hx : p.knownWord? lhs = some x)
    (hy : p.knownWord? rhs = some y) (hw : p.knownWord? (.binary op lhs rhs) = some w) :
    op.result? x.toInt y.toInt = some w.toInt := by
  obtain ⟨a, ha, hxa⟩ := (knownWord?_eq_some_iff h).1 hx
  obtain ⟨b, hb, hyb⟩ := (knownWord?_eq_some_iff h).1 hy
  obtain ⟨n, hn, hwn⟩ := (knownWord?_eq_some_iff h).1 hw
  obtain ⟨a', b', ha', hb', hexact⟩ := Expr.known_binary_eq_some_iff.1 hn
  rw [ha] at ha'
  rw [hb] at hb'
  obtain rfl := Option.some.inj (Except.ok.inj ha')
  obtain rfl := Option.some.inj (Except.ok.inj hb')
  rw [hxa, hyb, hwn, hexact]

/-- Every literal and every other expression within the program has a known value that is a
word. -/
def KnownInWords : Program → Prop :=
  Everywhere fun before s => ∀ e ∈ s.subexpressions, (before.knownWord? e).isSome = true

instance (p : Program) : Decidable p.KnownInWords :=
  inferInstanceAs (Decidable (Everywhere _ p))

/-! ## Quotients that contribute to a value -/

/-- Behind the program, no quotient that contributes to the value of the expression is one
that the two roundings tell apart.  What contributes to a name is what contributes to the
expression that was assigned to it last. -/
inductive RoundsAlike : Program → Expr → Prop
  | literal (p : Program) (value : Int64) : RoundsAlike p (.literal value)
  | read {front rest : Program} {name : String} {e : Expr} (h : RoundsAlike front e)
      (hlast : name ∉ targets rest) : RoundsAlike (front ++ .assign name e :: rest) (.read name)
  | binary {p : Program} {op : BinaryOp} {lhs rhs : Expr} (hl : RoundsAlike p lhs)
      (hr : RoundsAlike p rhs)
      (hop : op = .div → ∀ a b, p.knownWord? lhs = some a → p.knownWord? rhs = some b →
        SameQuotient a.toInt b.toInt) : RoundsAlike p (.binary op lhs rhs)

/-- A program changes the words of its targets only. -/
theorem exec?_of_not_mem {store after : String → Word} (h : p.exec? store = some after)
    (hx : x ∉ p.targets) : after x = store x := by
  induction p using List.reverseRecOn generalizing after with
  | nil => rw [Option.some.inj h]
  | append_singleton p s ih =>
    rw [exec?_concat, Option.bind_eq_some_iff] at h
    obtain ⟨mid, hmid, hs⟩ := h
    rw [mem_targets_concat, not_or] at hx
    rw [← ih hmid hx.1]
    cases s with
    | assign name e =>
      obtain ⟨w, -, rfl⟩ := Option.map_eq_some_iff.1 hs
      exact if_neg fun hname => hx.2 (congrArg some hname.symm)
    | discard e =>
      obtain ⟨w, -, rfl⟩ := Option.map_eq_some_iff.1 hs
      rfl
    | empty => rw [Option.some.inj hs]

theorem get_known_of_not_mem {values after : ValueTable} (h : p.known values = .ok after)
    (hx : x ∉ p.targets) : after.get x = values.get x := by
  induction p using List.reverseRecOn generalizing after with
  | nil => rw [Except.ok.inj h]
  | append_singleton p s ih =>
    obtain ⟨mid, hmid, hs⟩ := known_concat_eq_ok_iff.1 h
    rw [mem_targets_concat, not_or] at hx
    rw [← ih hmid hx.1]
    rcases Statement.known_cases hs with ⟨name, e, v, rfl, -, rfl⟩ | ⟨-, rfl⟩
    · exact ValueTable.get_set_of_ne _ _ fun hname => hx.2 (congrArg some hname.symm)
    · rfl

variable {front rest : Program} {name : String}

/-- A name holds the word of what was assigned to it last. -/
theorem exec?_latest {store after : String → Word} (hlast : name ∉ rest.targets)
    (h : exec? store (front ++ .assign name e :: rest) = some after) :
    ∃ before, front.exec? store = some before ∧ e.eval? before = some (after name) := by
  rw [exec?_append, Option.bind_eq_some_iff] at h
  obtain ⟨before, hfront, h⟩ := h
  obtain ⟨mid, hassign, hrest⟩ := Option.bind_eq_some_iff.1 h
  obtain ⟨w, hw, rfl⟩ := Option.map_eq_some_iff.1 hassign
  refine ⟨before, hfront, ?_⟩
  rw [exec?_of_not_mem hrest hlast, if_pos rfl, hw]

theorem known_latest {values after : ValueTable} (hlast : name ∉ rest.targets)
    (h : known values (front ++ .assign name e :: rest) = .ok after) :
    ∃ before, front.known values = .ok before ∧ e.known before = .ok (after.get name) := by
  rw [← List.singleton_append, ← List.append_assoc] at h
  obtain ⟨mid, hmid, hrest⟩ := known_append_eq_ok_iff.1 h
  obtain ⟨before, hfront, hassign⟩ := known_concat_eq_ok_iff.1 hmid
  rcases Statement.known_cases hassign with ⟨_, _, v, heq, hv, rfl⟩ | ⟨hnone, -⟩
  · obtain ⟨rfl, rfl⟩ := Statement.assign.inj heq
    refine ⟨before, hfront, ?_⟩
    rw [get_known_of_not_mem hrest hlast, ValueTable.get_set_self, hv]
  · cases hnone

/-- A value that is rounded alike is the same at run time as at compile time. -/
theorem RoundsAlike.eval?_eq (h : p.RoundsAlike e) {store mid : String → Word}
    {values : ValueTable} (hexec : p.exec? store = some mid) (hknown : p.known {} = .ok values)
    (hwords : p.KnownInWords) (he : ∀ r ∈ e.subexpressions, (p.knownWord? r).isSome = true) :
    e.eval? mid = p.knownWord? e := by
  induction h generalizing mid values with
  | literal p value =>
    obtain ⟨w, hw⟩ := Option.isSome_iff_exists.1 (he _ (Expr.mem_subexpressions _))
    obtain ⟨v, hv, hwv⟩ := (knownWord?_eq_some_iff hknown).1 hw
    obtain rfl := Option.some.inj (Except.ok.inj hv)
    rw [hw, Expr.eval?, ← hwv, BitVec.ofInt_toInt]
  | @read front rest name e _ hlast ih =>
    obtain ⟨before, hbefore, heval⟩ := exec?_latest hlast hexec
    obtain ⟨earlier, hearlier, hvalue⟩ := known_latest hlast hknown
    obtain ⟨hfront, hassign⟩ := everywhere_front hwords
    have hsame : knownWord? (front ++ .assign name e :: rest) (.read name) =
        front.knownWord? e := by
      simp only [knownWord?, hknown, hearlier, hvalue, Expr.known]
    rw [hsame, ← ih hbefore hearlier hfront hassign, heval, Expr.eval?]
  | @binary p op lhs rhs _ _ hop ihl ihr =>
    have hel : ∀ r ∈ lhs.subexpressions, (p.knownWord? r).isSome = true := fun r hr =>
      he r (List.mem_cons_of_mem _ (List.mem_append_left _ hr))
    have her : ∀ r ∈ rhs.subexpressions, (p.knownWord? r).isSome = true := fun r hr =>
      he r (List.mem_cons_of_mem _ (List.mem_append_right _ hr))
    obtain ⟨x, hx⟩ := Option.isSome_iff_exists.1 (hel _ lhs.mem_subexpressions)
    obtain ⟨y, hy⟩ := Option.isSome_iff_exists.1 (her _ rhs.mem_subexpressions)
    obtain ⟨w, hw⟩ := Option.isSome_iff_exists.1 (he _ (Expr.mem_subexpressions _))
    have hexact := result?_of_knownWord? hknown hx hy hw
    rw [Expr.eval?, ihl hexec hknown hwords hel, ihr hexec hknown hwords her, hx, hy, hw]
    exact Word.binary?_of_exact hexact fun hdiv => hop hdiv x y hx hy

/-- Every divisor is rounded alike. -/
def DivisorsRoundAlike : Program → Prop :=
  Everywhere fun before s => ∀ r ∈ s.divisors, before.RoundsAlike r

end Program

/-! ## Programs that compile -/

theorem Expr.subexpressions_subset {e r : Expr} (h : r ∈ e.subexpressions) :
    r.subexpressions ⊆ e.subexpressions := by
  induction e with
  | literal value => rw [List.mem_singleton.1 h]; exact List.Subset.refl _
  | read name => rw [List.mem_singleton.1 h]; exact List.Subset.refl _
  | binary op lhs rhs ihl ihr =>
    rcases List.mem_cons.1 h with rfl | h
    · exact List.Subset.refl _
    · apply List.subset_cons_of_subset
      rcases List.mem_append.1 h with h | h
      · exact List.subset_append_of_subset_left _ (ihl h)
      · exact List.subset_append_of_subset_right _ (ihr h)

theorem Expr.divisors_subset (e : Expr) : e.divisors ⊆ e.subexpressions := by
  induction e with
  | literal value => exact List.nil_subset _
  | read name => exact List.nil_subset _
  | binary op lhs rhs ihl ihr =>
    intro r hr
    apply List.mem_cons_of_mem
    rcases List.mem_append.1 hr with hr | hr
    · rcases List.mem_append.1 hr with hr | hr
      · exact List.mem_append_left _ (ihl hr)
      · exact List.mem_append_right _ (ihr hr)
    · split at hr
      · rw [List.mem_singleton.1 hr]
        exact List.mem_append_right _ rhs.mem_subexpressions
      · cases hr

theorem Statement.subexpressions_subset_of_mem_divisors {s : Statement} {r : Expr}
    (h : r ∈ s.divisors) : r.subexpressions ⊆ s.subexpressions := by
  cases s with
  | assign name e => exact Expr.subexpressions_subset (e.divisors_subset h)
  | discard e => exact Expr.subexpressions_subset (e.divisors_subset h)
  | empty => cases h

/-- At run time no divisor is zero that is rounded alike and was not refused. -/
theorem Program.divisors_ne_zero {p : Program} {values : ValueTable}
    (hknown : p.known {} = .ok values) (hwords : p.KnownInWords) (halike : p.DivisorsRoundAlike)
    (store : String → Word) :
    p.Everywhere fun before s => ∀ mid, before.exec? store = some mid →
      ∀ r ∈ s.divisors, r.eval? mid ≠ some 0 := by
  have hzero := p.exists_known_iff.1 ⟨values, hknown⟩
  rintro before s after rfl mid hmid r hr heval
  obtain ⟨earlier, hearlier, -⟩ := known_append_eq_ok_iff.1 hknown
  obtain ⟨hfront, hs⟩ := everywhere_front hwords
  have hwords' : ∀ t ∈ r.subexpressions, (before.knownWord? t).isSome = true := fun t ht =>
    hs t (Statement.subexpressions_subset_of_mem_divisors hr ht)
  have hsame := (halike before s after rfl r hr).eval?_eq hmid hearlier hfront hwords'
  rw [heval] at hsame
  obtain ⟨v, hv, hvzero⟩ := (knownWord?_eq_some_iff hearlier).1 hsame.symm
  obtain rfl : v = 0 := Int64.toInt_inj.1 hvzero.symm
  exact hzero before s after rfl earlier hearlier r hr hv

/-- The emitted code divides by no zero, provided that every value in the source is known and
a word and that no divisor hangs on a quotient which rounding down and rounding towards zero
tell apart. -/
theorem compile_avoids_zero_divisor {source : String} {options : Options} {c : Compilation}
    (h : compile source options = .ok c) {p : Program} (hp : Writes source p)
    (hwords : p.KnownInWords) (halike : p.DivisorsRoundAlike) (m : Machine) :
    m.AvoidsZeroDivisor c.assembly.body := by
  obtain ⟨q, values, hq, hscoped, hknown, hc⟩ := translates_of_compile h
  obtain rfl := hq.unique hp
  rw [hc.body_eq]
  exact Machine.avoidsZeroDivisor_program hscoped
    (fun _ hx _ hy => Program.slot_injective hx hy) (fun _ => 0)
    (Program.divisors_ne_zero hknown hwords halike _) m

/-- The program of `a := 7; b := 0 - a; b / 2; 9 / (a / 2);`. -/
def quotientDivisor : Program :=
  [.assign "a" (.literal 7), .assign "b" (.binary .sub (.literal 0) (.read "a")),
    .discard (.binary .div (.read "b") (.literal 2)),
    .discard (.binary .div (.literal 9) (.binary .div (.read "a") (.literal 2)))]

theorem writes_quotientDivisor :
    Writes "a := 7; b := 0 - a; b / 2; 9 / (a / 2);" quotientDivisor := by
  refine ⟨[
    .assign ⟨.name, "a", 0⟩ rfl ⟨.becomes, ":=", 2⟩ rfl
      (.ofTerm (.ofFactor (.number ⟨.number, "7", 5⟩ rfl))) ⟨.semicolon, ";", 6⟩ rfl,
    .assign ⟨.name, "b", 8⟩ rfl ⟨.becomes, ":=", 10⟩ rfl
      (.sum (.ofTerm (.ofFactor (.number ⟨.number, "0", 13⟩ rfl))) ⟨.operator .sub, "-", 15⟩
        .sub rfl .sub (.ofFactor (.name ⟨.name, "a", 17⟩ rfl))) ⟨.semicolon, ";", 18⟩ rfl,
    .expression (.ofTerm (.product (.ofFactor (.name ⟨.name, "b", 20⟩ rfl))
      ⟨.operator .div, "/", 22⟩ .div rfl .div (.number ⟨.number, "2", 24⟩ rfl)))
      ⟨.semicolon, ";", 25⟩ rfl,
    .expression (.ofTerm (.product (.ofFactor (.number ⟨.number, "9", 27⟩ rfl))
      ⟨.operator .div, "/", 29⟩ .div rfl .div
      (.group ⟨.lparen, "(", 31⟩ rfl (.ofTerm (.product (.ofFactor (.name ⟨.name, "a", 32⟩ rfl))
        ⟨.operator .div, "/", 34⟩ .div rfl .div (.number ⟨.number, "2", 36⟩ rfl)))
        ⟨.rparen, ")", 37⟩ rfl))) ⟨.semicolon, ";", 38⟩ rfl], ?_, ?_⟩
  · decide +kernel
  · decide +kernel

theorem quotientDivisor_divisorsRoundAlike : quotientDivisor.DivisorsRoundAlike := by
  have hread : Program.RoundsAlike (quotientDivisor.take 3) (.read "a") :=
    @Program.RoundsAlike.read [] (quotientDivisor.tail.take 2) "a" _ (.literal [] 7) (by decide)
  have hquotient : Program.RoundsAlike (quotientDivisor.take 3)
      (.binary .div (.read "a") (.literal 2)) := by
    apply hread.binary (.literal _ 2)
    intro _ a b ha hb
    have hseven : Program.knownWord? (quotientDivisor.take 3) (.read "a") = some 7 := by decide
    have htwo : Program.knownWord? (quotientDivisor.take 3) (.literal 2) = some 2 := by decide
    obtain rfl := Option.some.inj (hseven.symm.trans ha)
    obtain rfl := Option.some.inj (htwo.symm.trans hb)
    decide
  refine Program.everywhere_cons_iff.2 ⟨fun r hr => absurd hr List.not_mem_nil, ?_⟩
  refine Program.everywhere_cons_iff.2 ⟨fun r hr => absurd hr List.not_mem_nil, ?_⟩
  refine Program.everywhere_cons_iff.2 ⟨?_, Program.everywhere_cons_iff.2 ⟨?_, ?_⟩⟩
  · intro r hr
    obtain rfl := List.mem_singleton.1 hr
    exact .literal _ 2
  · intro r hr
    rcases List.mem_cons.1 hr with rfl | hr
    · exact .literal _ 2
    · rw [List.mem_singleton.1 hr]
      exact hquotient
  · exact Program.everywhere_nil _

/-- A quotient of `-7` and `2` that no divisor hangs on, and a divisor that is itself the
quotient of a variable. -/
theorem compile_avoids_zero_divisor_quotient :
    ∃ c, compile "a := 7; b := 0 - a; b / 2; 9 / (a / 2);" {} = .ok c ∧
      Writes "a := 7; b := 0 - a; b / 2; 9 / (a / 2);" quotientDivisor ∧
      quotientDivisor.KnownInWords ∧ quotientDivisor.DivisorsRoundAlike ∧
      ∀ m : Machine, m.AvoidsZeroDivisor c.assembly.body := by
  obtain ⟨c, hc⟩ := exists_compile_of_isOk "a := 7; b := 0 - a; b / 2; 9 / (a / 2);" {}
    (by decide +kernel)
  have hp := writes_quotientDivisor
  have hwords : quotientDivisor.KnownInWords := by decide +kernel
  have halike := quotientDivisor_divisorsRoundAlike
  exact ⟨c, hc, hp, hwords, halike, compile_avoids_zero_divisor hc hp hwords halike⟩

/-- The program of `1 / ((0 - 1) / 2);`. -/
def halvedNegative : Program :=
  [.discard (.binary .div (.literal 1)
    (.binary .div (.binary .sub (.literal 0) (.literal 1)) (.literal 2)))]

theorem writes_halvedNegative : Writes "1 / ((0 - 1) / 2);" halvedNegative := by
  refine ⟨[.expression (.ofTerm (.product
      (.ofFactor (.number ⟨.number, "1", 0⟩ rfl)) ⟨.operator .div, "/", 2⟩ .div rfl .div
      (.group ⟨.lparen, "(", 4⟩ rfl (.ofTerm (.product
        (.ofFactor (.group ⟨.lparen, "(", 5⟩ rfl
          (.sum (.ofTerm (.ofFactor (.number ⟨.number, "0", 6⟩ rfl)))
            ⟨.operator .sub, "-", 8⟩ .sub rfl .sub (.ofFactor (.number ⟨.number, "1", 10⟩ rfl)))
          ⟨.rparen, ")", 11⟩ rfl))
        ⟨.operator .div, "/", 13⟩ .div rfl .div (.number ⟨.number, "2", 15⟩ rfl)))
        ⟨.rparen, ")", 16⟩ rfl))) ⟨.semicolon, ";", 17⟩ rfl], ?_, ?_⟩
  · decide +kernel
  · decide +kernel

/-- The condition on quotients cannot be left out.  Half of `-1` is `-1` rounded down and zero
rounded towards zero, so a division by it is accepted and has a zero divisor when it runs. -/
theorem accepted_zero_divisor :
    ∃ c p, compile "1 / ((0 - 1) / 2);" {} = .ok c ∧ Writes "1 / ((0 - 1) / 2);" p ∧
      p.KnownInWords ∧ ∀ m : Machine, ¬ m.AvoidsZeroDivisor c.assembly.body := by
  have hknown : halvedNegative.known {} = .ok {} := rfl
  obtain ⟨c, hc, htranslates⟩ := compile_of_writes writes_halvedNegative (by decide) hknown
  refine ⟨c, halvedNegative, hc, writes_halvedNegative, by decide +kernel, ?_⟩
  intro m
  have hone : (Expr.literal 1).eval? (fun _ => 0) = some 1 := rfl
  have hzero : (Expr.binary .div (.binary .sub (.literal 0) (.literal 1)) (.literal 2)).eval?
      (fun _ => 0) = some 0 := by decide
  rw [htranslates.body_eq, Program.code, halvedNegative, List.flatMap_singleton, Statement.code]
  exact m.not_avoidsZeroDivisor_code _ (fun y hy => absurd hy List.not_mem_nil) hone hzero _

end OnePass
