import OnePass.Compile
import OnePass.Expr.Meaning
import OnePass.Grammar

/-!
Walks over trees.

`act` performs on a context the actions of a tree in post-order, which is what a
compiler does that has the tree in front of it.  A walk that succeeds leaves the code of
the expression that the tree writes, and nothing else, in the context; a walk that fails
blames a token of the tree.
-/

namespace OnePass

namespace Outcome

variable {σ α β γ : Type}

/-- Go on with the result and the state of a computation that succeeds. -/
def bind (o : Outcome σ α) (f : α → σ → Outcome σ β) : Outcome σ β :=
  match o with
  | ok a s => f a s
  | failed e s => failed e s

@[simp]
theorem bind_ok (a : α) (s : σ) (f : α → σ → Outcome σ β) : (ok a s).bind f = f a s := rfl

@[simp]
theorem bind_failed (e : Failure) (s : σ) (f : α → σ → Outcome σ β) :
    (failed e s).bind f = failed e s := rfl

@[simp]
theorem map_ok (f : α → β) (a : α) (s : σ) : (ok a s).map f = ok (f a) s := rfl

@[simp]
theorem map_failed (f : α → β) (e : Failure) (s : σ) :
    (failed e s : Outcome σ α).map f = failed e s := rfl

theorem bind_eq_ok_iff {o : Outcome σ α} {f : α → σ → Outcome σ β} {b : β} {t : σ} :
    o.bind f = ok b t ↔ ∃ a s, o = ok a s ∧ f a s = ok b t := by
  cases o with
  | ok a s =>
    refine ⟨fun h => ⟨a, s, rfl, h⟩, ?_⟩
    rintro ⟨_, _, ho, h⟩
    obtain ⟨rfl, rfl⟩ := Outcome.ok.inj ho
    exact h
  | failed e s => simp

theorem bind_eq_failed_iff {o : Outcome σ α} {f : α → σ → Outcome σ β} {e : Failure} {t : σ} :
    o.bind f = failed e t ↔ o = failed e t ∨ ∃ a s, o = ok a s ∧ f a s = failed e t := by
  cases o with
  | ok a s =>
    refine ⟨fun h => .inr ⟨a, s, rfl, h⟩, ?_⟩
    rintro (ho | ⟨_, _, ho, h⟩)
    · cases ho
    · obtain ⟨rfl, rfl⟩ := Outcome.ok.inj ho
      exact h
  | failed e' s => simp

theorem bind_assoc (o : Outcome σ α) (f : α → σ → Outcome σ β) (g : β → σ → Outcome σ γ) :
    (o.bind f).bind g = o.bind fun a s => (f a s).bind g := by
  cases o <;> rfl

theorem bind_map (o : Outcome σ α) (f : α → β) (g : β → σ → Outcome σ γ) :
    (o.map f).bind g = o.bind fun a s => g (f a) s := by
  cases o <;> rfl

theorem map_bind (o : Outcome σ α) (f : α → σ → Outcome σ β) (g : β → γ) :
    (o.bind f).map g = o.bind fun a s => (f a s).map g := by
  cases o <;> rfl

theorem map_map (o : Outcome σ α) (f : α → β) (g : β → γ) :
    (o.map f).map g = o.map fun a => g (f a) := by
  cases o <;> rfl

end Outcome

/-! ## Names that are read -/

/-- The names that an expression reads. -/
def Expr.reads : Expr → List String
  | literal _ => []
  | read name => [name]
  | binary _ lhs rhs => lhs.reads ++ rhs.reads

def Statement.reads : Statement → List String
  | assign _ e => e.reads
  | discard e => e.reads
  | empty => []

/-! ## What the actions do -/

/-- The failure is blamed on a token: on a number that is out of range, in the text that
the tokens come from, or on a name that is not assigned or the sign of a division by
zero, in the text that markers quote. -/
inductive Failure.Blames (source quoted : String) (t : Token) : Failure → Prop
  | literal (h : t.kind = .number) (hv : t.value = none) :
    Blames source quoted t
      (Failure.marking source t.loc (CompileError.malformed · .literalOutOfRange))
  | undefined (h : t.kind = .name) :
    Blames source quoted t
      (Failure.marking quoted t.loc (CompileError.undefinedVariable · t.text))
  | division (h : t.kind = .operator .div) :
    Blames source quoted t (Failure.marking quoted t.loc .divisionByZero)

/-- The failure of a walk over the tokens from the context `c` on: one of the tokens is to
blame, or operands were pending before. -/
def Failure.Arises (source : String) (c : Context) (tokens : List Token) (f : Failure) : Prop :=
  (∃ t ∈ tokens, f.Blames source c.source t) ∨
    c.depth ≠ 0 ∧ ∃ depth expected, f = .error (.unbalancedStatement depth expected)

theorem Failure.Arises.mono {source : String} {c d : Context} {few many : List Token}
    {f : Failure} (h : f.Arises source d few) (hsource : d.source = c.source)
    (hdepth : d.depth = c.depth) (htokens : few ⊆ many) : f.Arises source c many := by
  rcases h with ⟨t, ht, hb⟩ | ⟨hd, hf⟩
  · exact .inl ⟨t, htokens ht, hsource ▸ hb⟩
  · exact .inr ⟨hdepth ▸ hd, hf⟩

namespace Context

/-- The slot of a name, or zero for a name without one. -/
def slot (c : Context) (name : String) : Nat :=
  (c.symbols.slot? name).getD 0

/-- A read of the name is allowed. -/
def Defines (c : Context) (name : String) : Prop :=
  name ∈ c.symbols.names ∧ c.values.contains name = true

/-- The state after code that leaves one more operand. -/
def pushed (c : Context) (code : List Instruction) : Context :=
  { c.emit code with depth := c.depth + 1 }

@[simp]
theorem values_pushed (c : Context) (code : List Instruction) :
    (c.pushed code).values = c.values := rfl

@[simp]
theorem depth_pushed (c : Context) (code : List Instruction) :
    (c.pushed code).depth = c.depth + 1 := rfl

instance (c : Context) (name : String) : Decidable (c.Defines name) :=
  inferInstanceAs (Decidable (_ ∧ _))

theorem filter_slot? (c : Context) (name : String) :
    (c.symbols.slot? name).filter (fun _ => c.values.contains name) =
      if c.Defines name then some (c.slot name) else none := by
  unfold Defines
  by_cases hmem : name ∈ c.symbols.names
  · cases hs : c.symbols.slot? name with
    | none => exact absurd hmem (SymbolTable.slot?_eq_none_iff.1 hs)
    | some i => by_cases hv : c.values.contains name = true <;> simp [slot, hs, hv, hmem]
  · rw [SymbolTable.slot?_eq_none_iff.2 hmem]
    simp [hmem]

theorem read_of_defines {c : Context} {name : String} {loc : Nat} {m : Marker}
    (hm : Marker.place? c.source loc = some m) (h : c.Defines name) :
    c.read name loc = .ok (c.values.get name) (c.pushed [.pushSlot (c.slot name)]) := by
  unfold read
  rw [hm, filter_slot?, if_pos h]
  rfl

theorem read_of_not_defines {c : Context} {name : String} (loc : Nat) (h : ¬ c.Defines name) :
    c.read name loc =
      .failed (Failure.marking c.source loc (CompileError.undefinedVariable · name)) c := by
  unfold read Failure.marking
  rw [filter_slot?, if_neg h]
  cases Marker.place? c.source loc <;> rfl

/-- Where no marker can be placed, a read fails whether the name is assigned or not. -/
theorem read_of_place?_eq_none {c : Context} (name : String) {loc : Nat}
    (h : Marker.place? c.source loc = none) : c.read name loc = .failed .offBoundary c := by
  unfold read
  rw [h]

theorem read_eq_ok {c d : Context} {name : String} {loc : Nat} {v : Value}
    (h : c.read name loc = .ok v d) :
    c.Defines name ∧ v = c.values.get name ∧ d = c.pushed [.pushSlot (c.slot name)] := by
  by_cases hd : c.Defines name
  · cases hm : Marker.place? c.source loc with
    | none =>
      rw [read_of_place?_eq_none name hm] at h
      cases h
    | some m =>
      rw [read_of_defines hm hd] at h
      obtain ⟨rfl, rfl⟩ := Outcome.ok.inj h
      exact ⟨hd, rfl, rfl⟩
  · rw [read_of_not_defines loc hd] at h
    cases h

theorem read_eq_failed {c d : Context} {name : String} {loc : Nat} {f : Failure}
    (h : c.read name loc = .failed f d) :
    f = Failure.marking c.source loc (CompileError.undefinedVariable · name) := by
  by_cases hd : c.Defines name
  · cases hm : Marker.place? c.source loc with
    | none =>
      rw [read_of_place?_eq_none name hm] at h
      obtain ⟨rfl, -⟩ := Outcome.failed.inj h
      rw [Failure.marking, hm]
    | some m =>
      rw [read_of_defines hm hd] at h
      cases h
  · rw [read_of_not_defines loc hd] at h
    exact (Outcome.failed.inj h).1.symm

/-- Act for two operands, the left one first, and then for the operator at byte `loc`
between them. -/
def operate (c : Context) (op : BinaryOp) (loc : Nat)
    (lhs rhs : Context → Outcome Context Value) : Outcome Context Value :=
  (lhs c).bind fun a d => (rhs d).bind fun b e => e.binary op a b loc

/-- With two operands pending, an operator fails only on a divisor known to be zero. -/
theorem binary_pushed_pushed (c : Context) (code code' : List Instruction) (op : BinaryOp)
    (a b : Value) (loc : Nat) :
    ((c.pushed code).pushed code').binary op a b loc =
      match Value.binary op a b with
      | .error _ =>
        .failed (Failure.marking c.source loc .divisionByZero) ((c.pushed code).pushed code')
      | .ok v => .ok v (c.pushed (code ++ code' ++ op.block)) := by
  have hdepth : ¬ ((c.pushed code).pushed code').depth < 2 := by
    simp only [depth_pushed]
    omega
  rw [binary, if_neg hdepth, Instruction.binary_eq_block]
  cases Value.binary op a b with
  | error e => rfl
  | ok v => simp [pushed, emit]

end Context

/-! ## Phrases -/

namespace Phrase

/-- Perform the actions of a phrase in post-order. -/
def act (source : String) : {l : Level} → Phrase l → Context → Outcome Context Value
  | _, number t _, c =>
    match t.value with
    | some n => c.pushLiteral n
    | none =>
      .failed (Failure.marking source t.loc (CompileError.malformed · .literalOutOfRange)) c
  | _, name t _, c => c.read t.text t.loc
  | _, group _ _ inner _ _, c => inner.act source c
  | _, ofFactor f, c => f.act source c
  | _, product lhs sign op _ _ rhs, c =>
    c.operate op sign.loc (lhs.act source) (rhs.act source)
  | _, ofTerm t, c => t.act source c
  | _, sum lhs sign op _ _ rhs, c =>
    c.operate op sign.loc (lhs.act source) (rhs.act source)

/-- What it means that a walk over a phrase succeeds: the phrase writes an expression whose
names may be read and whose compile-time value is the result, and its code is all that
the walk adds to the context. -/
def Walked {l : Level} (p : Phrase l) (c : Context) (v : Value) (d : Context) : Prop :=
  ∃ e, p.expr? = some e ∧ (∀ x ∈ e.reads, c.Defines x) ∧ e.known c.values = .ok v ∧
    d = c.pushed (e.code c.slot)

/-- A walk over two operands and an operator is a walk over each operand, and the operator
then acts on their values. -/
theorem walked_binary_iff {l m n : Level} {lhs : Phrase l} {rhs : Phrase m} {p : Phrase n}
    {op : BinaryOp} (loc : Nat) {c g : Context} {v : Value}
    (hp : p.expr? = do return .binary op (← lhs.expr?) (← rhs.expr?)) :
    p.Walked c v g ↔
      ∃ a d b e, lhs.Walked c a d ∧ rhs.Walked d b e ∧ e.binary op a b loc = .ok v g := by
  constructor
  · rintro ⟨z, hz, hreads, hknown, rfl⟩
    rw [hp] at hz
    cases hx : lhs.expr? with
    | none => simp [hx] at hz
    | some x =>
      cases hy : rhs.expr? with
      | none => simp [hx, hy] at hz
      | some y =>
        obtain rfl : Expr.binary op x y = z := by simpa [hx, hy] using hz
        rw [Expr.known] at hknown
        cases hxk : x.known c.values with
        | error z => simp [hxk, bind, Except.bind] at hknown
        | ok a =>
          cases hyk : y.known c.values with
          | error z => simp [hxk, hyk, bind, Except.bind] at hknown
          | ok b =>
            have hv : Value.binary op a b = .ok v := by
              simpa [hxk, hyk, bind, Except.bind] using hknown
            refine ⟨a, _, b, _, ⟨x, hx, ?_, hxk, rfl⟩, ⟨y, hy, ?_, hyk, rfl⟩, ?_⟩
            · exact fun w hw => hreads w (List.mem_append_left _ hw)
            · exact fun w hw => hreads w (List.mem_append_right _ hw)
            · rw [Context.binary_pushed_pushed, hv]
              rfl
  · rintro ⟨a, d, b, e, ⟨x, hx, hxr, hxk, rfl⟩, ⟨y, hy, hyr, hyk, rfl⟩, h⟩
    rw [Context.values_pushed] at hyk
    rw [Context.binary_pushed_pushed] at h
    cases hv : Value.binary op a b with
    | error z => simp [hv] at h
    | ok w =>
      rw [hv] at h
      obtain ⟨rfl, rfl⟩ := Outcome.ok.inj h
      refine ⟨.binary op x y, ?_, ?_, ?_, rfl⟩
      · rw [hp, hx, hy]
        rfl
      · intro z hz
        rcases List.mem_append.1 hz with hz | hz
        · exact hxr z hz
        · exact hyr z hz
      · rw [Expr.known, hxk, hyk]
        exact hv

theorem walked_of_act {l : Level} (p : Phrase l) {source : String} {c d : Context} {v : Value}
    (h : p.act source c = .ok v d) : p.Walked c v d := by
  induction p generalizing c d v with
  | number t ht =>
    rw [act] at h
    cases hv : t.value with
    | none => simp [hv] at h
    | some n =>
      rw [hv] at h
      obtain ⟨rfl, rfl⟩ := Outcome.ok.inj h
      exact ⟨.literal n, by simp [expr?, hv], by simp [Expr.reads], rfl, rfl⟩
  | name t ht =>
    obtain ⟨hd, rfl, rfl⟩ := Context.read_eq_ok h
    refine ⟨.read t.text, rfl, ?_, rfl, rfl⟩
    intro x hx
    rw [List.mem_singleton.1 hx]
    exact hd
  | group _ _ inner _ _ ih => exact ih h
  | ofFactor f ih => exact ih h
  | product lhs sign op _ _ rhs ihl ihr =>
    obtain ⟨a, d', hl, h⟩ := Outcome.bind_eq_ok_iff.1 h
    obtain ⟨b, e', hr, h⟩ := Outcome.bind_eq_ok_iff.1 h
    exact (walked_binary_iff sign.loc rfl).2 ⟨a, d', b, e', ihl hl, ihr hr, h⟩
  | ofTerm t ih => exact ih h
  | sum lhs sign op _ _ rhs ihl ihr =>
    obtain ⟨a, d', hl, h⟩ := Outcome.bind_eq_ok_iff.1 h
    obtain ⟨b, e', hr, h⟩ := Outcome.bind_eq_ok_iff.1 h
    exact (walked_binary_iff sign.loc rfl).2 ⟨a, d', b, e', ihl hl, ihr hr, h⟩

/-- The tokens can be marked in the text that `c` quotes. -/
def Markable (c : Context) (tokens : List Token) : Prop :=
  ∀ t ∈ tokens, ∃ m, Marker.place? c.source t.loc = some m

theorem operate_of_walked {l m n : Level} {lhs : Phrase l} {rhs : Phrase m} {p : Phrase n}
    {op : BinaryOp} {sign : Token} {source : String} {c g : Context} {v : Value}
    (hp : p.expr? = do return .binary op (← lhs.expr?) (← rhs.expr?))
    (hy : p.yield = lhs.yield ++ sign :: rhs.yield)
    (ihl : ∀ {c d : Context} {v : Value}, Markable c lhs.yield → lhs.Walked c v d →
      lhs.act source c = .ok v d)
    (ihr : ∀ {c d : Context} {v : Value}, Markable c rhs.yield → rhs.Walked c v d →
      rhs.act source c = .ok v d)
    (hm : Markable c p.yield) (h : p.Walked c v g) :
    c.operate op sign.loc (lhs.act source) (rhs.act source) = .ok v g := by
  obtain ⟨a, d, b, e, hl, hr, h⟩ := (walked_binary_iff sign.loc hp).1 h
  have hsource : d.source = c.source := by
    obtain ⟨_, -, -, -, rfl⟩ := hl
    rfl
  have hml : Markable c lhs.yield := fun t ht => hm t (by simp [hy, ht])
  have hmr : Markable d rhs.yield := fun t ht => hsource ▸ hm t (by simp [hy, ht])
  rw [Context.operate, ihl hml hl, Outcome.bind_ok, ihr hmr hr, Outcome.bind_ok, h]

/-- A walk succeeds on every phrase that allows it, if its tokens can be marked: a read
places a marker even when it has nothing to complain of. -/
theorem act_of_walked {l : Level} (p : Phrase l) (source : String) {c d : Context} {v : Value}
    (hm : Markable c p.yield) (h : p.Walked c v d) : p.act source c = .ok v d := by
  induction p generalizing c d v with
  | number t ht =>
    obtain ⟨e, he, -, hknown, rfl⟩ := h
    obtain ⟨n, hn, rfl⟩ := Option.map_eq_some_iff.1 he
    obtain rfl := Except.ok.inj hknown
    rw [act, hn]
    rfl
  | name t ht =>
    obtain ⟨e, he, hreads, hknown, rfl⟩ := h
    obtain rfl := Option.some.inj he
    obtain rfl := Except.ok.inj hknown
    obtain ⟨m, hm⟩ := hm t (List.mem_singleton.2 rfl)
    exact Context.read_of_defines hm (hreads t.text (List.mem_singleton.2 rfl))
  | group opening _ inner closing _ ih => exact ih (fun t ht => hm t (by simp [yield, ht])) h
  | ofFactor f ih => exact ih hm h
  | product lhs sign op _ _ rhs ihl ihr => exact operate_of_walked rfl rfl ihl ihr hm h
  | ofTerm t ih => exact ih hm h
  | sum lhs sign op _ _ rhs ihl ihr => exact operate_of_walked rfl rfl ihl ihr hm h

theorem blames_of_operate {l m : Level} {lhs : Phrase l} {rhs : Phrase m} {op : BinaryOp}
    {sign : Token} {source : String} {c g : Context} {f : Failure}
    (hs : sign.kind = .operator op)
    (ihl : ∀ {c d : Context}, lhs.act source c = .failed f d →
      ∃ t ∈ lhs.yield, f.Blames source c.source t)
    (ihr : ∀ {c d : Context}, rhs.act source c = .failed f d →
      ∃ t ∈ rhs.yield, f.Blames source c.source t)
    (h : c.operate op sign.loc (lhs.act source) (rhs.act source) = .failed f g) :
    ∃ t ∈ lhs.yield ++ sign :: rhs.yield, f.Blames source c.source t := by
  rcases Outcome.bind_eq_failed_iff.1 h with h | ⟨a, d, hl, h⟩
  · obtain ⟨t, ht, hb⟩ := ihl h
    exact ⟨t, by simp [ht], hb⟩
  · obtain ⟨x, -, -, -, rfl⟩ := walked_of_act lhs hl
    rcases Outcome.bind_eq_failed_iff.1 h with h | ⟨b, e, hr, h⟩
    · obtain ⟨t, ht, hb⟩ := ihr h
      exact ⟨t, by simp [ht], hb⟩
    · obtain ⟨y, -, -, -, rfl⟩ := walked_of_act rhs hr
      rw [Context.binary_pushed_pushed] at h
      cases hv : Value.binary op a b with
      | ok w => simp [hv] at h
      | error z =>
        rw [hv] at h
        obtain ⟨rfl, -⟩ := Outcome.failed.inj h
        rw [(Value.binary_eq_error_iff.1 hv).1] at hs
        exact ⟨sign, by simp, .division hs⟩

theorem blames_of_act {l : Level} (p : Phrase l) {source : String} {c d : Context} {f : Failure}
    (h : p.act source c = .failed f d) : ∃ t ∈ p.yield, f.Blames source c.source t := by
  induction p generalizing c d with
  | number t ht =>
    rw [act] at h
    cases hv : t.value with
    | some n =>
      rw [hv] at h
      cases h
    | none =>
      rw [hv] at h
      obtain ⟨rfl, -⟩ := Outcome.failed.inj h
      exact ⟨t, List.mem_singleton.2 rfl, .literal ht hv⟩
  | name t ht =>
    rw [Context.read_eq_failed h]
    exact ⟨t, List.mem_singleton.2 rfl, .undefined ht⟩
  | group opening _ inner closing _ ih =>
    obtain ⟨t, ht, hb⟩ := ih h
    exact ⟨t, by simp [yield, ht], hb⟩
  | ofFactor _ ih => exact ih h
  | product lhs sign op hs _ rhs ihl ihr => exact blames_of_operate hs ihl ihr h
  | ofTerm _ ih => exact ih h
  | sum lhs sign op hs _ rhs ihl ihr => exact blames_of_operate hs ihl ihr h

end Phrase

/-! ## Clauses and sentences -/

/-- A statement without the semicolon that ends it. -/
inductive Clause
  | assign (target : Token) (ht : target.kind = .name) (sign : Token)
      (hs : sign.kind = .becomes) (e : Phrase .expression)
  | expression (e : Phrase .expression)
  | empty

namespace Clause

def yield : Clause → List Token
  | assign target _ sign _ e => target :: sign :: e.yield
  | expression e => e.yield
  | empty => []

/-- The statement that a clause writes, if every number in it is a 64-bit word. -/
def statement? : Clause → Option Statement
  | assign target _ _ _ e => e.expr?.map (.assign target.text)
  | expression e => e.expr?.map .discard
  | empty => some .empty

def sentence (k : Clause) (semicolon : Token) (h : semicolon.kind = .semicolon) : Sentence :=
  match k with
  | assign target ht sign hs e => .assign target ht sign hs e semicolon h
  | expression e => .expression e semicolon h
  | empty => .empty semicolon h

/-- Perform the actions of a clause.  Only an expression has a value to tell of. -/
def act (source : String) : Clause → Context → Outcome Context Value
  | assign target _ _ _ e, c =>
    (e.act source c).bind fun v d => (d.assign target.text v).map fun _ => none
  | expression e, c => (e.act source c).bind fun v d => d.finishStatement.map fun _ => v
  | empty, c => c.emptyStatement.map fun _ => none

@[simp]
theorem yield_sentence (k : Clause) (semicolon : Token) (h : semicolon.kind = .semicolon) :
    (k.sentence semicolon h).yield = k.yield ++ [semicolon] := by
  cases k <;> rfl

end Clause

/-- A sentence without its semicolon. -/
def Sentence.clause : Sentence → Clause
  | assign target ht sign hs e _ _ => .assign target ht sign hs e
  | expression e _ _ => .expression e
  | empty _ _ => .empty

@[simp]
theorem Clause.clause_sentence (k : Clause) (semicolon : Token)
    (h : semicolon.kind = .semicolon) : (k.sentence semicolon h).clause = k := by
  cases k <;> rfl

theorem Sentence.statement?_clause (s : Sentence) : s.clause.statement? = s.statement? := by
  cases s <;> rfl

theorem Sentence.mem_yield_of_mem_clause (s : Sentence) {t : Token} (h : t ∈ s.clause.yield) :
    t ∈ s.yield := by
  cases s with
  | assign target ht sign hs e semicolon hsemi =>
    exact List.mem_append_left [semicolon] h
  | expression e semicolon hsemi => exact List.mem_append_left [semicolon] h
  | empty semicolon hsemi => cases h

/-- The state after a statement, from the values after it. -/
def Context.ended (c : Context) (values : ValueTable) : Statement → Context
  | .assign name e =>
    { c with
      symbols := (c.symbols.bind name).2
      values
      slots := if c.symbols.size < (c.symbols.bind name).2.size then c.slots + 1 else c.slots
      body := c.body ++ (e.code c.slot ++ [.popSlot (c.symbols.bind name).1]) }
  | .discard e => { c with body := c.body ++ (e.code c.slot ++ [.popRegister .eax]) }
  | .empty => c

namespace Context

variable {c : Context} (code : List Instruction)

theorem assign_pushed (name : String) (v : Value) :
    (c.pushed code).assign name v =
      if c.depth = 0 then .ok () ((c.pushed code).stored name v)
      else .failed (.error (.unbalancedStatement c.depth 0)) ((c.pushed code).stored name v) := by
  have hdepth : ¬ (c.pushed code).depth < 1 := by
    simp only [depth_pushed]
    omega
  rw [assign, if_neg hdepth]
  simp only [depth_stored, depth_pushed, Nat.add_sub_cancel]

theorem stored_pushed (name : String) (e : Expr) (v : Value) :
    (c.pushed (e.code c.slot)).stored name v =
      c.ended (c.values.set name v) (.assign name e) := by
  unfold stored ended pushed emit
  simp only [Nat.add_sub_cancel, List.append_assoc]

theorem finishStatement_pushed :
    (c.pushed code).finishStatement =
      if c.depth = 0 then .ok () { c with body := c.body ++ (code ++ [.popRegister .eax]) }
      else .failed (.error (.unbalancedStatement (c.depth + 1) 1)) (c.pushed code) := by
  rw [finishStatement, Instruction.discard_eq_popRegister]
  by_cases hdepth : c.depth = 0
  · have hone : (c.pushed code).depth = 1 := by rw [depth_pushed, hdepth]
    rw [if_pos hone, if_pos hdepth]
    simp [pushed, emit]
  · have hone : ¬ (c.pushed code).depth = 1 := by
      rw [depth_pushed]
      omega
    rw [if_neg hone, if_neg hdepth]
    rfl

end Context

namespace Clause

/-- What it means that a walk over a clause succeeds: nothing is pending before it, and the
clause writes a statement whose names may be read and which leads to the values after
it. -/
def Walked (k : Clause) (c d : Context) : Prop :=
  c.depth = 0 ∧ ∃ s, k.statement? = some s ∧ (∀ x ∈ s.reads, c.Defines x) ∧
    s.known c.values = .ok d.values ∧ d = c.ended d.values s

theorem walked_of_act {k : Clause} {source : String} {c d : Context} {v : Value}
    (h : k.act source c = .ok v d) : k.Walked c d := by
  cases k with
  | assign target ht sign hs e =>
    obtain ⟨w, d', he, h⟩ := Outcome.bind_eq_ok_iff.1 h
    obtain ⟨x, hx, hreads, hknown, rfl⟩ := Phrase.walked_of_act e he
    obtain ⟨u, h, -⟩ := Outcome.map_eq_ok_iff.1 h
    rw [Context.assign_pushed] at h
    by_cases hdepth : c.depth = 0
    · rw [if_pos hdepth] at h
      obtain ⟨-, rfl⟩ := Outcome.ok.inj h
      refine ⟨hdepth, .assign target.text x, by simp [statement?, hx], hreads, ?_, ?_⟩
      · rw [Statement.known, hknown]
        rfl
      · exact Context.stored_pushed target.text x w
    · rw [if_neg hdepth] at h
      cases h
  | expression e =>
    obtain ⟨w, d', he, h⟩ := Outcome.bind_eq_ok_iff.1 h
    obtain ⟨x, hx, hreads, hknown, rfl⟩ := Phrase.walked_of_act e he
    obtain ⟨u, h, -⟩ := Outcome.map_eq_ok_iff.1 h
    rw [Context.finishStatement_pushed] at h
    by_cases hdepth : c.depth = 0
    · rw [if_pos hdepth] at h
      obtain ⟨-, rfl⟩ := Outcome.ok.inj h
      refine ⟨hdepth, .discard x, by simp [statement?, hx], hreads, ?_, rfl⟩
      rw [Statement.known, hknown]
      rfl
    · rw [if_neg hdepth] at h
      cases h
  | empty =>
    obtain ⟨u, h, -⟩ := Outcome.map_eq_ok_iff.1 h
    rw [Context.emptyStatement] at h
    by_cases hdepth : c.depth = 0
    · rw [if_pos hdepth] at h
      obtain ⟨-, rfl⟩ := Outcome.ok.inj h
      exact ⟨hdepth, .empty, rfl, by simp [Statement.reads], rfl, rfl⟩
    · rw [if_neg hdepth] at h
      cases h

theorem act_of_walked {k : Clause} (source : String) {c d : Context}
    (hm : Phrase.Markable c k.yield) (h : k.Walked c d) : ∃ v, k.act source c = .ok v d := by
  obtain ⟨hdepth, s, hs, hreads, hknown, hd⟩ := h
  cases k with
  | assign target ht sign hs' e =>
    obtain ⟨x, hx, rfl⟩ := Option.map_eq_some_iff.1 hs
    cases hxk : x.known c.values with
    | error z => simp [Statement.known, hxk, Except.map] at hknown
    | ok w =>
      have hvalues : c.values.set target.text w = d.values := by
        simpa [Statement.known, hxk, Except.map] using hknown
      have he : e.act source c = .ok w (c.pushed (x.code c.slot)) :=
        Phrase.act_of_walked e source (fun t ht => hm t (by simp [yield, ht]))
          ⟨x, hx, hreads, hxk, rfl⟩
      refine ⟨none, ?_⟩
      rw [act, he, Outcome.bind_ok, Context.assign_pushed, if_pos hdepth, hd, ← hvalues,
        Context.stored_pushed]
      rfl
  | expression e =>
    obtain ⟨x, hx, rfl⟩ := Option.map_eq_some_iff.1 hs
    cases hxk : x.known c.values with
    | error z => simp [Statement.known, hxk, Except.map] at hknown
    | ok w =>
      have he : e.act source c = .ok w (c.pushed (x.code c.slot)) :=
        Phrase.act_of_walked e source hm ⟨x, hx, hreads, hxk, rfl⟩
      refine ⟨w, ?_⟩
      rw [act, he, Outcome.bind_ok, Context.finishStatement_pushed, if_pos hdepth, hd]
      rfl
  | empty =>
    obtain rfl := Option.some.inj hs
    refine ⟨none, ?_⟩
    rw [act, Context.emptyStatement, if_pos hdepth, hd]
    rfl

theorem arises_of_act {k : Clause} {source : String} {c d : Context} {f : Failure}
    (h : k.act source c = .failed f d) : f.Arises source c k.yield := by
  cases k with
  | assign target ht sign hs e =>
    rcases Outcome.bind_eq_failed_iff.1 h with h | ⟨w, d', he, h⟩
    · obtain ⟨t, ht, hb⟩ := Phrase.blames_of_act e h
      exact .inl ⟨t, by simp [yield, ht], hb⟩
    · obtain ⟨x, -, -, -, rfl⟩ := Phrase.walked_of_act e he
      have h := Outcome.map_eq_failed_iff.1 h
      rw [Context.assign_pushed] at h
      by_cases hdepth : c.depth = 0
      · rw [if_pos hdepth] at h
        cases h
      · rw [if_neg hdepth] at h
        exact .inr ⟨hdepth, _, _, (Outcome.failed.inj h).1.symm⟩
  | expression e =>
    rcases Outcome.bind_eq_failed_iff.1 h with h | ⟨w, d', he, h⟩
    · exact .inl (Phrase.blames_of_act e h)
    · obtain ⟨x, -, -, -, rfl⟩ := Phrase.walked_of_act e he
      have h := Outcome.map_eq_failed_iff.1 h
      rw [Context.finishStatement_pushed] at h
      by_cases hdepth : c.depth = 0
      · rw [if_pos hdepth] at h
        cases h
      · rw [if_neg hdepth] at h
        exact .inr ⟨hdepth, _, _, (Outcome.failed.inj h).1.symm⟩
  | empty =>
    have h := Outcome.map_eq_failed_iff.1 h
    rw [Context.emptyStatement] at h
    by_cases hdepth : c.depth = 0
    · rw [if_pos hdepth] at h
      cases h
    · rw [if_neg hdepth] at h
      exact .inr ⟨hdepth, _, _, (Outcome.failed.inj h).1.symm⟩

end Clause

def sentencesAct (source : String) : List Sentence → Context → Outcome Context Unit
  | [], c => .ok () c
  | s :: rest, c => (s.clause.act source c).bind fun _ d => sentencesAct source rest d

theorem sentencesAct_append (source : String) (a b : List Sentence) (c : Context) :
    sentencesAct source (a ++ b) c =
      (sentencesAct source a c).bind fun _ d => sentencesAct source b d := by
  induction a generalizing c with
  | nil => rfl
  | cons s rest ih =>
    rw [List.cons_append, sentencesAct, sentencesAct, Outcome.bind_assoc]
    congr 1
    funext _ d
    exact ih d

theorem sentencesAct_concat (source : String) (ss : List Sentence) (s : Sentence) (c : Context) :
    sentencesAct source (ss ++ [s]) c =
      (sentencesAct source ss c).bind fun _ d => (s.clause.act source d).map fun _ => () := by
  rw [sentencesAct_append]
  rfl

@[simp]
theorem Context.depth_ended (c : Context) (values : ValueTable) (s : Statement) :
    (c.ended values s).depth = c.depth := by
  cases s <;> rfl

@[simp]
theorem Context.source_ended (c : Context) (values : ValueTable) (s : Statement) :
    (c.ended values s).source = c.source := by
  cases s <;> rfl

theorem Context.ended_of_walked {k : Clause} {c d : Context} (h : k.Walked c d) :
    d.source = c.source ∧ d.depth = c.depth := by
  obtain ⟨-, s, -, -, -, hd⟩ := h
  rw [hd]
  exact ⟨c.source_ended d.values s, c.depth_ended d.values s⟩

section

variable {source : String} {ss : List Sentence} {c d : Context}

theorem source_of_sentencesAct (h : sentencesAct source ss c = .ok () d) :
    d.source = c.source := by
  induction ss generalizing c with
  | nil => rw [(Outcome.ok.inj h).2]
  | cons s rest ih =>
    obtain ⟨v, e, hs, h⟩ := Outcome.bind_eq_ok_iff.1 h
    exact (ih h).trans (Context.ended_of_walked (Clause.walked_of_act hs)).1

/-- Sentences leave nothing pending, and where something is pending none succeeds. -/
theorem depth_of_sentencesAct (h : sentencesAct source ss c = .ok () d) :
    d.depth = c.depth ∧ (ss ≠ [] → c.depth = 0) := by
  induction ss generalizing c with
  | nil =>
    obtain ⟨-, rfl⟩ := Outcome.ok.inj h
    exact ⟨rfl, fun hne => absurd rfl hne⟩
  | cons s rest ih =>
    obtain ⟨v, e, hs, h⟩ := Outcome.bind_eq_ok_iff.1 h
    have hwalked := Clause.walked_of_act hs
    exact ⟨(ih h).1.trans (Context.ended_of_walked hwalked).2, fun _ => hwalked.1⟩

theorem arises_of_sentencesAct {f : Failure} (h : sentencesAct source ss c = .failed f d) :
    f.Arises source c (sentencesYield ss) := by
  induction ss generalizing c with
  | nil => cases h
  | cons s rest ih =>
    have hfront : s.clause.yield ⊆ sentencesYield (s :: rest) := fun t ht =>
      List.mem_flatMap.2 ⟨s, List.mem_cons_self, s.mem_yield_of_mem_clause ht⟩
    have hback : sentencesYield rest ⊆ sentencesYield (s :: rest) := fun t ht => by
      rw [sentencesYield, List.flatMap_cons]
      exact List.mem_append_right _ ht
    rcases Outcome.bind_eq_failed_iff.1 h with h | ⟨v, e, hs, h⟩
    · exact (Clause.arises_of_act h).mono rfl rfl hfront
    · obtain ⟨hsource, hdepth⟩ := Context.ended_of_walked (Clause.walked_of_act hs)
      exact (ih h).mono hsource hdepth hback

end
end OnePass
