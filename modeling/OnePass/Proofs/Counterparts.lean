import Mathlib.Data.List.Forall2
import OnePass.Proofs.Refusal

/-!
Two runs in step.

Suppose that the tokens of two texts stand in a correspondence that keeps kinds and values and
takes names one to one.  A parse decides by kinds, computes with values, and asks of a name
only whether it is the same as another.  So two parses that have done corresponding things make
the same move, and what they come to corresponds again: they end alike, and a failure of the
one is the failure of the other, blamed on the token that corresponds.
-/

namespace OnePass

/-! ## Correspondences -/

/-- Which names and tokens of two texts correspond. -/
structure Correspondence where
  first : String
  second : String
  Names : String → String → Prop
  Tokens : Token → Token → Prop
  unique : Relator.BiUnique Names
  kind_eq : ∀ {u v}, Tokens u v → u.kind = v.kind
  value_eq : ∀ {u v}, Tokens u v → u.value = v.value
  name : ∀ {u v}, Tokens u v → u.kind = .name → Names u.text v.text
  found : ∀ {u v}, Tokens u v → FoundAt first u.loc u.text.toList
  found' : ∀ {u v}, Tokens u v → FoundAt second v.loc v.text.toList

namespace Outcome

/-- Two computations come to the same end, with results and states, or failures and states,
that correspond. -/
inductive Related {σ τ α β : Type} (S : σ → τ → Prop) (A : α → β → Prop)
    (F : Failure → Failure → Prop) : Outcome σ α → Outcome τ β → Prop
  | ok {a b s t} (ha : A a b) (hs : S s t) : Related S A F (.ok a s) (.ok b t)
  | failed {f g s t} (hf : F f g) (hs : S s t) : Related S A F (.failed f s) (.failed g t)

theorem Related.map {σ τ α β γ δ : Type} {S : σ → τ → Prop} {A : α → β → Prop} {B : γ → δ → Prop}
    {F : Failure → Failure → Prop} {o : Outcome σ α} {o' : Outcome τ β} (h : Related S A F o o')
    {f : α → γ} {g : β → δ} (hfg : ∀ a b, A a b → B (f a) (g b)) :
    Related S B F (o.map f) (o'.map g) := by
  cases h with
  | ok ha hs => exact .ok (hfg _ _ ha) hs
  | failed hf hs => exact .failed hf hs

end Outcome

/-! ## Tables -/

section

variable {N : String → String → Prop} (hN : Relator.BiUnique N) {x y : String} (h : N x y)
include hN h

theorem idxOf?_related {xs ys : List String} (hs : List.Forall₂ N xs ys) :
    xs.idxOf? x = ys.idxOf? y := by
  induction hs with
  | nil => rfl
  | @cons a b xs ys hab _ ih =>
    have hiff : a = x ↔ b = y := Relator.rel_eq hN hab h
    rw [List.idxOf?_cons, List.idxOf?_cons, ih]
    by_cases ha : a = x
    · simp [ha, hiff.1 ha]
    · simp [ha, mt hiff.2 ha]

theorem lookup_related {as bs : List (String × Value)}
    (hs : List.Forall₂ (fun a b => N a.1 b.1 ∧ a.2 = b.2) as bs) : as.lookup x = bs.lookup y := by
  induction hs with
  | nil => rfl
  | @cons a b as bs hab _ ih =>
    obtain ⟨a, v⟩ := a
    obtain ⟨b, w⟩ := b
    obtain ⟨hab, rfl⟩ : N a b ∧ v = w := hab
    have hiff : x = a ↔ y = b := Relator.rel_eq hN h hab
    rw [List.lookup_cons, List.lookup_cons, ih]
    by_cases ha : x = a
    · have hb := hiff.1 ha
      subst ha hb
      simp
    · have ha' : (x == a) = false := beq_false_of_ne ha
      have hb' : (y == b) = false := beq_false_of_ne (mt hiff.2 ha)
      rw [ha', hb']

variable {t u : SymbolTable} (ht : List.Forall₂ N t.names u.names)
include ht

theorem slot?_related : t.slot? x = u.slot? y := by
  rw [SymbolTable.slot?, SymbolTable.slot?, idxOf?_related hN h ht]

theorem bind_related :
    (t.bind x).1 = (u.bind y).1 ∧ List.Forall₂ N (t.bind x).2.names (u.bind y).2.names := by
  have hslot := slot?_related hN h ht
  cases hx : t.slot? x with
  | some i =>
    rw [hx] at hslot
    rw [SymbolTable.bind_of_slot? hx, SymbolTable.bind_of_slot? hslot.symm]
    exact ⟨rfl, ht⟩
  | none =>
    rw [hx] at hslot
    rw [SymbolTable.bind_of_not_mem (SymbolTable.slot?_eq_none_iff.1 hx),
      SymbolTable.bind_of_not_mem (SymbolTable.slot?_eq_none_iff.1 hslot.symm)]
    exact ⟨congrArg (· + 1) ht.length_eq, List.rel_append ht (.cons h .nil)⟩

end

namespace Correspondence

variable (k : Correspondence)

inductive Symbols : Symbol → Symbol → Prop
  | token {u v : Token} (h : k.Tokens u v) : Symbols (.token u) (.token v)
  | stmt (v : Value) : Symbols (.stmt v) (.stmt v)
  | expr (v : Value) : Symbols (.expr v) (.expr v)
  | term (v : Value) : Symbols (.term v) (.term v)
  | factor (v : Value) : Symbols (.factor v) (.factor v)

/-- All but the names and the text quoted is the same. -/
structure Contexts (c d : Context) : Prop where
  source_eq : c.source = k.first
  source_eq' : d.source = k.second
  names : List.Forall₂ k.Names c.symbols.names d.symbols.names
  values : List.Forall₂ (fun a b => k.Names a.1 b.1 ∧ a.2 = b.2) c.values.assigned
    d.values.assigned
  depth_eq : c.depth = d.depth
  slots_eq : c.slots = d.slots
  body_eq : c.body = d.body

/-- Failures of one kind that are blamed on tokens which correspond.  An internal failure has
no token to blame. -/
inductive Failures : Failure → Failure → Prop
  | rejected {u v : Token} {a b : Complaint} (h : k.Tokens u v) (ha : a.Quotes u.describe)
      (hb : b.Quotes v.describe) :
      Failures (.marking k.first u.loc (CompileError.malformed · a))
        (.marking k.second v.loc (CompileError.malformed · b))
  | literal {u v : Token} (h : k.Tokens u v) (hk : u.kind = .number) (hv : u.value = none) :
      Failures (.marking k.first u.loc (CompileError.malformed · .literalOutOfRange))
        (.marking k.second v.loc (CompileError.malformed · .literalOutOfRange))
  | undefined {u v : Token} (h : k.Tokens u v) (hk : u.kind = .name) :
      Failures (.marking k.first u.loc (CompileError.undefinedVariable · u.text))
        (.marking k.second v.loc (CompileError.undefinedVariable · v.text))
  | division {u v : Token} (h : k.Tokens u v) (hk : u.kind = .operator .div) :
      Failures (.marking k.first u.loc .divisionByZero) (.marking k.second v.loc .divisionByZero)
  | internal (e : CompileError) (he : e.isInternal = true) : Failures (.error e) (.error e)

variable {k}

/-! ## Actions -/

section

variable {c d : Context} {x y : String}

theorem Contexts.pushed (hc : k.Contexts c d) (code : List Instruction) :
    k.Contexts (c.pushed code) (d.pushed code) where
  source_eq := hc.source_eq
  source_eq' := hc.source_eq'
  names := hc.names
  values := hc.values
  depth_eq := congrArg (· + 1) hc.depth_eq
  slots_eq := hc.slots_eq
  body_eq := congrArg (· ++ code) hc.body_eq

theorem Contexts.popped (hc : k.Contexts c d) (code : List Instruction) :
    k.Contexts { c.emit code with depth := c.depth - 1 }
      { d.emit code with depth := d.depth - 1 } where
  source_eq := hc.source_eq
  source_eq' := hc.source_eq'
  names := hc.names
  values := hc.values
  depth_eq := congrArg (· - 1) hc.depth_eq
  slots_eq := hc.slots_eq
  body_eq := congrArg (· ++ code) hc.body_eq

theorem Contexts.stored (hc : k.Contexts c d) (h : k.Names x y) (v : Value) :
    k.Contexts (c.stored x v) (d.stored y v) where
  source_eq := hc.source_eq
  source_eq' := hc.source_eq'
  names := (bind_related k.unique h hc.names).2
  values := .cons ⟨h, rfl⟩ hc.values
  depth_eq := congrArg (· - 1) hc.depth_eq
  slots_eq := by
    have hbefore : c.symbols.size = d.symbols.size := hc.names.length_eq
    have hafter : (c.symbols.bind x).2.size = (d.symbols.bind y).2.size :=
      (bind_related k.unique h hc.names).2.length_eq
    show (if c.symbols.size < (c.symbols.bind x).2.size then c.slots + 1 else c.slots) =
      if d.symbols.size < (d.symbols.bind y).2.size then d.slots + 1 else d.slots
    rw [hbefore, hafter, hc.slots_eq]
  body_eq := by
    show c.body ++ [.popSlot (c.symbols.bind x).1] = d.body ++ [.popSlot (d.symbols.bind y).1]
    rw [hc.body_eq, (bind_related k.unique h hc.names).1]

theorem read_related (hc : k.Contexts c d) {u v : Token} (h : k.Tokens u v)
    (hk : u.kind = .name) :
    Outcome.Related k.Contexts (· = ·) k.Failures (c.read u.text u.loc) (d.read v.text v.loc) := by
  have hname := k.name h hk
  have hlookup := lookup_related k.unique hname hc.values
  obtain ⟨_, _, -, hm⟩ := (k.found h).place?
  obtain ⟨_, _, -, hm'⟩ := (k.found' h).place?
  have hdefines : c.Defines u.text ↔ d.Defines v.text := by
    rw [Context.Defines, Context.Defines, ValueTable.contains, ValueTable.contains, hlookup]
    exact and_congr_left fun _ => List.rel_mem k.unique hname hc.names
  have hslot : c.slot u.text = d.slot v.text := by
    rw [Context.slot, Context.slot, slot?_related k.unique hname hc.names]
  rw [← hc.source_eq] at hm
  rw [← hc.source_eq'] at hm'
  by_cases hd : c.Defines u.text
  · rw [Context.read_of_defines hm hd, Context.read_of_defines hm' (hdefines.1 hd), hslot]
    refine .ok ?_ (hc.pushed _)
    rw [ValueTable.get, ValueTable.get, hlookup]
  · rw [Context.read_of_not_defines _ hd, Context.read_of_not_defines _ (mt hdefines.2 hd),
      hc.source_eq, hc.source_eq']
    exact .failed (.undefined h hk) hc

theorem binary_related (hc : k.Contexts c d) {u v : Token} (h : k.Tokens u v) {op : BinaryOp}
    (hk : u.kind = .operator op) (a b : Value) :
    Outcome.Related k.Contexts (· = ·) k.Failures (c.binary op a b u.loc)
      (d.binary op a b v.loc) := by
  unfold Context.binary
  rw [← hc.depth_eq, hc.source_eq, hc.source_eq']
  by_cases hdepth : c.depth < 2
  · rw [if_pos hdepth, if_pos hdepth]
    exact .failed (.internal _ rfl) hc
  · rw [if_neg hdepth, if_neg hdepth]
    cases hv : Value.binary op a b with
    | ok w =>
      have hpopped := hc.popped (Instruction.binary op)
      rw [← hc.depth_eq] at hpopped
      exact .ok rfl hpopped
    | error e =>
      obtain ⟨rfl, -⟩ := Value.binary_eq_error_iff.1 hv
      exact .failed (.division h hk) hc

theorem assign_related (hc : k.Contexts c d) (h : k.Names x y) (v : Value) :
    Outcome.Related k.Contexts (fun _ _ => True) k.Failures (c.assign x v) (d.assign y v) := by
  unfold Context.assign
  have hstored := hc.stored h v
  dsimp only
  rw [← hc.depth_eq, ← hstored.depth_eq]
  split
  · exact .failed (.internal _ rfl) hc
  · split
    · exact .ok trivial hstored
    · exact .failed (.internal _ rfl) hstored

theorem finishStatement_related (hc : k.Contexts c d) :
    Outcome.Related k.Contexts (fun _ _ => True) k.Failures c.finishStatement
      d.finishStatement := by
  unfold Context.finishStatement
  have hpopped := hc.popped [Instruction.discard]
  rw [← hc.depth_eq] at hpopped ⊢
  split
  · exact .ok trivial hpopped
  · exact .failed (.internal _ rfl) hc

theorem emptyStatement_related (hc : k.Contexts c d) :
    Outcome.Related k.Contexts (fun _ _ => True) k.Failures c.emptyStatement d.emptyStatement := by
  unfold Context.emptyStatement
  rw [← hc.depth_eq]
  split
  · exact .ok trivial hc
  · exact .failed (.internal _ rfl) hc

end

/-! ## Decisions -/

/-- The same decision, or two rejections. -/
inductive Decisions : Decision → Decision → Prop
  | shift : Decisions .shift .shift
  | reduce (production : Production) : Decisions (.reduce production) (.reduce production)
  | accept : Decisions .accept .accept
  | reject (a b : Complaint) : Decisions (.reject a) (.reject b)

theorem Decisions.ite {p : Prop} [Decidable p] {a b a' b' : Decision} (ha : Decisions a a')
    (hb : Decisions b b') : Decisions (if p then a else b) (if p then a' else b') := by
  split
  · exact ha
  · exact hb

section

variable {s s' : Stack} {u v : Token}

theorem closeFactor_related (h : u.kind = v.kind) (production : Production) :
    Decisions (Decision.closeFactor production u) (Decision.closeFactor production v) := by
  unfold Decision.closeFactor
  rw [h]
  exact .ite (.reduce production) (.reject _ _)

theorem eq_nil_iff (hs : List.Forall₂ k.Symbols s s') : s = [] ↔ s' = [] := by
  cases hs with
  | nil => exact Iff.rfl
  | cons h hs => exact iff_of_false (List.cons_ne_nil _ _) (List.cons_ne_nil _ _)

theorem pendingOperator_eq (hs : List.Forall₂ k.Symbols s s') (strength : Nat) :
    s.pendingOperator strength = s'.pendingOperator strength := by
  cases hs with
  | nil => rfl
  | cons h hs =>
    cases h with
    | token h => rw [Stack.pendingOperator, Stack.pendingOperator, k.kind_eq h]
    | _ => rfl

theorem opensGroup_eq (hs : List.Forall₂ k.Symbols s s') : s.opensGroup = s'.opensGroup := by
  cases hs with
  | nil => rfl
  | cons h hs =>
    cases h with
    | token h => rw [Stack.opensGroup, Stack.opensGroup, k.kind_eq h]
    | _ => rfl

theorem opensAssignment_eq (hs : List.Forall₂ k.Symbols s s') :
    s.opensAssignment = s'.opensAssignment := by
  cases hs with
  | nil => rfl
  | cons h hs =>
    cases hs with
    | nil => cases h <;> rfl
    | cons h₂ hs =>
      cases hs with
      | nil =>
        cases h with
        | token h => rw [Stack.opensAssignment, Stack.opensAssignment, k.kind_eq h]
        | _ => rfl
      | cons h₃ hs => cases h <;> rfl

theorem onToken_related (hs : List.Forall₂ k.Symbols s s') (h : u.kind = v.kind)
    (top : TokenKind) : Decisions (Decision.onToken top s u) (Decision.onToken top s' v) := by
  cases top with
  | name =>
    simp only [Decision.onToken, h, eq_nil_iff hs]
    exact .ite .shift (closeFactor_related h _)
  | number => exact closeFactor_related h _
  | rparen => exact closeFactor_related h _
  | semicolon => exact .reduce _
  | _ =>
    simp only [Decision.onToken, h]
    exact .ite .shift (.reject _ _)

theorem onTerm_related (hs : List.Forall₂ k.Symbols s s') (h : u.kind = v.kind) :
    Decisions (Decision.onTerm s u) (Decision.onTerm s' v) := by
  unfold Decision.onTerm
  rw [pendingOperator_eq hs, h]
  refine .ite .shift ?_
  split
  · exact .reduce _
  · exact .reduce _

theorem onExpression_related (hs : List.Forall₂ k.Symbols s s') (h : u.kind = v.kind) :
    Decisions (Decision.onExpression s u) (Decision.onExpression s' v) := by
  simp only [Decision.onExpression, h, opensGroup_eq hs, opensAssignment_eq hs, eq_nil_iff hs]
  exact .ite .shift (.ite (.ite .shift (.reject _ _)) (.ite (.reduce _) (.ite (.reduce _)
    (.reject _ _))))

/-- A decision looks at kinds only. -/
theorem next_related (hs : List.Forall₂ k.Symbols s s') (h : u.kind = v.kind) :
    Decisions (Decision.next s u) (Decision.next s' v) := by
  cases hs with
  | nil =>
    simp only [Decision.next, Decision.onEmpty, h]
    split <;> constructor
  | cons htop hs =>
    cases htop with
    | token ht =>
      simp only [Decision.next, k.kind_eq ht]
      exact onToken_related hs h _
    | stmt w =>
      simp only [Decision.next, Decision.onStatement, h]
      exact .ite .shift (.reject _ _)
    | expr w => exact onExpression_related hs h
    | term w => exact onTerm_related hs h
    | factor w =>
      simp only [Decision.next, Decision.onFactor, pendingOperator_eq hs]
      split
      · exact .reduce _
      · exact .reduce _

end

/-! ## Reductions -/

end Correspondence

/-- The tokens that a reduction reads are of the kinds that its production has in their
places. -/
def Stack.Fits : Production → Stack → Prop
  | .stmtAssign, .expr _ :: .token _ :: .token name :: _ => name.kind = .name
  | .exprBinary op, .term _ :: .token t :: _ => t.kind = .operator op
  | .termBinary op, .factor _ :: .token t :: _ => t.kind = .operator op
  | .factorNumber, .token t :: _ => t.kind = .number
  | .factorName, .token t :: _ => t.kind = .name
  | _, _ => True

theorem Fragment.fits_of_advance {f g : Fragment} {input rest : List Token}
    {production : Production} {source : String} {c d : Context} {stack : Stack}
    (h : f.Advance input (.reduce production) g rest) (hf : f.act source c = .ok stack d) :
    stack.Fits production := by
  cases h with
  | factorNumber ht hn =>
    obtain ⟨below, -, rfl⟩ := Outcome.map_eq_ok_iff.1 hf
    exact ht
  | factorName ht hn =>
    obtain ⟨below, -, rfl⟩ := Outcome.map_eq_ok_iff.1 hf
    exact ht
  | @termBinary o lhs sign op hs hop =>
    obtain ⟨below, e, v, ho, -, rfl⟩ := exists_of_act_phrase hf
    obtain ⟨_, _, -, ho⟩ := Outcome.bind_eq_ok_iff.1 ho
    obtain ⟨_, -, rfl⟩ := Outcome.map_eq_ok_iff.1 ho
    exact hs
  | @exprBinary o lhs sign op hs hop =>
    obtain ⟨below, e, v, ho, -, rfl⟩ := exists_of_act_phrase hf
    obtain ⟨_, _, -, ho⟩ := Outcome.bind_eq_ok_iff.1 ho
    obtain ⟨_, -, rfl⟩ := Outcome.map_eq_ok_iff.1 ho
    exact hs
  | @stmtAssign target ht =>
    obtain ⟨below, e, v, ho, -, rfl⟩ := exists_of_act_phrase hf
    obtain ⟨rfl, -⟩ := Outcome.ok.inj ho
    exact ht
  | _ => trivial

theorem Parse.Tracks.fits {p : Parse} {source : String} {c : Context} {x : Outline}
    (hp : p.Tracks source c x) {production : Production} (h : p.move = .reduce production) :
    p.stack.Fits production := by
  rcases Outline.advance_or_stop hp.act_eq p.heads_input with
    ⟨m, y, rest, hadvance⟩ | ⟨-, -, hmove⟩ | ⟨complaint, hmove⟩
  · obtain rfl : .reduce production = m := h.symm.trans (hp.move_eq hadvance)
    obtain ⟨_, e, -, hact⟩ := Outcome.bind_eq_ok_iff.1 hp.act_eq
    cases hadvance with
    | within hadvance => exact Fragment.fits_of_advance hadvance hact
    | program => trivial
  · rw [Parse.move, hmove] at h
    cases h
  · rw [Parse.move, hmove] at h
    cases h

namespace Correspondence

variable {k : Correspondence}

theorem Symbols.category_eq {a b : Symbol} (h : k.Symbols a b) : a.category = b.category := by
  cases h <;> rfl

section

variable {s s' : Stack} (hs : List.Forall₂ k.Symbols s s')
include hs

theorem missing?_eq (handle : List Symbol.Category) :
    Stack.missing? handle s = Stack.missing? handle s' := by
  induction handle generalizing s s' with
  | nil => rfl
  | cons c handle ih =>
    cases hs with
    | nil => rfl
    | cons h hs => rw [Stack.missing?, Stack.missing?, h.category_eq, ih hs]

/-- Where the first symbol of a handle is not missing, it is on top of both stacks. -/
theorem exists_top {c : Symbol.Category} {handle : List Symbol.Category}
    (hm : Stack.missing? (c :: handle) s = none) :
    ∃ a b below below', s = a :: below ∧ s' = b :: below' ∧ k.Symbols a b ∧ a.category = c ∧
      List.Forall₂ k.Symbols below below' ∧ Stack.missing? handle below = none := by
  cases hs with
  | nil => cases hm
  | @cons a b below below' h hs =>
    rw [Stack.missing?] at hm
    by_cases hc : a.category = c
    · rw [if_pos hc] at hm
      exact ⟨a, b, below, below', rfl, rfl, h, hc, hs, hm⟩
    · rw [if_neg hc] at hm
      cases hm

theorem exists_token {handle : List Symbol.Category}
    (hm : Stack.missing? (.token :: handle) s = none) :
    ∃ u v below below', s = .token u :: below ∧ s' = .token v :: below' ∧ k.Tokens u v ∧
      List.Forall₂ k.Symbols below below' ∧ Stack.missing? handle below = none := by
  obtain ⟨a, b, below, below', rfl, rfl, h, hc, hbelow, hm⟩ := exists_top hs hm
  cases h with
  | token h => exact ⟨_, _, below, below', rfl, rfl, h, hbelow, hm⟩
  | _ => cases hc

theorem exists_phrase {handle : List Symbol.Category} (l : Level)
    (hm : Stack.missing? ((l.symbol none).category :: handle) s = none) :
    ∃ v below below', s = l.symbol v :: below ∧ s' = l.symbol v :: below' ∧
      List.Forall₂ k.Symbols below below' ∧ Stack.missing? handle below = none := by
  obtain ⟨a, b, below, below', rfl, rfl, h, hc, hbelow, hm⟩ := exists_top hs hm
  cases h <;> cases l <;> cases hc <;> exact ⟨_, below, below', rfl, rfl, hbelow, hm⟩

end

/-- The reductions fail alike where their handle is not on the stack. -/
theorem reduce_of_missing {source : String} {c : Context} {production : Production}
    {s : Stack} (h : Stack.missing? production.handle s ≠ none) :
    Stack.reduce source c production s = .failed (.error (Stack.missingError production s)) c := by
  unfold Stack.reduce
  split <;> simp_all [Production.handle, Stack.missing?, Symbol.category]

theorem reduce_related {s s' : Stack} (hs : List.Forall₂ k.Symbols s s') {c d : Context}
    (hc : k.Contexts c d) {production : Production} (hfits : s.Fits production) :
    Outcome.Related k.Contexts (List.Forall₂ k.Symbols) k.Failures
      (Stack.reduce k.first c production s) (Stack.reduce k.second d production s') := by
  by_cases hm : Stack.missing? production.handle s = none
  · cases production with
    | program =>
      obtain ⟨u, v, t, t', rfl, rfl, -, ht, hm⟩ := exists_token hs hm
      obtain ⟨a, b, w, w', rfl, rfl, ha, hcat, hw, -⟩ := exists_top ht hm
      cases ha with
      | stmt _ => exact .ok hw hc
      | _ => cases hcat
    | stmtAssign =>
      obtain ⟨value, t, t', rfl, rfl, ht, hm⟩ := exists_phrase hs .expression hm
      obtain ⟨_, _, t, t', rfl, rfl, -, ht, hm⟩ := exists_token ht hm
      obtain ⟨u, v, t, t', rfl, rfl, huv, ht, -⟩ := exists_token ht hm
      exact (assign_related hc (k.name huv hfits) value).map fun _ _ _ => .cons (.stmt none) ht
    | stmtExpr =>
      obtain ⟨value, t, t', rfl, rfl, ht, -⟩ := exists_phrase hs .expression hm
      exact (finishStatement_related hc).map fun _ _ _ => .cons (.stmt value) ht
    | stmtEmpty =>
      simp only [Stack.reduce]
      exact (emptyStatement_related hc).map fun _ _ _ => .cons (.stmt none) hs
    | exprBinary op =>
      obtain ⟨rhs, t, t', rfl, rfl, ht, hm⟩ := exists_phrase hs .term hm
      obtain ⟨u, v, t, t', rfl, rfl, huv, ht, hm⟩ := exists_token ht hm
      obtain ⟨lhs, t, t', rfl, rfl, ht, -⟩ := exists_phrase ht .expression hm
      refine (binary_related hc huv hfits lhs rhs).map ?_
      rintro value _ rfl
      exact .cons (.expr value) ht
    | exprTerm =>
      obtain ⟨value, t, t', rfl, rfl, ht, -⟩ := exists_phrase hs .term hm
      exact .ok (.cons (.expr value) ht) hc
    | termBinary op =>
      obtain ⟨rhs, t, t', rfl, rfl, ht, hm⟩ := exists_phrase hs .factor hm
      obtain ⟨u, v, t, t', rfl, rfl, huv, ht, hm⟩ := exists_token ht hm
      obtain ⟨lhs, t, t', rfl, rfl, ht, -⟩ := exists_phrase ht .term hm
      refine (binary_related hc huv hfits lhs rhs).map ?_
      rintro value _ rfl
      exact .cons (.term value) ht
    | termFactor =>
      obtain ⟨value, t, t', rfl, rfl, ht, -⟩ := exists_phrase hs .factor hm
      exact .ok (.cons (.term value) ht) hc
    | factorGroup =>
      obtain ⟨_, _, t, t', rfl, rfl, -, ht, hm⟩ := exists_token hs hm
      obtain ⟨value, t, t', rfl, rfl, ht, hm⟩ := exists_phrase ht .expression hm
      obtain ⟨_, _, t, t', rfl, rfl, -, ht, -⟩ := exists_token ht hm
      exact .ok (.cons (.factor value) ht) hc
    | factorNumber =>
      obtain ⟨u, v, t, t', rfl, rfl, huv, ht, -⟩ := exists_token hs hm
      simp only [Stack.reduce, ← k.value_eq huv]
      cases hu : u.value with
      | none => exact .failed (.literal huv hfits hu) hc
      | some n => exact .ok (.cons (.factor (some n)) ht) (hc.pushed [.pushLiteral n])
    | factorName =>
      obtain ⟨u, v, t, t', rfl, rfl, huv, ht, -⟩ := exists_token hs hm
      refine (read_related hc huv hfits).map ?_
      rintro value _ rfl
      exact .cons (.factor value) ht
  · have hm' : Stack.missing? production.handle s' ≠ none := by rwa [← missing?_eq hs]
    rw [reduce_of_missing hm, reduce_of_missing hm', Stack.missingError,
      Stack.missingError, missing?_eq hs]
    exact .failed (.internal _ rfl) hc

/-! ## Runs -/

/-- Two parses that have done corresponding things, the first after `n` more statements, and
have corresponding tokens before them. -/
structure Parses (k : Correspondence) (n : Nat) (p q : Parse) : Prop where
  inStep : p.InStep
  inStep' : q.InStep
  source_eq : p.lexer.source = k.first
  source_eq' : q.lexer.source = k.second
  row : List.Forall₂ k.Tokens p.row q.row
  stack : List.Forall₂ k.Symbols p.stack q.stack
  context : k.Contexts p.context q.context
  statements_eq : p.statements = n + q.statements
  tracks : ∃ c x, p.Tracks k.first c x

variable {n : Nat} {p q : Parse}

theorem Parses.lookahead (h : k.Parses n p q) : k.Tokens p.lookahead q.lookahead :=
  (List.forall₂_cons.1 h.row).1

/-- What is the same of two parses that have come to an end. -/
structure Ends (k : Correspondence) (n : Nat) (p q : Parse) : Prop where
  context : k.Contexts p.context q.context
  statements_eq : p.statements = n + q.statements

inductive Steps (k : Correspondence) (n : Nat) : Parse.Step → Parse.Step → Prop
  | next {p q : Parse} (h : k.Parses n p q) : Steps k n (.next p) (.next q)
  | accept : Steps k n .accept .accept
  | failed {f g : Failure} {p q : Parse} (hf : k.Failures f g) (h : k.Ends n p q) :
      Steps k n (.failed f p) (.failed g q)

theorem Parses.shifted (h : k.Parses n p q) (hk : p.lookahead.kind ≠ .eof)
    (htracks : ∃ c x, p.shifted.Tracks k.first c x) : k.Parses n p.shifted q.shifted where
  inStep := h.inStep.shifted hk
  inStep' := h.inStep'.shifted (k.kind_eq h.lookahead ▸ hk)
  source_eq := p.source_shifted.trans h.source_eq
  source_eq' := q.source_shifted.trans h.source_eq'
  row := by
    have hrow := h.row
    rw [h.inStep.row_shifted hk, h.inStep'.row_shifted (k.kind_eq h.lookahead ▸ hk)] at hrow
    exact (List.forall₂_cons.1 hrow).2
  stack := .cons (.token h.lookahead) h.stack
  context := h.context
  statements_eq := h.statements_eq
  tracks := htracks

theorem Parses.reduced (h : k.Parses n p q) {production : Production}
    (hmove : p.move = .reduce production) (hmove' : q.move = .reduce production)
    (htracks : ∀ p', p.step = .next p' → ∃ c x, p'.Tracks k.first c x) :
    k.Steps n p.step q.step := by
  obtain ⟨c, x, hp⟩ := h.tracks
  have hreduce := reduce_related h.stack h.context (hp.fits hmove)
  have hcount : (if production = .program then p.statements + 1 else p.statements) =
      n + if production = .program then q.statements + 1 else q.statements := by
    rw [h.statements_eq]
    split
    · exact Nat.add_assoc n q.statements 1
    · rfl
  simp only [Parse.step, hmove, hmove', Parse.reduced, h.source_eq, h.source_eq'] at htracks ⊢
  generalize Stack.reduce k.first p.context production p.stack = o at hreduce htracks ⊢
  generalize Stack.reduce k.second q.context production q.stack = o' at hreduce ⊢
  cases hreduce with
  | ok hstack hcontext =>
    exact .next ⟨h.inStep, h.inStep', h.source_eq, h.source_eq', h.row, hstack, hcontext, hcount,
      htracks _ rfl⟩
  | failed hf hcontext => exact .failed hf ⟨hcontext, h.statements_eq⟩

/-- The two make the same move. -/
theorem Parses.step (h : k.Parses n p q) : k.Steps n p.step q.step := by
  have htracks : ∀ p', p.step = .next p' → ∃ c x, p'.Tracks k.first c x := by
    intro p' hstep
    obtain ⟨c, x, hp⟩ := h.tracks
    obtain ⟨y, -, hy⟩ := hp.of_reaches (.head hstep (.refl p'))
    exact ⟨c, y, hy⟩
  have hmoves : Decisions p.move q.move := next_related h.stack (k.kind_eq h.lookahead)
  generalize hm : p.move = m at hmoves
  generalize hm' : q.move = m' at hmoves
  cases hmoves with
  | shift =>
    have hshift : p.step = .next p.shifted := by rw [Parse.step, hm]
    have hshift' : q.step = .next q.shifted := by rw [Parse.step, hm']
    rw [hshift, hshift']
    exact .next (h.shifted (Decision.kind_ne_eof_of_next_eq_shift hm) (htracks _ hshift))
  | reduce production => exact h.reduced hm hm' htracks
  | accept =>
    rw [Parse.step, Parse.step, hm, hm']
    exact .accept
  | reject a b =>
    simp only [Parse.step, hm, hm', h.source_eq, h.source_eq']
    exact .failed (.rejected h.lookahead (Decision.quotes_of_reject hm)
      (Decision.quotes_of_reject hm')) ⟨h.context, h.statements_eq⟩

theorem Parses.run (h : k.Parses n p q) :
    Outcome.Related (k.Ends n) (fun _ _ => True) k.Failures p.run q.run := by
  induction hfuel : p.fuel using Nat.strongRecOn generalizing p q with
  | _ fuel ih =>
    subst hfuel
    have hsteps := h.step
    generalize hs : p.step = s at hsteps
    generalize hs' : q.step = s' at hsteps
    cases hsteps with
    | @next p' q' hnext =>
      rw [Parse.run_of_next hs, Parse.run_of_next hs']
      exact ih p'.fuel (Parse.fuel_lt_of_step hs) hnext rfl
    | accept =>
      rw [Parse.run_of_accept hs, Parse.run_of_accept hs']
      exact .ok trivial ⟨h.context, h.statements_eq⟩
    | failed hf hends =>
      rw [Parse.run_of_failed hs, Parse.run_of_failed hs']
      exact .failed hf hends

/-- A parse that has come as far as another one starts ends like it. -/
theorem Parses.parse {l m : Lexer} {c d : Context} (h : k.Parses n p (Parse.start m d))
    (hp : (Parse.start l c).Reaches p) :
    Outcome.Related (fun s t => k.Contexts s.2 t.2) (fun a b => a = n + b) k.Failures
      (OnePass.parse l c) (OnePass.parse m d) := by
  have hrun := h.run
  rw [OnePass.parse, OnePass.parse, hp.run_eq]
  generalize p.run = o at hrun ⊢
  generalize (Parse.start m d).run = o' at hrun ⊢
  cases hrun with
  | ok _ hends => exact .ok hends.statements_eq hends.context
  | failed hf hends => exact .failed hf hends.context

end Correspondence

/-! ## Errors -/

namespace CompileError

/-- The errors are of one variant. -/
def Alike : CompileError → CompileError → Prop
  | malformed .., malformed .. => True
  | undefinedVariable .., undefinedVariable .. => True
  | divisionByZero .., divisionByZero .. => True
  | stackUnderflow .., stackUnderflow .. => True
  | unbalancedStatement .., unbalancedStatement .. => True
  | parseStack .., parseStack .. => True
  | _, _ => False

/-- The error is about the token: it refuses it, or it blames it for what is computed. -/
def Accuses (source : String) (t : Token) (e : CompileError) : Prop :=
  e.Refuses source t ∨ (Failure.error e).Blames source source t

end CompileError

/-- A failure that is marked at a token of the source, for which the token is to blame. -/
theorem Failure.Blames.exists_error {source : String} {t : Token}
    (ht : FoundAt source t.loc t.text.toList) {report : Marker → CompileError}
    (h : (marking source t.loc report).Blames source source t) :
    ∃ m, marking source t.loc report = .error (report m) ∧ (report m).Accuses source t := by
  obtain ⟨front, _, -, hm⟩ := ht.place?
  have hmarking : marking source t.loc report = .error (report ⟨source, front.length⟩) := by
    rw [marking, hm]
  rw [hmarking] at h
  exact ⟨_, hmarking, .inr h⟩

/-- Corresponding failures are errors of one variant, about tokens that correspond. -/
theorem Correspondence.Failures.exists_errors {k : Correspondence} {f g : Failure}
    (h : k.Failures f g) :
    ∃ e e', f = .error e ∧ g = .error e' ∧ e.Alike e' ∧ (e.isInternal = true ∨
      ∃ u v, k.Tokens u v ∧ e.Accuses k.first u ∧ e'.Accuses k.second v) := by
  cases h with
  | @rejected u v a b h ha hb =>
    obtain ⟨e, he, hrefuses⟩ := refuses_of_marking (k.found h) ha
    obtain ⟨e', he', hrefuses'⟩ := refuses_of_marking (k.found' h) hb
    refine ⟨e, e', he, he', ?_, .inr ⟨u, v, h, .inl hrefuses, .inl hrefuses'⟩⟩
    obtain ⟨_, _, _, rfl, -⟩ := hrefuses
    obtain ⟨_, _, _, rfl, -⟩ := hrefuses'
    trivial
  | @literal u v h hk hv =>
    obtain ⟨m, he, haccuses⟩ := Failure.Blames.exists_error (k.found h) (.literal hk hv)
    obtain ⟨m', he', haccuses'⟩ := Failure.Blames.exists_error (k.found' h)
      (.literal (k.kind_eq h ▸ hk) (k.value_eq h ▸ hv))
    exact ⟨_, _, he, he', trivial, .inr ⟨u, v, h, haccuses, haccuses'⟩⟩
  | @undefined u v h hk =>
    obtain ⟨m, he, haccuses⟩ := Failure.Blames.exists_error (k.found h) (.undefined hk)
    obtain ⟨m', he', haccuses'⟩ := Failure.Blames.exists_error (k.found' h)
      (.undefined (k.kind_eq h ▸ hk))
    exact ⟨_, _, he, he', trivial, .inr ⟨u, v, h, haccuses, haccuses'⟩⟩
  | @division u v h hk =>
    obtain ⟨m, he, haccuses⟩ := Failure.Blames.exists_error (k.found h) (.division hk)
    obtain ⟨m', he', haccuses'⟩ := Failure.Blames.exists_error (k.found' h)
      (.division (k.kind_eq h ▸ hk))
    exact ⟨_, _, he, he', trivial, .inr ⟨u, v, h, haccuses, haccuses'⟩⟩
  | internal e he => exact ⟨e, e, rfl, rfl, by cases e <;> trivial, .inl he⟩

end OnePass
