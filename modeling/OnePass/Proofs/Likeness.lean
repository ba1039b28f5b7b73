import Mathlib.Data.List.Forall2
import OnePass.Grammar

/-!
Trees of one shape.

What tree some tokens have is a matter of their kinds alone.  So tokens that correspond, kind
by kind, to those of a tree are the tokens of a tree of the same shape, and what the two write
differs in its literals and names only.
-/

namespace OnePass

section

variable (N : String → String → Prop)

/-- The expressions differ in their literals and, as `N` has it, in their names. -/
inductive Expr.Like : Expr → Expr → Prop
  | literal (m n : Int64) : Like (.literal m) (.literal n)
  | read {x y : String} (h : N x y) : Like (.read x) (.read y)
  | binary (op : BinaryOp) {a b c d : Expr} (hl : Like a c) (hr : Like b d) :
      Like (.binary op a b) (.binary op c d)

inductive Statement.Like : Statement → Statement → Prop
  | assign {x y : String} {e f : Expr} (h : N x y) (he : e.Like N f) :
      Like (.assign x e) (.assign y f)
  | discard {e f : Expr} (he : e.Like N f) : Like (.discard e) (.discard f)
  | empty : Like .empty .empty

end

/-! ## Trees over corresponding tokens -/

theorem exists_append_of_forall₂ {α β : Type} {R : α → β → Prop} {a b : List α} {ts : List β}
    (h : List.Forall₂ R (a ++ b) ts) :
    ∃ as bs, ts = as ++ bs ∧ List.Forall₂ R a as ∧ List.Forall₂ R b bs := by
  induction a generalizing ts with
  | nil => exact ⟨[], ts, rfl, .nil, h⟩
  | cons x a ih =>
    obtain ⟨y, us, hxy, hus, rfl⟩ := List.forall₂_cons_left_iff.1 h
    obtain ⟨as, bs, rfl, ha, hb⟩ := ih hus
    exact ⟨y :: as, bs, rfl, .cons hxy ha, hb⟩

theorem exists_eq_singleton_of_forall₂ {α β : Type} {R : α → β → Prop} {a : α} {ts : List β}
    (h : List.Forall₂ R [a] ts) : ∃ b, ts = [b] ∧ R a b := by
  obtain ⟨b, us, hab, hus, rfl⟩ := List.forall₂_cons_left_iff.1 h
  obtain rfl := List.forall₂_nil_left_iff.1 hus
  exact ⟨b, rfl, hab⟩

section

variable {N : String → String → Prop} {T : Token → Token → Prop}

/-- Trees with corresponding tokens, whatever numbers stand in them. -/
def Phrase.Like (N : String → String → Prop) {l : Level} (p q : Phrase l) : Prop :=
  ∀ e f, p.expr? = some e → q.expr? = some f → e.Like N f

theorem Expr.exists_operands {op : BinaryOp} {a b : Option Expr} {e : Expr}
    (h : (do return Expr.binary op (← a) (← b)) = some e) :
    ∃ x y, a = some x ∧ b = some y ∧ e = .binary op x y := by
  simp only [Option.bind_eq_bind, Option.bind_eq_some_iff, Option.pure_def,
    Option.some.injEq] at h
  obtain ⟨x, hx, y, hy, rfl⟩ := h
  exact ⟨x, y, hx, hy, rfl⟩

theorem Phrase.Like.binary {l m : Level} {a c : Phrase l} {b d : Phrase m} (op : BinaryOp)
    (hl : a.Like N c) (hr : b.Like N d) {e f : Expr}
    (he : (do return Expr.binary op (← a.expr?) (← b.expr?)) = some e)
    (hf : (do return Expr.binary op (← c.expr?) (← d.expr?)) = some f) : e.Like N f := by
  obtain ⟨x, y, hx, hy, rfl⟩ := Expr.exists_operands he
  obtain ⟨z, w, hz, hw, rfl⟩ := Expr.exists_operands hf
  exact .binary op (hl x z hx hz) (hr y w hy hw)

variable (hkind : ∀ {u v}, T u v → v.kind = u.kind)
  (hname : ∀ {u v}, T u v → u.kind = .name → N u.text v.text)

include hkind hname

theorem Phrase.exists_like {l : Level} (p : Phrase l) {ts : List Token}
    (h : List.Forall₂ T p.yield ts) : ∃ q : Phrase l, q.yield = ts ∧ p.Like N q := by
  induction p generalizing ts with
  | number t ht =>
    obtain ⟨u, rfl, hu⟩ := exists_eq_singleton_of_forall₂ h
    refine ⟨.number u ((hkind hu).trans ht), rfl, ?_⟩
    intro e f he hf
    obtain ⟨m, -, rfl⟩ := Option.map_eq_some_iff.1 he
    obtain ⟨n, -, rfl⟩ := Option.map_eq_some_iff.1 hf
    exact .literal m n
  | name t ht =>
    obtain ⟨u, rfl, hu⟩ := exists_eq_singleton_of_forall₂ h
    refine ⟨.name u ((hkind hu).trans ht), rfl, ?_⟩
    intro e f he hf
    obtain rfl := Option.some.inj he
    obtain rfl := Option.some.inj hf
    exact .read (hname hu ht)
  | group left hl inner right hr ih =>
    obtain ⟨a, _, ha, hrest, rfl⟩ := List.forall₂_cons_left_iff.1 h
    obtain ⟨bs, _, rfl, hb, hlast⟩ := exists_append_of_forall₂ hrest
    obtain ⟨c, rfl, hc⟩ := exists_eq_singleton_of_forall₂ hlast
    obtain ⟨q, rfl, hq⟩ := ih hb
    exact ⟨.group a ((hkind ha).trans hl) q c ((hkind hc).trans hr), rfl, hq⟩
  | ofFactor f ih =>
    obtain ⟨q, rfl, hq⟩ := ih h
    exact ⟨.ofFactor q, rfl, hq⟩
  | product lhs sign op hs hop rhs ihl ihr =>
    obtain ⟨as, _, rfl, ha, hrest⟩ := exists_append_of_forall₂ h
    obtain ⟨b, cs, hb, hc, rfl⟩ := List.forall₂_cons_left_iff.1 hrest
    obtain ⟨q, rfl, hq⟩ := ihl ha
    obtain ⟨r, rfl, hr⟩ := ihr hc
    exact ⟨.product q b op ((hkind hb).trans hs) hop r, rfl, fun _ _ => hq.binary op hr⟩
  | ofTerm t ih =>
    obtain ⟨q, rfl, hq⟩ := ih h
    exact ⟨.ofTerm q, rfl, hq⟩
  | sum lhs sign op hs hop rhs ihl ihr =>
    obtain ⟨as, _, rfl, ha, hrest⟩ := exists_append_of_forall₂ h
    obtain ⟨b, cs, hb, hc, rfl⟩ := List.forall₂_cons_left_iff.1 hrest
    obtain ⟨q, rfl, hq⟩ := ihl ha
    obtain ⟨r, rfl, hr⟩ := ihr hc
    exact ⟨.sum q b op ((hkind hb).trans hs) hop r, rfl, fun _ _ => hq.binary op hr⟩

theorem Sentence.exists_like (s : Sentence) {ts : List Token}
    (h : List.Forall₂ T s.yield ts) :
    ∃ r : Sentence, r.yield = ts ∧
      ∀ a b, s.statement? = some a → r.statement? = some b → a.Like N b := by
  cases s with
  | assign target ht sign hs e semicolon hk =>
    obtain ⟨a, _, ha, hrest, rfl⟩ := List.forall₂_cons_left_iff.1 h
    obtain ⟨b, _, hb, hright, rfl⟩ := List.forall₂_cons_left_iff.1 hrest
    obtain ⟨cs, _, rfl, hc, hlast⟩ := exists_append_of_forall₂ hright
    obtain ⟨d, rfl, hd⟩ := exists_eq_singleton_of_forall₂ hlast
    obtain ⟨q, rfl, hq⟩ := e.exists_like hkind hname hc
    refine ⟨.assign a ((hkind ha).trans ht) b ((hkind hb).trans hs) q d ((hkind hd).trans hk),
      rfl, ?_⟩
    intro x y hx hy
    obtain ⟨e, he, rfl⟩ := Option.map_eq_some_iff.1 hx
    obtain ⟨f, hf, rfl⟩ := Option.map_eq_some_iff.1 hy
    exact .assign (hname ha ht) (hq e f he hf)
  | expression e semicolon hk =>
    obtain ⟨cs, _, rfl, hc, hlast⟩ := exists_append_of_forall₂ h
    obtain ⟨d, rfl, hd⟩ := exists_eq_singleton_of_forall₂ hlast
    obtain ⟨q, rfl, hq⟩ := e.exists_like hkind hname hc
    refine ⟨.expression q d ((hkind hd).trans hk), rfl, ?_⟩
    intro x y hx hy
    obtain ⟨e, he, rfl⟩ := Option.map_eq_some_iff.1 hx
    obtain ⟨f, hf, rfl⟩ := Option.map_eq_some_iff.1 hy
    exact .discard (hq e f he hf)
  | empty semicolon hk =>
    obtain ⟨d, rfl, hd⟩ := exists_eq_singleton_of_forall₂ h
    refine ⟨.empty d ((hkind hd).trans hk), rfl, ?_⟩
    intro x y hx hy
    obtain rfl := Option.some.inj hx
    obtain rfl := Option.some.inj hy
    exact .empty

end

theorem sentencesProgram?_cons_eq_some_iff {s : Sentence} {ss : List Sentence} {p : Program} :
    sentencesProgram? (s :: ss) = some p ↔
      ∃ st q, s.statement? = some st ∧ sentencesProgram? ss = some q ∧ p = st :: q := by
  simp only [sentencesProgram?, List.mapM_cons]
  cases s.statement? with
  | none => simp
  | some st => cases List.mapM Sentence.statement? ss <;> simp [eq_comm]

section

variable {N : String → String → Prop} {T : Token → Token → Prop}
  (hkind : ∀ {u v}, T u v → v.kind = u.kind)
  (hname : ∀ {u v}, T u v → u.kind = .name → N u.text v.text)

include hkind hname

theorem exists_sentences_like (ss : List Sentence) {ts : List Token}
    (h : List.Forall₂ T (sentencesYield ss) ts) :
    ∃ rs, sentencesYield rs = ts ∧ ∀ p q, sentencesProgram? ss = some p →
      sentencesProgram? rs = some q → List.Forall₂ (Statement.Like N) p q := by
  induction ss generalizing ts with
  | nil =>
    obtain rfl := List.forall₂_nil_left_iff.1 h
    refine ⟨[], rfl, ?_⟩
    intro p q hp hq
    obtain rfl := Option.some.inj hp
    obtain rfl := Option.some.inj hq
    exact .nil
  | cons s rest ih =>
    rw [sentencesYield, List.flatMap_cons] at h
    obtain ⟨as, bs, rfl, ha, hb⟩ := exists_append_of_forall₂ h
    obtain ⟨r, rfl, hr⟩ := s.exists_like hkind hname ha
    obtain ⟨rs, rfl, hrs⟩ := ih hb
    refine ⟨r :: rs, rfl, ?_⟩
    intro p q hp hq
    obtain ⟨a, p, ha, hp', rfl⟩ := sentencesProgram?_cons_eq_some_iff.1 hp
    obtain ⟨b, q, hb, hq', rfl⟩ := sentencesProgram?_cons_eq_some_iff.1 hq
    exact .cons (hr a b ha hb) (hrs p q hp' hq')

end
end OnePass
