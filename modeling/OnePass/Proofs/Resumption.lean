import OnePass.Proofs.Layout

/-!
A lexer may be left at any point, taken up again, sent back and copied.

`Reader` keeps beside a lexer what its caller has got from it since it was last at the start
of its source.  Whatever the caller asks for and however often, what was got and what a drain
would still give make up the tokens and the skipped characters of the whole source: this is
`InCourse`, which every request keeps.  Callers that copy lexers hold a row of readers.  A
reader in the row is moved by the requests made of itself and by no other, so that draining a
copy does nothing to the reader it was copied from.
-/

namespace OnePass

/-! ## Draining without the record -/

namespace Lexer

/-- Taking away what was skipped so far changes no token to come, and what is skipped later
follows on what was taken. -/
theorem drain_takeSkipped (l : Lexer) :
    l.takeSkipped.2.drain.1 = l.drain.1 ∧
      l.takeSkipped.1 ++ l.takeSkipped.2.drain.2.skipped = l.drain.2.skipped := by
  cases hf : l.finished with
  | true =>
    have hf' : l.takeSkipped.2.finished = true := hf
    rw [drain_of_finished hf, drain_of_finished hf']
    exact ⟨rfl, List.append_nil _⟩
  | false =>
    -- both lexers stand before the same text, and it can be parted in one way only
    obtain ⟨ts, ss, htokens, hskipped, hparted⟩ := parted_drain hf
    obtain ⟨us, rs, htokens', hskipped', hparted'⟩ := parted_drain (l := l.takeSkipped.2) hf
    obtain ⟨rfl, rfl⟩ := hparted.unique hparted'
    rw [htokens, htokens', hskipped, hskipped']
    exact ⟨rfl, rfl⟩

theorem skipped_prefix_drain (l : Lexer) : l.skipped <+: l.drain.2.skipped :=
  ⟨l.takeSkipped.2.drain.2.skipped, l.drain_takeSkipped.2⟩

end Lexer

/-! ## One reader -/

/-- A lexer, with what its caller has got from it since it was last at the start: the answers
to the requests for a token, and the skipped characters taken away. -/
structure Reader where
  lexer : Lexer
  answers : List (Option Token)
  taken : List Skipped
  deriving DecidableEq, Repr

namespace Reader

/-- A reader of a lexer that is at the start. -/
def start (lexer : Lexer) : Reader :=
  { lexer, answers := [], taken := [] }

/-- The tokens among the answers. -/
def tokens (r : Reader) : List Token :=
  r.answers.filterMap id

inductive Request
  | next
  | reset
  /-- Look at the characters skipped so far. -/
  | skipped
  | takeSkipped
  deriving DecidableEq, Repr

def serve (r : Reader) : Request → Reader
  | .next =>
    match r.lexer.next? with
    | some (t, lexer) => { r with lexer, answers := r.answers ++ [some t] }
    | none => { r with answers := r.answers ++ [none] }
  | .reset => start r.lexer.reset
  | .skipped => r
  | .takeSkipped =>
    let (characters, lexer) := r.lexer.takeSkipped
    { r with lexer, taken := r.taken ++ characters }

def serveAll (r : Reader) (requests : List Request) : Reader :=
  requests.foldl serve r

theorem serve_next_of_finished {r : Reader} (h : r.lexer.finished = true) :
    r.serve .next = { r with answers := r.answers ++ [none] } := by
  rw [serve, Lexer.next?_of_finished h]

theorem serve_next_of_not_finished {r : Reader} (h : r.lexer.finished = false) :
    r.serve .next = { r with
      lexer := r.lexer.scanned
      answers := r.answers ++ [some (scan r.lexer.pos r.lexer.rest).token] } := by
  rw [serve, Lexer.next?_of_not_finished h]

/-- The reader got the first tokens of `source` and will get the others, and likewise for the
skipped characters.  It was told that there is nothing more only by a finished lexer. -/
structure InCourse (source : String) (r : Reader) : Prop where
  source_eq : r.lexer.source = source
  answers_eq : ∃ got n, r.answers = got.map some ++ List.replicate n none ∧
    got ++ r.lexer.drain.1 = (tokenize source).1 ∧ (n = 0 ∨ r.lexer.finished = true)
  skipped_eq : r.taken ++ r.lexer.drain.2.skipped = (tokenize source).2

namespace InCourse

variable {source : String} {r : Reader}

theorem new (source : String) : InCourse source (start (Lexer.new source)) where
  source_eq := rfl
  answers_eq := ⟨[], 0, rfl, rfl, .inl rfl⟩
  skipped_eq := rfl

theorem next (h : InCourse source r) : InCourse source (r.serve .next) := by
  obtain ⟨hsource, ⟨got, n, hanswers, htokens, hn⟩, hskipped⟩ := h
  cases hf : r.lexer.finished with
  | true =>
    rw [serve_next_of_finished hf]
    refine ⟨hsource, ⟨got, n + 1, ?_, htokens, .inr hf⟩, hskipped⟩
    rw [hanswers, List.append_assoc, List.replicate_succ']
  | false =>
    -- nothing but tokens has been given so far, and the next one follows them
    obtain rfl : n = 0 := hn.resolve_right (by simp [hf])
    rw [Lexer.drain_of_not_finished hf] at htokens hskipped
    rw [serve_next_of_not_finished hf]
    refine ⟨hsource, ⟨got ++ [(scan r.lexer.pos r.lexer.rest).token], 0, ?_, ?_, .inl rfl⟩,
      hskipped⟩
    · simp [hanswers]
    · rw [List.append_assoc]
      exact htokens

theorem takeSkipped (h : InCourse source r) : InCourse source (r.serve .takeSkipped) := by
  obtain ⟨hsource, ⟨got, n, hanswers, htokens, hn⟩, hskipped⟩ := h
  obtain ⟨hsame, hfollow⟩ := r.lexer.drain_takeSkipped
  refine ⟨hsource, ⟨got, n, hanswers, ?_, hn⟩, ?_⟩
  · rw [← hsame] at htokens
    exact htokens
  · rw [← hfollow, ← List.append_assoc] at hskipped
    exact hskipped

/-- Every request keeps a reader in course. -/
theorem serve (h : InCourse source r) (q : Request) : InCourse source (r.serve q) := by
  cases q with
  | next => exact h.next
  | reset =>
    rw [← h.source_eq]
    exact new r.lexer.source
  | skipped => exact h
  | takeSkipped => exact h.takeSkipped

end InCourse

/-- What a reader has got and what it can still get are the tokens and the skipped characters
of `source`. -/
structure Resumes (source : String) (r : Reader) : Prop where
  tokens_drain : r.tokens ++ r.lexer.drain.1 = (tokenize source).1
  taken_drain : r.taken ++ r.lexer.drain.2.skipped = (tokenize source).2
  /-- What the lexer holds now are the next of the skipped characters. -/
  taken_skipped : r.taken ++ r.lexer.skipped <+: (tokenize source).2
  /-- The token that ends the source is given once, and nothing is given after it. -/
  ends_once : ∃ ts last n, (tokenize source).1 = ts ++ [last] ∧ last.kind = .eof ∧
    (∀ t ∈ ts, t.kind ≠ .eof) ∧
    r.answers <+: ts.map some ++ some last :: List.replicate n none

theorem InCourse.resumes {source : String} {r : Reader} (h : InCourse source r) :
    Resumes source r := by
  obtain ⟨-, ⟨got, n, hanswers, htokens, hn⟩, hskipped⟩ := h
  constructor
  case tokens_drain =>
    have hgot : r.tokens = got := by
      simp [tokens, hanswers, List.filterMap_append]
    rw [hgot, htokens]
  case taken_drain => exact hskipped
  case taken_skipped =>
    rw [← hskipped]
    exact (List.prefix_append_right_inj _).2 r.lexer.skipped_prefix_drain
  case ends_once =>
    obtain ⟨ts, hts, hparted⟩ := tokenize_eq_parted source
    refine ⟨ts, _, n, hts, rfl, hparted.kind_ne_eof, ?_⟩
    have hrow : ts.map some ++ some (Token.endOfSource source.utf8ByteSize) ::
        List.replicate n none = (got ++ r.lexer.drain.1).map some ++ List.replicate n none := by
      rw [htokens, hts]
      simp
    rw [hrow, hanswers, List.map_append, List.append_assoc]
    rcases hn with rfl | hf
    · exact (List.prefix_append_right_inj _).2 List.nil_prefix
    · rw [Lexer.drain_of_finished hf]
      exact List.prefix_rfl

end Reader

/-! ## Readers in a row -/

/-- What is done with a row of readers. -/
inductive Turn
  | ask (i : Nat) (q : Reader.Request)
  /-- Put a copy of a reader at the end of the row. -/
  | copy (i : Nat)
  deriving DecidableEq, Repr

namespace Turn

def play (rs : List Reader) : Turn → List Reader
  | .ask i q => rs.modify i (·.serve q)
  | .copy i => rs ++ rs[i]?.toList

def playAll (rs : List Reader) (turns : List Turn) : List Reader :=
  turns.foldl play rs

/-- The readers that come of a single one at the start of `source`. -/
def readers (source : String) (turns : List Turn) : List Reader :=
  playAll [Reader.start (Lexer.new source)] turns

/-- What a turn asks of reader `i`. -/
def asked? (i : Nat) : Turn → Option Reader.Request
  | .ask j q => if j = i then some q else none
  | .copy _ => none

theorem inCourse_play {source : String} {rs : List Reader}
    (h : ∀ r ∈ rs, r.InCourse source) (turn : Turn) : ∀ r ∈ play rs turn, r.InCourse source := by
  intro r hr
  cases turn with
  | ask i q =>
    obtain ⟨j, hj⟩ := List.mem_iff_getElem?.1 hr
    rw [play, List.getElem?_modify] at hj
    obtain ⟨r', hr', rfl⟩ := Option.map_eq_some_iff.1 hj
    have hcourse := h r' (List.mem_of_getElem? hr')
    split
    · exact hcourse.serve q
    · exact hcourse
  | copy i =>
    rcases List.mem_append.1 hr with hr | hr
    · exact h r hr
    · exact h r (List.mem_of_getElem? (Option.mem_toList.1 hr))

theorem inCourse_playAll {source : String} (turns : List Turn) {rs : List Reader}
    (h : ∀ r ∈ rs, r.InCourse source) : ∀ r ∈ playAll rs turns, r.InCourse source := by
  induction turns generalizing rs with
  | nil => exact h
  | cons turn turns ih => exact ih (inCourse_play h turn)

/-- One turn serves the reader it asks and leaves every other one as it is. -/
theorem getElem?_play {rs : List Reader} {i : Nat} {r : Reader} (h : rs[i]? = some r)
    (turn : Turn) : (play rs turn)[i]? = some (r.serveAll (turn.asked? i).toList) := by
  cases turn with
  | ask j q =>
    rw [play, List.getElem?_modify, h, asked?]
    split <;> rfl
  | copy j =>
    rw [play, List.getElem?_append_left (List.getElem?_eq_some_iff.1 h).1, h]
    rfl

theorem getElem?_playAll (turns : List Turn) {rs : List Reader} {i : Nat} {r : Reader}
    (h : rs[i]? = some r) :
    (playAll rs turns)[i]? = some (r.serveAll (turns.filterMap (asked? i))) := by
  induction turns generalizing rs r with
  | nil => exact h
  | cons turn turns ih =>
    rw [List.filterMap_cons]
    have hlater := ih (getElem?_play h turn)
    cases hq : turn.asked? i with
    | none => rwa [hq] at hlater
    | some q => rwa [hq] at hlater

end Turn

/-- Whatever is done with a lexer and its copies, in any order: each reader of the row goes
through the source as one that was never interrupted, a copy is the reader it was made of, and
what a reader becomes later depends on what is asked of itself only. -/
theorem readers_resume (source : String) (turns : List Turn)
    (i : Fin (Turn.readers source turns).length) :
    ((Turn.readers source turns).get i).Resumes source ∧
      Turn.play (Turn.readers source turns) (.copy i) =
        Turn.readers source turns ++ [(Turn.readers source turns).get i] ∧
      ∀ later, (Turn.playAll (Turn.readers source turns) later)[i.val]? =
        some (((Turn.readers source turns).get i).serveAll (later.filterMap (Turn.asked? i))) := by
  have hcourse : ∀ r ∈ Turn.readers source turns, r.InCourse source :=
    Turn.inCourse_playAll turns (by simpa using Reader.InCourse.new source)
  have hget : (Turn.readers source turns)[i.val]? = some ((Turn.readers source turns).get i) :=
    List.getElem?_eq_getElem i.isLt
  refine ⟨(hcourse _ (List.get_mem _ i)).resumes, ?_, fun later => Turn.getElem?_playAll later hget⟩
  rw [Turn.play, hget]
  rfl

end OnePass
