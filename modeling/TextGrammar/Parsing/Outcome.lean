import TextGrammar.Parsing.Parser
set_option autoImplicit false

namespace TextGrammar.Parsing.Parser

variable {α β : Type}

theorem outcome_after (r : Reading α) (f : Furthest) : (r.after f).outcome = r.outcome := rfl

theorem outcome_bind (p : Parser α) (f : α → Parser β) (c : Cursor) :
    ((p >>= f) c).outcome = (p c).outcome.bind fun r => (f r.1 r.2).outcome := by
  change (Parser.bind p f c).outcome = _
  unfold Parser.bind
  cases h : (p c).outcome with
  | none => simp [h]
  | some r => simp [h, outcome_after]

theorem outcome_orElse (p q : Parser α) (c : Cursor) :
    ((p <|> q) c).outcome = (p c).outcome.or (q c).outcome := by
  change (Parser.orElse p (fun _ => q) c).outcome = _
  unfold Parser.orElse
  cases h : (p c).outcome with
  | none => simp [h, outcome_after]
  | some r => simp [h]

theorem outcome_require (what : String) (o : Option α) (c : Cursor) :
    (require what o c).outcome = o.map fun a => (a, c) := by
  cases o <;> rfl

theorem outcome_notHere (p : Parser α) (c : Cursor) :
    (notHere p c).outcome = if (p c).outcome.isSome then none else some ((), c) := by
  unfold notHere
  cases (p c).outcome <;> rfl

theorem outcome_optional (p : Parser α) (c : Cursor) :
    (optional p c).outcome = some ((p c).outcome.elim (none, c) fun r => (some r.1, r.2)) := by
  rw [optional, outcome_orElse, outcome_bind]
  cases (p c).outcome <;> rfl

theorem outcome_char (label : String) (ok : Char → Bool) (a : Char) (rest : List Char) (pos : Nat) :
    (char label ok ⟨a :: rest, pos⟩).outcome = if ok a then some (a, ⟨rest, pos + a.utf8Size⟩) else none := by
  simp only [char]
  split <;> rfl

theorem outcome_chars (label : String) (ok : Char → Bool) (c : Cursor) :
    (chars label ok c).outcome =
      some (c.rest.takeWhile ok, ⟨c.rest.dropWhile ok, c.pos + byteLength (c.rest.takeWhile ok)⟩) := rfl

theorem outcome_word (w : String) (c : Cursor) :
    (word w c).outcome = (stripPrefix? w.toList c.rest).map fun rest => ((), ⟨rest, c.pos + w.utf8ByteSize⟩) := by
  unfold word
  split
  · rename_i h
    rw [h]
    rfl
  · rename_i h
    rw [h]
    rfl

theorem stripPrefix?_eq_some_iff {w cs rest : List Char} : stripPrefix? w cs = some rest ↔ cs = w ++ rest := by
  induction w generalizing cs with
  | nil => simp [stripPrefix?, eq_comm]
  | cons a w ih =>
    cases cs with
    | nil => simp [stripPrefix?]
    | cons c cs =>
      rw [stripPrefix?]
      split
      · rename_i h
        rw [ih, h, List.cons_append, List.cons.injEq]
        exact ⟨fun e => ⟨rfl, e⟩, And.right⟩
      · rename_i h
        simp only [List.cons_append, List.cons.injEq, reduceCtorEq, false_iff]
        exact fun e => h e.1.symm

def repeated (p : Parser α) : Nat → Cursor → List α × Cursor
  | 0, c => ([], c)
  | fuel + 1, c => match (p c).outcome with
    | none => ([], c)
    | some (a, c') => let r := repeated p fuel c'; (a :: r.1, r.2)

theorem outcome_manyLoop (p : Parser α) (fuel : Nat) (done : List α) (seen : Furthest) (c : Cursor) :
    (manyLoop p fuel done seen c).outcome =
      some (done.reverse ++ (repeated p fuel c).1, (repeated p fuel c).2) := by
  induction fuel generalizing done seen c with
  | zero => simp [manyLoop, repeated]
  | succ fuel ih =>
    rw [manyLoop, repeated]
    cases h : (p c).outcome with
    | none => simp
    | some r => simp [ih]

theorem outcome_many (p : Parser α) (c : Cursor) :
    (many p c).outcome = some (repeated p (c.rest.length + 1) c) := by
  rw [many, outcome_manyLoop]
  rfl

end TextGrammar.Parsing.Parser
