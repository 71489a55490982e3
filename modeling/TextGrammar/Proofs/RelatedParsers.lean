import Mathlib.Logic.Relator
import TextGrammar.Proofs.ParserProgress
set_option autoImplicit false

/-!
# Parsers on related texts

Two parsers read alike when on texts that stand in one relation both fail, or both read values that look the same and leave
texts that stand in another. What looks the same is said by a function, so that offsets in the values can be passed over.
Parsers that are built alike from parsers that read alike do so as well.
-/
namespace TextGrammar.Parsing.Parser

variable {α β γ δ : Type} {f : α → γ} {g : β → δ} {p q p' q' : Parser α} {k l : α → Parser β}
  {R R' S S' T : List Char → List Char → Prop}

def Alike (f : α → γ) (R S : List Char → List Char → Prop) (p q : Parser α) : Prop :=
  ∀ c d, R c.rest d.rest →
    Option.Rel (fun x y => f x.1 = f y.1 ∧ S x.2.rest y.2.rest) (p c).outcome (q d).outcome

theorem Alike.weaken (h : Alike f R S p q) (hR : ∀ u v, R' u v → R u v) (hS : ∀ u v, S u v → S' u v) :
    Alike f R' S' p q := by
  intro c d r
  have both := h c d (hR _ _ r)
  generalize (p c).outcome = x, (q d).outcome = y at both ⊢
  cases both with
  | none => exact .none
  | some same => exact .some ⟨same.1, hS _ _ same.2⟩

theorem Alike.coarsen {h : α → δ} (both : Alike f R S p q) (same : ∀ a b, f a = f b → h a = h b) : Alike h R S p q := by
  intro c d r
  have alike := both c d r
  generalize (p c).outcome = x, (q d).outcome = y at alike ⊢
  cases alike with
  | none => exact .none
  | some found => exact .some ⟨same _ _ found.1, found.2⟩

theorem Alike.either (h : Alike f R S p q) (h' : Alike f R' S p q) : Alike f (fun u v => R u v ∨ R' u v) S p q :=
  fun c d r => r.elim (h c d) (h' c d)

theorem alike_pure {a b : α} (h : f a = f b) : Alike f R R (pure a) (pure b) := fun _ _ r => .some ⟨h, r⟩

theorem alike_position : Alike (fun _ => ()) R R position position := fun _ _ r => .some ⟨rfl, r⟩

theorem alike_fail : Alike f R S fail fail := fun _ _ _ => .none

theorem alike_expected (what : String) : Alike f R S (expected what) (expected what) := fun _ _ _ => .none

theorem alike_require (what : String) (o : Option α) : Alike f R R (require what o) (require what o) := by
  cases o with
  | none => exact alike_expected what
  | some a => exact alike_pure rfl

theorem Alike.quiet (h : Alike f R S p q) : Alike f R S (quiet p) (quiet q) := h

theorem Alike.bind (h : Alike f R S p q) (next : ∀ a b, f a = f b → Alike g S T (k a) (l b)) :
    Alike g R T (p >>= k) (q >>= l) := by
  intro c d r
  have both := h c d r
  rw [outcome_bind, outcome_bind]
  generalize (p c).outcome = x, (q d).outcome = y at both ⊢
  cases both with
  | none => exact .none
  | some same => exact next _ _ same.1 _ _ same.2

theorem Alike.orElse (h : Alike f R S p q) (h' : Alike f R S p' q') : Alike f R S (p <|> p') (q <|> q') := by
  intro c d r
  have both := h c d r
  rw [outcome_orElse, outcome_orElse]
  generalize (p c).outcome = x, (q d).outcome = y at both ⊢
  cases both with
  | none =>
    rw [Option.none_or, Option.none_or]
    exact h' c d r
  | some same => exact .some same

theorem Alike.notHere (h : Alike f R S p q) : Alike id R R (notHere p) (notHere q) := by
  intro c d r
  have both := h c d r
  rw [outcome_notHere, outcome_notHere]
  generalize (p c).outcome = x, (q d).outcome = y at both ⊢
  cases both with
  | none => exact .some ⟨rfl, r⟩
  | some same => exact .none

/-- What stands behind an attempt starts in one relation if the attempt succeeded, and in another if it did not. -/
theorem Alike.optional_bind {k l : Option α → Parser β} (h : Alike f R S p q)
    (found : ∀ a b, f a = f b → Alike g S T (k (some a)) (l (some b))) (missing : Alike g R T (k none) (l none)) :
    Alike g R T (optional p >>= k) (optional q >>= l) := by
  intro c d r
  have both := h c d r
  rw [outcome_bind, outcome_bind, outcome_optional, outcome_optional]
  generalize (p c).outcome = x, (q d).outcome = y at both ⊢
  cases both with
  | none => exact missing c d r
  | some same => exact found _ _ same.1 _ _ same.2

theorem Alike.optional {p q : Parser α} (h : Alike id R S p q) (missing : ∀ u v, R u v → T u v)
    (found : ∀ u v, S u v → T u v) : Alike id R T (Parser.optional p) (Parser.optional q) := by
  refine Alike.orElse ?_ ((alike_pure rfl).weaken (fun _ _ r => r) missing)
  exact (h.weaken (fun _ _ r => r) found).bind fun | _, _, rfl => alike_pure rfl

theorem Alike.run (h : Alike f R S p q) (ends : ∀ u v, S u v → (u = [] ↔ v = [])) {u v : List Char} (r : R u v) :
    (∃ s t, p.run u = .error s ∧ q.run v = .error t) ∨ ∃ a b, p.run u = .ok a ∧ q.run v = .ok b ∧ f a = f b := by
  have whole : Alike f R (fun _ _ => True) (do let a ← p; finish; return a) (do let a ← q; finish; return a) := by
    refine h.bind fun a b same => Alike.bind (f := id) (S := fun _ _ => True) (fun c d s => ?_) fun _ _ _ => alike_pure same
    have ends' := ends _ _ s
    obtain ⟨u, i⟩ := c
    obtain ⟨v, j⟩ := d
    match u, v with
    | [], [] => exact .some ⟨rfl, trivial⟩
    | _ :: _, _ :: _ => exact .none
    | [], _ :: _ => exact absurd (ends'.1 rfl) (List.cons_ne_nil _ _)
    | _ :: _, [] => exact absurd (ends'.2 rfl) (List.cons_ne_nil _ _)
  have both := whole ⟨u, 0⟩ ⟨v, 0⟩ r
  unfold Parser.run
  generalize (do let a ← p; finish; return a : Parser α) ⟨u, 0⟩ = x,
    (do let a ← q; finish; return a : Parser α) ⟨v, 0⟩ = y at both ⊢
  obtain ⟨x, s⟩ := x
  obtain ⟨y, t⟩ := y
  cases both with
  | none => exact .inl ⟨s, t, rfl, rfl⟩
  | some same => exact .inr ⟨_, _, rfl, rfl, same.1⟩

def Agree (S : List Char → List Char → Prop) (p q : Parser α) (u v : List Char) : Prop :=
  ∃ a u' v', Takes p u u' (· = a) ∧ Takes q v v' (· = a) ∧ S u' v'

theorem alike_of_agree (h : ∀ u v, R u v → Refuses p u ∧ Refuses q v ∨ Agree S p q u v) : Alike f R S p q := by
  intro c d r
  rcases h c.rest d.rest r with ⟨left, right⟩ | ⟨a, u, v, left, right, s⟩
  · have refused : (p c).outcome = none ∧ (q d).outcome = none := ⟨left c.pos, right d.pos⟩
    rw [refused.1, refused.2]
    exact .none
  · obtain ⟨_, i, taken, rfl⟩ := left c.pos
    obtain ⟨_, j, taken', rfl⟩ := right d.pos
    have both : (p c).outcome = some (_, ⟨u, i⟩) ∧ (q d).outcome = some (_, ⟨v, j⟩) := ⟨taken, taken'⟩
    rw [both.1, both.2]
    exact .some ⟨rfl, s⟩

section

variable {r : α → β → Prop} {a : α} {b : β} {x : Option α} {y : Option β}

theorem rel_none_left (h : Option.Rel r none y) : y = none := by
  cases h
  rfl

theorem rel_none_right (h : Option.Rel r x none) : x = none := by
  cases h
  rfl

theorem rel_some_left (h : Option.Rel r (some a) y) : ∃ b, y = some b ∧ r a b := by
  cases h with
  | some related => exact ⟨_, rfl, related⟩

theorem rel_some_right (h : Option.Rel r x (some b)) : ∃ a, x = some a ∧ r a b := by
  cases h with
  | some related => exact ⟨_, rfl, related⟩

end

/-- Where each of two texts left tells the other, what is read does not depend on the offsets. -/
theorem Alike.agree {u v : List Char} (h : Alike id R S p q) (unique : Relator.BiUnique S) (r : R u v) :
    Refuses p u ∧ Refuses q v ∨ Agree S p q u v := by
  have both (i j : Nat) := h ⟨u, i⟩ ⟨v, j⟩ r
  cases start : (p ⟨u, 0⟩).outcome with
  | none =>
    have right (j : Nat) : (q ⟨v, j⟩).outcome = none := rel_none_left (start ▸ both 0 j)
    exact .inl ⟨fun i => rel_none_right (right 0 ▸ both i 0), right⟩
  | some x =>
    obtain ⟨a, u', i⟩ := x
    obtain ⟨⟨b, v', j⟩, first, value, s⟩ := rel_some_left (start ▸ both 0 0)
    refine .inr ⟨a, u', v', fun i => ?_, fun j => ?_, s⟩
    · obtain ⟨⟨c, u'', i⟩, same, value', s'⟩ := rel_some_right (first ▸ both i 0)
      have rest : u'' = u' := unique.1 s' s
      exact ⟨c, i, by rw [same, rest], value'.trans value.symm⟩
    · obtain ⟨⟨c, v'', j⟩, same, value', s'⟩ := rel_some_left (start ▸ both 0 j)
      have rest : v'' = v' := unique.2 s' s
      exact ⟨c, j, by rw [same, rest], value'.symm⟩

/-- A relation of texts with bounds for what is left to read. Nothing is below zero, and no text has to be shorter than its
bound says. -/
structure Graded (B : Nat → List Char → List Char → Prop) : Prop where
  none (u v : List Char) : ¬ B 0 u v
  succ {n : Nat} {u v : List Char} : B n u v → B (n + 1) u v
  fits {n : Nat} {u v : List Char} : B n u v → ∃ m ≤ n, m ≤ u.length + 1 ∧ m ≤ v.length + 1 ∧ B m u v

variable {B : Nat → List Char → List Char → Prop} {m n N : Nat}

theorem Graded.mono (graded : Graded B) {u v : List Char} (h : m ≤ n) (b : B m u v) : B n u v := by
  induction h with
  | refl => exact b
  | step _ ih => exact graded.succ ih

def Level (B : Nat → List Char → List Char → Prop) (N : Nat) (f : α → γ) (p q : Parser α) : Prop :=
  ∀ n ≤ N, Alike f (B n) (B n) p q

/-- Up to a bound, whatever the two read, they read something. -/
def Descends (B : Nat → List Char → List Char → Prop) (N : Nat) (f : α → γ) (p q : Parser α) : Prop :=
  ∀ n < N, Alike f (B (n + 1)) (B n) p q

theorem Level.mono (h : Level B N f p q) (less : m ≤ N) : Level B m f p q := fun n hn => h n (Nat.le_trans hn less)

theorem Descends.level (graded : Graded B) (h : Descends B N f p q) : Level B N f p q := by
  intro n hn
  cases n with
  | zero => exact fun _ _ b => absurd b (graded.none _ _)
  | succ n => exact (h n hn).weaken (fun _ _ b => b) fun _ _ b => graded.succ b

theorem level_pure {a b : α} (h : f a = f b) : Level B N f (pure a) (pure b) := fun _ _ => alike_pure h

theorem level_position : Level B N (fun _ => ()) position position := fun _ _ => alike_position

theorem level_require (what : String) (o : Option α) : Level B N f (require what o) (require what o) :=
  fun _ _ => alike_require what o

theorem descends_fail : Descends B N f fail fail := fun _ _ => alike_fail

theorem Level.bind (h : Level B N f p q) (next : ∀ a b, f a = f b → Level B N g (k a) (l b)) :
    Level B N g (p >>= k) (q >>= l) :=
  fun n hn => (h n hn).bind fun a b same => next a b same n hn

theorem Level.bind_descends (h : Level B N f p q) (next : ∀ a b, f a = f b → Descends B N g (k a) (l b)) :
    Descends B N g (p >>= k) (q >>= l) :=
  fun n hn => (h (n + 1) hn).bind fun a b same => next a b same n hn

/-- Behind what reads something, the bound has become less. -/
theorem Descends.bind (h : Descends B (N + 1) f p q) (next : ∀ a b, f a = f b → Level B N g (k a) (l b)) :
    Descends B (N + 1) g (p >>= k) (q >>= l) :=
  fun n hn => (h n hn).bind fun a b same => next a b same n (Nat.le_of_lt_succ hn)

theorem Descends.bind_level (h : Descends B N f p q) (next : ∀ a b, f a = f b → Level B N g (k a) (l b)) :
    Descends B N g (p >>= k) (q >>= l) :=
  fun n hn => (h n hn).bind fun a b same => next a b same n (Nat.le_of_lt hn)

theorem Level.orElse (h : Level B N f p q) (h' : Level B N f p' q') : Level B N f (p <|> p') (q <|> q') :=
  fun n hn => (h n hn).orElse (h' n hn)

theorem Descends.orElse (h : Descends B N f p q) (h' : Descends B N f p' q') :
    Descends B N f (p <|> p') (q <|> q') :=
  fun n hn => (h n hn).orElse (h' n hn)

theorem Level.optional {p q : Parser α} (h : Level B N id p q) :
    Level B N id (Parser.optional p) (Parser.optional q) :=
  fun n hn => (h n hn).optional (fun _ _ b => b) fun _ _ b => b

theorem Descends.optional_bind {k l : Option α → Parser β} (graded : Graded B) (h : Descends B (N + 1) f p q)
    (found : ∀ a b, f a = f b → Level B N g (k (some a)) (l (some b))) (missing : Level B (N + 1) g (k none) (l none)) :
    Level B (N + 1) g (Parser.optional p >>= k) (Parser.optional q >>= l) := by
  intro n hn
  cases n with
  | zero => exact fun _ _ b => absurd b (graded.none _ _)
  | succ n =>
    refine (h n hn).optional_bind (fun a b same => ?_) (missing (n + 1) hn)
    exact (found a b same n (Nat.le_of_succ_le_succ hn)).weaken (fun _ _ b => b) fun _ _ b => graded.succ b

theorem Level.notHere (h : Level B N f p q) : Level B N id (Parser.notHere p) (Parser.notHere q) :=
  fun n hn => (h n hn).notHere

/-- Loops that read something in every turn go on equally long, however many turns they could have. -/
theorem Descends.repeated (graded : Graded B) (h : Descends B N f p q) (hn : n ≤ N) {i j : Nat} {c d : Cursor}
    (hi : n ≤ i) (hj : n ≤ j) (b : B n c.rest d.rest) :
    (repeated p i c).1.map f = (repeated q j d).1.map f ∧ B n (repeated p i c).2.rest (repeated q j d).2.rest := by
  induction n generalizing i j c d with
  | zero => exact absurd b (graded.none _ _)
  | succ n ih =>
    obtain ⟨i, rfl⟩ := Nat.exists_eq_add_of_lt hi
    obtain ⟨j, rfl⟩ := Nat.exists_eq_add_of_lt hj
    have both := h n hn c d b
    rw [Parser.repeated, Parser.repeated]
    generalize (p c).outcome = x, (q d).outcome = y at both ⊢
    cases both with
    | none => exact ⟨rfl, b⟩
    | some same =>
      obtain ⟨values, rest⟩ := ih (Nat.le_of_succ_le hn) (Nat.le_add_right n i) (Nat.le_add_right n j) same.2
      exact ⟨by rw [List.map_cons, List.map_cons, same.1, values], graded.succ rest⟩

theorem Descends.many (graded : Graded B) (h : Descends B N f p q) :
    Level B N (List.map f) (Parser.many p) (Parser.many q) := by
  intro n hn c d b
  obtain ⟨m, hm, left, right, b⟩ := graded.fits b
  obtain ⟨values, rest⟩ := h.repeated graded (Nat.le_trans hm hn) left right b
  rw [outcome_many, outcome_many]
  exact .some ⟨values, graded.mono hm rest⟩

theorem Descends.sepBy1 {s t : Parser β} (graded : Graded B) (h : Descends B N f p q) (between : Level B N g s t) :
    Descends B N (List.map f) (Parser.sepBy1 p s) (Parser.sepBy1 q t) := by
  refine h.bind_level fun a b same => ?_
  refine (Descends.many graded (between.bind_descends fun _ _ _ => h)).bind fun as bs sames => level_pure ?_
  rw [List.map_cons, List.map_cons, same, sames]

theorem Descends.sepBy {s t : Parser β} (graded : Graded B) (h : Descends B N f p q) (between : Level B N g s t) :
    Level B N (List.map f) (Parser.sepBy p s) (Parser.sepBy q t) :=
  ((h.sepBy1 graded between).level graded).orElse (level_pure rfl)

theorem Descends.sepBy_same {p q : Parser α} {s t : Parser β} (graded : Graded B) (h : Descends B N id p q)
    (between : Level B N g s t) : Level B N id (Parser.sepBy p s) (Parser.sepBy q t) := by
  have both := h.sepBy graded between
  rwa [List.map_id_fun] at both

end TextGrammar.Parsing.Parser
