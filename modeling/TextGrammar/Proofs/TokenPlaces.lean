import TextGrammar.Proofs.SpacedTokens
import TextGrammar.Proofs.GrammarPhrases
import TextGrammar.Proofs.RelatedParsers
set_option autoImplicit false

/-!
# Where reading stands between tokens

Reading a text of tokens comes to places inside or in front of a token, with the same tokens behind it whatever layout there
is between them. What is read there, and the place reached, is the same for all layouts.
-/
namespace TextGrammar.Grammar
open Parsing Parser Token

variable {cs t w tail rest u v : List Char} {ts : List (List Char)} {m n : Nat} {c d : Char} {ok : Char → Bool}

/-- The rest of a token stands here, and the tokens `ts` behind it. -/
def Stands (tail : List Char) (ts : List (List Char)) (u : List Char) : Prop :=
  ∃ r, u = tail ++ r ∧ Edge r ∧ Spaced ts r

def Unbounded (ts : List (List Char)) : Prop := ∀ t ∈ ts.head?, ¬ ['i', 'n', 'f', '-', '-'] <+: t

/-- One place in two texts, with less than a number of characters in tokens from there on. -/
structure At (tail : List Char) (ts : List (List Char)) (n : Nat) (u v : List Char) : Prop where
  plain : Plain tail
  bounds : dots <:+ tail → Unbounded ts
  legible : Legible ts
  few : tail.length + ts.flatten.length < n
  left : Stands tail ts u
  right : Stands tail ts v

def Inside (n : Nat) (u v : List Char) : Prop := ∃ tail ts, At tail ts n u v

def Front (P : List Char → Prop) (n : Nat) (u v : List Char) : Prop :=
  ∃ t ts, P t ∧ Legible ts ∧ t.length + ts.flatten.length < n ∧ Stands t ts u ∧ Stands t ts v

def Same (n : Nat) (u v : List Char) : Prop := Inside n u v ∨ Front Whole n u v

theorem Stands.le_length (h : Stands tail ts u) : tail.length + ts.flatten.length ≤ u.length := by
  obtain ⟨r, rfl, -, spaced⟩ := h
  rw [List.length_append]
  exact Nat.add_le_add_left spaced.le_length _

theorem At.of_few (h : At tail ts n u v) (few : tail.length + ts.flatten.length < m) : At tail ts m u v := { h with few }

theorem Front.mono {P Q : List Char → Prop} (h : Front P n u v) (hP : ∀ t, P t → Q t) : Front Q n u v := by
  obtain ⟨t, ts, p, more⟩ := h
  exact ⟨t, ts, hP t p, more⟩

theorem Inside.same (h : Inside n u v) : Same n u v := .inl h

theorem Same.exists_few (h : Same n u v) : ∃ m < n, m ≤ u.length ∧ m ≤ v.length ∧ Same (m + 1) u v := by
  rcases h with ⟨tail, ts, h⟩ | ⟨t, ts, whole, legible, few, left, right⟩
  · exact ⟨_, h.few, h.left.le_length, h.right.le_length, .inl ⟨tail, ts, h.of_few (Nat.lt_succ_self _)⟩⟩
  · exact ⟨_, few, left.le_length, right.le_length, .inr ⟨t, ts, whole, legible, Nat.lt_succ_self _, left, right⟩⟩

theorem Inside.succ (h : Inside n u v) : Inside (n + 1) u v := by
  obtain ⟨tail, ts, h⟩ := h
  exact ⟨tail, ts, h.of_few (Nat.lt_succ_of_lt h.few)⟩

theorem Same.succ (h : Same n u v) : Same (n + 1) u v := by
  refine h.imp Inside.succ ?_
  rintro ⟨t, ts, whole, legible, few, left, right⟩
  exact ⟨t, ts, whole, legible, Nat.lt_succ_of_lt few, left, right⟩

theorem graded_same : Graded Same where
  none u v h := by
    obtain ⟨m, few, -⟩ := h.exists_few
    exact absurd few (Nat.not_lt_zero m)
  succ := Same.succ
  fits h := by
    obtain ⟨m, few, left, right, h⟩ := h.exists_few
    exact ⟨m + 1, few, Nat.succ_le_succ left, Nat.succ_le_succ right, h⟩

/-- What stands behind a part of the token. -/
theorem At.behind (h : At (w ++ tail) ts n u v) (few : n ≤ m + w.length) :
    ∃ u' v', u = w ++ u' ∧ v = w ++ v' ∧ At tail ts m u' v' := by
  obtain ⟨r, rfl, edge, spaced⟩ := h.left
  obtain ⟨s, rfl, edge', spaced'⟩ := h.right
  have suffix : tail <:+ w ++ tail := ⟨w, rfl⟩
  have less := h.few
  rw [List.length_append] at less
  exact ⟨tail ++ r, tail ++ s, List.append_assoc _ _ _, List.append_assoc _ _ _, h.plain.suffix suffix,
    fun found => h.bounds (found.trans suffix), h.legible, by omega, ⟨r, rfl, edge, spaced⟩, ⟨s, rfl, edge', spaced'⟩⟩

theorem Stands.head_false (h : Stands tail ts u) (blank : ∀ c, isBlank c = true → ok c = false)
    (first : ∀ c ∈ tail.head?, ok c = false) : ∀ c ∈ u.head?, ok c = false := by
  obtain ⟨r, rfl, edge, -⟩ := h
  cases tail with
  | nil => exact fun c hc => blank c (edge c hc)
  | cons c tail => exact first

theorem Stands.not_prefix (h : Stands tail ts u) (solid : ∀ c ∈ w, isBlank c = false) (missing : ¬ w <+: tail) : ¬ w <+: u := by
  obtain ⟨r, rfl, edge, -⟩ := h
  rintro ⟨more, text⟩
  obtain ⟨past, rfl, -⟩ | ⟨past, rfl, behind⟩ := List.append_eq_append_iff.1 text
  · exact missing ⟨past, rfl⟩
  · cases past with
    | nil => exact missing ⟨[], by simp⟩
    | cons c past =>
      have blank := edge c (by rw [behind]; rfl)
      rw [solid c (by simp)] at blank
      cases blank

theorem alike_inside_char {label : String} (blank : ∀ c, isBlank c = true → ok c = false) :
    Alike id (Inside (n + 1)) (Inside n) (char label ok) (char label ok) := by
  refine alike_of_agree fun u v ⟨tail, ts, h⟩ => ?_
  have refused (first : ∀ c ∈ tail.head?, ok c = false) : Refuses (char label ok) u ∧ Refuses (char label ok) v :=
    ⟨refuses_char (h.left.head_false blank first), refuses_char (h.right.head_false blank first)⟩
  cases tail with
  | nil => exact .inl (refused nofun)
  | cons c tail =>
    by_cases good : ok c = true
    · obtain ⟨u', v', rfl, rfl, h'⟩ := h.behind (w := [c]) (m := n) (Nat.le_refl _)
      exact .inr ⟨c, u', v', takes_char good, takes_char good, tail, ts, h'⟩
    · refine .inl (refused ?_)
      rintro _ ⟨⟩
      exact Bool.eq_false_iff.2 good

theorem alike_inside_chars {label : String} (blank : ∀ c, isBlank c = true → ok c = false) :
    Alike id (Inside n) (Inside n) (chars label ok) (chars label ok) := by
  refine alike_of_agree fun u v ⟨tail, ts, h⟩ => ?_
  have run : ∀ c ∈ tail.takeWhile ok, ok c = true := List.all_eq_true.1 List.all_takeWhile
  have first : ∀ c ∈ (tail.dropWhile ok).head?, ok c = false := by
    have none := List.head?_dropWhile_not ok tail
    intro c hc
    rw [Option.mem_def.1 hc] at none
    exact none
  rw [← List.takeWhile_append_dropWhile (p := ok) (l := tail)] at h
  obtain ⟨u', v', rfl, rfl, h'⟩ := h.behind (m := n) (Nat.le_add_right _ _)
  exact .inr ⟨_, u', v', takes_chars run (h'.left.head_false blank first),
    takes_chars run (h'.right.head_false blank first), _, ts, h'⟩

def isDense (s : String) : Bool := !s.toList.isEmpty && s.toList.all fun c => !isBlank c

theorem isDense_parts {s : String} (h : isDense s = true) : 1 ≤ s.toList.length ∧ ∀ c ∈ s.toList, isBlank c = false := by
  rw [isDense, Bool.and_eq_true, List.all_eq_true] at h
  refine ⟨List.length_pos_iff.2 fun e => ?_, fun c hc => by simpa using h.2 c hc⟩
  rw [e] at h
  exact absurd h.1 (by decide)

theorem At.agree_word {s : String} (h : At tail ts (n + 1) u v) (dense : isDense s = true) :
    Refuses (word s) u ∧ Refuses (word s) v ∨
      ∃ tail', tail = s.toList ++ tail' ∧ Agree (At tail' ts n) (word s) (word s) u v := by
  obtain ⟨long, solid⟩ := isDense_parts dense
  by_cases found : s.toList <+: tail
  · obtain ⟨tail', rfl⟩ := found
    obtain ⟨u', v', rfl, rfl, h'⟩ := h.behind (m := n) (Nat.add_le_add_left long n)
    exact .inr ⟨tail', rfl, (), u', v', (takes_word s).mono fun _ _ => rfl, (takes_word s).mono fun _ _ => rfl, h'⟩
  · exact .inl ⟨refuses_word (h.left.not_prefix solid found), refuses_word (h.right.not_prefix solid found)⟩

theorem alike_inside_word {s : String} (dense : isDense s = true) :
    Alike id (Inside (n + 1)) (Inside n) (word s) (word s) := by
  refine alike_of_agree fun u v ⟨tail, ts, h⟩ => ?_
  rcases h.agree_word dense with refused | ⟨tail', -, a, u', v', left, right, h'⟩
  · exact .inl refused
  · exact .inr ⟨a, u', v', left, right, tail', ts, h'⟩

/-- Nothing that is no mark stands inside a token of marks. -/
theorem Inside.refuses_word {s : String} {ws : List Char} (h : Inside n u v) (hs : s.toList = d :: ws) (mark : isMark d = false)
    (blank : isBlank d = false) : Refuses (word s) u ∧ Refuses (word s) v := by
  obtain ⟨tail, ts, h⟩ := h
  have first : ∀ c ∈ tail.head?, (c == d) = false := fun c hc =>
    beq_eq_false_iff_ne.2 (ne_of_isMark (h.plain.marks c (List.mem_of_mem_head? hc)) mark)
  have edge : ∀ c, isBlank c = true → (c == d) = false := by
    intro c hc
    rw [beq_eq_false_iff_ne]
    rintro rfl
    rw [hc] at blank
    cases blank
  have refused {x : List Char} (stands : Stands tail ts x) : Refuses (word s) x := by
    refine Parser.refuses_word ?_
    rw [hs]
    rintro ⟨more, rfl⟩
    have differ : (d == d) = false := stands.head_false edge first d rfl
    rw [beq_self_eq_true] at differ
    cases differ
  exact ⟨refused h.left, refused h.right⟩

theorem Front.refuses {α : Type} {p : Parser α} {P : List Char → Prop} (h : Front P n u v)
    (refused : ∀ t rest, P t → Edge rest → Refuses p (t ++ rest)) : Refuses p u ∧ Refuses p v := by
  obtain ⟨t, ts, ht, -, -, ⟨r, rfl, edge, -⟩, ⟨s, rfl, edge', -⟩⟩ := h
  exact ⟨refused t r ht edge, refused t s ht edge'⟩

theorem Front.refuses_char {label : String} (h : Front Whole n u v) (opening : ∀ c, isOpening c = true → ok c = false) :
    Refuses (char label ok) u ∧ Refuses (char label ok) v := by
  refine h.refuses fun t rest whole _ => Parser.refuses_char ?_
  obtain ⟨c, more, rfl, first⟩ := whole.head
  rintro _ ⟨⟩
  exact opening c first

theorem Front.refuses_word {s : String} {ws : List Char} (h : Front Whole n u v) (hs : s.toList = d :: ws)
    (other : isOpening d = false) : Refuses (word s) u ∧ Refuses (word s) v := by
  refine h.refuses fun t rest whole _ => ?_
  obtain ⟨c, more, rfl, first⟩ := whole.head
  exact refuses_word_of_head hs (ne_of_isOpening first other)

theorem alike_refused {α γ : Type} {f : α → γ} {p q : Parser α} {R S : List Char → List Char → Prop}
    (h : ∀ u v, R u v → Refuses p u ∧ Refuses q v) : Alike f R S p q := alike_of_agree fun u v r => .inl (h u v r)

theorem alike_char {label : String} (blank : ∀ c, isBlank c = true → ok c = false)
    (opening : ∀ c, isOpening c = true → ok c = false) : Alike id (Same (n + 1)) (Inside n) (char label ok) (char label ok) :=
  (alike_inside_char blank).either (alike_refused fun _ _ front => front.refuses_char opening)

theorem alike_word {s : String} {ws : List Char} (dense : isDense s = true) (hs : s.toList = d :: ws)
    (other : isOpening d = false) : Alike id (Same (n + 1)) (Inside n) (word s) (word s) :=
  (alike_inside_word dense).either (alike_refused fun _ _ front => front.refuses_word hs other)

/-- Where a token is read as a whole, reading comes to its end. -/
theorem alike_of_settles {α : Type} {p : Parser α} (inside : Alike id (Inside (n + 1)) (Inside n) p p)
    (whole : ∀ t, Whole t → Settles p t) : Alike id (Same (n + 1)) (Inside n) p p := by
  refine inside.either (alike_of_agree ?_)
  rintro u v ⟨t, ts, ht, legible, few, ⟨r, rfl, edge, spaced⟩, ⟨s, rfl, edge', spaced'⟩⟩
  rcases whole t ht with refused | ⟨a, taken⟩
  · exact .inl ⟨refused r edge, refused s edge'⟩
  · obtain ⟨c, more, rfl, -⟩ := ht.head
    have less : ([] : List Char).length + ts.flatten.length < n := by
      rw [List.length_cons] at few
      rw [List.length_nil]
      omega
    exact .inr ⟨a, r, s, taken r edge, taken s edge', [], ts, plain_nil, fun found => absurd (List.suffix_nil.1 found) nofun,
      legible, less, ⟨r, rfl, edge, spaced⟩, ⟨s, rfl, edge', spaced'⟩⟩

end TextGrammar.Grammar
