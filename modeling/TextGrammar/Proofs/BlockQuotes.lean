import TextGrammar.Proofs.RelatedParsers
import TextGrammar.Script.Reading
set_option autoImplicit false

/-!
# Quotes in blocks

Where a block is inside a text between quotes depends on what stands before. At a place outside of them, nothing that a block
is read with looks past a semicolon, so it reads the same whether the text ends there or goes on.
-/
namespace TextGrammar.Script
open Parsing Parser Token

/-- Where a text ends: between quotes, behind a backslash between quotes, or outside. -/
inductive Place where
  | outside
  | inside (quote : Char)
  | escaped (quote : Char)
deriving DecidableEq

def isQuote (c : Char) : Bool := c == '"' || c == '\''

def Place.next : Place → Char → Place
  | .outside, c => if isQuote c then .inside c else .outside
  | .inside q, c => if c = q then .outside else if c = '\\' then .escaped q else .inside q
  | .escaped q, _ => .inside q

def Place.after (p : Place) (cs : List Char) : Place := cs.foldl Place.next p

def Closed (cs : List Char) : Prop := Place.outside.after cs = .outside

variable {cs ds rest u v w : List Char} {c q : Char} {m n N : Nat} {whole tail : List Char}

theorem Place.after_append (p : Place) (cs ds : List Char) : p.after (cs ++ ds) = (p.after cs).after ds :=
  List.foldl_append

theorem closed_nil : Closed [] := rfl

theorem Closed.append (h : Closed cs) (h' : Closed ds) : Closed (cs ++ ds) := by
  rw [Closed, Place.after_append, h, h']

theorem Closed.behind (h : Closed cs) (h' : Closed (cs ++ ds)) : Closed ds := by
  rwa [Closed, Place.after_append, h] at h'

theorem closed_of_plain (h : ∀ c ∈ cs, isQuote c = false) : Closed cs := by
  induction cs with
  | nil => exact closed_nil
  | cons c cs ih =>
    have stays : Place.outside.next c = .outside := by simp [Place.next, h c List.mem_cons_self]
    have rest : Closed cs := ih fun d hd => h d (List.mem_cons_of_mem _ hd)
    rw [Closed, Place.after, List.foldl_cons, stays]
    exact rest

/-- A place outside of quotes, in a text and in the same text with a tail, with less than a number of characters of the text
to read. The tail is empty, or it is a semicolon and what stands behind it, and then the text closes its quotes itself. -/
structure Extended (whole tail : List Char) (n : Nat) (u v : List Char) : Prop where
  few : u.length < n
  reached : ∃ w, whole = w ++ u ∧ Closed w
  text : v = u ++ tail
  ends : tail = [] ∨ tail.head? = some ';' ∧ Closed whole

theorem Extended.of_few (h : Extended whole tail n u v) (few : u.length < m) : Extended whole tail m u v := { h with few }

theorem graded_extended : Graded (Extended whole tail) where
  none _ _ h := absurd h.few (Nat.not_lt_zero _)
  succ h := h.of_few (Nat.lt_succ_of_lt h.few)
  fits {n u v} h := by
    refine ⟨u.length + 1, h.few, Nat.le_refl _, ?_, h.of_few (Nat.lt_succ_self _)⟩
    rw [h.text, List.length_append]
    exact Nat.succ_le_succ (Nat.le_add_right _ _)

theorem biUnique_extended : Relator.BiUnique (Extended whole tail n) :=
  ⟨fun _ _ _ h h' => List.append_cancel_right (h.text.symm.trans h'.text), fun _ _ _ h h' => h.text.trans h'.text.symm⟩

theorem Extended.agree_of_level {α : Type} {p p' : Parser α} (place : Extended whole tail n u v)
    (h : Level (Extended whole tail) n id p p') :
    Refuses p u ∧ Refuses p' v ∨ Agree (Extended whole tail n) p p' u v :=
  (h n (Nat.le_refl n)).agree biUnique_extended place

theorem Extended.agree_of_descends {α : Type} {p p' : Parser α} (place : Extended whole tail (n + 1) u v)
    (h : Descends (Extended whole tail) (n + 1) id p p') :
    Refuses p u ∧ Refuses p' v ∨ Agree (Extended whole tail n) p p' u v :=
  (h n (Nat.lt_succ_self n)).agree biUnique_extended place

theorem Extended.behind (h : Extended whole tail n (w ++ u) v) (closed : Closed w) (few : n ≤ m + w.length) :
    Extended whole tail m u (u ++ tail) := by
  obtain ⟨before, reached, before_closed⟩ := h.reached
  have less := h.few
  rw [List.length_append] at less
  exact ⟨by omega, ⟨before ++ w, by rw [reached, List.append_assoc], before_closed.append closed⟩, rfl, h.ends⟩

/-- What no semicolon belongs to does not start behind the text either. -/
theorem Extended.head_tail (h : Extended whole tail n u v) {ok : Char → Bool} (semicolon : ok ';' = false) :
    ∀ c ∈ tail.head?, ok c = false := by
  rcases h.ends with rfl | ⟨head, -⟩
  · exact nofun
  · rw [head]
    rintro c ⟨⟩
    exact semicolon

structure Ordinary (ok : Char → Bool) : Prop where
  double : ok '"' = false
  single : ok '\'' = false
  semicolon : ok ';' = false

variable {ok : Char → Bool} {label : String}

theorem Ordinary.plain (h : Ordinary ok) (good : ok c = true) : isQuote c = false := by
  rw [isQuote, Bool.or_eq_false_iff, beq_eq_false_iff_ne, beq_eq_false_iff_ne]
  constructor
  · rintro rfl
    rw [h.double] at good
    cases good
  · rintro rfl
    rw [h.single] at good
    cases good

theorem Extended.head_append (h : Extended whole tail n u v) (semicolon : ok ';' = false)
    (stop : ∀ c ∈ rest.head?, ok c = false) : ∀ c ∈ (rest ++ tail).head?, ok c = false := by
  cases rest with
  | nil => exact h.head_tail semicolon
  | cons c rest => exact stop

theorem descends_char (h : Ordinary ok) : Descends (Extended whole tail) N id (char label ok) (char label ok) := by
  refine fun n _ => alike_of_agree fun u v place => ?_
  have refuse (stop : ∀ c ∈ u.head?, ok c = false) : Refuses (char label ok) u ∧ Refuses (char label ok) v := by
    rw [place.text]
    exact ⟨refuses_char stop, refuses_char (place.head_append h.semicolon stop)⟩
  cases u with
  | nil => exact .inl (refuse nofun)
  | cons c u =>
    by_cases good : ok c = true
    · have closed : Closed [c] := closed_of_plain (by simpa using h.plain good)
      have behind : Extended whole tail n u (u ++ tail) := Extended.behind (w := [c]) place closed (Nat.le_refl _)
      rw [place.text]
      exact .inr ⟨c, u, u ++ tail, takes_char good, takes_char good, behind⟩
    · refine .inl (refuse ?_)
      rintro _ ⟨⟩
      exact Bool.eq_false_iff.2 good

theorem exists_run (ok : Char → Bool) (cs : List Char) :
    ∃ run rest, cs = run ++ rest ∧ (∀ c ∈ run, ok c = true) ∧ ∀ c ∈ rest.head?, ok c = false := by
  induction cs with
  | nil => exact ⟨[], [], rfl, nofun, nofun⟩
  | cons c cs ih =>
    by_cases good : ok c = true
    · obtain ⟨run, rest, rfl, all, stop⟩ := ih
      exact ⟨c :: run, rest, rfl, List.forall_mem_cons.2 ⟨good, all⟩, stop⟩
    · refine ⟨[], c :: cs, rfl, nofun, ?_⟩
      rintro _ ⟨⟩
      exact Bool.eq_false_iff.2 good

theorem level_chars (h : Ordinary ok) : Level (Extended whole tail) N id (chars label ok) (chars label ok) := by
  refine fun n _ => alike_of_agree fun u v place => ?_
  obtain ⟨run, rest, rfl, all, stop⟩ := exists_run ok u
  have closed : Closed run := closed_of_plain fun c hc => h.plain (all c hc)
  rw [place.text, List.append_assoc]
  exact .inr ⟨run, rest, rest ++ tail, takes_chars all stop, takes_chars all (place.head_append h.semicolon stop),
    place.behind closed (Nat.le_add_right _ _)⟩

theorem descends_chars1 (h : Ordinary ok) : Descends (Extended whole tail) N id (chars1 label ok) (chars1 label ok) :=
  (descends_char h).bind_level fun | _, _, rfl => (level_chars h).bind fun | _, _, rfl => level_pure rfl

theorem prefix_of_append (h : w <+: u ++ tail) (ends : tail.head? = some ';') (free : ';' ∉ w) : w <+: u := by
  rcases List.prefix_or_prefix_of_prefix h (List.prefix_append u tail) with within | ⟨more, rfl⟩
  · exact within
  · cases more with
    | nil => exact ⟨[], by rw [List.append_nil, List.append_nil]⟩
    | cons c more =>
      obtain ⟨d, tail, rfl⟩ : ∃ d ds, tail = d :: ds := List.exists_cons_of_ne_nil (by rintro rfl; cases ends)
      cases ends
      have same := (List.cons_prefix_cons.1 ((List.prefix_append_right_inj u).1 h)).1
      exact absurd (by rw [same]; simp) free

theorem agree_word {s : String} (nonempty : s.toList ≠ []) (plain : ∀ c ∈ s.toList, isQuote c = false)
    (place : Extended whole tail (n + 1) u v) (found : s.toList <+: u) :
    Agree (Extended whole tail n) (word s) (word s) u v := by
  obtain ⟨u, rfl⟩ := found
  have positive : 0 < s.toList.length := List.length_pos_iff.2 nonempty
  have taken (rest : List Char) : Takes (word s) (s.toList ++ rest) rest (· = ()) := (takes_word s).mono fun _ _ => rfl
  rw [place.text, List.append_assoc]
  exact ⟨(), u, u ++ tail, taken u, taken _, place.behind (closed_of_plain plain) (by omega)⟩

def isBare (s : String) : Bool := !s.toList.isEmpty && s.toList.all fun c => !isQuote c && c != ';'

theorem isBare_parts {s : String} (h : isBare s = true) :
    s.toList ≠ [] ∧ (∀ c ∈ s.toList, isQuote c = false) ∧ ';' ∉ s.toList := by
  rw [isBare, Bool.and_eq_true, Bool.not_eq_true', List.isEmpty_eq_false_iff, List.all_eq_true] at h
  obtain ⟨nonempty, each⟩ := h
  refine ⟨nonempty, fun c hc => ?_, fun among => ?_⟩
  · have both := each c hc
    rw [Bool.and_eq_true, Bool.not_eq_true'] at both
    exact both.1
  · cases each ';' among

theorem descends_word {s : String} (h : isBare s = true) : Descends (Extended whole tail) N id (word s) (word s) := by
  obtain ⟨nonempty, plain, apart⟩ := isBare_parts h
  refine fun n _ => alike_of_agree fun u v place => ?_
  by_cases found : s.toList <+: u
  · exact .inr (agree_word nonempty plain place found)
  · refine .inl ⟨refuses_word found, refuses_word fun found' => found ?_⟩
    rw [place.text] at found'
    rcases place.ends with rfl | ⟨head, -⟩
    · rwa [List.append_nil] at found'
    · exact prefix_of_append found' head apart

theorem level_word {s : String} (h : isBare s = true) : Level (Extended whole tail) N id (word s) (word s) :=
  (descends_word h).level graded_extended

theorem level_spaces : Level (Extended whole tail) N id spaces spaces :=
  (level_chars ⟨rfl, rfl, rfl⟩).bind fun _ _ _ => level_pure rfl

theorem exists_takes_escape {table : List (String × Char)} (spares : Spares (fun _ => false) table) (c : Char) :
    ∃ d, ∀ rest, Takes (escape table) ('\\' :: c :: rest) rest (· = d) := by
  induction table with
  | nil => exact ⟨c, fun rest => Takes.bind (takes_word "\\") fun _ _ => takes_char rfl⟩
  | cons e table ih =>
    obtain ⟨b, hb, -⟩ := spares e List.mem_cons_self
    obtain ⟨d, hd⟩ := ih fun e he => spares e (List.mem_cons_of_mem _ he)
    by_cases same : b = c
    · subst same
      refine ⟨e.2, fun rest => ?_⟩
      have taken : Takes (word e.1) (e.1.toList ++ rest) rest fun _ => True := takes_word e.1
      rw [hb] at taken
      exact Takes.orElse (taken.bind fun _ _ => takes_pure rfl)
    · refine ⟨d, fun rest => Refuses.orElse (Refuses.bind (refuses_word ?_)) (hd rest)⟩
      rw [hb, List.cons_prefix_cons, List.cons_prefix_cons]
      exact fun found => same found.2.1

theorem refuses_escape_end {table : List (String × Char)} (spares : Spares (fun _ => false) table) :
    Refuses (escape table) ['\\'] := by
  induction table with
  | nil => exact (takes_word "\\").refuses fun _ _ => refuses_char nofun
  | cons e table ih =>
    obtain ⟨b, hb, -⟩ := spares e List.mem_cons_self
    refine Refuses.or (Refuses.bind (refuses_word ?_)) (ih fun e he => spares e (List.mem_cons_of_mem _ he))
    rw [hb, List.cons_prefix_cons]
    exact fun found => by cases List.prefix_nil.1 found.2

theorem spares_escapes : Spares (fun _ => false) escapes := spares_of_shape (by decide)

def inner (quote : Char) (label : String) : Parser Char := escape escapes <|> char label (· != quote)

/-- Either the quote is closed, and what is read up to there does not depend on what follows, or all of the text is read. -/
def Finds (quote : Char) (label : String) (cs : List Char) : Prop :=
  (∃ body rest l, cs = body ++ quote :: rest ∧ (Place.inside quote).after body = .inside quote ∧ l.length ≤ body.length ∧
    ∀ more, Turns (inner quote label) (body ++ quote :: more) l (quote :: more)) ∨
  (Place.inside quote).after cs ≠ .outside ∧ ∃ l, l.length ≤ cs.length ∧ Turns (inner quote label) cs l []

theorem Finds.append {d : Char} (h : Finds q label cs) (nonempty : w ≠ []) (inside : (Place.inside q).after w = .inside q)
    (first : ∀ rest, Takes (inner q label) (w ++ rest) rest (· = d)) : Finds q label (w ++ cs) := by
  have positive : 0 < w.length := List.length_pos_iff.2 nonempty
  rcases h with ⟨body, rest, l, rfl, hbody, short, turns⟩ | ⟨unclosed, l, short, turns⟩
  · refine .inl ⟨w ++ body, rest, d :: l, (List.append_assoc _ _ _).symm, ?_, ?_, fun more => ?_⟩
    · rw [Place.after_append, inside, hbody]
    · rw [List.length_append, List.length_cons]
      omega
    · rw [List.append_assoc]
      exact .turn (first _) (turns more)
  · refine .inr ⟨?_, d :: l, ?_, .turn (first _) turns⟩
    · rwa [Place.after_append, inside]
    · rw [List.length_append, List.length_cons]
      omega

theorem finds (hq : q ≠ '\\') (label : String) (cs : List Char) : Finds q label cs := by
  -- An escape takes two characters, so the induction is on the length.
  induction len : cs.length using Nat.strongRecOn generalizing cs with
  | ind len ih =>
    subst len
    cases cs with
    | nil => exact .inr ⟨nofun, [], Nat.le_refl 0, .stop []⟩
    | cons c cs =>
      by_cases quote : c = q
      · subst quote
        exact .inl ⟨[], cs, [], rfl, rfl, Nat.le_refl 0, fun more => .stop _⟩
      · by_cases backslash : c = '\\'
        · subst backslash
          cases cs with
          | nil =>
            have taken : Takes (inner q label) ['\\'] [] (· = '\\') :=
              Refuses.orElse (refuses_escape_end spares_escapes) (takes_char (bne_iff_ne.2 quote))
            refine .inr ⟨?_, ['\\'], Nat.le_refl 1, .turn taken (.stop [])⟩
            simp [Place.after, Place.next, quote]
          | cons c cs =>
            obtain ⟨d, hd⟩ := exists_takes_escape spares_escapes c
            refine Finds.append (w := ['\\', c]) (ih cs.length ?_ cs rfl) nofun ?_ fun rest => (hd rest).orElse
            · exact Nat.lt_succ_of_lt (Nat.lt_succ_self _)
            · simp [Place.after, Place.next, quote]
        · refine Finds.append (w := [c]) (d := c) (ih cs.length (Nat.lt_succ_self _) cs rfl) nofun ?_ fun rest => ?_
          · simp [Place.after, Place.next, quote, backslash]
          · refine Refuses.orElse (refuses_escape spares_escapes ?_) (takes_char (bne_iff_ne.2 quote))
            rintro _ ⟨⟩
            exact backslash

theorem refuses_inner (hq : q ≠ '\\') {label : String} (h : ∀ c ∈ cs.head?, c = q) : Refuses (inner q label) cs := by
  refine Refuses.or (refuses_escape spares_escapes ?_) (refuses_char ?_)
  · intro c hc
    rwa [h c hc]
  · intro c hc
    rw [h c hc, bne_self_eq_false]

theorem after_quote (hq : isQuote q = true) (cs : List Char) : Place.outside.after (q :: cs) = (Place.inside q).after cs := by
  have opens : Place.outside.next q = .inside q := if_pos hq
  rw [Place.after, List.foldl_cons, opens]
  rfl

theorem closed_quoted {body : List Char} (hq : isQuote q = true) (hbody : (Place.inside q).after body = .inside q) :
    Closed (q :: (body ++ [q])) := by
  rw [Closed, after_quote hq, Place.after_append, hbody]
  exact if_pos rfl

theorem takes_quoted_text {body : List Char} {l : List Char} (hq : q ≠ '\\') (few : l.length ≤ body.length)
    (turns : Turns (inner q label) (body ++ q :: rest) l (q :: rest)) :
    Takes (quoted escapes q label) (q :: (body ++ q :: rest)) rest (· = String.ofList l) := by
  have enough : l.length ≤ (body ++ q :: rest).length := by
    rw [List.length_append]
    exact Nat.le_add_right_of_le few
  have stop : Refuses (inner q label) (q :: rest) := refuses_inner hq (by rintro _ ⟨⟩; rfl)
  refine (takes_quote q _).bind fun _ _ => (turns.many stop enough).bind ?_
  rintro _ rfl
  exact (takes_quote q rest).bind fun _ _ => takes_pure rfl

theorem refuses_unclosed {l : List Char} (hq : q ≠ '\\') (few : l.length ≤ cs.length)
    (turns : Turns (inner q label) cs l []) : Refuses (quoted escapes q label) (q :: cs) := by
  refine (takes_quote q cs).refuses fun _ _ => ?_
  refine (turns.many (refuses_inner hq nofun) few).refuses fun _ _ => ?_
  exact (refuses_quote (by simp)).bind

/-- Behind a quote the two go on together. If the quote is not closed, there is no tail that could close it. -/
theorem agree_at_quote (hq : isQuote q = true) (backslash : q ≠ '\\') (place : Extended whole tail (n + 1) (q :: cs) v) :
    Refuses (quoted escapes q label) (q :: cs) ∧ Refuses (quoted escapes q label) v ∨
      Agree (Extended whole tail n) (quoted escapes q label) (quoted escapes q label) (q :: cs) v := by
  rcases finds backslash label cs with ⟨body, rest, l, rfl, hbody, few, turns⟩ | ⟨unclosed, l, few, turns⟩
  · have split (more : List Char) : q :: (body ++ q :: more) = q :: (body ++ [q]) ++ more := by simp
    have same : v = q :: (body ++ q :: (rest ++ tail)) := by
      rw [place.text, split rest, split (rest ++ tail), List.append_assoc]
    rw [split] at place
    have behind : Extended whole tail n rest (rest ++ tail) := by
      refine place.behind (closed_quoted hq hbody) ?_
      rw [List.length_cons]
      omega
    rw [same]
    exact .inr ⟨String.ofList l, rest, rest ++ tail, takes_quoted_text backslash few (turns _),
      takes_quoted_text backslash few (turns _), behind⟩
  · have refused : Refuses (quoted escapes q label) (q :: cs) := refuses_unclosed backslash few turns
    rcases place.ends with rfl | ⟨-, closed⟩
    · rw [place.text, List.append_nil]
      exact .inl ⟨refused, refused⟩
    · -- The whole text closes its quotes, and so does what is left of it at a place outside of them.
      obtain ⟨before, rfl, hbefore⟩ := place.reached
      have rest : Closed (q :: cs) := hbefore.behind closed
      rw [Closed, after_quote hq] at rest
      exact absurd rest unclosed

theorem descends_quoted (hq : isQuote q = true) (label : String) :
    Descends (Extended whole tail) N id (quoted escapes q label) (quoted escapes q label) := by
  refine fun n _ => alike_of_agree fun u v place => ?_
  have backslash : q ≠ '\\' := by
    rintro rfl
    cases hq
  have semicolon : (';' == q) = false := by
    rw [beq_eq_false_iff_ne]
    rintro rfl
    cases hq
  by_cases opened : u.head? = some q
  · obtain ⟨cs, rfl⟩ : ∃ cs, u = q :: cs := List.head?_eq_some_iff.1 opened
    exact agree_at_quote hq backslash place
  · have stop : ∀ c ∈ u.head?, (c == q) = false := by
      intro c hc
      rw [beq_eq_false_iff_ne]
      rintro rfl
      exact opened hc
    have refused {cs : List Char} (h : ∀ c ∈ cs.head?, (c == q) = false) : Refuses (quoted escapes q label) cs :=
      (refuses_quote fun c hc => beq_eq_false_iff_ne.1 (h c hc)).bind
    rw [place.text]
    exact .inl ⟨refused stop, refused (place.head_append semicolon stop)⟩

theorem descends_stringConstant : Descends (Extended whole tail) N id stringConstant stringConstant :=
  (descends_quoted rfl _).orElse (descends_quoted rfl _)

end TextGrammar.Script
