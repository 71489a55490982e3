import TextGrammar.Parsing.Outcome
import TextGrammar.Parsing.Token
set_option autoImplicit false

/-!
# How far a parser gets

A parser takes a text to one of its suffixes if it reads what stands before the suffix, and refuses a text if it reads
nothing there. Neither depends on the offset at which the text starts, while the value that was read may.
-/
namespace TextGrammar.Parsing

theorem forall_mem_of_all {α : Type} {P : α → Prop} [DecidablePred P] {l : List α}
    (h : (l.all fun a => decide (P a)) = true) :
    ∀ a ∈ l, P a :=
  fun a ha => of_decide_eq_true (List.all_eq_true.1 h a ha)

namespace Parser

variable {α β : Type} {p q : Parser α} {f : α → Parser β} {P : α → Prop} {Q : β → Prop}
  {cs mid rest : List Char}

/-- From `cs` the parser gets to `rest`, with a value of which `P` holds. -/
def Takes (p : Parser α) (cs rest : List Char) (P : α → Prop) : Prop :=
  ∀ pos, ∃ a pos', (p ⟨cs, pos⟩).outcome = some (a, ⟨rest, pos'⟩) ∧ P a

def Refuses (p : Parser α) (cs : List Char) : Prop := ∀ pos, (p ⟨cs, pos⟩).outcome = none

theorem Takes.mono {P' : α → Prop} (h : Takes p cs rest P) (hP : ∀ a, P a → P' a) : Takes p cs rest P' := by
  intro pos
  obtain ⟨a, pos', ha, hp⟩ := h pos
  exact ⟨a, pos', ha, hP a hp⟩

theorem Takes.not_refuses (h : Takes p cs rest P) : ¬ Refuses p cs := by
  intro refused
  obtain ⟨a, pos, taken, -⟩ := h 0
  rw [refused 0] at taken
  cases taken

theorem Takes.unique {a b : α} (h : Takes p cs rest (· = a)) (h' : Takes p cs mid (· = b)) : rest = mid ∧ a = b := by
  obtain ⟨_, pos, taken, rfl⟩ := h 0
  obtain ⟨_, pos', taken', rfl⟩ := h' 0
  rw [taken] at taken'
  cases taken'
  exact ⟨rfl, rfl⟩

theorem takes_pure {a : α} (h : P a) : Takes (pure a) cs cs P := fun pos => ⟨a, pos, rfl, h⟩

theorem refuses_fail : Refuses (fail : Parser α) cs := fun _ => rfl

theorem Takes.bind (h : Takes p cs mid P) (h' : ∀ a, P a → Takes (f a) mid rest Q) : Takes (p >>= f) cs rest Q := by
  intro pos
  obtain ⟨a, pos', ha, hp⟩ := h pos
  rw [outcome_bind, ha]
  exact h' a hp pos'

theorem Refuses.bind (h : Refuses p cs) : Refuses (p >>= f) cs := by
  intro pos
  rw [outcome_bind, h pos]
  rfl

theorem Takes.refuses (h : Takes p cs mid P) (h' : ∀ a, P a → Refuses (f a) mid) : Refuses (p >>= f) cs := by
  intro pos
  obtain ⟨a, pos', ha, hp⟩ := h pos
  rw [outcome_bind, ha]
  exact h' a hp pos'

theorem Takes.orElse (h : Takes p cs rest P) : Takes (p <|> q) cs rest P := by
  intro pos
  obtain ⟨a, pos', ha, hp⟩ := h pos
  exact ⟨a, pos', by rw [outcome_orElse, ha]; rfl, hp⟩

theorem Refuses.orElse (h : Refuses p cs) (h' : Takes q cs rest P) : Takes (p <|> q) cs rest P := by
  intro pos
  rw [outcome_orElse, h pos, Option.none_or]
  exact h' pos

theorem Refuses.or (h : Refuses p cs) (h' : Refuses q cs) : Refuses (p <|> q) cs := by
  intro pos
  rw [outcome_orElse, h pos, h' pos, Option.none_or]

theorem takes_position : Takes position cs cs fun _ => True := fun pos => ⟨pos, pos, rfl, trivial⟩

theorem takes_char {label : String} {ok : Char → Bool} {c : Char} (h : ok c = true) :
    Takes (char label ok) (c :: cs) cs (· = c) :=
  fun pos => ⟨c, _, by rw [outcome_char, if_pos h], rfl⟩

theorem refuses_char {label : String} {ok : Char → Bool} (h : ∀ c ∈ cs.head?, ok c = false) :
    Refuses (char label ok) cs := by
  intro pos
  cases cs with
  | nil => rfl
  | cons c cs => rw [outcome_char, if_neg (by rw [h c rfl]; exact Bool.false_ne_true)]

theorem takes_chars {label : String} {ok : Char → Bool} {run : List Char} (h : ∀ c ∈ run, ok c = true)
    (stop : ∀ c ∈ rest.head?, ok c = false) : Takes (chars label ok) (run ++ rest) rest (· = run) := by
  intro pos
  have none_left : rest.takeWhile ok = [] ∧ rest.dropWhile ok = rest := by
    cases rest with
    | nil => exact ⟨rfl, rfl⟩
    | cons c rest => simp [stop c rfl]
  refine ⟨run, pos + byteLength run, ?_, rfl⟩
  rw [outcome_chars, List.takeWhile_append_of_pos h, List.dropWhile_append_of_pos h, none_left.1, none_left.2,
    List.append_nil]

theorem takes_chars1 {label : String} {ok : Char → Bool} {c : Char} {run : List Char} (h : ∀ d ∈ c :: run, ok d = true)
    (stop : ∀ d ∈ rest.head?, ok d = false) : Takes (chars1 label ok) (c :: run ++ rest) rest (· = c :: run) := by
  refine (takes_char (h c List.mem_cons_self)).bind ?_
  rintro _ rfl
  refine (takes_chars (fun d hd => h d (List.mem_cons_of_mem _ hd)) stop).bind ?_
  rintro _ rfl
  exact takes_pure rfl

theorem refuses_chars1 {label : String} {ok : Char → Bool} (h : ∀ c ∈ cs.head?, ok c = false) :
    Refuses (chars1 label ok) cs :=
  (refuses_char h).bind

theorem takes_word (w : String) : Takes (word w) (w.toList ++ cs) cs fun _ => True := by
  intro pos
  refine ⟨(), pos + w.utf8ByteSize, ?_, trivial⟩
  rw [outcome_word, stripPrefix?_eq_some_iff.2 rfl]
  rfl

theorem refuses_word {w : String} (h : ¬ w.toList <+: cs) : Refuses (word w) cs := by
  intro pos
  rw [outcome_word, Option.map_eq_none_iff, Option.eq_none_iff_forall_not_mem]
  intro rest found
  exact h ⟨rest, (stripPrefix?_eq_some_iff.1 found).symm⟩

theorem refuses_word_of_head {w : String} {c d : Char} {ws : List Char} (hw : w.toList = d :: ws) (h : c ≠ d) :
    Refuses (word w) (c :: cs) := by
  refine refuses_word ?_
  rw [hw, List.cons_prefix_cons]
  exact fun found => h found.1.symm

theorem takes_notHere (h : Refuses p cs) : Takes (notHere p) cs cs fun _ => True := by
  intro pos
  refine ⟨(), pos, ?_, trivial⟩
  rw [outcome_notHere, h pos]
  rfl

theorem Takes.refuses_notHere (h : Takes p cs rest P) : Refuses (notHere p) cs := by
  intro pos
  obtain ⟨a, pos', ha, -⟩ := h pos
  rw [outcome_notHere, ha]
  rfl

theorem Takes.quiet (h : Takes p cs rest P) : Takes (quiet p) cs rest P := h

theorem Refuses.quiet (h : Refuses p cs) : Refuses (quiet p) cs := h

theorem Takes.optional (h : Takes p cs rest P) : Takes (optional p) cs rest fun o => ∃ a, o = some a ∧ P a := by
  intro pos
  obtain ⟨a, pos', ha, hp⟩ := h pos
  exact ⟨some a, pos', by rw [outcome_optional, ha]; rfl, a, rfl, hp⟩

theorem Takes.optional_eq {a : α} (h : Takes p cs rest (· = a)) : Takes (Parser.optional p) cs rest (· = some a) :=
  h.optional.mono (by rintro _ ⟨_, rfl, rfl⟩; rfl)

theorem Refuses.optional (h : Refuses p cs) : Takes (optional p) cs cs (· = none) := by
  intro pos
  exact ⟨none, pos, by rw [outcome_optional, h pos]; rfl, rfl⟩

theorem takes_require {what : String} {a : α} (h : P a) : Takes (require what (some a)) cs cs P := takes_pure h

/-- After `n` turns the parser is at `rest` and refuses it. -/
def Loops (p : Parser α) (n : Nat) (cs rest : List Char) (P : List α → Prop) : Prop :=
  ∀ fuel pos, n ≤ fuel → ∃ l pos', repeated p fuel ⟨cs, pos⟩ = (l, ⟨rest, pos'⟩) ∧ P l

variable {n : Nat} {R : List α → Prop}

theorem Refuses.loops (h : Refuses p cs) : Loops p 0 cs cs (· = []) := by
  intro fuel pos _
  refine ⟨[], pos, ?_, rfl⟩
  cases fuel with
  | zero => rfl
  | succ fuel => rw [repeated, h pos]

theorem Takes.loops (h : Takes p cs mid P) (more : Loops p n mid rest R) :
    Loops p (n + 1) cs rest fun l => ∃ a as, l = a :: as ∧ P a ∧ R as := by
  intro fuel pos enough
  obtain ⟨a, pos', ha, hp⟩ := h pos
  cases fuel with
  | zero => omega
  | succ fuel =>
    obtain ⟨as, pos'', has, hr⟩ := more fuel pos' (by omega)
    exact ⟨a :: as, pos'', by rw [repeated, ha]; simp only [has], a, as, rfl, hp, hr⟩

theorem Loops.mono {R' : List α → Prop} (h : Loops p n cs rest R) (hR : ∀ l, R l → R' l) : Loops p n cs rest R' := by
  intro fuel pos enough
  obtain ⟨l, pos', hl, hr⟩ := h fuel pos enough
  exact ⟨l, pos', hl, hR l hr⟩

/-- A parser that reads something in every turn has no more turns than the text has characters. -/
theorem Loops.many (h : Loops p n cs rest R) (enough : n ≤ cs.length) : Takes (many p) cs rest R := by
  intro pos
  obtain ⟨l, pos', hl, hr⟩ := h (cs.length + 1) pos (Nat.le_succ_of_le enough)
  exact ⟨l, pos', by rw [outcome_many, hl], hr⟩

theorem Takes.sepBy1 {separator : Parser β} (h : Takes p cs mid P)
    (more : Loops (do let _ ← separator; p) n mid rest R) (enough : n ≤ mid.length) :
    Takes (sepBy1 p separator) cs rest fun l => ∃ a as, l = a :: as ∧ P a ∧ R as := by
  refine h.bind fun a ha => ?_
  refine (more.many enough).bind fun as has => ?_
  exact takes_pure ⟨a, as, rfl, ha, has⟩

theorem Refuses.sepBy1 {separator : Parser β} (h : Refuses p cs) : Refuses (sepBy1 p separator) cs := h.bind

inductive Turns (p : Parser α) : List Char → List α → List Char → Prop
  | stop (cs : List Char) : Turns p cs [] cs
  | turn {cs mid rest : List Char} {a : α} {l : List α} (first : Takes p cs mid (· = a)) (more : Turns p mid l rest) :
    Turns p cs (a :: l) rest

variable {a : α} {l m : List α}

theorem Turns.append (h : Turns p cs l mid) (h' : Turns p mid m rest) : Turns p cs (l ++ m) rest := by
  induction h with
  | stop cs => exact h'
  | turn first _ ih => exact .turn first (ih h')

theorem Turns.loops (h : Turns p cs l rest) (refused : Refuses p rest) : Loops p l.length cs rest (· = l) := by
  induction h with
  | stop cs => exact refused.loops
  | turn first _ ih => exact (first.loops (ih refused)).mono (by rintro _ ⟨_, _, rfl, rfl, rfl⟩; rfl)

theorem Turns.many (h : Turns p cs l rest) (refused : Refuses p rest) (enough : l.length ≤ cs.length) :
    Takes (many p) cs rest (· = l) :=
  (h.loops refused).many enough

theorem Turns.sepBy {separator : Parser β} (first : Takes p cs mid (· = a))
    (h : Turns (do let _ ← separator; p) mid l rest) (refused : Refuses (do let _ ← separator; p) rest)
    (enough : l.length ≤ mid.length) : Takes (sepBy p separator) cs rest (· = a :: l) :=
  (first.sepBy1 (h.loops refused) enough).orElse.mono (by rintro _ ⟨_, _, rfl, rfl, rfl⟩; rfl)

theorem Takes.run (h : Takes p cs [] P) : ∃ a, p.run cs = .ok a ∧ P a := by
  have whole : Takes (do let a ← p; finish; return a : Parser α) cs [] P := by
    refine h.bind fun a ha => ?_
    exact Takes.bind (P := fun _ => True) (fun pos => ⟨(), pos, rfl, trivial⟩) fun _ _ => takes_pure ha
  obtain ⟨a, pos, ha, hp⟩ := whole 0
  refine ⟨a, ?_, hp⟩
  simp only [Parser.run, ha]

theorem Refuses.run_ne (h : Refuses p cs) : p.run cs ≠ .ok a := by
  have refused : Refuses (do let a ← p; finish; return a : Parser α) cs := h.bind
  rw [Parser.run]
  simp only [refused 0]
  intro same
  cases same

theorem Takes.of_run {b : α} (h : Takes p cs rest (· = a)) (ok : p.run cs = .ok b) : rest = [] ∧ b = a := by
  cases rest with
  | nil =>
    obtain ⟨_, whole, rfl⟩ := h.run
    rw [whole] at ok
    cases ok
    exact ⟨rfl, rfl⟩
  | cons c rest =>
    have more : Refuses (do let a ← p; finish; return a : Parser α) cs :=
      h.refuses fun _ _ => Refuses.bind fun _ => rfl
    rw [Parser.run] at ok
    simp only [more 0] at ok
    cases ok

end Parser

namespace Token
open Parsing.Parser

variable {rest : List Char} {table : List (String × Char)} {special : Char → Bool}

theorem isDigit_of_mem_toDigits {n : Nat} : ∀ c ∈ Nat.toDigits 10 n, Decimal.isDigit c = true :=
  fun _ hc => Nat.isDigit_of_mem_toDigits (by decide) (by decide) hc

theorem isDigit_of_isLetter {c : Char} (h : isLetter c = true) : Decimal.isDigit c = false := by
  have bounds : ∀ a b : Char, a ≤ b ↔ a.toNat ≤ b.toNat := fun a b => UInt32.le_iff_toNat_le
  simp only [isLetter, Bool.or_eq_true, Bool.and_eq_true, decide_eq_true_eq, bounds] at h
  rw [Decimal.isDigit, Bool.and_eq_false_iff, decide_eq_false_iff_not, decide_eq_false_iff_not, bounds, bounds]
  rcases h with ⟨h, -⟩ | ⟨h, -⟩
  · exact Or.inr fun h' => absurd (Nat.le_trans h h') (by decide)
  · exact Or.inr fun h' => absurd (Nat.le_trans h h') (by decide)

theorem natOfDigits_toDigits (n : Nat) : Decimal.natOfDigits (Nat.toDigits 10 n) = n := Nat.ofDigitChars_ten_toDigits

theorem takes_digits {ds : List Char} (nonempty : ds ≠ []) (h : ∀ c ∈ ds, Decimal.isDigit c = true)
    (stop : ∀ c ∈ rest.head?, Decimal.isDigit c = false) : Takes digits (ds ++ rest) rest (· = ds) := by
  obtain ⟨d, ds, rfl⟩ := List.exists_cons_of_ne_nil nonempty
  exact takes_chars1 h stop

def escaped (special : Char → Bool) (cs : List Char) : List Char :=
  cs.flatMap fun c => if special c then ['\\', c] else [c]

theorem escaped_of_special {c : Char} (h : special c = true) (cs : List Char) :
    escaped special (c :: cs) = '\\' :: c :: escaped special cs := by
  rw [escaped, List.flatMap_cons, if_pos h]
  rfl

theorem escaped_of_plain {c : Char} (h : ¬ special c = true) (cs : List Char) :
    escaped special (c :: cs) = c :: escaped special cs := by
  rw [escaped, List.flatMap_cons, if_neg h]
  rfl

theorem le_length_escaped (cs : List Char) : cs.length ≤ (escaped special cs).length := by
  induction cs with
  | nil => exact Nat.le_refl 0
  | cons c cs ih =>
    by_cases h : special c = true
    · rw [escaped_of_special h]
      exact Nat.le_succ_of_le (Nat.succ_le_succ ih)
    · rw [escaped_of_plain h]
      exact Nat.succ_le_succ ih

/-- Every escape of the table is a backslash before a character that is not special. -/
def Spares (special : Char → Bool) (table : List (String × Char)) : Prop :=
  ∀ e ∈ table, ∃ c, e.1.toList = ['\\', c] ∧ special c = false

theorem spares_of_shape (shape : ∀ e ∈ table, e.1.toList = ['\\', e.1.toList.getD 1 ' ']) : Spares (fun _ => false) table :=
  fun e he => ⟨_, shape e he, rfl⟩

theorem takes_escape (spares : Spares special table) {c : Char} (h : special c = true) :
    Takes (escape table) ('\\' :: c :: rest) rest (· = c) := by
  induction table with
  | nil =>
    refine Takes.bind (takes_word "\\") fun _ _ => ?_
    exact takes_char rfl
  | cons e table ih =>
    obtain ⟨d, hd, plain⟩ := spares e List.mem_cons_self
    refine Refuses.orElse (Refuses.bind (refuses_word ?_)) (ih fun e he => spares e (List.mem_cons_of_mem _ he))
    rw [hd]
    intro found
    obtain ⟨rfl, -⟩ := List.cons_prefix_cons.1 (List.cons_prefix_cons.1 found).2
    rw [h] at plain
    cases plain

theorem refuses_escape (spares : Spares special table) {cs : List Char} (h : ∀ c ∈ cs.head?, c ≠ '\\') :
    Refuses (escape table) cs := by
  have refused : ∀ w : List Char, ¬ '\\' :: w <+: cs := by
    rintro w ⟨rest, rfl⟩
    exact h '\\' rfl rfl
  induction table with
  | nil => exact Refuses.bind (refuses_word (refused []))
  | cons e table ih =>
    obtain ⟨d, hd, -⟩ := spares e List.mem_cons_self
    refine Refuses.or (Refuses.bind (refuses_word ?_)) (ih fun e he => spares e (List.mem_cons_of_mem _ he))
    rw [hd]
    exact refused [d]

theorem toList_toString (c : Char) : c.toString.toList = [c] := by simp [Char.toString]

theorem takes_quote (quote : Char) (rest : List Char) :
    Takes (word quote.toString) (quote :: rest) rest fun _ => True := by
  have taken : Takes (word quote.toString) (quote.toString.toList ++ rest) rest fun _ => True :=
    takes_word quote.toString
  rwa [toList_toString] at taken

theorem refuses_quote {quote : Char} {cs : List Char} (h : ∀ c ∈ cs.head?, c ≠ quote) :
    Refuses (word quote.toString) cs := by
  refine refuses_word ?_
  rw [toList_toString]
  rintro ⟨rest, rfl⟩
  exact h quote rfl rfl

/-- Characters that have a backslash before them between two quotes: the quote and the backslash, and possibly others that
no escape of the table has a meaning for. -/
structure Escaping (table : List (String × Char)) (quote : Char) (special : Char → Bool) : Prop where
  quote : special quote = true
  backslash : special '\\' = true
  spares : Spares special table

theorem takes_quoted {quote : Char} (h : Escaping table quote special) (hne : quote ≠ '\\') (label s : String) :
    Takes (quoted table quote label) (quote :: (escaped special s.toList ++ quote :: rest)) rest (· = s) := by
  obtain ⟨hq, hb, spares⟩ := h
  have body (cs : List Char) : Loops (escape table <|> char label (· != quote)) cs.length
      (escaped special cs ++ quote :: rest) (quote :: rest) (· = cs) := by
    induction cs with
    | nil =>
      refine Refuses.loops (Refuses.or (refuses_escape spares ?_) (refuses_char ?_))
      · rintro c ⟨⟩
        exact hne
      · rintro c ⟨⟩
        exact bne_self_eq_false quote
    | cons c cs ih =>
      refine Loops.mono (R := fun l => ∃ a as, l = a :: as ∧ a = c ∧ as = cs) ?_
        (by rintro _ ⟨_, _, rfl, rfl, rfl⟩; rfl)
      by_cases h : special c = true
      · rw [escaped_of_special h]
        exact Takes.loops (Takes.orElse (takes_escape spares h)) ih
      · rw [escaped_of_plain h]
        have plain : c ≠ '\\' ∧ c ≠ quote := ⟨fun e => h (e ▸ hb), fun e => h (e ▸ hq)⟩
        refine Takes.loops (Refuses.orElse (refuses_escape spares ?_) (takes_char ?_)) ih
        · rintro d ⟨⟩
          exact plain.1
        · exact bne_iff_ne.2 plain.2
  have enough : s.toList.length ≤ (escaped special s.toList ++ quote :: rest).length := by
    rw [List.length_append]
    exact Nat.le_add_right_of_le (le_length_escaped s.toList)
  refine (takes_quote quote _).bind fun _ _ => ((body s.toList).many enough).bind ?_
  rintro _ rfl
  exact (takes_quote quote _).bind fun _ _ => takes_pure String.ofList_toList

end Token
end TextGrammar.Parsing
