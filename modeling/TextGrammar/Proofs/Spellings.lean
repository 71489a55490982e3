import TextGrammar.Grammar.Reading
import TextGrammar.Proofs.ParserProgress
set_option autoImplicit false

namespace TextGrammar.Grammar
open Parsing Parser Token

variable {rest cs : List Char}

/-- Neither a blank nor a comment begins here. -/
def Solid (cs : List Char) : Prop :=
  (∀ c ∈ cs.head?, isBlank c = false) ∧ ∀ w ∈ ["//", "--", "/*"], ¬ w.toList <+: cs

theorem Solid.refuses (h : Solid cs) : Refuses (blanks <|> comment) cs := by
  obtain ⟨blank, comments⟩ := h
  have word {w : String} (hw : w ∈ ["//", "--", "/*"]) : Refuses (word w) cs := refuses_word (comments w hw)
  refine Refuses.or (refuses_chars1 blank).bind (Refuses.or (Refuses.bind ?_) (word (by decide)).bind)
  exact (word (by decide)).or (word (by decide))

theorem Solid.takes_layout (h : Solid cs) : Takes layout cs cs fun _ => True :=
  Takes.quiet ((h.refuses.loops.many (Nat.zero_le _)).bind fun _ _ => takes_pure trivial)

theorem solid_of_head {c : Char} (blank : isBlank c = false) (slash : c ≠ '/') (dash : c ≠ '-') : Solid (c :: cs) := by
  refine ⟨?_, fun w hw found => ?_⟩
  · rintro d ⟨⟩
    exact blank
  · have heads : ∀ w ∈ ["//", "--", "/*"], w.toList.head? = some '/' ∨ w.toList.head? = some '-' := by decide
    obtain ⟨more, text⟩ := found
    rcases heads w hw with head | head
    all_goals
      obtain ⟨tail, htail⟩ := List.head?_eq_some_iff.1 head
      rw [htail] at text
      have same := (List.cons.inj text).1
    · exact slash same.symm
    · exact dash same.symm

theorem solid_nil : Solid [] := by
  have nonempty : ∀ w ∈ ["//", "--", "/*"], w.toList ≠ [] := by decide
  exact ⟨nofun, fun w hw found => nonempty w hw (List.prefix_nil.1 found)⟩

theorem Solid.takes_blank (h : Solid cs) : Takes (blanks <|> comment) (' ' :: cs) cs fun _ => True := by
  have blank : Takes (chars1 "" isBlank) ([' '] ++ cs) cs (· = [' ']) := takes_chars1 (by simp [isBlank]) h.1
  exact Takes.orElse (blank.bind fun _ _ => takes_pure trivial)

theorem Solid.takes_layout_blank (h : Solid cs) : Takes layout (' ' :: cs) cs fun _ => True := by
  have turn := (h.takes_blank.loops h.refuses.loops).many (Nat.succ_pos _)
  exact Takes.quiet (turn.bind fun _ _ => takes_pure trivial)

theorem takes_gap (h : Solid cs) : Takes gap (' ' :: cs) cs fun _ => True := by
  have some : Takes (many1 (blanks <|> comment)) (' ' :: cs) cs fun _ => True :=
    h.takes_blank.bind fun _ _ => (h.refuses.loops.many (Nat.zero_le _)).bind fun _ _ => takes_pure trivial
  exact Takes.quiet (some.bind fun _ _ => takes_pure trivial)

def Quotable (s : String) : Prop := ∀ c ∈ s.toList, c ≠ '`'

instance : DecidablePred Quotable := fun s => List.decidableBAll (· ≠ '`') s.toList

def quotedName (s : String) : List Char := '`' :: (s.toList ++ ['`'])

theorem takes_quotedName {s : String} (h : Quotable s) : Takes name (quotedName s ++ rest) rest (· = s) := by
  have text : quotedName s ++ rest = "`".toList ++ (s.toList ++ ("`".toList ++ rest)) := by
    rw [quotedName, List.cons_append, List.append_assoc]
    rfl
  rw [text]
  refine Takes.orElse ((takes_word "`").bind fun _ _ => ?_)
  refine (takes_chars (fun c hc => bne_iff_ne.2 (h c hc)) ?_).bind ?_
  · rintro c ⟨⟩
    exact bne_self_eq_false _
  · rintro _ rfl
    exact (takes_word "`").bind fun _ _ => takes_pure (String.ofList_toList)

theorem takes_bareName {c : Char} {run : List Char} (start : isNameStart c = true)
    (more : ∀ d ∈ run, isNameChar d = true) (stop : ∀ d ∈ rest.head?, isNameChar d = false) :
    Takes name (c :: (run ++ rest)) rest (· = String.ofList (c :: run)) := by
  have unquoted : c ≠ '`' := by
    rintro rfl
    exact absurd start (by decide)
  refine Refuses.orElse (Refuses.bind (refuses_word_of_head rfl unquoted)) (Takes.orElse (Takes.quiet ?_))
  refine (takes_char start).bind ?_
  rintro _ rfl
  refine (takes_chars more stop).bind ?_
  rintro _ rfl
  exact takes_pure rfl

theorem refuses_name (h : ∀ c ∈ cs.head?, c ≠ '`' ∧ isNameStart c = false) : Refuses name cs := by
  refine Refuses.or (Refuses.bind ?_)
    (Refuses.or (Refuses.quiet (refuses_char fun c hc => (h c hc).2).bind) fun _ => rfl)
  cases cs with
  | nil => exact fun _ => rfl
  | cons c cs => exact refuses_word_of_head rfl (h c rfl).1

/-- A text in double quotes, with a backslash before every character that is special. -/
def quotedText (special : Char → Bool) (s : String) : List Char := '"' :: (escaped special s.toList ++ ['"'])

theorem takes_literal {special : Char → Bool} (h : Escaping escapes '"' special) (s : String) :
    Takes literal (quotedText special s ++ rest) rest (· = s) := by
  have text : quotedText special s ++ rest = '"' :: (escaped special s.toList ++ '"' :: rest) := by simp [quotedText]
  rw [text]
  exact (takes_quoted h (by decide) _ s).orElse

theorem refuses_literal (h : ∀ c ∈ cs.head?, c ≠ '"' ∧ c ≠ '\'' ∧ c ≠ 'U') : Refuses literal cs := by
  cases cs with
  | nil => exact fun _ => rfl
  | cons c cs =>
    obtain ⟨double, single, point⟩ := h c rfl
    refine Refuses.or (Refuses.bind (refuses_word_of_head rfl double)) (Refuses.or (Refuses.bind ?_) (Refuses.bind ?_))
    · exact refuses_word_of_head rfl single
    · exact refuses_word_of_head rfl point

/-- The texts that can stand in a block: every brace is closed, braces behind a backslash apart, and no backslash stands at
the end. -/
inductive Balanced : List Char → Prop
  | nil : Balanced []
  | escape (c : Char) {cs : List Char} (more : Balanced cs) : Balanced ('\\' :: c :: cs)
  | plain {c : Char} {cs : List Char} (h : isPlain c = true) (more : Balanced cs) : Balanced (c :: cs)
  | braces {inner cs : List Char} (h : Balanced inner) (more : Balanced cs) :
      Balanced ('\x7b' :: (inner ++ '\x7d' :: cs))

theorem Balanced.append {ds : List Char} (h : Balanced cs) (h' : Balanced ds) : Balanced (cs ++ ds) := by
  induction h with
  | nil => exact h'
  | escape c _ ih => exact .escape c ih
  | plain hc _ ih => exact .plain hc ih
  | braces inner _ _ ih =>
    rw [List.cons_append, List.append_assoc, List.cons_append]
    exact .braces inner ih

theorem balanced_plain {run : List Char} (h : ∀ c ∈ run, isPlain c = true) : Balanced run := by
  induction run with
  | nil => exact .nil
  | cons c run ih => exact .plain (h c List.mem_cons_self) (ih fun d hd => h d (List.mem_cons_of_mem _ hd))

theorem Balanced.behind {c : Char} (h : isPlain c = true) (balanced : Balanced (c :: cs)) : Balanced cs := by
  cases balanced with
  | escape d _ => exact absurd h (by decide)
  | plain _ more => exact more
  | braces _ _ => exact absurd h (by decide)

theorem Balanced.behind_run {run : List Char} (h : ∀ c ∈ run, isPlain c = true) (balanced : Balanced (run ++ cs)) :
    Balanced cs := by
  induction run with
  | nil => exact balanced
  | cons c run ih =>
    exact ih (fun d hd => h d (List.mem_cons_of_mem _ hd)) (balanced.behind (h c List.mem_cons_self))

theorem Balanced.split_run {c : Char} (hc : isPlain c = true) (balanced : Balanced cs) : ∃ run behind,
    cs = run ++ behind ∧ (∀ d ∈ c :: run, isPlain d = true) ∧ Balanced behind ∧
      ∀ d ∈ behind.head?, isPlain d = false := by
  have run : ∀ d ∈ cs.takeWhile isPlain, isPlain d = true := List.all_eq_true.1 List.all_takeWhile
  refine ⟨cs.takeWhile isPlain, cs.dropWhile isPlain, List.takeWhile_append_dropWhile.symm,
    List.forall_mem_cons.2 ⟨hc, run⟩, ?_, ?_⟩
  · rw [← List.takeWhile_append_dropWhile (p := isPlain) (l := cs)] at balanced
    exact balanced.behind_run run
  · cases hd : cs.dropWhile isPlain with
    | nil => exact nofun
    | cons d more =>
      have first := List.head?_dropWhile_not isPlain cs
      rw [hd] at first
      rintro _ ⟨⟩
      exact first

def part (depth : Nat) : Parser (List Char) :=
  (do word "\\"; let c ← anyChar; return ['\\', c])
  <|> chars1 "[^ '\x7b' | '\x7d' | '\\\\']" isPlain
  <|> (do word "\x7b"; let cs ← code depth; word "\x7d"; return '\x7b' :: cs ++ ['\x7d'])

theorem code_succ (depth : Nat) : code (depth + 1) = (do let parts ← many (part depth); return parts.flatten) := rfl

theorem refuses_part_close (depth : Nat) : Refuses (part depth) ('\x7d' :: rest) := by
  refine Refuses.or (Refuses.bind (refuses_word_of_head rfl (by decide))) (Refuses.or (refuses_chars1 ?_) ?_)
  · rintro c ⟨⟩
    decide
  · exact Refuses.bind (refuses_word_of_head rfl (by decide))

theorem takes_run {depth : Nat} {c : Char} {run : List Char} (h : ∀ d ∈ c :: run, isPlain d = true)
    (stop : ∀ d ∈ rest.head?, isPlain d = false) : Takes (part depth) (c :: run ++ rest) rest (· = c :: run) := by
  have backslash : c ≠ '\\' := by
    rintro rfl
    exact absurd (h _ List.mem_cons_self) (by decide)
  exact Refuses.orElse (Refuses.bind (refuses_word_of_head rfl backslash)) (Takes.orElse (takes_chars1 h stop))

theorem takes_braces {depth : Nat} {inner : List Char}
    (h : Takes (code depth) (inner ++ '\x7d' :: rest) ('\x7d' :: rest) (· = inner)) :
    Takes (part depth) ('\x7b' :: (inner ++ '\x7d' :: rest)) rest (· = '\x7b' :: inner ++ ['\x7d']) := by
  refine Refuses.orElse (Refuses.bind (refuses_word_of_head rfl (by decide))) (Refuses.orElse (refuses_chars1 ?_) ?_)
  · rintro c ⟨⟩
    decide
  · refine Takes.bind (takes_word "\x7b") fun _ _ => h.bind ?_
    rintro _ rfl
    exact Takes.bind (takes_word "\x7d") fun _ _ => takes_pure rfl

/-- The parts of a balanced text, with a whole run of plain characters as one of them. The induction is on the length, as a
run is passed at once. -/
theorem loops_parts {depth : Nat} (inner : ∀ ds rest, Balanced ds → ds.length < depth →
      Takes (code depth) (ds ++ '\x7d' :: rest) ('\x7d' :: rest) (· = ds)) (length : Nat) :
    ∀ cs, Balanced cs → cs.length ≤ length → length ≤ depth → ∃ n, n ≤ cs.length ∧
      Loops (part depth) n (cs ++ '\x7d' :: rest) ('\x7d' :: rest) (·.flatten = cs) := by
  have stop : ∃ n, n ≤ ([] : List Char).length ∧
      Loops (part depth) n ([] ++ '\x7d' :: rest) ('\x7d' :: rest) (·.flatten = []) :=
    ⟨0, Nat.le_refl 0, (refuses_part_close depth).loops.mono (by rintro _ rfl; rfl)⟩
  induction length with
  | zero =>
    intro cs _ hcs _
    obtain rfl := List.eq_nil_of_length_eq_zero (Nat.le_zero.1 hcs)
    exact stop
  | succ length ih =>
    intro cs h hcs enough
    -- One part is taken, and the rest is shorter.
    have turn {t more : List Char}
        (taken : Takes (part depth) (t ++ (more ++ '\x7d' :: rest)) (more ++ '\x7d' :: rest) (· = t))
        (nonempty : 0 < t.length) (balanced : Balanced more) (hcs : (t ++ more).length ≤ length + 1) :
        ∃ n, n ≤ (t ++ more).length ∧
          Loops (part depth) n (t ++ more ++ '\x7d' :: rest) ('\x7d' :: rest) (·.flatten = t ++ more) := by
      rw [List.length_append] at hcs ⊢
      obtain ⟨n, hn, others⟩ := ih more balanced (by omega) (by omega)
      rw [List.append_assoc]
      refine ⟨n + 1, by omega, (taken.loops others).mono ?_⟩
      rintro _ ⟨_, _, rfl, rfl, rfl⟩
      rw [List.flatten_cons]
    cases h with
    | nil => exact stop
    | escape c more =>
      refine turn (t := ['\\', c]) (Takes.orElse ?_) (Nat.succ_pos _) more hcs
      refine Takes.bind (takes_word "\\") fun _ _ => Takes.bind (takes_char rfl) ?_
      rintro _ rfl
      exact takes_pure rfl
    | plain hc more =>
      obtain ⟨run, behind, rfl, plain, balanced, stops⟩ := more.split_run hc
      refine turn (takes_run plain ?_) (Nat.succ_pos _) balanced hcs
      cases behind with
      | nil =>
        rintro d ⟨⟩
        decide
      | cons d behind =>
        rintro _ ⟨⟩
        exact stops d rfl
    | @braces ds more hds hmore =>
      have text : '\x7b' :: (ds ++ '\x7d' :: more) = ('\x7b' :: ds ++ ['\x7d']) ++ more := by simp
      rw [text] at hcs ⊢
      refine turn ?_ (Nat.succ_pos _) hmore hcs
      have shorter : ds.length < depth := by
        simp only [List.length_append, List.length_cons, List.length_nil] at hcs
        omega
      simpa using takes_braces (inner ds (more ++ '\x7d' :: rest) hds shorter)

theorem takes_code (depth : Nat) : ∀ cs rest, Balanced cs → cs.length < depth →
    Takes (code depth) (cs ++ '\x7d' :: rest) ('\x7d' :: rest) (· = cs) := by
  induction depth with
  | zero => exact fun _ _ _ h => absurd h (Nat.not_lt_zero _)
  | succ depth ih =>
    intro cs rest h enough
    obtain ⟨n, hn, loops⟩ := loops_parts ih cs.length cs h (Nat.le_refl _) (Nat.le_of_lt_succ enough)
    rw [code_succ]
    refine (loops.many ?_).bind fun parts hparts => takes_pure hparts
    rw [List.length_append]
    omega

theorem takes_block (opening : String) {s : String} (h : Balanced s.toList) :
    Takes (block opening) (opening.toList ++ (s.toList ++ '\x7d' :: rest)) rest (· = s) := by
  refine (takes_word opening).bind fun _ _ => ?_
  have inside : Takes blockCode (s.toList ++ '\x7d' :: rest) ('\x7d' :: rest) (· = s) := by
    have enough : s.toList.length < (s.toList ++ '\x7d' :: rest).length + 1 := by
      rw [List.length_append]
      omega
    have mapped :
        Takes (do let cs ← code ((s.toList ++ '\x7d' :: rest).length + 1); return String.ofList cs : Parser String)
        (s.toList ++ '\x7d' :: rest) ('\x7d' :: rest) (· = s) := by
      refine (takes_code _ _ rest h enough).bind ?_
      rintro _ rfl
      exact takes_pure String.ofList_toList
    exact mapped
  refine inside.bind ?_
  rintro _ rfl
  exact Takes.bind (takes_word "\x7d") fun _ _ => takes_pure rfl

end TextGrammar.Grammar
