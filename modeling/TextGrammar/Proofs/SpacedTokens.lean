import Mathlib.Data.List.Chain
import TextGrammar.Proofs.Numerals
import TextGrammar.Proofs.BlockQuotes
set_option autoImplicit false

/-!
# Tokens and what stands between them

Layout is made of blanks and comments. A text has some tokens apart from each other if layout that begins with a blank
stands between any two of them.
-/
namespace TextGrammar.Grammar
open Parsing Parser Token

/-- Blanks and whole comments, in any order. A line comment is whole with the end of its line. -/
inductive Layout : List Char → Prop
  | nil : Layout []
  | blank {c : Char} {cs : List Char} (h : isBlank c = true) (more : Layout cs) : Layout (c :: cs)
  | line {c : Char} {cs more : List Char} (hc : c ∈ ['/', '-']) (h : '\n' ∉ cs) (behind : Layout more) :
      Layout (c :: c :: (cs ++ '\n' :: more))
  | block {cs more : List Char} (h : ¬ ['*', '/'] <:+: cs) (behind : Layout more) :
      Layout ('/' :: '*' :: (cs ++ '*' :: '/' :: more))

variable {cs g rest t : List Char} {ts : List (List Char)} {c d : Char}

theorem Layout.split_blanks (h : Layout g) : ∃ run more, g = run ++ more ∧ (∀ c ∈ run, isBlank c = true) ∧ Layout more ∧
    ∀ c ∈ more.head?, isBlank c = false := by
  induction h with
  | nil => exact ⟨[], [], rfl, nofun, .nil, nofun⟩
  | blank h _ ih =>
    obtain ⟨run, more, rfl, blank, layout, stop⟩ := ih
    exact ⟨_ :: run, more, rfl, List.forall_mem_cons.2 ⟨h, blank⟩, layout, stop⟩
  | line hc h behind _ =>
    have plain : ∀ c ∈ ['/', '-'], isBlank c = false := forall_mem_of_all (by decide)
    refine ⟨[], _, rfl, nofun, .line hc h behind, ?_⟩
    rintro _ ⟨⟩
    exact plain _ hc
  | block h behind _ =>
    refine ⟨[], _, rfl, nofun, .block h behind, ?_⟩
    rintro _ ⟨⟩
    rfl

theorem refuses_blanks (h : ∀ c ∈ cs.head?, isBlank c = false) : Refuses blanks cs := (refuses_chars1 h).bind

theorem takes_blanks {run : List Char} (h : ∀ d ∈ c :: run, isBlank d = true) (stop : ∀ d ∈ rest.head?, isBlank d = false) :
    Takes (blanks <|> comment) (c :: run ++ rest) rest fun _ => True :=
  Takes.orElse ((takes_chars1 h stop).bind fun _ _ => takes_pure trivial)

theorem takes_lineComment (hc : c ∈ ['/', '-']) (h : '\n' ∉ cs) :
    Takes (blanks <|> comment) (c :: c :: (cs ++ '\n' :: rest)) ('\n' :: rest) fun _ => True := by
  have tail : Takes (do let _ ← chars "" (· != '\n') : Parser Unit) (cs ++ '\n' :: rest) ('\n' :: rest) fun _ => True := by
    refine (takes_chars (fun d hd => bne_iff_ne.2 (ne_of_mem_of_not_mem hd h)) ?_).bind fun _ _ => takes_pure trivial
    rintro _ ⟨⟩
    rfl
  have opening : Takes (word "//" <|> word "--") (c :: c :: (cs ++ '\n' :: rest)) (cs ++ '\n' :: rest) fun _ => True := by
    simp only [List.mem_cons, List.not_mem_nil, or_false] at hc
    rcases hc with rfl | rfl
    · exact (takes_word "//").orElse
    · exact Refuses.orElse (refuses_word_of_head rfl (by decide)) (takes_word "--")
  have plain : ∀ c ∈ ['/', '-'], isBlank c = false := forall_mem_of_all (by decide)
  refine Refuses.orElse (refuses_blanks ?_) (Takes.orElse (opening.bind fun _ _ => tail))
  rintro _ ⟨⟩
  exact plain c hc

theorem takes_blockComment (h : ¬ ['*', '/'] <:+: cs) :
    Takes (blanks <|> comment) ('/' :: '*' :: (cs ++ '*' :: '/' :: rest)) rest fun _ => True := by
  have closing : Takes (word "*/") ('*' :: '/' :: rest) rest fun _ => True := takes_word "*/"
  have inside : Loops (do notHere (word "*/"); anyChar) cs.length (cs ++ '*' :: '/' :: rest) ('*' :: '/' :: rest)
      fun _ => True := by
    induction cs with
    | nil => exact (Refuses.bind closing.refuses_notHere).loops.mono fun _ _ => trivial
    | cons c cs ih =>
      -- What closes the comment does not begin inside of it, not even with its last character.
      have open_still : Refuses (word "*/") (c :: cs ++ '*' :: '/' :: rest) := by
        refine refuses_word fun found => ?_
        have both : ['*', '/'] <+: c :: (cs ++ '*' :: '/' :: rest) := found
        obtain ⟨rfl, second⟩ := List.cons_prefix_cons.1 both
        cases cs with
        | nil => exact absurd (List.cons_prefix_cons.1 second).1 (by decide)
        | cons d cs =>
          obtain ⟨rfl, -⟩ := List.cons_prefix_cons.1 second
          exact h ⟨[], cs, rfl⟩
      have one : Takes (do notHere (word "*/"); anyChar) (c :: cs ++ '*' :: '/' :: rest) (cs ++ '*' :: '/' :: rest)
          fun _ => True :=
        (takes_notHere open_still).bind fun _ _ => (takes_char rfl).mono fun _ _ => trivial
      exact (one.loops (ih fun found => h (found.trans (List.suffix_cons c cs).isInfix))).mono fun _ _ => trivial
  have no_line : Refuses lineComment ('/' :: '*' :: (cs ++ '*' :: '/' :: rest)) := by
    refine Refuses.bind (Refuses.or (refuses_word fun found => ?_) (refuses_word_of_head rfl (by decide)))
    have both : ['/', '/'] <+: '/' :: '*' :: (cs ++ '*' :: '/' :: rest) := found
    exact absurd (List.cons_prefix_cons.1 (List.cons_prefix_cons.1 both).2).1 (by decide)
  have opening : Takes (word "/*") ('/' :: '*' :: (cs ++ '*' :: '/' :: rest)) (cs ++ '*' :: '/' :: rest) fun _ => True :=
    takes_word "/*"
  refine Refuses.orElse (refuses_blanks ?_) (Refuses.orElse no_line (opening.bind fun _ _ => ?_))
  · rintro _ ⟨⟩
    rfl
  · refine (inside.many ?_).bind fun _ _ => closing
    rw [List.length_append]
    exact Nat.le_add_right _ _

/-- One turn reads a whole run of blanks, or a comment up to its end, and what is left is layout again. -/
theorem Layout.takes_turn (h : Layout g) (some : g ≠ []) (stop : ∀ c ∈ rest.head?, isBlank c = false) :
    ∃ more, Layout more ∧ more.length < g.length ∧ Takes (blanks <|> comment) (g ++ rest) (more ++ rest) fun _ => True := by
  cases h with
  | nil => exact absurd rfl some
  | @blank c _ hc more =>
    obtain ⟨run, behind, rfl, blank, layout, ends⟩ := more.split_blanks
    refine ⟨behind, layout, by simp only [List.length_cons, List.length_append]; omega, ?_⟩
    have ends' : ∀ d ∈ (behind ++ rest).head?, isBlank d = false := by
      cases behind with
      | nil => exact stop
      | cons d behind => exact ends
    have text : c :: (run ++ behind) ++ rest = c :: run ++ (behind ++ rest) := by simp
    rw [text]
    exact takes_blanks (List.forall_mem_cons.2 ⟨hc, blank⟩) ends'
  | @line c cs more hc h behind =>
    refine ⟨'\n' :: more, .blank rfl behind, by simp only [List.length_cons, List.length_append]; omega, ?_⟩
    have text : c :: c :: (cs ++ '\n' :: more) ++ rest = c :: c :: (cs ++ '\n' :: (more ++ rest)) := by simp
    rw [text]
    exact takes_lineComment hc h
  | @block cs more h behind =>
    refine ⟨more, behind, by simp only [List.length_cons, List.length_append]; omega, ?_⟩
    have text : '/' :: '*' :: (cs ++ '*' :: '/' :: more) ++ rest = '/' :: '*' :: (cs ++ '*' :: '/' :: (more ++ rest)) := by
      simp
    rw [text]
    exact takes_blockComment h

theorem Layout.takes_many (h : Layout g) (solid : Solid rest) :
    Takes (many (blanks <|> comment)) (g ++ rest) rest fun _ => True := by
  have loops : ∃ n ≤ g.length, Loops (blanks <|> comment) n (g ++ rest) rest fun _ => True := by
    induction size : g.length using Nat.strongRecOn generalizing g with
    | ind n ih =>
      by_cases some : g = []
      · subst some
        exact ⟨0, Nat.zero_le _, solid.refuses.loops.mono fun _ _ => trivial⟩
      · obtain ⟨more, layout, shorter, first⟩ := h.takes_turn some solid.1
        obtain ⟨m, hm, loops⟩ := ih more.length (size ▸ shorter) layout rfl
        exact ⟨m + 1, by omega, (first.loops loops).mono fun _ _ => trivial⟩
  obtain ⟨n, hn, loops⟩ := loops
  refine loops.many ?_
  rw [List.length_append]
  exact Nat.le_add_right_of_le hn

theorem Layout.takes (h : Layout g) (solid : Solid rest) : Takes layout (g ++ rest) rest fun _ => True :=
  Takes.quiet ((h.takes_many solid).bind fun _ _ => takes_pure trivial)

theorem Layout.takes_gap (h : Layout g) (some : g ≠ []) (solid : Solid rest) : Takes gap (g ++ rest) rest fun _ => True := by
  obtain ⟨more, layout, -, first⟩ := h.takes_turn some solid.1
  have turns : Takes (many1 (blanks <|> comment)) (g ++ rest) rest fun _ => True :=
    first.bind fun _ _ => (layout.takes_many solid).bind fun _ _ => takes_pure trivial
  exact Takes.quiet (turns.bind fun _ _ => takes_pure trivial)

def quotes : List Char := ['"', '\'']

/-- What can stand between two quotes of one kind. A backslash takes the next character with it. -/
inductive Enclosed (quote : Char) : List Char → Prop
  | nil : Enclosed quote []
  | escape (c : Char) {cs : List Char} (more : Enclosed quote cs) : Enclosed quote ('\\' :: c :: cs)
  | plain {c : Char} {cs : List Char} (hq : c ≠ quote) (hb : c ≠ '\\') (more : Enclosed quote cs) :
      Enclosed quote (c :: cs)

inductive Numeral : List Char → Prop
  | mk {negative : Bool} {whole : List Char} {fraction : Option (List Char)} {power : Option Int} {s f p : List Char}
    (hs : SpellsSign negative s) (hw : AllDigits whole) (hf : SpellsFraction fraction f) (hp : SpellsPower power p) :
    Numeral (s ++ (whole ++ (f ++ p)))

def signs : List String := ["=", ";", "(", ")", "[", "]", "|", "/", "*", "+", "?", "...", "%"]

def blockOf (cs : List Char) : List Char := '\x7b' :: (cs ++ ['\x7d'])

inductive IsToken : List Char → Prop
  | quoted {quote : Char} {cs : List Char} (h : quote ∈ quotes) (inside : Enclosed quote cs) :
      IsToken (quote :: (cs ++ [quote]))
  | codePoint {hs : List Char} (nonempty : hs ≠ []) (h : ∀ c ∈ hs, isHexDigit c = true) : IsToken ('U' :: '+' :: hs)
  | number {cs : List Char} (h : Numeral cs) : IsToken cs
  | tag {cs percent : List Char} (h : Numeral cs) (hp : percent ∈ [[], ['%']]) : IsToken ('[' :: (cs ++ (percent ++ [']'])))
  | name {c : Char} {run : List Char} (start : isNameStart c = true) (more : ∀ d ∈ run, isNameChar d = true) :
      IsToken (c :: run)
  | quotedName {s : String} (h : Quotable s) : IsToken (quotedName s)
  | block {cs : List Char} (h : Balanced cs) : IsToken (blockOf cs)
  | sign {s : String} (h : s ∈ signs) : IsToken s.toList

def Edge (rest : List Char) : Prop := ∀ c ∈ rest.head?, isBlank c = true

theorem edge_nil : Edge [] := nofun

theorem edge_cons (h : isBlank c = true) : Edge (c :: cs) := by
  rintro _ ⟨⟩
  exact h

/-- A text has these tokens one after the other, with layout between them that begins with a blank. Layout may also stand
before the first and behind the last one. -/
inductive Spaced : List (List Char) → List Char → Prop
  | nil {g : List Char} (h : Layout g) : Spaced [] g
  | cons {t g rest : List Char} {ts : List (List Char)} (h : Layout g) (edge : Edge rest) (more : Spaced ts rest) :
      Spaced (t :: ts) (g ++ (t ++ rest))

theorem Spaced.le_length (h : Spaced ts cs) : ts.flatten.length ≤ cs.length := by
  induction h with
  | nil _ => exact Nat.zero_le _
  | cons _ _ _ ih =>
    rw [List.flatten_cons, List.length_append, List.length_append, List.length_append]
    omega

def isMark (c : Char) : Bool := isHexDigit c || ['U', '+', '-', '.', '%', '[', ']', '=', ';', '(', ')', '|', '/', '*', '?'].contains c

def opens (c d : Char) : Bool := c == '/' && (d == '/' || d == '*') || c == '-' && d == '-'

structure Plain (cs : List Char) : Prop where
  marks : ∀ c ∈ cs, isMark c = true
  apart : cs.IsChain fun c d => opens c d = false

theorem plain_nil : Plain [] := ⟨nofun, .nil⟩

theorem Plain.cons (h : Plain cs) (mark : isMark c = true) (apart : ∀ d ∈ cs.head?, opens c d = false) : Plain (c :: cs) :=
  ⟨List.forall_mem_cons.2 ⟨mark, h.marks⟩, h.apart.cons apart⟩

theorem Plain.suffix (h : Plain cs) (suffix : t <:+ cs) : Plain t :=
  ⟨fun c hc => h.marks c (suffix.subset hc), h.apart.suffix suffix⟩

theorem isBlank_cases (h : isBlank c = true) : c ∈ [' ', '\n', '\t', '\r'] := by
  simp only [isBlank, Bool.or_eq_true, beq_iff_eq] at h
  simp only [List.mem_cons, List.not_mem_nil, or_false]
  rcases h with ((h | h) | h) | h <;> simp [h]

theorem not_isMark_of_isBlank (h : isBlank c = true) : isMark c = false := by
  have all : ∀ c ∈ [' ', '\n', '\t', '\r'], isMark c = false := forall_mem_of_all (by decide)
  exact all c (isBlank_cases h)

theorem isBlank_of_isMark (h : isMark c = true) : isBlank c = false := by
  rw [Bool.eq_false_iff]
  intro blank
  rw [not_isMark_of_isBlank blank] at h
  cases h

theorem ne_of_isMark (h : isMark c = true) (hd : isMark d = false) : c ≠ d := by
  rintro rfl
  rw [h] at hd
  cases hd

theorem Plain.solid (h : Plain cs) (nonempty : cs ≠ []) (edge : Edge rest) : Solid (cs ++ rest) := by
  obtain ⟨c, more, rfl⟩ := List.exists_cons_of_ne_nil nonempty
  refine ⟨?_, fun w hw found => ?_⟩
  · rintro _ ⟨⟩
    exact isBlank_of_isMark (h.marks c List.mem_cons_self)
  · have pairs : ∀ w ∈ ["//", "--", "/*"], ∃ a b, w.toList = [a, b] ∧ opens a b = true ∧ isBlank b = false := by
      simp only [List.forall_mem_cons]
      exact ⟨⟨'/', '/', rfl, rfl, rfl⟩, ⟨'-', '-', rfl, rfl, rfl⟩, ⟨'/', '*', rfl, rfl, rfl⟩, List.forall_mem_nil _⟩
    obtain ⟨a, b, text, opening, plain⟩ := pairs w hw
    rw [text] at found
    obtain ⟨rfl, second⟩ := List.cons_prefix_cons.1 found
    cases more with
    | nil =>
      obtain ⟨tail, rfl⟩ := second
      rw [edge b rfl] at plain
      cases plain
    | cons d more =>
      obtain ⟨rfl, -⟩ := List.cons_prefix_cons.1 second
      rw [(List.isChain_cons_cons.1 h.apart).1] at opening
      cases opening

theorem isHexDigit_of_isDigit (h : Decimal.isDigit c = true) : isHexDigit c = true := by
  rw [isHexDigit, h, Bool.true_or, Bool.true_or]

theorem isMark_of_isHexDigit (h : isHexDigit c = true) : isMark c = true := by
  rw [isMark, h, Bool.true_or]

theorem not_opens (slash : c ≠ '/') (dash : c ≠ '-') (d : Char) : opens c d = false := by
  simp [opens, slash, dash]

theorem not_opens_of_isHexDigit (h : isHexDigit c = true) (d : Char) : opens c d = false := by
  refine not_opens ?_ ?_ d
  all_goals
    rintro rfl
    exact absurd h (by decide)

theorem plain_hexDigits {ds : List Char} (h : ∀ c ∈ ds, isHexDigit c = true) (more : Plain cs) : Plain (ds ++ cs) := by
  induction ds with
  | nil => exact more
  | cons d ds ih =>
    obtain ⟨first, others⟩ := List.forall_mem_cons.1 h
    exact (ih others).cons (isMark_of_isHexDigit first) fun c _ => not_opens_of_isHexDigit first c

theorem AllDigits.plain {ds : List Char} (h : AllDigits ds) (more : Plain cs) : Plain (ds ++ cs) :=
  plain_hexDigits (fun c hc => isHexDigit_of_isDigit (h.2 c hc)) more

theorem SpellsSign.plain {negative : Bool} {s ds : List Char} (h : SpellsSign negative s) (hd : AllDigits ds)
    (more : Plain (ds ++ cs)) : Plain (s ++ (ds ++ cs)) := by
  cases h with
  | none => exact more
  | plus => exact more.cons rfl fun d _ => not_opens (by decide) (by decide) d
  | minus =>
    refine more.cons rfl fun d hd' => ?_
    have other := (hd.not_sign d hd').1
    simp [opens, other]

theorem SpellsFraction.plain {fraction : Option (List Char)} {f : List Char} (h : SpellsFraction fraction f)
    (more : Plain cs) : Plain (f ++ cs) := by
  cases h with
  | none => exact more
  | some hd => exact (hd.plain more).cons rfl fun d _ => not_opens (by decide) (by decide) d

theorem SpellsPower.plain {power : Option Int} {p : List Char} (h : SpellsPower power p) (more : Plain cs) :
    Plain (p ++ cs) := by
  cases h with
  | none => exact more
  | some hm hs hd =>
    have marks : ∀ mark ∈ ['e', 'E'], isHexDigit mark = true := forall_mem_of_all (by decide)
    rw [List.cons_append, List.append_assoc]
    exact (hs.plain hd (hd.plain more)).cons (isMark_of_isHexDigit (marks _ hm)) fun d _ =>
      not_opens_of_isHexDigit (marks _ hm) d

theorem Numeral.plain (h : Numeral t) (more : Plain cs) : Plain (t ++ cs) := by
  obtain ⟨hs, hw, hf, hp⟩ := h
  rw [List.append_assoc, List.append_assoc, List.append_assoc]
  exact hs.plain hw (hw.plain (hf.plain (hp.plain more)))

theorem Numeral.ends_in_digits (h : Numeral t) : ∃ front ds, t = front ++ ds ∧ AllDigits ds := by
  obtain @⟨_, whole, _, _, s, f, p, -, hw, hf, hp⟩ := h
  cases hp with
  | @some mark _ s' ds _ _ hd => exact ⟨s ++ (whole ++ (f ++ mark :: s')), ds, by simp, hd⟩
  | none =>
    cases hf with
    | @some ds hd => exact ⟨s ++ (whole ++ ['.']), ds, by simp, hd⟩
    | none => exact ⟨s, whole, by simp, hw⟩

def dots : List Char := ['.', '.', '.']

theorem not_dots_suffix {front ds : List Char} (nonempty : ds ≠ []) (h : ∀ c ∈ ds, c ≠ '.') : ¬ dots <:+ front ++ ds := by
  rintro ⟨more, same⟩
  obtain ⟨ds, d, rfl⟩ := (List.eq_nil_or_concat' ds).resolve_left nonempty
  have last : (more ++ dots).getLast? = some d := by rw [same, ← List.append_assoc, List.getLast?_concat]
  rw [List.getLast?_append] at last
  exact h d (by simp) (Option.some.inj last).symm

structure Marked (t : List Char) : Prop where
  plain : Plain t
  nonempty : t ≠ []
  dots_only : dots <:+ t → t = dots

theorem Numeral.marked (h : Numeral t) : Marked t := by
  obtain ⟨front, ds, rfl, hd⟩ := h.ends_in_digits
  refine ⟨?_, ?_, fun found => absurd found (not_dots_suffix hd.1 fun c hc => ?_)⟩
  · have whole := h.plain plain_nil
    rwa [List.append_nil] at whole
  · exact fun e => hd.1 (List.append_eq_nil_iff.1 e).2
  · rintro rfl
    exact absurd (hd.2 _ hc) (by decide)

theorem marked_codePoint {hs : List Char} (nonempty : hs ≠ []) (h : ∀ c ∈ hs, isHexDigit c = true) :
    Marked ('U' :: '+' :: hs) := by
  refine ⟨?_, nofun, fun (found : dots <:+ ['U', '+'] ++ hs) => absurd found (not_dots_suffix nonempty fun c hc => ?_)⟩
  · have digits := plain_hexDigits h plain_nil
    rw [List.append_nil] at digits
    exact (digits.cons rfl fun d _ => not_opens (by decide) (by decide) d).cons rfl fun d _ =>
      not_opens (by decide) (by decide) d
  · rintro rfl
    exact absurd (h _ hc) (by decide)

theorem marked_tag {percent : List Char} (h : Numeral cs) (hp : percent ∈ [[], ['%']]) :
    Marked ('[' :: (cs ++ (percent ++ [']']))) := by
  have closing : Plain (percent ++ [']']) := by
    simp only [List.mem_cons, List.not_mem_nil, or_false] at hp
    have bracket : Plain [']'] := plain_nil.cons rfl nofun
    rcases hp with rfl | rfl
    · exact bracket
    · exact bracket.cons rfl fun d _ => not_opens (by decide) (by decide) d
  refine ⟨(h.plain closing).cons rfl fun d _ => not_opens (by decide) (by decide) d, nofun, fun found => ?_⟩
  have text : '[' :: (cs ++ (percent ++ [']'])) = '[' :: (cs ++ percent) ++ [']'] := by simp
  rw [text] at found
  exact absurd found (not_dots_suffix nofun (by simp))

theorem marked_sign {s : String} (h : s ∈ signs) : Marked s.toList := by
  have marks : ∀ s ∈ signs, s.toList.all isMark = true := forall_mem_of_all (by decide)
  have apart : ∀ s ∈ signs, s.toList.IsChain fun c d => opens c d = false := forall_mem_of_all (by decide)
  have nonempty : ∀ s ∈ signs, s.toList ≠ [] := forall_mem_of_all (by decide)
  have dotted : ∀ s ∈ signs, dots <:+ s.toList → s.toList = dots := forall_mem_of_all (by decide)
  exact ⟨⟨List.all_eq_true.1 (marks s h), apart s h⟩, nonempty s h, dotted s h⟩

/-- Whatever stands behind a token, the parser takes exactly the token, and always with the same value, or refuses it. -/
def Settles {α : Type} (p : Parser α) (t : List Char) : Prop :=
  (∀ rest, Edge rest → Refuses p (t ++ rest)) ∨ ∃ a, ∀ rest, Edge rest → Takes p (t ++ rest) rest (· = a)

inductive Whole : List Char → Prop
  | quoted {quote : Char} {cs : List Char} (h : quote ∈ quotes) (inside : Enclosed quote cs) :
      Whole (quote :: (cs ++ [quote]))
  | name {c : Char} {run : List Char} (start : isNameStart c = true) (more : ∀ d ∈ run, isNameChar d = true) :
      Whole (c :: run)
  | quotedName {s : String} (h : Quotable s) : Whole (quotedName s)
  | block {cs : List Char} (h : Balanced cs) (captured : Settles captureSuffix (blockOf cs)) : Whole (blockOf cs)

theorem IsToken.kind (h : IsToken t) (blocks : ∀ cs, Balanced cs → blockOf cs = t → Settles captureSuffix (blockOf cs)) :
    Whole t ∨ Marked t := by
  cases h with
  | quoted h inside => exact .inl (.quoted h inside)
  | codePoint nonempty h => exact .inr (marked_codePoint nonempty h)
  | number h => exact .inr h.marked
  | tag h hp => exact .inr (marked_tag h hp)
  | name start more => exact .inl (.name start more)
  | quotedName h => exact .inl (.quotedName h)
  | block h => exact .inl (.block h (blocks _ h rfl))
  | sign h => exact .inr (marked_sign h)

def isOpening (c : Char) : Bool := quotes.contains c || c == '`' || c == '\x7b' || isNameStart c

theorem Whole.head (h : Whole t) : ∃ c more, t = c :: more ∧ isOpening c = true := by
  cases h with
  | quoted h _ =>
    have opening : ∀ quote ∈ quotes, isOpening quote = true := forall_mem_of_all (by decide)
    exact ⟨_, _, rfl, opening _ h⟩
  | name start _ => exact ⟨_, _, rfl, by rw [isOpening, start, Bool.or_true]⟩
  | quotedName _ => exact ⟨_, _, rfl, rfl⟩
  | block _ _ => exact ⟨_, _, rfl, rfl⟩

theorem ne_of_isOpening (h : isOpening c = true) (hd : isOpening d = false) : c ≠ d := by
  rintro rfl
  rw [h] at hd
  cases hd

theorem isBlank_of_isOpening (h : isOpening c = true) : isBlank c = false := by
  have all : ∀ c ∈ [' ', '\n', '\t', '\r'], isOpening c = false := forall_mem_of_all (by decide)
  rw [Bool.eq_false_iff]
  exact fun blank => ne_of_isOpening h (all c (isBlank_cases blank)) rfl

theorem Whole.solid (h : Whole t) : Solid (t ++ rest) := by
  obtain ⟨c, more, rfl, opening⟩ := h.head
  exact solid_of_head (isBlank_of_isOpening opening) (ne_of_isOpening opening (by decide))
    (ne_of_isOpening opening (by decide))

/-- Layout between tokens can be told from them, captures end where their blocks do, and no comment begins inside a name that
says how often something is repeated. -/
structure Legible (ts : List (List Char)) : Prop where
  token : ∀ t ∈ ts, IsToken t
  blocks : ∀ cs, Balanced cs → blockOf cs ∈ ts → Settles captureSuffix (blockOf cs)
  bounds : ts.IsChain fun t t' => t = dots → ¬ ['i', 'n', 'f', '-', '-'] <+: t'

theorem Legible.tail (h : Legible (t :: ts)) : Legible ts where
  token t ht := h.token t (List.mem_cons_of_mem _ ht)
  blocks cs balanced hcs := h.blocks cs balanced (List.mem_cons_of_mem _ hcs)
  bounds := h.bounds.tail

theorem Legible.kind (h : Legible (t :: ts)) : Whole t ∨ Marked t :=
  (h.token t List.mem_cons_self).kind fun cs balanced same => h.blocks cs balanced (same ▸ List.mem_cons_self)

end TextGrammar.Grammar
