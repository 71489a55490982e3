import TextGrammar.Program.Listing
import TextGrammar.Proofs.Compiled
import TextGrammar.Proofs.GrammarLayouts
import TextGrammar.Proofs.OffsetIndependence
set_option autoImplicit false

namespace TextGrammar
open Parsing Parser

namespace Grammar
open Token

variable {g g' g'' cs t rest : List Char} {ts : List (List Char)} {s : String} {c : Char}

inductive SpellsName : String → List Char → Prop
  | bare {c : Char} {run : List Char} (start : isNameStart c = true) (more : ∀ d ∈ run, isNameChar d = true) :
      SpellsName (String.ofList (c :: run)) (c :: run)
  | quoted {s : String} (h : Quotable s) : SpellsName s (quotedName s)

theorem SpellsName.solid (h : SpellsName s t) : Solid (t ++ rest) := by
  cases h with
  | bare start more => exact (Whole.name start more).solid
  | quoted h => exact (Whole.quotedName h).solid

theorem SpellsName.takes (h : SpellsName s t) (stop : ∀ c ∈ rest.head?, isNameChar c = false) :
    Takes name (t ++ rest) rest (· = s) := by
  cases h with
  | bare start more => exact takes_bareName start more stop
  | quoted h => exact takes_quotedName h

/-- A capture that is complete in its block. -/
def captureBlock (before between behind name : List Char) (discard : Bool) : List Char :=
  blockOf (before ++ ("capture".toList ++ ((if discard then ['!'] else []) ++ (between ++ (name ++ behind)))))

theorem settles_captureBlock (before : Layout g) (between : Layout g') (some : g' ≠ []) (apart : ∀ c ∈ g'.head?, c ≠ '!')
    (named : SpellsName s t) (behind : Layout g'') (edge : Edge g'') (discard : Bool) :
    Settles captureSuffix (captureBlock g g' g'' t discard) := by
  refine .inr ⟨.capture s discard, fun rest _ => ?_⟩
  have close_solid : Solid ('\x7d' :: rest) := solid_of_head (by decide) (by decide) (by decide)
  have text : captureBlock g g' g'' t discard ++ rest = '\x7b' :: (g ++ ("capture".toList ++
      ((if discard then ['!'] else []) ++ (g' ++ (t ++ (g'' ++ '\x7d' :: rest)))))) := by
    simp [captureBlock, blockOf]
  have bang {cs : List Char} : Takes (optional (word "!")) ((if discard then ['!'] else []) ++ (g' ++ cs)) (g' ++ cs)
      fun o => o.isSome = discard := by
    cases discard with
    | false =>
      obtain ⟨c, more, rfl⟩ := List.exists_cons_of_ne_nil some
      refine (Refuses.optional (refuses_word_of_head rfl (apart c rfl))).mono ?_
      rintro _ rfl
      rfl
    | true =>
      refine (Takes.optional (takes_word "!")).mono ?_
      rintro _ ⟨_, rfl, -⟩
      rfl
  have stop : ∀ c ∈ (g'' ++ '\x7d' :: rest).head?, isNameChar c = false := by
    cases g'' with
    | nil =>
      rintro _ ⟨⟩
      rfl
    | cons c more => exact not_isNameChar_of_edge edge
  have word_solid {cs : List Char} : Solid ("capture".toList ++ cs) := solid_of_head (by decide) (by decide) (by decide)
  rw [text]
  refine Takes.bind (takes_word "\x7b") fun _ _ => (before.takes word_solid).bind fun _ _ => ?_
  refine (takes_word "capture").bind fun _ _ => bang.bind ?_
  rintro o rfl
  refine (between.takes_gap some named.solid).bind fun _ _ => (named.takes stop).bind ?_
  rintro _ rfl
  exact (behind.takes close_solid).bind fun _ _ => Takes.bind (takes_word "\x7d") fun _ _ => takes_pure rfl

/-- A block that holds something else than a capture, behind the layout at its start. -/
theorem settles_of_other (before : Layout g) (first : ∀ c ∈ cs.head?, isBlank c = false ∧ c ≠ '/' ∧ c ≠ '-')
    (other : ¬ "capture".toList <+: cs) : Settles captureSuffix (blockOf (g ++ cs)) := by
  refine .inl fun rest _ => ?_
  have text : blockOf (g ++ cs) ++ rest = '\x7b' :: (g ++ (cs ++ '\x7d' :: rest)) := by simp [blockOf]
  have solid : Solid (cs ++ '\x7d' :: rest) := by
    cases cs with
    | nil => exact solid_of_head (by decide) (by decide) (by decide)
    | cons c more =>
      obtain ⟨blank, slash, dash⟩ := first c rfl
      exact solid_of_head blank slash dash
  rw [text]
  refine Takes.refuses (takes_word "\x7b") fun _ _ => (before.takes solid).refuses fun _ _ => Refuses.bind (refuses_word ?_)
  -- The brace that closes the block is no part of the word.
  rintro ⟨more, same⟩
  obtain ⟨past, text, -⟩ | ⟨past, text, same⟩ := List.append_eq_append_iff.1 same
  · exact other ⟨past, text.symm⟩
  · cases past with
    | nil => exact other ⟨[], by rw [text, List.append_nil, List.append_nil]⟩
    | cons d past =>
      obtain rfl := (List.cons.inj same).1
      have inside : '\x7d' ∈ "capture".toList := by rw [text]; simp
      exact absurd inside (by decide)

theorem exists_parse {source : String} {p : Program} (h : Program.compile source = .ok p) :
    ∃ l, parse source.toList = .ok l := by
  cases hl : parse source.toList with
  | error seen =>
    rw [Program.compile, Program.compileChars, Grammar.read, hl] at h
    cases h
  | ok l => exact ⟨l, rfl⟩

end Grammar

open Grammar in
/-- Both sources are refused by the parser, or both are read as one grammar up to the offsets in it, and one compiles to a
program exactly if the other does. -/
structure SameGrammar (u v : String) : Prop where
  readable : (∃ l, parse u.toList = .ok l) ↔ ∃ m, parse v.toList = .ok m
  items {l m : List Item} : parse u.toList = .ok l → parse v.toList = .ok m → l.map Item.unplaced = m.map Item.unplaced
  programs (p : Program) : Program.compile u = .ok p ↔ Program.compile v = .ok p

open Grammar in
theorem sameGrammar_of_spaced {ts : List (List Char)} {u v : String} (legible : Legible ts) (left : Spaced ts u.toList)
    (right : Spaced ts v.toList) : SameGrammar u v := by
  rcases parse_spaced legible left right with ⟨s, t, hu, hv⟩ | ⟨l, m, hu, hv, same⟩
  · have unread {source : String} {seen : Furthest} (h : parse source.toList = .error seen) :
        ¬ ∃ l, parse source.toList = .ok l := by
      rintro ⟨l, hl⟩
      rw [h] at hl
      cases hl
    exact ⟨iff_of_false (unread hu) (unread hv), fun hl => absurd ⟨_, hl⟩ (unread hu), fun p =>
      iff_of_false (fun h => unread hu (exists_parse h)) fun h => unread hv (exists_parse h)⟩
  · refine ⟨⟨fun _ => ⟨m, hv⟩, fun _ => ⟨l, hu⟩⟩, ?_, Program.compileChars_of_unplaced hu hv same⟩
    rintro l' m' hl hm
    rw [hu] at hl
    rw [hv] at hm
    cases hl
    cases hm
    exact same

namespace Grammar
open Token

def spread : List (List Char) → List (List Char) → List Char → List Char
  | g :: gaps, t :: ts, last => g ++ (t ++ spread gaps ts last)
  | _, _, last => last

theorem spaced_spread {gaps ts : List (List Char)} {last : List Char} (same : gaps.length = ts.length)
    (layouts : ∀ g ∈ gaps, Layout g) (apart : ∀ g ∈ gaps.tail, g.head?.any isBlank = true) (layout : Layout last)
    (edge : Edge last) : Spaced ts (spread gaps ts last) := by
  induction gaps generalizing ts with
  | nil =>
    obtain rfl := List.eq_nil_of_length_eq_zero same.symm
    exact .nil layout
  | cons g gaps ih =>
    obtain ⟨t, ts, rfl⟩ := List.exists_cons_of_length_eq_add_one same.symm
    have same' : gaps.length = ts.length := Nat.succ.inj same
    obtain ⟨first, others⟩ := List.forall_mem_cons.1 layouts
    refine .cons first ?_ (ih same' others fun q hq => apart q (List.mem_of_mem_tail hq))
    cases gaps with
    | nil =>
      rw [spread]
      · exact edge
      · rintro _ _ _ _ ⟨⟩
    | cons g' gaps =>
      obtain ⟨t', ts, rfl⟩ := List.exists_cons_of_length_eq_add_one same'.symm
      obtain ⟨c, hc, blank⟩ := (Option.any_eq_true _ _).1 (apart g' List.mem_cons_self)
      obtain ⟨more, text⟩ := List.head?_eq_some_iff.1 hc
      rw [spread, text]
      exact edge_cons blank

theorem isToken_letter {c : Char} (h : isNameStart c = true) : IsToken [c] := .name h (List.forall_mem_nil _)

theorem isToken_plainBlock {cs : List Char} (h : cs.all isPlain = true) : IsToken (blockOf cs) :=
  .block (balanced_plain (List.all_eq_true.1 h))

/-- A rule with a capture and an action, and the same tokens with comments that hold a semicolon and a brace. -/
theorem sameGrammar_of_spaced_commented :
    let ts := [['r'], ['='], ['\'', 'a', '\''], captureBlock [] [' '] [] ['x'] false, blockOf [' ', 'n', '=', '1'], [';']]
    let u := "r = 'a' \x7bcapture x\x7d \x7b n=1\x7d ;"
    let v := "r\n= /* ; */ 'a' \x7bcapture x\x7d -- \x7d\n\x7b n=1\x7d\t;\n"
    Legible ts ∧ Spaced ts u.toList ∧ Spaced ts v.toList ∧ SameGrammar u v ∧ ∃ p, Program.compile u = .ok p := by
  intro ts u v
  have named : SpellsName "x" ['x'] := .bare (c := 'x') (by decide) (List.forall_mem_nil _)
  have capture : Settles captureSuffix (captureBlock [] [' '] [] ['x'] false) := by
    refine settles_captureBlock .nil (.blank rfl .nil) (List.cons_ne_nil _ _) ?_ named .nil edge_nil false
    rintro _ ⟨⟩
    decide
  have action : Settles captureSuffix (blockOf [' ', 'n', '=', '1']) := by
    refine settles_of_other (g := [' ']) (.blank rfl .nil) ?_ (by decide)
    rintro _ ⟨⟩
    decide
  have legible : Legible ts := by
    refine ⟨?_, ?_, ?_⟩
    · simp only [ts, List.forall_mem_cons]
      refine ⟨isToken_letter rfl, .sign (s := "=") (by decide), ?_, ?_, ?_, .sign (s := ";") (by decide), List.forall_mem_nil _⟩
      · exact .quoted (by decide) (.plain (by decide) (by decide) .nil)
      · exact isToken_plainBlock (by decide)
      · exact isToken_plainBlock (by decide)
    · intro cs _ found
      simp only [ts, List.mem_cons, List.not_mem_nil, or_false] at found
      rcases found with found | found | found | found | found | found
      case inr.inr.inr.inl => rwa [found]
      case inr.inr.inr.inr.inl => rwa [found]
      all_goals exact absurd (List.cons.inj found).1 (by decide)
    · decide
  have blank : Layout [' '] := .blank rfl .nil
  have feed : Layout ['\n'] := .blank rfl .nil
  have tab : Layout ['\t'] := .blank rfl .nil
  have unclosed : ¬ ['*', '/'] <:+: [' ', ';', ' '] := by decide
  have first : Layout [' ', '/', '*', ' ', ';', ' ', '*', '/', ' '] := .blank rfl (.block unclosed blank)
  have unbroken : '\n' ∉ [' ', '\x7d'] := by decide
  have second : Layout [' ', '-', '-', ' ', '\x7d', '\n'] := .blank rfl (.line (by decide) unbroken .nil)
  have left : Spaced ts u.toList := by
    have text : u.toList = spread [[], [' '], [' '], [' '], [' '], [' ']] ts [] := by decide
    rw [text]
    exact spaced_spread rfl (by simp [Layout.nil, blank]) (by decide) .nil edge_nil
  have right : Spaced ts v.toList := by
    have text : v.toList = spread [[], ['\n'], [' ', '/', '*', ' ', ';', ' ', '*', '/', ' '], [' '],
        [' ', '-', '-', ' ', '\x7d', '\n'], ['\t']] ts ['\n'] := by decide
    rw [text]
    exact spaced_spread rfl (by simp [Layout.nil, blank, first, second, feed, tab]) (by decide) feed (edge_cons rfl)
  obtain ⟨p, hp, -⟩ : ∃ p, Program.compile u = .ok p ∧ p.size = 9 := Program.exists_compile (by decide +kernel)
  exact ⟨legible, left, right, sameGrammar_of_spaced legible left right, p, hp⟩

/-- Not all tokens can be told from layout. A block that begins as a capture with a comment ends where the comment does, if what
stands behind the block has an end for both of them; and the dashes of a name can begin a comment behind a bound. -/
theorem not_sameGrammar_of_spaced :
    let capture := [['r'], ['='], ['"', 'a', '"'], blockOf "capture /* ".toList, [';']]
    let u := "r = \"a\" \x7bcapture /* \x7d ;"
    let v := "r = \"a\" \x7bcapture /* \x7d -- */ x \x7d\n;"
    let bound := [['r'], ['='], ['"', 'a', '"'], ['*'], ['['], ['1'], dots, "inf--x".toList, [']'], [';']]
    let u' := "r = \"a\" * [ 1 ... inf--x ] ;"
    let v' := "r = \"a\" * [ 1 ... inf--x\n] ;"
    ((∀ t ∈ capture, IsToken t) ∧ Spaced capture u.toList ∧ Spaced capture v.toList ∧
      ∃ l m p q, parse u.toList = .ok l ∧ parse v.toList = .ok m ∧ l.map Item.unplaced ≠ m.map Item.unplaced ∧
        Program.compile u = .ok p ∧ Program.compile v = .ok q ∧ p.listing ≠ q.listing) ∧
    (∀ t ∈ bound, IsToken t) ∧ Spaced bound u'.toList ∧ Spaced bound v'.toList ∧
      (∃ m, parse v'.toList = .ok m) ∧ ¬ ∃ l, parse u'.toList = .ok l := by
  intro capture u v bound u' v'
  have blank : Layout [' '] := .blank rfl .nil
  have feed : Layout ['\n'] := .blank rfl .nil
  have r : IsToken ['r'] := isToken_letter rfl
  have a : IsToken ['"', 'a', '"'] := .quoted (by decide) (.plain (by decide) (by decide) .nil)
  have sign {s : String} (h : s ∈ signs) : IsToken s.toList := .sign h
  refine ⟨⟨?_, ?_, ?_, ?_⟩, ?_, ?_, ?_, ?_, ?_⟩
  · simp only [capture, List.forall_mem_cons]
    exact ⟨r, sign (s := "=") (by decide), a, isToken_plainBlock (by decide), sign (s := ";") (by decide), List.forall_mem_nil _⟩
  · have text : u.toList = spread [[], [' '], [' '], [' '], [' ']] capture [] := by decide
    rw [text]
    exact spaced_spread rfl (by simp [Layout.nil, blank]) (by decide) .nil edge_nil
  · have unbroken : '\n' ∉ [' ', '*', '/', ' ', 'x', ' ', '\x7d'] := by decide
    have comment : Layout [' ', '-', '-', ' ', '*', '/', ' ', 'x', ' ', '\x7d', '\n'] :=
      .blank rfl (.line (by decide) unbroken .nil)
    have text : v.toList = spread [[], [' '], [' '], [' '], [' ', '-', '-', ' ', '*', '/', ' ', 'x', ' ', '\x7d', '\n']]
        capture [] := by decide
    rw [text]
    exact spaced_spread rfl (by simp [Layout.nil, blank, comment]) (by decide) .nil edge_nil
  · obtain ⟨p, hp, long⟩ : ∃ p, Program.compile u = .ok p ∧ p.listing.length = 134 :=
      Program.exists_compile (by decide +kernel)
    obtain ⟨q, hq, short⟩ : ∃ q, Program.compile v = .ok q ∧ q.listing.length = 128 :=
      Program.exists_compile (by decide +kernel)
    obtain ⟨l, hl⟩ := exists_parse hp
    obtain ⟨m, hm⟩ := exists_parse hq
    have differ : p.listing ≠ q.listing := by
      intro same
      rw [same, short] at long
      cases long
    refine ⟨l, m, p, q, hl, hm, fun same => differ ?_, hp, hq, differ⟩
    have both : Program.compile v = .ok p := (Program.compileChars_of_unplaced hl hm same p).1 hp
    rw [hq] at both
    rw [Except.ok.inj both]
  · simp only [bound, List.forall_mem_cons]
    have one : AllDigits ['1'] := ⟨List.cons_ne_nil _ _, forall_mem_of_all (by decide)⟩
    have digits : Numeral ['1'] := .mk .none one .none .none
    exact ⟨r, sign (s := "=") (by decide), a, sign (s := "*") (by decide), sign (s := "[") (by decide), .number digits,
      sign (s := "...") (by decide), .name (c := 'i') rfl (forall_mem_of_all (by decide)), sign (s := "]") (by decide),
      sign (s := ";") (by decide), List.forall_mem_nil _⟩
  · have text : u'.toList = spread ([] :: List.replicate 9 [' ']) bound [] := by decide
    rw [text]
    exact spaced_spread rfl (by simp [Layout.nil, blank]) (by decide) .nil edge_nil
  · have text : v'.toList = spread ([] :: (List.replicate 7 [' '] ++ [['\n'], [' ']])) bound [] := by decide
    rw [text]
    exact spaced_spread rfl (by simp [Layout.nil, blank, feed]) (by decide) .nil edge_nil
  · obtain ⟨p, hp, -⟩ : ∃ p, Program.compile v' = .ok p ∧ p.size = 18 := Program.exists_compile (by decide +kernel)
    exact exists_parse hp
  · have refused : (parse u'.toList).toOption.isNone = true := by decide +kernel
    rintro ⟨l, hl⟩
    rw [hl] at refused
    cases refused

end Grammar
end TextGrammar
