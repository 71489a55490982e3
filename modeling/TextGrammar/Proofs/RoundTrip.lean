import TextGrammar.Proofs.Printing
set_option autoImplicit false

namespace TextGrammar.Grammar
open Parsing Parser Token

variable {hand : Hand} {e : Expr} {rest cs : List Char} {depth : Nat}

theorem unplacedIn_eq (es : List Expr) : unplacedIn es = es.map Expr.unplaced := by
  induction es with
  | nil => rfl
  | cons e es ih => rw [unplacedIn, ih, List.map_cons]

theorem unplacedBranches_eq (as : List (Alternative Expr)) : unplacedBranches as = as.map Alternative.unplaced := by
  induction as with
  | nil => rfl
  | cons a as ih => rw [unplacedBranches, ih, List.map_cons, Alternative.unplaced]

theorem isSequence_unplaced (e : Expr) : e.unplaced.IsSequence ↔ e.IsSequence := by
  cases e <;> rfl

theorem items_of_not_isSequence (h : ¬ e.IsSequence) : e.items = [e] := by
  cases e with
  | sequence es => exact absurd trivial h
  | _ => rfl

theorem ofItems_unplaced {es l : List Expr} (h : (Expr.sequence es).Proper)
    (same : l.map Expr.unplaced = es.map Expr.unplaced) :
    (Expr.ofItems l).unplaced = (Expr.sequence es).unplaced := by
  have length : l.length = es.length := by simpa using congrArg List.length same
  have flat : ∀ e ∈ l, e.items = [e] := by
    intro e he
    have mem : e.unplaced ∈ es.map Expr.unplaced := same ▸ List.mem_map_of_mem he
    obtain ⟨f, hf, eq⟩ := List.mem_map.1 mem
    refine items_of_not_isSequence fun sequence => h.2 f hf ?_
    rwa [← isSequence_unplaced, eq, isSequence_unplaced]
  have items : l.flatMap Expr.items = l := by
    rw [List.flatMap_def, List.map_congr_left flat]
    exact List.flatMap_singleton' l
  match l, length with
  | [], length => exact absurd h.1 (by simp [← length])
  | [_], length => exact absurd h.1 (by simp [← length])
  | a :: b :: l, _ =>
    rw [Expr.ofItems, items, Expr.unplaced, Expr.unplaced, unplacedIn_eq, unplacedIn_eq, same]
    exact nofun

theorem solid_parenthesized (text : List Char) : Solid (parenthesized text ++ rest) :=
  solid_of_head (by decide) (by decide) (by decide)

theorem solid_tagged (p : Probability) (text : List Char) : Solid (printTag hand p ++ parenthesized text ++ rest) := by
  cases p with
  | automatic => exact solid_parenthesized text
  | explicit p => exact solid_of_head (by decide) (by decide) (by decide)

theorem solid_print (h : e.Proper) : Solid (e.print hand ++ rest) := by
  have head {c : Char} {cs : List Char} (plain : isBlank c = false ∧ c ≠ '/' ∧ c ≠ '-') : Solid (c :: cs) :=
    solid_of_head plain.1 plain.2.1 plain.2.2
  cases e with
  | literal _ | reference _ _ | generate _ | check _ | action _ | repetition _ _ _ _ | capture _ _ _ =>
    rw [Expr.print]
    exact head (by decide)
  | range low high pos =>
    rw [Expr.print, List.append_assoc, List.append_assoc]
    exact (hand.spells_number h.1).solid
  | sequence es =>
    cases es with
    | nil => exact absurd h.1 (by decide)
    | cons e es =>
      rw [Expr.print, printItems, List.append_assoc]
      exact solid_parenthesized _
  | choice as pos =>
    rw [Expr.print]
    cases as with
    | nil => rcases h.1 with h | ⟨_, _, h⟩ <;> cases h
    | cons a as =>
      rw [printAlternatives, List.append_assoc]
      exact solid_tagged _ _

theorem endsNumber {c : Char} (plain : Decimal.isDigit c = false ∧ c ≠ 'e' ∧ c ≠ 'E' ∧ c ≠ '.') :
    EndsNumber (c :: cs) := by
  refine ⟨?_, fun d more text => absurd (List.cons.inj text).1 plain.2.2.2⟩
  rintro d ⟨⟩
  exact ⟨plain.1, plain.2.1, plain.2.2.1⟩

theorem endsNumber_dots : EndsNumber ("...".toList ++ cs) := by
  refine ⟨by rintro c ⟨⟩; decide, fun c more text => ?_⟩
  obtain rfl : c = '.' := (List.cons.inj (List.cons.inj text).2).1.symm
  decide

theorem allDigits (n : Nat) : AllDigits (Nat.toDigits 10 n) := ⟨Nat.toDigits_ne_nil, isDigit_of_mem_toDigits⟩

theorem takes_count (n : UInt32) (stop : ∀ c ∈ rest.head?, Decimal.isDigit c = false) :
    Takes count (Nat.toDigits 10 n.toNat ++ rest) rest (· = n) := by
  refine ((allDigits _).takes stop).bind ?_
  rintro _ rfl
  rw [natOfDigits_toDigits, Decimal.uint32?, if_pos n.toNat_lt_size, UInt32.ofNat_toNat]
  exact takes_require rfl

theorem takes_printTimes (least : UInt32) (most : Option UInt32) :
    Takes suffix (printTimes least most ++ rest) rest fun s => ∃ pos, s = .times least most pos := by
  have dots_solid {cs : List Char} : Solid ("...".toList ++ cs) := solid_of_head (by decide) (by decide) (by decide)
  have open_solid {cs : List Char} : Solid ('[' :: cs) := solid_of_head (by decide) (by decide) (by decide)
  have close_solid : Solid (']' :: rest) := solid_of_head (by decide) (by decide) (by decide)
  have greatest : Takes (do word "..."; layout; times : Parser (Option UInt32))
      ("...".toList ++ (printMost most ++ ']' :: rest)) (']' :: rest) (· = most) := by
    refine (takes_word "...").bind fun _ _ => ?_
    cases most with
    | some m =>
      refine (allDigits _).solid.takes_layout.bind fun _ _ => Takes.orElse ((takes_count m ?_).bind ?_)
      · rintro c ⟨⟩
        decide
      · rintro _ rfl
        exact takes_pure rfl
    | none =>
      refine (solid_of_head (by decide) (by decide) (by decide)).takes_layout.bind fun _ _ => ?_
      refine Refuses.orElse (Refuses.bind (refuses_chars1 ?_).bind) ((takes_word "inf").bind fun _ _ => takes_pure rfl)
      rintro c ⟨⟩
      decide
  have text : printTimes least most ++ rest =
      '*' :: '[' :: (Nat.toDigits 10 least.toNat ++ ("...".toList ++ (printMost most ++ ']' :: rest))) := by
    simp [printTimes]
  rw [text]
  refine Takes.orElse (takes_position.bind fun pos _ => Takes.bind (takes_word "*") fun _ _ => ?_)
  refine open_solid.takes_layout.bind fun _ _ => Takes.bind (takes_word "[") fun _ _ => ?_
  refine (allDigits _).solid.takes_layout.bind fun _ _ => (takes_count least ?_).bind ?_
  · rintro c ⟨⟩
    decide
  rintro _ rfl
  refine dots_solid.takes_layout.bind fun _ _ => greatest.optional.bind ?_
  rintro _ ⟨_, rfl, rfl⟩
  exact close_solid.takes_layout.bind fun _ _ => Takes.bind (takes_word "]") fun _ _ => takes_pure ⟨pos, rfl⟩

theorem takes_printCapture {n : String} (hn : Quotable n) (discard : Bool) :
    Takes suffix (printCapture n discard ++ rest) rest (· = .capture n discard) := by
  have close_solid : Solid ('\x7d' :: rest) := solid_of_head (by decide) (by decide) (by decide)
  have text : printCapture n discard ++ rest = '\x7b' :: ("capture".toList ++ ((if discard then ['!'] else []) ++
      ' ' :: (quotedName n ++ '\x7d' :: rest))) := by
    simp [printCapture]
  have bang {cs : List Char} : Takes (optional (word "!")) ((if discard then ['!'] else []) ++ ' ' :: cs) (' ' :: cs)
      fun o => o.isSome = discard := by
    cases discard with
    | false =>
      refine (Refuses.optional (refuses_word_of_head rfl (by decide))).mono ?_
      rintro _ rfl
      rfl
    | true =>
      refine (Takes.optional (takes_word "!")).mono ?_
      rintro _ ⟨_, rfl, -⟩
      rfl
  have here {w : String} {c : Char} {ws : List Char} {f : Nat → Parser Suffix} (hw : w.toList = c :: ws)
    (hc : '\x7b' ≠ c)
      {cs : List Char} : Refuses (do let pos ← position; word w; f pos) ('\x7b' :: cs) :=
    takes_position.refuses fun _ _ => (refuses_word_of_head hw hc).bind
  rw [text]
  refine Refuses.orElse (here rfl (by decide)) (Refuses.orElse (here rfl (by decide)) ?_)
  refine Refuses.orElse (here rfl (by decide)) (Refuses.orElse (here rfl (by decide)) ?_)
  have word_solid {cs : List Char} : Solid ("capture".toList ++ cs) := solid_of_head (by decide) (by decide) (by decide)
  refine Takes.bind (takes_word "\x7b") fun _ _ => word_solid.takes_layout.bind fun _ _ => ?_
  refine (takes_word "capture").bind fun _ _ => bang.bind ?_
  rintro o rfl
  refine (takes_gap (solid_quotedName n)).bind fun _ _ => (takes_quotedName hn).bind ?_
  rintro _ rfl
  exact close_solid.takes_layout.bind fun _ _ => Takes.bind (takes_word "\x7d") fun _ _ => takes_pure rfl

/-- Where a choice may stand, the printed expression is read as the same one up to offsets. -/
def Reads (hand : Hand) (e : Expr) : Prop :=
  ∀ depth rest, (e.print hand).length ≤ depth → Closes rest →
    Takes (choiceAt (depth + 1)) (e.print hand ++ rest) rest (·.unplaced = e.unplaced)

theorem Reads.takes_parenthesized (h : Reads hand e) (proper : e.Proper)
    (enough : (parenthesized (e.print hand)).length ≤ depth) :
    Takes (primary (choiceAt depth)) (parenthesized (e.print hand) ++ rest) rest (·.unplaced = e.unplaced) := by
  have text : parenthesized (e.print hand) ++ rest = '(' :: (e.print hand ++ ')' :: rest) := by simp [parenthesized]
  rw [text]
  rw [parenthesized, List.length_cons, List.length_append] at enough
  obtain _ | depth := depth
  · omega
  exact takes_primary_parenthesized (solid_print proper) (h depth _ (by omega) ⟨')', rest, rfl, by decide⟩)

theorem reads_of_repeated (proper : e.Proper)
    (start : ∀ rest, ∀ c ∈ (e.print hand ++ rest).head?, c ≠ '/' ∧ c ≠ '|' ∧ c ≠ '[')
    (h : ∀ depth rest, (e.print hand).length ≤ depth → Closes rest →
      Takes (repeated (choiceAt depth)) (e.print hand ++ rest) rest (·.unplaced = e.unplaced)) : Reads hand e :=
  fun depth rest enough closes => takes_lone (h depth rest enough closes) closes (solid_print proper) (start rest)

theorem escaping_needed : Escaping escapes '"' needsEscape := by
  refine ⟨rfl, rfl, fun e he => ?_⟩
  simp only [escapes, List.mem_cons, List.not_mem_nil, or_false] at he
  rcases he with rfl | rfl | rfl
  · exact ⟨'n', rfl, rfl⟩
  · exact ⟨'t', rfl, rfl⟩
  · exact ⟨'e', rfl, rfl⟩

theorem reads_literal (s : String) : Reads hand (.literal s) := by
  refine reads_of_repeated trivial (by rintro rest c ⟨⟩; decide) fun depth rest _ closes => ?_
  refine (takes_repeated (takes_primary_literal (takes_literal escaping_needed s)) closes.ends).mono ?_
  rintro _ rfl
  rfl

theorem reads_reference {n : String} {pos : Nat} (h : Quotable n) : Reads hand (.reference n pos) := by
  refine reads_of_repeated h (by rintro rest c ⟨⟩; decide) fun depth rest _ closes => ?_
  have free : ∀ c ∈ rest.head?, c ≠ '=' := by
    have all : ∀ c ∈ outside, c ≠ '=' := forall_mem_of_all (by decide)
    exact fun c hc => all c (closes.outside c hc)
  refine (takes_repeated (takes_primary_reference h closes.ends.solid free) closes.ends).mono ?_
  rintro _ ⟨_, rfl⟩
  rfl

theorem reads_generate {s : String} (h : Balanced s.toList) : Reads hand (.generate s) := by
  refine reads_of_repeated h (by rintro rest c ⟨⟩; decide) fun depth rest _ closes => ?_
  have text : (Expr.generate s).print hand ++ rest = '\x7b' :: '=' :: (s.toList ++ '\x7d' :: rest) := by
    simp [Expr.print]
  rw [text]
  refine (takes_repeated (takes_primary_generate h) closes.ends).mono ?_
  rintro _ rfl
  rfl

theorem reads_check {s : String} (h : Balanced s.toList) : Reads hand (.check s) := by
  refine reads_of_repeated h (by rintro rest c ⟨⟩; decide) fun depth rest _ closes => ?_
  have text : (Expr.check s).print hand ++ rest = '\x7b' :: '?' :: (s.toList ++ '\x7d' :: rest) := by simp [Expr.print]
  rw [text]
  refine (takes_repeated (takes_primary_check h) closes.ends).mono ?_
  rintro _ rfl
  rfl

theorem reads_action {s : String} (h : Balanced s.toList) (plain : ∀ c ∈ s.toList.head?, c ≠ '=' ∧ c ≠ '?') :
    Reads hand (.action s) := by
  refine reads_of_repeated ⟨h, plain⟩ (by rintro rest c ⟨⟩; decide) fun depth rest _ closes => ?_
  have text : (Expr.action s).print hand ++ rest = '\x7b' :: (s.toList ++ '\x7d' :: rest) := by simp [Expr.print]
  rw [text]
  refine (takes_repeated (takes_primary_action h plain) closes.ends).mono ?_
  rintro _ rfl
  rfl

theorem isNameStart_of_isNumberStart {c : Char} (h : isNumberStart c = true) : isNameStart c = false := by
  refine Bool.eq_false_iff.2 fun name => ?_
  simp only [isNameStart, Bool.or_eq_true, beq_iff_eq] at name
  rcases name with (letter | rfl) | rfl
  · simp only [isNumberStart, isDigit_of_isLetter letter, Bool.false_or, Bool.or_eq_true, beq_iff_eq] at h
    rcases h with rfl | rfl <;> exact absurd letter (by decide)
  · exact absurd h (by decide)
  · exact absurd h (by decide)

theorem takes_primary_range {inner : Parser Expr} {low high : Number} {ds : List Char} (hl : SpellsNumber low cs)
    (hh : SpellsNumber high ds) (ends : EndsNumber rest) :
    Takes (primary inner) (cs ++ ("...".toList ++ (ds ++ rest))) rest fun e => ∃ pos, e = .range low high pos := by
  have first : Takes number (cs ++ ("...".toList ++ (ds ++ rest))) ("...".toList ++ (ds ++ rest)) (· = low) :=
    hl.takes endsNumber_dots
  obtain ⟨c, more, rfl, start⟩ := hl.head
  have other : ∀ d, isNumberStart d = false → c ≠ d := by
    rintro d hd rfl
    rw [start] at hd
    cases hd
  have dots_solid : Solid ("...".toList ++ (ds ++ rest)) := solid_of_head (by decide) (by decide) (by decide)
  refine takes_primary_of_head ⟨other _ (by decide), other _ (by decide), other _ (by decide)⟩ (other _ (by decide)) ?_
  refine Refuses.orElse (takes_position.refuses fun _ _ => (refuses_name ?_).bind) (Takes.orElse ?_)
  · rintro d ⟨⟩
    exact ⟨other _ (by decide), isNameStart_of_isNumberStart start⟩
  · refine takes_position.bind fun pos _ => first.bind ?_
    rintro _ rfl
    have second := dots_solid.takes_layout.bind fun _ _ => (takes_word "...").bind fun _ _ =>
      hh.solid.takes_layout.bind fun _ _ => hh.takes ends
    refine second.optional.bind ?_
    rintro _ ⟨_, rfl, rfl⟩
    exact takes_pure ⟨pos, rfl⟩

theorem reads_range {low high : Number} {pos : Nat} (h : Writable low ∧ Writable high) :
    Reads hand (.range low high pos) := by
  have hl := hand.spells_number h.1
  have hh := hand.spells_number h.2
  refine reads_of_repeated h (fun rest c hc => ?_) fun depth rest _ closes => ?_
  · obtain ⟨d, more, text, start⟩ := hl.head
    rw [Expr.print, text] at hc
    cases hc
    refine ⟨?_, ?_, ?_⟩
    all_goals
      rintro rfl
      exact absurd start (by decide)
  · have ends : EndsNumber rest := by
      obtain ⟨c, more, rfl, hc⟩ := closes
      have plain : ∀ c ∈ closings, Decimal.isDigit c = false ∧ c ≠ 'e' ∧ c ≠ 'E' ∧ c ≠ '.' :=
        forall_mem_of_all (by decide)
      exact endsNumber (plain c hc)
    rw [Expr.print, List.append_assoc, List.append_assoc]
    refine (takes_repeated (takes_primary_range hl hh ends) closes.ends).mono ?_
    rintro _ ⟨_, rfl⟩
    rfl

theorem reads_repetition {least : UInt32} {most : Option UInt32} {pos : Nat} (proper : e.Proper) (h : Reads hand e) :
    Reads hand (.repetition e least most pos) := by
  refine reads_of_repeated trivial (by rintro rest c ⟨⟩; decide) fun depth rest enough closes => ?_
  rw [Expr.print, List.length_append] at enough
  rw [Expr.print, List.append_assoc]
  have body : Takes (primary (choiceAt depth)) (parenthesized (e.print hand) ++ (printTimes least most ++ rest))
      (printTimes least most ++ rest) (·.unplaced = e.unplaced) :=
    h.takes_parenthesized proper (Nat.le_trans (Nat.le_add_right _ _) enough)
  have solid : Solid (printTimes least most ++ rest) := solid_of_head (by decide) (by decide) (by decide)
  refine (takes_suffixed body solid (takes_printTimes least most) (Nat.succ_pos _) closes.ends).mono ?_
  rintro _ ⟨e', _, same, ⟨pos', rfl⟩, rfl⟩
  rw [Suffix.apply, Expr.unplaced, Expr.unplaced, same]

theorem reads_capture {n : String} {discard : Bool} (hn : Quotable n) (proper : e.Proper) (h : Reads hand e) :
    Reads hand (.capture e n discard) := by
  refine reads_of_repeated hn (by rintro rest c ⟨⟩; decide) fun depth rest enough closes => ?_
  rw [Expr.print, List.length_append] at enough
  rw [Expr.print, List.append_assoc]
  have body : Takes (primary (choiceAt depth)) (parenthesized (e.print hand) ++ (printCapture n discard ++ rest))
      (printCapture n discard ++ rest) (·.unplaced = e.unplaced) :=
    h.takes_parenthesized proper (Nat.le_trans (Nat.le_add_right _ _) enough)
  have solid : Solid (printCapture n discard ++ rest) := solid_of_head (by decide) (by decide) (by decide)
  refine (takes_suffixed body solid (takes_printCapture hn discard) (Nat.succ_pos _) closes.ends).mono ?_
  rintro _ ⟨e', _, same, rfl, rfl⟩
  rw [Suffix.apply, Expr.unplaced, Expr.unplaced, same]

theorem ends_parenthesized (text : List Char) : Ends (parenthesized text ++ rest) := ⟨'(', _, rfl, by decide⟩

theorem ends_items {es : List Expr} (closes : Closes rest) : Ends (printItems hand es ++ rest) := by
  cases es with
  | nil => exact closes.ends
  | cons e es =>
    rw [printItems, List.append_assoc]
    exact ends_parenthesized _

theorem loops_items {es : List Expr} (proper : ∀ e ∈ es, e.Proper) (h : ∀ e ∈ es, Reads hand e)
    (enough : (printItems hand es).length ≤ depth) (closes : Closes rest) :
    Loops (do let _ ← layout; repeated (choiceAt depth)) es.length (printItems hand es ++ rest) rest
      (·.map Expr.unplaced = es.map Expr.unplaced) := by
  induction es with
  | nil =>
    refine (refuses_repeated_further closes.ends closes.outside).loops.mono ?_
    rintro _ rfl
    rfl
  | cons e es ih =>
    rw [printItems, List.length_append] at enough
    rw [printItems, List.append_assoc]
    have others :=
      ih (fun f hf => proper f (List.mem_cons_of_mem _ hf)) (fun f hf => h f (List.mem_cons_of_mem _ hf)) (by omega)
    have first : Takes (repeated (choiceAt depth)) (parenthesized (e.print hand) ++ (printItems hand es ++ rest))
        (printItems hand es ++ rest) (·.unplaced = e.unplaced) :=
      takes_repeated ((h e List.mem_cons_self).takes_parenthesized (proper e List.mem_cons_self) (by omega))
        (ends_items closes)
    refine (Takes.loops ((solid_parenthesized _).takes_layout.bind fun _ _ => first) others).mono ?_
    rintro _ ⟨a, as, rfl, ha, has⟩
    rw [List.map_cons, List.map_cons, ha, has]

theorem length_le_printItems (es : List Expr) : es.length ≤ (printItems hand es).length := by
  induction es with
  | nil => exact Nat.le_refl 0
  | cons e es ih =>
    rw [printItems, parenthesized, List.length_append, List.length_cons, List.length_cons]
    omega

theorem reads_sequence {es : List Expr} (h : (Expr.sequence es).Proper) (proper : ∀ e ∈ es, e.Proper)
    (reads : ∀ e ∈ es, Reads hand e) : Reads hand (.sequence es) := by
  intro depth rest enough closes
  cases es with
  | nil => exact absurd h.1 (by decide)
  | cons e es =>
    rw [Expr.print] at enough ⊢
    rw [printItems, List.length_append] at enough
    rw [printItems, List.append_assoc]
    have first : Takes (repeated (choiceAt depth)) (parenthesized (e.print hand) ++ (printItems hand es ++ rest))
        (printItems hand es ++ rest) (·.unplaced = e.unplaced) :=
      takes_repeated ((reads e List.mem_cons_self).takes_parenthesized (proper e List.mem_cons_self) (by omega))
        (ends_items closes)
    have others : Loops (do let _ ← layout; repeated (choiceAt depth)) es.length (printItems hand es ++ rest) rest
        (·.map Expr.unplaced = es.map Expr.unplaced) :=
      loops_items (fun f hf => proper f (List.mem_cons_of_mem _ hf)) (fun f hf => reads f (List.mem_cons_of_mem _ hf))
        (by omega) closes
    have turns : es.length ≤ (printItems hand es ++ rest).length := by
      rw [List.length_append]
      exact Nat.le_add_right_of_le (length_le_printItems es)
    refine takes_untagged ((takes_sequence first others turns).mono ?_) closes (solid_parenthesized _)
      (by rintro c ⟨⟩; decide)
    rintro _ ⟨a, as, ha, has, rfl⟩
    exact ofItems_unplaced h (by rw [List.map_cons, List.map_cons, ha, has])

theorem takes_branch {a : Alternative Expr} (tag : a.probability.Proper) (proper : a.body.Proper)
    (h : Reads hand a.body)
    (enough : (parenthesized (a.body.print hand)).length ≤ depth) (ends : Ends rest)
    (stop : ∀ c ∈ rest.head?, c ∈ outside) :
    Takes (tagged (sequence (choiceAt depth)))
      (printTag hand a.probability ++ parenthesized (a.body.print hand) ++ rest) rest (·.unplaced = a.unplaced) := by
  have body : Takes (sequence (choiceAt depth)) (parenthesized (a.body.print hand) ++ rest) rest
      (·.unplaced = a.body.unplaced) :=
    takes_sequence_single (takes_repeated (h.takes_parenthesized proper enough) ends) ends stop
  obtain ⟨p, e⟩ := a
  cases p with
  | automatic =>
    refine (takes_tagged (by rintro c ⟨⟩; decide) (solid_parenthesized _) body).mono ?_
    rintro ⟨_, _⟩ ⟨rfl, same⟩
    exact congrArg (Alternative.mk _) same
  | explicit p =>
    obtain ⟨n, spells, value⟩ := hand.spells_probability tag
    have text : printTag hand (.explicit p) ++ parenthesized (e.print hand) ++ rest =
        '[' :: (hand.probability p ++ ']' :: (parenthesized (e.print hand) ++ rest)) := by simp [printTag]
    rw [text]
    refine (takes_tagged_explicit (takes_probability spells value) (solid_parenthesized _) body).mono ?_
    rintro ⟨_, _⟩ ⟨rfl, same⟩
    exact congrArg (Alternative.mk _) same

theorem stops_further (hand : Hand) (as : List (Alternative Expr)) (closes : Closes rest) :
    Ends (printFurther hand as ++ rest) ∧ ∀ c ∈ (printFurther hand as ++ rest).head?, c ∈ outside := by
  cases as with
  | nil => exact ⟨closes.ends, closes.outside⟩
  | cons a as =>
    refine ⟨⟨'|', _, rfl, by decide⟩, ?_⟩
    rintro c ⟨⟩
    decide

theorem loops_further {as : List (Alternative Expr)} (tags : ∀ a ∈ as, a.probability.Proper)
    (proper : ∀ a ∈ as, a.body.Proper) (h : ∀ a ∈ as, Reads hand a.body)
    (enough : (printFurther hand as).length ≤ depth)
    (closes : Closes rest) :
    Loops (do layout; separated (sequence (choiceAt depth))) as.length (printFurther hand as ++ rest) rest
      (·.map Alternative.unplaced = as.map Alternative.unplaced) := by
  induction as with
  | nil =>
    refine closes.refuses_alternative.loops.mono ?_
    rintro _ rfl
    rfl
  | cons a as ih =>
    rw [printFurther, List.length_cons, List.length_append, List.length_append] at enough
    have others :=
      ih (fun b hb => tags b (List.mem_cons_of_mem _ hb)) (fun b hb => proper b (List.mem_cons_of_mem _ hb))
      (fun b hb => h b (List.mem_cons_of_mem _ hb)) (by omega)
    have inside : (parenthesized (a.body.print hand)).length ≤ depth := by omega
    obtain ⟨ends, stop⟩ := stops_further hand as closes
    have first :=
      takes_branch (tags a List.mem_cons_self) (proper a List.mem_cons_self) (h a List.mem_cons_self) inside ends stop
    rw [printFurther, List.cons_append, List.append_assoc]
    have bar_solid {cs : List Char} : Solid ('|' :: cs) := solid_of_head (by decide) (by decide) (by decide)
    have turn := bar_solid.takes_layout.bind fun _ _ => takes_separated (solid_tagged _ _) first
    refine (turn.loops others).mono ?_
    rintro _ ⟨b, bs, rfl, hb, hbs⟩
    rw [List.map_cons, List.map_cons, hb, hbs]

theorem length_le_printFurther (as : List (Alternative Expr)) : as.length ≤ (printFurther hand as).length := by
  induction as with
  | nil => exact Nat.le_refl 0
  | cons a as ih =>
    rw [printFurther, List.length_cons, List.length_cons, List.length_append]
    omega

theorem choiceOf_unplaced {a b : Alternative Expr} {as bs : List (Alternative Expr)} {pos pos' : Nat}
    (h : (Expr.choice (a :: as) pos').Proper) (first : b.unplaced = a.unplaced)
    (others : bs.map Alternative.unplaced = as.map Alternative.unplaced) :
    (choiceOf b bs pos).unplaced = (Expr.choice (a :: as) pos').unplaced := by
  have length : bs.length = as.length := by simpa using congrArg List.length others
  have whole : (Expr.choice (b :: bs) pos).unplaced = (Expr.choice (a :: as) pos').unplaced := by
    rw [Expr.unplaced, Expr.unplaced, unplacedBranches_eq, unplacedBranches_eq, List.map_cons, List.map_cons, first,
      others]
  obtain ⟨p, e⟩ := b
  match p, bs, length with
  | _, _ :: _, _ => exact whole
  | .explicit _, [], _ => exact whole
  | .automatic, [], length =>
    -- a lone alternative has a probability
    obtain rfl := List.eq_nil_of_length_eq_zero length.symm
    rcases h.1 with two | ⟨q, f, alone⟩
    · exact absurd two (by simp)
    · cases alone
      cases first

theorem reads_choice {as : List (Alternative Expr)} {pos : Nat} (h : (Expr.choice as pos).Proper)
    (proper : ∀ a ∈ as, a.body.Proper) (reads : ∀ a ∈ as, Reads hand a.body) : Reads hand (.choice as pos) := by
  intro depth rest enough closes
  cases as with
  | nil => rcases h.1 with h | ⟨_, _, h⟩ <;> cases h
  | cons a as =>
    rw [Expr.print, printAlternatives, List.length_append, List.length_append] at enough
    rw [Expr.print, printAlternatives, List.append_assoc]
    have inside : (parenthesized (a.body.print hand)).length ≤ depth := by omega
    obtain ⟨ends, stop⟩ := stops_further hand as closes
    have first := takes_branch (h.2 a List.mem_cons_self) (proper a List.mem_cons_self)
      (reads a List.mem_cons_self) inside ends stop
    have others : Loops (do layout; separated (sequence (choiceAt depth))) as.length (printFurther hand as ++ rest) rest
        (·.map Alternative.unplaced = as.map Alternative.unplaced) :=
      loops_further (fun b hb => h.2 b (List.mem_cons_of_mem _ hb)) (fun b hb => proper b (List.mem_cons_of_mem _ hb))
        (fun b hb => reads b (List.mem_cons_of_mem _ hb)) (by omega) closes
    have start :
        ∀ c ∈ (printTag hand a.probability ++ parenthesized (a.body.print hand) ++
          (printFurther hand as ++ rest)).head?,
        c ≠ '/' ∧ c ≠ '|' := by
      cases a.probability with
      | automatic =>
        rintro c ⟨⟩
        decide
      | explicit p =>
        rintro c ⟨⟩
        decide
    have turns : as.length ≤ (printFurther hand as ++ rest).length := by
      rw [List.length_append]
      exact Nat.le_add_right_of_le (length_le_printFurther as)
    refine (takes_choice start first others turns).mono ?_
    rintro _ ⟨b, bs, pos', hb, hbs, rfl⟩
    exact choiceOf_unplaced h hb hbs

theorem every_head {P : Expr → Prop} (h : e.Every P) : P e := by
  cases e with
  | literal _ | range _ _ _ | reference _ _ | generate _ | check _ | action _ => exact h
  | repetition _ _ _ _ | sequence _ | choice _ _ | capture _ _ _ => exact h.1

mutual

theorem reads : ∀ e : Expr, e.Normal → Reads hand e
  | .literal s, _ => reads_literal s
  | .range _ _ _, h => reads_range h
  | .reference _ _, h => reads_reference h
  | .repetition body _ _ _, h => reads_repetition (every_head h.2) (reads body h.2)
  | .sequence es, h => reads_sequence h.1 (fun e he => every_head (everyIn_iff.1 h.2 e he)) (readsAll es h.2)
  | .choice as _, h => reads_choice h.1 (fun a ha => every_head (everyBranch_iff.1 h.2 a ha)) (readsBranches as h.2)
  | .generate _, h => reads_generate h
  | .check _, h => reads_check h
  | .action _, h => reads_action h.1 h.2
  | .capture body _ _, h => reads_capture h.1 (every_head h.2) (reads body h.2)

theorem readsAll : ∀ es : List Expr, EveryIn Expr.Proper es → ∀ e ∈ es, Reads hand e
  | [], _ => fun _ h => absurd h List.not_mem_nil
  | e :: es, h => List.forall_mem_cons.2 ⟨reads e h.1, readsAll es h.2⟩

theorem readsBranches : ∀ as : List (Alternative Expr), EveryBranch Expr.Proper as → ∀ a ∈ as, Reads hand a.body
  | [], _ => fun _ h => absurd h List.not_mem_nil
  | a :: as, h => List.forall_mem_cons.2 ⟨reads a.body h.1, readsBranches as h.2⟩

end

theorem takes_printRule {r : Rule} (h : r.Normal) (enough : (r.body.print hand).length ≤ depth) (rest : List Char) :
    Takes (item (choiceAt (depth + 1))) (printRule hand r ++ rest) rest fun i => i.unplaced = .rule r.unplaced := by
  have text : printRule hand r ++ rest = quotedName r.name ++ '=' :: (r.body.print hand ++ ';' :: rest) := by
    simp [printRule]
  rw [text]
  have body := reads r.body h.2 depth (';' :: rest) enough ⟨';', rest, rfl, by decide⟩
  refine (takes_item_rule (takes_definition h.1 (solid_print (every_head h.2)) body)).mono ?_
  rintro _ ⟨⟨n, e, pos⟩, rfl, rfl, same⟩
  exact congrArg (fun e => Item.rule ⟨_, e, 0⟩) same

theorem solid_printRule (r : Rule) : Solid (printRule hand r ++ rest) := by
  rw [printRule, List.append_assoc]
  exact solid_quotedName r.name

theorem length_body_le (r : Rule) : (r.body.print hand).length ≤ (printRule hand r).length := by
  rw [printRule, List.length_append, List.length_cons, List.length_append]
  omega

theorem loops_rules {rules : List Rule} (h : ∀ r ∈ rules, r.Normal) (enough : (printRules hand rules).length ≤ depth) :
    Loops (do let _ ← layout; item (choiceAt (depth + 1))) rules.length (printRules hand rules) []
      (·.map Item.unplaced = rules.map fun r => .rule r.unplaced) := by
  induction rules with
  | nil =>
    refine (refuses_further_item_nil _).loops.mono ?_
    rintro _ rfl
    rfl
  | cons r rules ih =>
    have text : printRules hand (r :: rules) = printRule hand r ++ printRules hand rules := List.flatMap_cons
    rw [text, List.length_append] at enough
    rw [text]
    have inside : (r.body.print hand).length ≤ depth :=
      Nat.le_trans (length_body_le r) (Nat.le_trans (Nat.le_add_right _ _) enough)
    have first := takes_printRule (h r List.mem_cons_self) inside (printRules hand rules)
    have others := ih (fun q hq => h q (List.mem_cons_of_mem _ hq)) (by omega)
    refine (((solid_printRule r).takes_layout.bind fun _ _ => first).loops others).mono ?_
    rintro _ ⟨i, is, rfl, hi, his⟩
    rw [List.map_cons, List.map_cons, hi, his]

theorem length_le_printRules (rules : List Rule) : rules.length ≤ (printRules hand rules).length := by
  induction rules with
  | nil => exact Nat.le_refl 0
  | cons r rules ih =>
    rw [printRules, List.flatMap_cons, List.length_append, List.length_cons, printRule, List.length_append,
      List.length_cons]
    rw [printRules] at ih
    omega

/-- What was printed is read back as it was, up to offsets. -/
theorem parse_printRules (hand : Hand) {rules : List Rule} (nonempty : rules ≠ []) (h : ∀ r ∈ rules, r.Normal) :
    ∃ l, parse (printRules hand rules) = .ok l ∧ l.map Item.unplaced = rules.map fun r => .rule r.unplaced := by
  obtain ⟨r, rules, rfl⟩ := List.exists_cons_of_ne_nil nonempty
  have text : printRules hand (r :: rules) = printRule hand r ++ printRules hand rules := List.flatMap_cons
  have enough : (r.body.print hand).length ≤ (printRules hand (r :: rules)).length ∧
      (printRules hand rules).length ≤ (printRules hand (r :: rules)).length := by
    rw [text, List.length_append]
    have body : (r.body.print hand).length ≤ _ := length_body_le r
    omega
  have first := takes_printRule (h r List.mem_cons_self) enough.1 (printRules hand rules)
  have others := loops_rules (fun q hq => h q (List.mem_cons_of_mem _ hq)) enough.2
  rw [← text] at first
  obtain ⟨l, parsed, i, is, rfl, hi, his⟩ :=
    (takes_items (text ▸ solid_printRule r) first others (length_le_printRules rules)).run
  exact ⟨_, parsed, by rw [List.map_cons, List.map_cons, hi, his]⟩

end TextGrammar.Grammar
