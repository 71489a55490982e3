import TextGrammar.Proofs.Spellings
set_option autoImplicit false

namespace TextGrammar.Grammar
open Parsing Parser Token

variable {rest cs mid : List Char} {inner body : Parser Expr} {P Q : Expr → Prop}

def endings : List Char := ['(', ')', ';', '|']

def Ends (cs : List Char) : Prop := ∃ c more, cs = c :: more ∧ c ∈ endings

theorem Ends.solid (h : Ends cs) : Solid cs := by
  obtain ⟨c, more, rfl, hc⟩ := h
  have plain : ∀ c ∈ endings, isBlank c = false ∧ c ≠ '/' ∧ c ≠ '-' := forall_mem_of_all (by decide)
  obtain ⟨blank, slash, dash⟩ := plain c hc
  exact solid_of_head blank slash dash

theorem Ends.refuses_word (h : Ends cs) {w : String} {d : Char} {ws : List Char} (hw : w.toList = d :: ws)
    (hd : d ∉ endings) :
    Refuses (word w) cs := by
  obtain ⟨c, more, rfl, hc⟩ := h
  exact refuses_word_of_head hw fun e => hd (e ▸ hc)

theorem Ends.refuses_suffix (h : Ends cs) : Refuses suffix cs := by
  have here {α : Type} {p : Nat → Parser α} (hp : ∀ pos, Refuses (p pos) cs) :
      Refuses (do let pos ← position; p pos) cs :=
    takes_position.refuses fun pos _ => hp pos
  refine Refuses.or (here fun _ => (h.refuses_word rfl (by decide)).bind) ?_
  refine Refuses.or (here fun _ => (h.refuses_word rfl (by decide)).bind) ?_
  refine Refuses.or (here fun _ => (h.refuses_word rfl (by decide)).bind) ?_
  refine Refuses.or (here fun _ => (h.refuses_word rfl (by decide)).bind) ?_
  exact (h.refuses_word rfl (by decide)).bind

theorem Ends.refuses_further_suffix (h : Ends cs) : Refuses (do layout; suffix) cs :=
  h.solid.takes_layout.refuses fun _ _ => h.refuses_suffix

theorem refuses_block {opening : String} {c : Char} {ws : List Char} (hw : opening.toList = '\x7b' :: ws)
    (h : c ≠ '\x7b') :
    Refuses (block opening) (c :: cs) :=
  (refuses_word_of_head hw h).bind

theorem refuses_block_of_head {opening : String} {c : Char} (hw : opening.toList = ['\x7b', c])
    (h : ∀ d ∈ cs.head?, d ≠ c) : Refuses (block opening) ('\x7b' :: cs) := by
  refine Refuses.bind (refuses_word ?_)
  rw [hw]
  rintro ⟨more, text⟩
  obtain rfl := (List.cons.inj text).2
  exact h c rfl rfl

theorem refuses_sign_digits {β : Type} {f : Bool → List Char → Parser β}
    (h : ∀ c ∈ cs.head?, Decimal.isDigit c = false ∧ c ≠ '-' ∧ c ≠ '+') :
    Refuses (do let negative ← sign; let ds ← digits; f negative ds) cs := by
  have unsigned : Takes sign cs cs fun _ => True := by
    refine (Refuses.optional (refuses_char fun c hc => ?_)).bind fun _ _ => takes_pure trivial
    simp [(h c hc).2.1, (h c hc).2.2]
  exact unsigned.refuses fun _ _ => (refuses_chars1 fun c hc => (h c hc).1).bind

theorem refuses_number (h : ∀ c ∈ cs.head?, Decimal.isDigit c = false ∧ c ≠ '-' ∧ c ≠ '+') : Refuses number cs :=
  refuses_sign_digits h

def outside : List Char := [')', ';', '|']

theorem refuses_primary (h : ∀ c ∈ cs.head?, c ∈ outside) : Refuses (primary inner) cs := by
  have other : ∀ c ∈ cs.head?, ∀ d, d ∉ outside → c ≠ d := fun c hc d hd e => hd (e ▸ h c hc)
  have no_word {w : String} {d : Char} {ws : List Char} (hw : w.toList = d :: ws) (hd : d ∉ outside) :
      Refuses (word w) cs := by
    cases cs with
    | nil =>
      refine refuses_word fun found => ?_
      rw [List.prefix_nil, hw] at found
      cases found
    | cons c cs => exact refuses_word_of_head hw (other c rfl d hd)
  have plain : ∀ c ∈ outside, isNameStart c = false ∧ Decimal.isDigit c = false := forall_mem_of_all (by decide)
  have no_literal : Refuses literal cs :=
    refuses_literal fun c hc => ⟨other c hc _ (by decide), other c hc _ (by decide), other c hc _ (by decide)⟩
  have no_reference : Refuses reference cs := takes_position.refuses fun _ _ =>
    (refuses_name fun c hc => ⟨other c hc _ (by decide), (plain c (h c hc)).1⟩).bind
  have no_range : Refuses range cs := takes_position.refuses fun _ _ =>
    (refuses_number fun c hc => ⟨(plain c (h c hc)).2, other c hc _ (by decide), other c hc _ (by decide)⟩).bind
  refine Refuses.or no_literal.bind (Refuses.or (no_word rfl (by decide)).bind.bind ?_)
  refine Refuses.or (no_word rfl (by decide)).bind.bind (Refuses.or (no_word rfl (by decide)).bind.bind ?_)
  exact Refuses.or no_reference (Refuses.or no_range (no_word rfl (by decide)).bind)

theorem takes_primary_literal {s : String} (h : Takes literal cs rest (· = s)) :
    Takes (primary inner) cs rest (· = .literal s) := by
  refine Takes.orElse (h.bind ?_)
  rintro _ rfl
  exact takes_pure rfl

theorem refuses_literal_brace : Refuses literal ('\x7b' :: cs) :=
  refuses_literal (by rintro c ⟨⟩; decide)

theorem takes_primary_generate {s : String} (h : Balanced s.toList) :
    Takes (primary inner) ('\x7b' :: '=' :: (s.toList ++ '\x7d' :: rest)) rest (· = .generate s) := by
  refine Refuses.orElse refuses_literal_brace.bind (Takes.orElse ((takes_block "\x7b=" h).bind ?_))
  rintro _ rfl
  exact takes_pure rfl

theorem takes_primary_check {s : String} (h : Balanced s.toList) :
    Takes (primary inner) ('\x7b' :: '?' :: (s.toList ++ '\x7d' :: rest)) rest (· = .check s) := by
  refine Refuses.orElse refuses_literal_brace.bind (Refuses.orElse (Refuses.bind (refuses_block_of_head rfl ?_)) ?_)
  · rintro c ⟨⟩
    decide
  · refine Takes.orElse ((takes_block "\x7b?" h).bind ?_)
    rintro _ rfl
    exact takes_pure rfl

theorem takes_primary_action {s : String} (h : Balanced s.toList) (plain : ∀ c ∈ s.toList.head?, c ≠ '=' ∧ c ≠ '?') :
    Takes (primary inner) ('\x7b' :: (s.toList ++ '\x7d' :: rest)) rest (· = .action s) := by
  have first : ∀ c ∈ (s.toList ++ '\x7d' :: rest).head?, c ≠ '=' ∧ c ≠ '?' := by
    cases hs : s.toList with
    | nil =>
      rintro c ⟨⟩
      decide
    | cons c cs =>
      rw [hs] at plain
      exact plain
  refine Refuses.orElse refuses_literal_brace.bind ?_
  refine Refuses.orElse (Refuses.bind (refuses_block_of_head rfl fun c hc => (first c hc).1)) ?_
  refine Refuses.orElse (Refuses.bind (refuses_block_of_head rfl fun c hc => (first c hc).2)) ?_
  refine Takes.orElse ((takes_block "\x7b" h).bind ?_)
  rintro _ rfl
  exact takes_pure rfl

/-- Nothing before the references begins with such a character. -/
theorem takes_primary_of_head {c : Char} (literal : c ≠ '"' ∧ c ≠ '\'' ∧ c ≠ 'U') (brace : c ≠ '\x7b')
    (h : Takes (reference <|> range <|> (do word "("; layout; let e ← inner; layout; word ")"; return e))
    (c :: cs) rest P) :
    Takes (primary inner) (c :: cs) rest P := by
  refine Refuses.orElse (Refuses.bind (refuses_literal ?_)) ?_
  · rintro d ⟨⟩
    exact literal
  · refine Refuses.orElse (Refuses.bind (refuses_block rfl brace))
      (Refuses.orElse (Refuses.bind (refuses_block rfl brace)) ?_)
    exact Refuses.orElse (Refuses.bind (refuses_block rfl brace)) h

theorem takes_primary_reference {n : String} (h : Quotable n) (solid : Solid rest) (free : ∀ c ∈ rest.head?, c ≠ '=') :
    Takes (primary inner) (quotedName n ++ rest) rest fun e => ∃ pos, e = .reference n pos := by
  have no_definition : Refuses (do layout; word "=" : Parser Unit) rest :=
    solid.takes_layout.refuses fun _ _ => by
      cases rest with
      | nil => exact fun _ => rfl
      | cons c rest => exact refuses_word_of_head rfl (free c rfl)
  refine takes_primary_of_head (by decide) (by decide) (Takes.orElse ?_)
  refine takes_position.bind fun pos _ => (takes_quotedName h).bind ?_
  rintro _ rfl
  exact (takes_notHere no_definition).bind fun _ _ => takes_pure ⟨pos, rfl⟩

theorem takes_primary_parenthesized (open_solid : Solid cs) (h : Takes inner cs (')' :: rest) P) :
    Takes (primary inner) ('(' :: cs) rest P := by
  refine takes_primary_of_head (by decide) (by decide) (Refuses.orElse ?_ (Refuses.orElse ?_ ?_))
  · exact takes_position.refuses fun _ _ => (refuses_name (by rintro c ⟨⟩; decide)).bind
  · exact takes_position.refuses fun _ _ => (refuses_number (by rintro c ⟨⟩; decide)).bind
  · refine Takes.bind (takes_word "(") fun _ _ => open_solid.takes_layout.bind fun _ _ => h.bind fun e he => ?_
    have close_solid : Solid (')' :: rest) := solid_of_head (by decide) (by decide) (by decide)
    exact close_solid.takes_layout.bind fun _ _ => Takes.bind (takes_word ")") fun _ _ => takes_pure he

theorem takes_unsuffixed (h : Takes (primary inner) cs rest P) (no_suffix : Refuses (do layout; suffix) rest) :
    Takes (repeated inner) cs rest P := by
  refine h.bind fun e he => (no_suffix.loops.many (Nat.zero_le _)).bind ?_
  rintro _ rfl
  exact takes_pure he

theorem takes_repeated (h : Takes (primary inner) cs rest P) (ends : Ends rest) : Takes (repeated inner) cs rest P :=
  takes_unsuffixed h ends.refuses_further_suffix

theorem takes_suffixed {R : Suffix → Prop} (h : Takes (primary inner) cs mid P) (solid : Solid mid)
    (hs : Takes suffix mid rest R) (nonempty : 0 < mid.length) (ends : Ends rest) :
    Takes (repeated inner) cs rest fun e => ∃ e' s, P e' ∧ R s ∧ e = s.apply e' := by
  refine h.bind fun e he => ?_
  have one : Loops (do layout; suffix) 1 mid rest _ :=
    (solid.takes_layout.bind fun _ _ => hs).loops ends.refuses_further_suffix.loops
  refine (one.many nonempty).bind ?_
  rintro _ ⟨s, _, rfl, hs, rfl⟩
  exact takes_pure ⟨e, s, he, hs, rfl⟩

theorem takes_sequence {n : Nat} {R : List Expr → Prop} (first : Takes (repeated inner) cs mid P)
    (others : Loops (do let _ ← layout; repeated inner) n mid rest R) (enough : n ≤ mid.length) :
    Takes (sequence inner) cs rest fun e => ∃ a as, P a ∧ R as ∧ e = .ofItems (a :: as) := by
  refine (first.sepBy1 others enough).bind ?_
  rintro _ ⟨a, as, rfl, ha, has⟩
  exact takes_pure ⟨a, as, ha, has, rfl⟩

theorem refuses_repeated_further (ends : Ends cs) (h : ∀ c ∈ cs.head?, c ∈ outside) :
    Refuses (do let _ ← layout; repeated inner) cs :=
  ends.solid.takes_layout.refuses fun _ _ => (refuses_primary h).bind

theorem takes_sequence_alone (h : Takes (repeated inner) cs rest P)
    (no_part : Refuses (do let _ ← layout; repeated inner) rest) : Takes (sequence inner) cs rest P := by
  refine (takes_sequence h no_part.loops (Nat.zero_le _)).mono ?_
  rintro _ ⟨a, _, ha, rfl, rfl⟩
  exact ha

theorem takes_sequence_single (h : Takes (repeated inner) cs rest P) (ends : Ends rest)
    (stop : ∀ c ∈ rest.head?, c ∈ outside) : Takes (sequence inner) cs rest P :=
  takes_sequence_alone h (refuses_repeated_further ends stop)

variable {A : Alternative Expr → Prop}

theorem takes_tagged (untagged : ∀ c ∈ cs.head?, c ≠ '[') (solid : Solid cs) (h : Takes body cs rest P) :
    Takes (tagged body) cs rest fun a => a.probability = .automatic ∧ P a.body := by
  have no_probability : Refuses probability cs := by
    cases cs with
    | nil => exact Refuses.bind fun _ => rfl
    | cons c cs => exact (refuses_word_of_head rfl (untagged c rfl)).bind
  refine no_probability.optional.bind ?_
  rintro _ rfl
  exact solid.takes_layout.bind fun _ _ => h.bind fun e he => takes_pure ⟨rfl, he⟩

theorem takes_tagged_explicit {p : Float} (tag : Takes probability cs mid (· = p)) (solid : Solid mid)
    (h : Takes body mid rest P) : Takes (tagged body) cs rest fun a => a.probability = .explicit p ∧ P a.body := by
  refine tag.optional.bind ?_
  rintro _ ⟨_, rfl, rfl⟩
  exact solid.takes_layout.bind fun _ _ => h.bind fun e he => takes_pure ⟨rfl, he⟩

theorem refuses_separated (h : ∀ c ∈ cs.head?, c ≠ '/' ∧ c ≠ '|') : Refuses (separated body) cs := by
  cases cs with
  | nil => exact Refuses.bind fun _ => rfl
  | cons c cs =>
    exact Refuses.bind ((refuses_word_of_head rfl (h c rfl).1).or (refuses_word_of_head rfl (h c rfl).2))

theorem takes_separated (solid : Solid cs) (h : Takes (tagged body) cs rest A) :
    Takes (separated body) ('|' :: cs) rest A := by
  have bar : Takes (word "/" <|> word "|") ('|' :: cs) cs fun _ => True :=
    Refuses.orElse (refuses_word_of_head rfl (by decide)) (takes_word "|")
  exact bar.bind fun _ _ => solid.takes_layout.bind fun _ _ => h

/-- What `choice` makes of its alternatives where no bar stands before the first. -/
def choiceOf (first : Alternative Expr) (more : List (Alternative Expr)) (pos : Nat) : Expr :=
  match first, more with
  | a, b :: bs => .choice (a :: b :: bs) pos
  | ⟨.automatic, e⟩, [] => e
  | a, [] => .choice [a] pos

theorem takes_choice {n : Nat} {R : List (Alternative Expr) → Prop} (start : ∀ c ∈ cs.head?, c ≠ '/' ∧ c ≠ '|')
    (first : Takes (tagged body) cs mid A) (others : Loops (do layout; separated body) n mid rest R)
    (enough : n ≤ mid.length) :
    Takes (choice body) cs rest fun e => ∃ a as pos, A a ∧ R as ∧ e = choiceOf a as pos := by
  refine takes_position.bind fun pos _ => ?_
  have unled : Takes ((do let a ← separated body; return (true, a)) <|> (do let a ← tagged body; return (false, a)) :
      Parser (Bool × Alternative Expr)) cs mid fun r => r.1 = false ∧ A r.2 :=
    Refuses.orElse (refuses_separated start).bind (first.bind fun a ha => takes_pure ⟨rfl, ha⟩)
  refine unled.bind ?_
  rintro ⟨_, a⟩ ⟨rfl, ha⟩
  refine (others.many enough).bind fun as has => ?_
  match a, as, ha, has with
  | a, b :: bs, ha, has => exact takes_pure ⟨a, b :: bs, pos, ha, has, rfl⟩
  | ⟨.automatic, e⟩, [], ha, has => exact takes_pure ⟨_, [], pos, ha, has, rfl⟩
  | ⟨.explicit q, e⟩, [], ha, has => exact takes_pure ⟨_, [], pos, ha, has, rfl⟩

def closings : List Char := [')', ';']

def Closes (cs : List Char) : Prop := ∃ c more, cs = c :: more ∧ c ∈ closings

theorem Closes.ends (h : Closes cs) : Ends cs := by
  obtain ⟨c, more, rfl, hc⟩ := h
  have all : ∀ c ∈ closings, c ∈ endings := forall_mem_of_all (by decide)
  exact ⟨c, more, rfl, all c hc⟩

theorem Closes.outside (h : Closes cs) : ∀ c ∈ cs.head?, c ∈ Grammar.outside := by
  obtain ⟨c, more, rfl, hc⟩ := h
  have all : ∀ c ∈ closings, c ∈ Grammar.outside := forall_mem_of_all (by decide)
  rintro d ⟨⟩
  exact all c hc

theorem Closes.refuses_alternative (h : Closes cs) : Refuses (do layout; separated body) cs := by
  refine h.ends.solid.takes_layout.refuses fun _ _ => refuses_separated ?_
  obtain ⟨c, more, rfl, hc⟩ := h
  have plain : ∀ c ∈ closings, c ≠ '/' ∧ c ≠ '|' := forall_mem_of_all (by decide)
  rintro d ⟨⟩
  exact plain c hc

theorem takes_choice_alone (h : Takes body cs rest P) (alone : Refuses (do layout; separated body) rest) (solid : Solid cs)
    (start : ∀ c ∈ cs.head?, c ≠ '/' ∧ c ≠ '|' ∧ c ≠ '[') : Takes (choice body) cs rest P := by
  have tagged := takes_tagged (fun c hc => (start c hc).2.2) solid h
  refine (takes_choice (fun c hc => ⟨(start c hc).1, (start c hc).2.1⟩) tagged alone.loops (Nat.zero_le _)).mono ?_
  rintro _ ⟨⟨_, _⟩, _, _, ⟨rfl, he⟩, rfl, rfl⟩
  exact he

theorem takes_untagged {depth : Nat} (h : Takes (sequence (choiceAt depth)) cs rest P) (closes : Closes rest)
    (solid : Solid cs)
    (start : ∀ c ∈ cs.head?, c ≠ '/' ∧ c ≠ '|' ∧ c ≠ '[') : Takes (choiceAt (depth + 1)) cs rest P :=
  takes_choice_alone h closes.refuses_alternative solid start

/-- An expression that is neither a sequence nor a choice is read as what it is where a choice may stand. -/
theorem takes_lone {depth : Nat} (h : Takes (repeated (choiceAt depth)) cs rest P) (closes : Closes rest)
    (solid : Solid cs)
    (start : ∀ c ∈ cs.head?, c ≠ '/' ∧ c ≠ '|' ∧ c ≠ '[') : Takes (choiceAt (depth + 1)) cs rest P :=
  takes_untagged (takes_sequence_single h closes.ends closes.outside) closes solid start

theorem takes_definition {n : String} (hn : Quotable n) (solid : Solid cs) (h : Takes body cs (';' :: rest) P) :
    Takes (definition body) (quotedName n ++ '=' :: cs) rest fun r => r.name = n ∧ P r.body := by
  refine takes_position.bind fun pos _ => (takes_quotedName hn).bind ?_
  rintro _ rfl
  have sign_solid : Solid ('=' :: cs) := solid_of_head (by decide) (by decide) (by decide)
  refine sign_solid.takes_layout.bind fun _ _ => Takes.bind (takes_word "=") fun _ _ => ?_
  refine solid.takes_layout.bind fun _ _ => h.bind fun e he => ?_
  have close_solid : Solid (';' :: rest) := solid_of_head (by decide) (by decide) (by decide)
  exact close_solid.takes_layout.bind fun _ _ => Takes.bind (takes_word ";") fun _ _ => takes_pure ⟨rfl, he⟩

theorem refuses_choiceAt_nil (depth : Nat) : Refuses (choiceAt depth) [] := by
  have no_primary {inner : Parser Expr} : Refuses (primary inner) [] := refuses_primary (by rintro c ⟨⟩)
  have no_body {inner : Parser Expr} : Refuses (sequence inner) [] := Refuses.bind no_primary.bind.sepBy1
  cases depth with
  | zero => exact refuses_fail
  | succ depth =>
    refine takes_position.refuses fun _ _ => Refuses.bind (Refuses.or (refuses_separated (by rintro c ⟨⟩)).bind ?_)
    have untagged : Refuses probability [] := Refuses.bind fun _ => rfl
    exact Refuses.bind (untagged.optional.refuses fun _ _ => solid_nil.takes_layout.refuses fun _ _ => no_body.bind)

theorem refuses_further_item_nil (depth : Nat) : Refuses (do let _ ← layout; item (choiceAt depth)) [] := by
  have no_name : Refuses name [] := refuses_name (by rintro c ⟨⟩)
  have no_definition : Refuses (definition (choiceAt depth)) [] := takes_position.refuses fun _ _ => no_name.bind
  exact solid_nil.takes_layout.refuses fun _ _ => Refuses.or no_definition.bind (refuses_choiceAt_nil depth).bind

theorem takes_item_rule {R : Rule → Prop} (h : Takes (definition body) cs rest R) :
    Takes (item body) cs rest fun i => ∃ r, i = .rule r ∧ R r :=
  Takes.orElse (h.bind fun r hr => takes_pure ⟨r, rfl, hr⟩)

theorem takes_items {depth n : Nat} {I : Item → Prop} {R : List Item → Prop} (solid : Solid cs)
    (first : Takes (item (choiceAt depth)) cs mid I)
    (others : Loops (do let _ ← layout; item (choiceAt depth)) n mid [] R) (enough : n ≤ mid.length) :
    Takes (items depth) cs [] fun l => ∃ i is, l = i :: is ∧ I i ∧ R is := by
  refine solid.takes_layout.bind fun _ _ => (Takes.orElse (first.sepBy1 others enough)).bind fun l hl => ?_
  exact solid_nil.takes_layout.bind fun _ _ => takes_pure hl

theorem solid_quotedName (n : String) : Solid (quotedName n ++ cs) :=
  solid_of_head (by decide) (by decide) (by decide)

end TextGrammar.Grammar
