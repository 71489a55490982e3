import TextGrammar.Proofs.TokenPlaces
set_option autoImplicit false

namespace TextGrammar.Grammar
open Parsing Parser Token

variable {cs t tail rest u v : List Char} {ts : List (List Char)} {n N : Nat} {c d : Char}

theorem Legible.solid (h : Legible (t :: ts)) (edge : Edge rest) : Solid (t ++ rest) := by
  rcases h.kind with whole | marked
  · exact whole.solid
  · exact marked.plain.solid marked.nonempty edge

theorem at_end (few : 0 < n) : At [] [] n [] [] :=
  ⟨plain_nil, fun _ => nofun, ⟨nofun, nofun, .nil⟩, few, ⟨[], rfl, nofun, .nil .nil⟩, [], rfl, nofun, .nil .nil⟩

theorem Spaced.agree_layout {Q : List Char → Prop} (left : Spaced ts u) (right : Spaced ts v) (legible : Legible ts)
    (few : ts.flatten.length < n) (next : ∀ t ∈ ts.head?, Q t) :
    Agree (fun u v => (u = [] ↔ v = []) ∧ (Inside n u v ∨ Front (fun t => Whole t ∧ Q t) n u v)) layout layout u v := by
  cases left with
  | nil h =>
    cases right with
    | nil h' =>
      have taken := h.takes solid_nil
      have taken' := h'.takes solid_nil
      rw [List.append_nil] at taken taken'
      exact ⟨(), [], [], taken.mono fun _ _ => rfl, taken'.mono fun _ _ => rfl, Iff.rfl, .inl ⟨[], [], at_end few⟩⟩
  | @cons t g r ts h edge more =>
    cases right with
    | @cons _ g' s _ h' edge' more' =>
      rw [List.flatten_cons, List.length_append] at few
      have stands : Stands t ts (t ++ r) := ⟨r, rfl, edge, more⟩
      have stands' : Stands t ts (t ++ s) := ⟨s, rfl, edge', more'⟩
      have both (nonempty : t ≠ []) : t ++ r = [] ↔ t ++ s = [] := by simp [nonempty]
      refine ⟨(), t ++ r, t ++ s, (h.takes (legible.solid edge)).mono fun _ _ => rfl,
        (h'.takes (legible.solid edge')).mono fun _ _ => rfl, ?_⟩
      rcases legible.kind with whole | marked
      · obtain ⟨c, rest, text, -⟩ := whole.head
        exact ⟨both (text ▸ List.cons_ne_nil c rest), .inr ⟨t, ts, ⟨whole, next t rfl⟩, legible.tail, few, stands, stands'⟩⟩
      · have behind : dots <:+ t → Unbounded ts := fun found t' ht' =>
          (List.isChain_cons.1 legible.bounds).1 t' ht' (marked.dots_only found)
        exact ⟨both marked.nonempty, .inl ⟨t, ts, marked.plain, behind, legible.tail, few, stands, stands'⟩⟩

theorem At.agree_layout {Q : List Char → Prop} (h : At tail ts n u v) (next : tail = [] → ∀ t ∈ ts.head?, Q t) :
    Agree (fun u v => (u = [] ↔ v = []) ∧ (Inside n u v ∨ Front (fun t => Whole t ∧ Q t) n u v)) layout layout u v := by
  by_cases stay : tail = []
  · subst stay
    obtain ⟨r, rfl, -, spaced⟩ := h.left
    obtain ⟨s, rfl, -, spaced'⟩ := h.right
    have few := h.few
    rw [List.length_nil, Nat.zero_add] at few
    exact spaced.agree_layout spaced' h.legible few (next rfl)
  · have solid {x : List Char} (stands : Stands tail ts x) : x ≠ [] ∧ Takes layout x x fun _ => True := by
      obtain ⟨r, rfl, edge, -⟩ := stands
      exact ⟨fun e => stay (List.append_eq_nil_iff.1 e).1, (h.plain.solid stay edge).takes_layout⟩
    obtain ⟨some, taken⟩ := solid h.left
    obtain ⟨some', taken'⟩ := solid h.right
    exact ⟨(), u, v, taken.mono fun _ _ => rfl, taken'.mono fun _ _ => rfl, iff_of_false some some', .inl ⟨tail, ts, h⟩⟩

theorem Front.agree_layout {P : List Char → Prop} (h : Front P n u v) (whole : ∀ t, P t → Whole t) :
    Agree (fun u v => (u = [] ↔ v = []) ∧ Front P n u v) layout layout u v := by
  obtain ⟨t, ts, ht, legible, few, left, right⟩ := h
  have solid {x : List Char} (stands : Stands t ts x) : x ≠ [] ∧ Takes layout x x fun _ => True := by
    obtain ⟨r, rfl, -⟩ := stands
    obtain ⟨c, more, rfl, -⟩ := (whole t ht).head
    exact ⟨nofun, (whole _ ht).solid.takes_layout⟩
  obtain ⟨some, taken⟩ := solid left
  obtain ⟨some', taken'⟩ := solid right
  exact ⟨(), u, v, taken.mono fun _ _ => rfl, taken'.mono fun _ _ => rfl, iff_of_false some some', t, ts, ht, legible, few,
    left, right⟩

theorem alike_layout_end : Alike id (Same n) (fun u v => (u = [] ↔ v = []) ∧ Same n u v) layout layout := by
  refine Alike.either (alike_of_agree fun u v ⟨tail, ts, h⟩ => ?_) (alike_of_agree fun u v front => ?_)
  · obtain ⟨a, u', v', left, right, ends, place⟩ := h.agree_layout (Q := fun _ => True) fun _ _ _ => trivial
    exact .inr ⟨a, u', v', left, right, ends, place.imp_right fun front => front.mono fun _ both => both.1⟩
  · obtain ⟨a, u', v', left, right, ends, place⟩ := front.agree_layout fun _ whole => whole
    exact .inr ⟨a, u', v', left, right, ends, .inr place⟩

theorem level_layout : Level Same N id layout layout := fun _ _ => alike_layout_end.weaken (fun _ _ h => h) fun _ _ h => h.2

/-- A parser that stops inside the tokens of marks, and at the ends of the others. -/
theorem descends_of_alike {α : Type} {p : Parser α} (h : ∀ n, Alike id (Same (n + 1)) (Inside n) p p) :
    Descends Same N id p p := fun n _ => (h n).weaken (fun _ _ h => h) fun _ _ h => h.same

theorem descends_word {s : String} {ws : List Char} (dense : isDense s = true) (hs : s.toList = d :: ws)
    (other : isOpening d = false) : Descends Same N id (word s) (word s) :=
  descends_of_alike fun _ => alike_word dense hs other

theorem level_word {s : String} {ws : List Char} (dense : isDense s = true) (hs : s.toList = d :: ws)
    (other : isOpening d = false) : Level Same N id (word s) (word s) := (descends_word dense hs other).level graded_same

theorem not_blank_of_class {ok : Char → Bool} (h : ([' ', '\n', '\t', '\r'].all fun c => !ok c) = true) (c : Char)
    (blank : isBlank c = true) : ok c = false := by
  have all := List.all_eq_true.1 h c (isBlank_cases blank)
  rwa [Bool.not_eq_true'] at all

theorem alike_inside_chars1 {label : String} {ok : Char → Bool} (blank : ∀ c, isBlank c = true → ok c = false) :
    Alike id (Inside (n + 1)) (Inside n) (chars1 label ok) (chars1 label ok) :=
  (alike_inside_char blank).bind fun | _, _, rfl => (alike_inside_chars blank).bind fun | _, _, rfl => alike_pure rfl

theorem alike_inside_level {α : Type} {p : Parser α} (h : ∀ m, Alike id (Inside (m + 1)) (Inside m) p p) :
    Alike id (Inside n) (Inside n) p p := by
  cases n with
  | zero => exact fun c d place => absurd place.same (graded_same.none _ _)
  | succ n => exact (h n).weaken (fun _ _ place => place) fun _ _ place => place.succ

theorem alike_inside_name : Alike id (Inside (n + 1)) (Inside n) name name := by
  refine Alike.orElse (alike_refused fun u v h => ?_) (Alike.orElse (Alike.quiet ?_) (alike_expected _))
  · have refused := h.refuses_word (s := "`") rfl (by decide) (by decide)
    exact ⟨refused.1.bind, refused.2.bind⟩
  · refine Alike.bind (alike_inside_char (not_blank_of_class (by decide))) fun | a, _, rfl => ?_
    exact (alike_inside_chars (not_blank_of_class (by decide))).bind fun | run, _, rfl => alike_pure rfl

theorem not_isNameChar_of_edge (edge : Edge rest) : ∀ c ∈ rest.head?, isNameChar c = false :=
  fun c hc => not_blank_of_class (by decide) c (edge c hc)

theorem Whole.settles_name (h : Whole t) : Settles Grammar.name t := by
  cases h with
  | @quoted quote _ h _ =>
    have other : ∀ quote ∈ quotes, quote ≠ '`' ∧ isNameStart quote = false := forall_mem_of_all (by decide)
    refine .inl fun rest _ => refuses_name ?_
    rintro _ ⟨⟩
    exact other quote h
  | name start more => exact .inr ⟨_, fun rest edge => takes_bareName start more (not_isNameChar_of_edge edge)⟩
  | quotedName h => exact .inr ⟨_, fun rest _ => takes_quotedName h⟩
  | block _ _ =>
    refine .inl fun rest _ => refuses_name ?_
    rintro _ ⟨⟩
    decide

theorem descends_name : Descends Same N id name name :=
  descends_of_alike fun _ => alike_of_settles alike_inside_name fun _ whole => whole.settles_name

theorem spares_escapes : Spares (fun _ => false) escapes := spares_of_shape (by decide)

theorem Enclosed.turns {quote : Char} (label : String) (h : Enclosed quote cs) :
    ∃ l : List Char, l.length ≤ cs.length ∧ ∀ rest, Turns (Token.escape escapes <|> char label (· != quote))
      (cs ++ quote :: rest) l (quote :: rest) := by
  induction h with
  | nil => exact ⟨[], Nat.le_refl 0, fun rest => .stop _⟩
  | escape c _ ih =>
    obtain ⟨l, short, turns⟩ := ih
    obtain ⟨d, taken⟩ := Script.exists_takes_escape spares_escapes c
    exact ⟨d :: l, Nat.le_succ_of_le (Nat.succ_le_succ short), fun rest => .turn (taken _).orElse (turns rest)⟩
  | @plain c _ hq hb _ ih =>
    obtain ⟨l, short, turns⟩ := ih
    refine ⟨c :: l, Nat.succ_le_succ short, fun rest => .turn ?_ (turns rest)⟩
    refine Refuses.orElse (refuses_escape spares_escapes ?_) ?_
    · rintro _ ⟨⟩
      exact hb
    · exact takes_char (bne_iff_ne.2 hq)

theorem Enclosed.takes_quoted {quote : Char} (backslash : quote ≠ '\\') (label : String) (h : Enclosed quote cs) :
    ∃ s, ∀ rest, Takes (quoted escapes quote label) (quote :: (cs ++ [quote]) ++ rest) rest (· = s) := by
  obtain ⟨l, short, turns⟩ := h.turns label
  refine ⟨String.ofList l, fun rest => ?_⟩
  have text : quote :: (cs ++ [quote]) ++ rest = quote :: (cs ++ quote :: rest) := by simp
  have stop : Refuses (Token.escape escapes <|> char label (· != quote)) (quote :: rest) := by
    refine Refuses.or (refuses_escape spares_escapes ?_) (refuses_char ?_)
    · rintro _ ⟨⟩
      exact backslash
    · rintro _ ⟨⟩
      exact bne_self_eq_false quote
  have enough : l.length ≤ (cs ++ quote :: rest).length := by
    rw [List.length_append]
    exact Nat.le_add_right_of_le short
  rw [text]
  refine (takes_quote quote _).bind fun _ _ => ((turns rest).many stop enough).bind ?_
  rintro _ rfl
  exact (takes_quote quote rest).bind fun _ _ => takes_pure rfl

theorem Whole.settles_literal (h : Whole t) : Settles literal t := by
  have refused {c : Char} {more : List Char} (double : c ≠ '"') (single : c ≠ '\'') (point : c ≠ 'U') :
      Settles literal (c :: more) := by
    refine .inl fun rest _ => refuses_literal ?_
    rintro _ ⟨⟩
    exact ⟨double, single, point⟩
  cases h with
  | @quoted quote cs h inside =>
    simp only [quotes, List.mem_cons, List.not_mem_nil, or_false] at h
    rcases h with rfl | rfl
    · obtain ⟨s, taken⟩ := inside.takes_quoted (by decide) "[^ '\"']"
      exact .inr ⟨s, fun rest _ => (taken rest).orElse⟩
    · obtain ⟨s, taken⟩ := inside.takes_quoted (by decide) "[^ '\\'']"
      refine .inr ⟨s, fun rest _ => Refuses.orElse (Refuses.bind (refuses_word_of_head rfl (by decide))) (taken rest).orElse⟩
  | @name c run start more =>
    by_cases point : c = 'U'
    · subst point
      refine .inl fun rest edge => Refuses.or (Refuses.bind (refuses_word_of_head rfl (by decide)))
        (Refuses.or (Refuses.bind (refuses_word_of_head rfl (by decide))) (Refuses.bind (refuses_word ?_)))
      -- A plus sign is no part of a name, and a blank comes behind it.
      intro found
      have second : ['+'] <+: run ++ rest := (List.cons_prefix_cons.1 found).2
      obtain ⟨behind, text⟩ := second
      cases run with
      | nil => exact absurd (edge '+' (by rw [← List.nil_append rest, ← text]; rfl)) (by decide)
      | cons d run =>
        obtain rfl := (List.cons.inj text).1
        exact absurd (more '+' List.mem_cons_self) (by decide)
    · refine refused ?_ ?_ point
      all_goals
        rintro rfl
        exact absurd start (by decide)
  | quotedName h => exact refused (by decide) (by decide) (by decide)
  | block _ _ => exact refused (by decide) (by decide) (by decide)

theorem alike_inside_literal : Alike id (Inside (n + 1)) (Inside n) literal literal := by
  have no_quote (quote label : _) {R S : List Char → List Char → Prop}
      (h : ∀ u v, R u v → Refuses (word (Char.toString quote)) u ∧ Refuses (word (Char.toString quote)) v) :
      Alike id R S (quoted escapes quote label) (quoted escapes quote label) :=
    alike_refused fun u v r => ⟨(h u v r).1.bind, (h u v r).2.bind⟩
  refine Alike.orElse (no_quote _ _ fun u v h => h.refuses_word (toList_toString _) (by decide) (by decide)) ?_
  refine Alike.orElse (no_quote _ _ fun u v h => h.refuses_word (toList_toString _) (by decide) (by decide)) ?_
  refine (alike_inside_word (by decide)).bind fun _ _ _ => ?_
  refine (alike_inside_level fun m => alike_inside_chars1 (not_blank_of_class (by decide))).bind fun | hs, _, rfl => ?_
  exact (alike_require (f := id) _ _).bind fun | c, _, rfl => alike_pure rfl

theorem descends_literal : Descends Same N id literal literal :=
  descends_of_alike fun _ => alike_of_settles alike_inside_literal fun _ whole => whole.settles_literal

theorem Whole.brace (h : Whole t) :
    (∃ cs, t = blockOf cs ∧ Balanced cs ∧ Settles captureSuffix t) ∨ ∃ c more, t = c :: more ∧ c ≠ '\x7b' := by
  cases h with
  | quoted h _ =>
    have other : ∀ quote ∈ quotes, quote ≠ '\x7b' := forall_mem_of_all (by decide)
    exact .inr ⟨_, _, rfl, other _ h⟩
  | @name c run start _ =>
    refine .inr ⟨c, run, rfl, ?_⟩
    rintro rfl
    exact absurd start (by decide)
  | quotedName _ => exact .inr ⟨_, _, rfl, by decide⟩
  | block h captured => exact .inl ⟨_, rfl, h, captured⟩

theorem takes_blockOf (opening : String) {s : String} (h : Balanced s.toList)
    (text : blockOf cs = opening.toList ++ (s.toList ++ ['\x7d'])) :
    Takes (block opening) (blockOf cs ++ rest) rest (· = s) := by
  have whole : blockOf cs ++ rest = opening.toList ++ (s.toList ++ '\x7d' :: rest) := by simp [text]
  rw [whole]
  exact takes_block opening h

theorem Whole.settles_block (h : Whole t) : Settles (Grammar.block "\x7b") t := by
  rcases h.brace with ⟨cs, rfl, balanced, -⟩ | ⟨c, more, rfl, other⟩
  · have text : (String.ofList cs).toList = cs := String.toList_ofList
    exact .inr ⟨String.ofList cs, fun rest _ => takes_blockOf "\x7b" (by rwa [text]) (by rw [text]; rfl)⟩
  · exact .inl fun rest _ => refuses_block rfl other

theorem Whole.settles_block_of {opening : String} (h : Whole t) (hw : opening.toList = ['\x7b', c]) (plain : isPlain c = true) :
    Settles (Grammar.block opening) t := by
  rcases h.brace with ⟨cs, rfl, balanced, -⟩ | ⟨d, more, rfl, other⟩
  · by_cases kind : ∃ more, cs = c :: more
    · obtain ⟨more, rfl⟩ := kind
      have text : (String.ofList more).toList = more := String.toList_ofList
      refine .inr ⟨String.ofList more, fun rest _ => takes_blockOf opening ?_ ?_⟩
      · rw [text]
        exact balanced.behind plain
      · rw [text, hw]
        rfl
    · refine .inl fun rest _ => refuses_block_of_head hw ?_
      cases cs with
      | nil =>
        rintro _ ⟨⟩
        rintro rfl
        exact absurd plain (by decide)
      | cons d more =>
        rintro _ ⟨⟩
        rintro rfl
        exact kind ⟨more, rfl⟩
  · exact .inl fun rest _ => refuses_block hw other

theorem alike_inside_brace {α : Type} {opening : String} {ws : List Char} (hw : opening.toList = '\x7b' :: ws)
    (k : Unit → Parser α) : Alike id (Inside (n + 1)) (Inside n) (word opening >>= k) (word opening >>= k) :=
  alike_refused fun u v h =>
    have refused := h.refuses_word hw (by decide) (by decide)
    ⟨refused.1.bind, refused.2.bind⟩

theorem descends_block : Descends Same N id (block "\x7b") (block "\x7b") :=
  descends_of_alike fun _ => alike_of_settles (alike_inside_brace rfl _) fun _ whole => whole.settles_block

theorem descends_block_of {opening : String} (hw : opening.toList = ['\x7b', c]) (plain : isPlain c = true) :
    Descends Same N id (block opening) (block opening) :=
  descends_of_alike fun _ => alike_of_settles (alike_inside_brace hw _) fun _ whole => whole.settles_block_of hw plain

theorem descends_captureSuffix : Descends Same N id captureSuffix captureSuffix := by
  refine descends_of_alike fun _ => alike_of_settles (alike_inside_brace rfl _) fun _ whole => ?_
  rcases whole.brace with ⟨_, _, _, captured⟩ | ⟨c, more, rfl, other⟩
  · exact captured
  · exact .inl fun rest _ => (refuses_word_of_head rfl other).bind

theorem not_isDigit_of_isOpening (h : isOpening c = true) : Decimal.isDigit c = false := by
  have other : ∀ c ∈ ['"', '\'', '`', '\x7b', '_', ':'], Decimal.isDigit c = false := forall_mem_of_all (by decide)
  simp only [isOpening, quotes, isNameStart, List.contains_cons, List.contains_nil, Bool.or_eq_true, Bool.or_false,
    beq_iff_eq] at h
  rcases h with (((h | h) | h) | h) | (h | h) | h
  case inr.inl.inl => exact isDigit_of_isLetter h
  all_goals exact other c (by simp [h])

theorem not_isSign_of_isOpening (h : isOpening c = true) : (c == '-' || c == '+') = false := by
  have minus : c ≠ '-' := ne_of_isOpening h (by decide)
  have plus : c ≠ '+' := ne_of_isOpening h (by decide)
  simp [minus, plus]

theorem alike_sign {R : List Char → List Char → Prop}
    (h : Alike id R R (char "['-' | '+']" fun c => c == '-' || c == '+') (char "['-' | '+']" fun c => c == '-' || c == '+')) :
    Alike id R R sign sign :=
  (h.optional (fun _ _ r => r) fun _ _ r => r).bind fun | _, _, rfl => alike_pure rfl

theorem level_sign : Level Same N id sign sign := by
  have mark : Descends Same N id (char "['-' | '+']" fun c => c == '-' || c == '+')
      (char "['-' | '+']" fun c => c == '-' || c == '+') :=
    descends_of_alike fun _ => alike_char (not_blank_of_class (by decide)) fun _ => not_isSign_of_isOpening
  exact fun n hn => alike_sign (mark.level graded_same n hn)

theorem alike_digits : Alike id (Same (n + 1)) (Inside n) digits digits :=
  (alike_char (not_blank_of_class (by decide)) fun _ => not_isDigit_of_isOpening).bind fun
    | _, _, rfl => (alike_inside_chars (not_blank_of_class (by decide))).bind fun | _, _, rfl => alike_pure rfl

theorem alike_inside_digits : Alike id (Inside n) (Inside n) digits digits :=
  alike_inside_level fun _ => alike_digits.weaken (fun _ _ place => place.same) fun _ _ place => place

theorem alike_inside_exponent : Alike id (Inside n) (Inside n) exponent exponent := by
  have mark : Alike id (Inside n) (Inside n) (char "['e' | 'E']" fun c => c == 'e' || c == 'E')
      (char "['e' | 'E']" fun c => c == 'e' || c == 'E') :=
    alike_inside_level fun _ => alike_inside_char (not_blank_of_class (by decide))
  have signed : Alike id (Inside n) (Inside n) sign sign :=
    alike_sign (alike_inside_level fun _ => alike_inside_char (not_blank_of_class (by decide)))
  exact mark.bind fun _ _ _ => signed.bind fun
    | negative, _, rfl => alike_inside_digits.bind fun
      | ds, _, rfl => alike_pure rfl

theorem alike_number : Alike id (Same (n + 1)) (Inside n) number number := by
  have point : Alike id (Inside n) (Inside n) (word ".") (word ".") := alike_inside_level fun _ => alike_inside_word (by decide)
  have fraction : Alike id (Inside n) (Inside n) (optional (do word "."; digits)) (optional (do word "."; digits)) :=
    (point.bind fun _ _ _ => alike_inside_digits).optional (fun _ _ place => place) fun _ _ place => place
  have power : Alike id (Inside n) (Inside n) (optional exponent) (optional exponent) :=
    alike_inside_exponent.optional (fun _ _ place => place) fun _ _ place => place
  refine (level_sign (n + 1) (Nat.le_refl _)).bind fun
    | negative, _, rfl => alike_digits.bind fun
      | whole, _, rfl => fraction.bind fun
        | f, _, rfl => power.bind fun
          | p, _, rfl => ?_
  split
  · exact alike_pure rfl
  · exact alike_require _ _

theorem descends_number : Descends Same N id number number := descends_of_alike fun _ => alike_number

theorem descends_count : Descends Same N id count count :=
  descends_of_alike fun _ => alike_digits.bind fun | _, _, rfl => alike_require _ _

end TextGrammar.Grammar
