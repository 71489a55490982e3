import TextGrammar.Proofs.ExtendedStatements
set_option autoImplicit false

namespace TextGrammar.Script
open Parsing Parser Token

variable {a b tail cs mid rest u v : List Char} {A : Block} {n N d d' : Nat}

theorem takes_spaces {run : List Char} (h : ∀ c ∈ run, isBlank c = true) (stop : ∀ c ∈ rest.head?, isBlank c = false) :
    Takes spaces (run ++ rest) rest (· = ()) :=
  (takes_chars h stop).bind fun _ _ => takes_pure rfl

theorem exists_takes_spaces (cs : List Char) : ∃ rest, Takes spaces cs rest (· = ()) := by
  obtain ⟨run, rest, rfl, blank, stop⟩ := exists_run isBlank cs
  exact ⟨rest, takes_spaces blank stop⟩

theorem takes_semicolon (rest : List Char) : Takes (word ";") (';' :: rest) rest (· = ()) :=
  (takes_word ";").mono fun _ _ => rfl

def Closes (cs rest : List Char) : Prop :=
  ∃ o u v, Takes spaces cs u (· = ()) ∧ Takes (optional (word ";")) u v (· = o) ∧ Takes spaces v rest (· = ())

/-- The last character but for blanks is a semicolon. -/
def EndsInSemicolon (cs : List Char) : Prop :=
  ∃ before blanks, cs = before ++ ';' :: blanks ∧ ∀ c ∈ blanks, isBlank c = true

theorem endsInSemicolon_iff : EndsInSemicolon cs ↔ (cs.reverse.dropWhile isBlank).head? = some ';' := by
  constructor
  · rintro ⟨before, blanks, rfl, blank⟩
    have reversed : (before ++ ';' :: blanks).reverse = blanks.reverse ++ ';' :: before.reverse := by simp
    rw [reversed, List.dropWhile_append_of_pos fun c hc => blank c (List.mem_reverse.1 hc)]
    rfl
  · intro head
    obtain ⟨before, rest⟩ := List.head?_eq_some_iff.1 head
    have parts : (cs.reverse.takeWhile isBlank ++ cs.reverse.dropWhile isBlank).reverse = cs := by
      rw [List.takeWhile_append_dropWhile, List.reverse_reverse]
    rw [rest] at parts
    refine ⟨before.reverse, (cs.reverse.takeWhile isBlank).reverse, parts.symm.trans ?_, fun c hc => ?_⟩
    · rw [List.reverse_append, List.reverse_cons, List.append_assoc, List.singleton_append]
    · exact List.all_eq_true.1 List.all_takeWhile c (List.mem_reverse.1 hc)

instance (cs : List Char) : Decidable (EndsInSemicolon cs) := decidable_of_iff _ endsInSemicolon_iff.symm

theorem exists_closes (cs : List Char) : ∃ rest, Closes cs rest := by
  obtain ⟨u, gap⟩ := exists_takes_spaces cs
  obtain ⟨o, v, attempt⟩ : ∃ o v, Takes (optional (word ";")) u v (· = o) := by
    by_cases found : ";".toList <+: u
    · obtain ⟨v, rfl⟩ := found
      exact ⟨_, v, (takes_semicolon v).optional_eq⟩
    · exact ⟨none, u, (refuses_word found).optional⟩
  obtain ⟨rest, gap'⟩ := exists_takes_spaces v
  exact ⟨rest, o, u, v, gap, attempt, gap'⟩

theorem Closes.blank (h : Closes cs []) (ends : ¬ EndsInSemicolon cs) : ∀ c ∈ cs, isBlank c = true := by
  obtain ⟨o, u, v, gap, attempt, gap'⟩ := h
  obtain ⟨run, rest, rfl, blank, stop⟩ := exists_run isBlank cs
  obtain ⟨rfl, -⟩ := gap.unique (takes_spaces blank stop)
  cases u with
  | nil => rwa [List.append_nil]
  | cons c u =>
    by_cases semicolon : c = ';'
    · subst semicolon
      obtain ⟨rfl, -⟩ := attempt.unique (takes_semicolon u).optional_eq
      obtain ⟨run', rest', rfl, blank', stop'⟩ := exists_run isBlank v
      obtain ⟨rfl, -⟩ := gap'.unique (takes_spaces blank' stop')
      exact absurd ⟨run, run', by rw [List.append_nil], blank'⟩ ends
    · have refused : Refuses (word ";") (c :: u) := refuses_word_of_head rfl semicolon
      obtain ⟨rfl, -⟩ := attempt.unique refused.optional
      have stays : Takes spaces ([] ++ c :: u) (c :: u) (· = ()) := takes_spaces nofun stop
      obtain ⟨none, -⟩ := gap'.unique stays
      cases none

def separator : Parser Unit := do spaces; word ";"; spaces

def nextStatement (depth : Nat) : Parser Statement := do let _ ← separator; statement depth

def Covers (R S : List Char → List Char → Prop) {α : Type} (p q : Parser α) : Prop :=
  ∀ u v, R u v → Refuses p u ∨ Agree S p q u v

section

variable {α β : Type} {p q : Parser α} {k l : α → Parser β} {R S T : List Char → List Char → Prop}

theorem Covers.bind (h : Covers R S p q) (next : ∀ a, Covers S T (k a) (l a)) : Covers R T (p >>= k) (q >>= l) := by
  intro u v r
  rcases h u v r with left | ⟨a, u', v', left, right, s⟩
  · exact .inl left.bind
  · rcases next a u' v' s with left' | ⟨b, u'', v'', left', right', t⟩
    · exact .inl (left.refuses (by rintro _ rfl; exact left'))
    · exact .inr ⟨b, u'', v'', left.bind (by rintro _ rfl; exact left'), right.bind (by rintro _ rfl; exact right'), t⟩

theorem covers_of_level (h : Level (Extended a tail) n id p q) : Covers (Extended a tail n) (Extended a tail n) p q :=
  fun _ _ place => (place.agree_of_level h).imp_left And.left

/-- A loop goes on with the other one until it ends. -/
theorem exists_turns (h : ∀ m < n, Covers (Extended a tail (m + 1)) (Extended a tail m) p q) (place : Extended a tail n u v) :
    ∃ l u' v', Turns p u l u' ∧ Refuses p u' ∧ Turns q v l v' ∧ Extended a tail n u' v' ∧
      l.length + u'.length ≤ u.length := by
  induction len : u.length using Nat.strongRecOn generalizing u v with
  | ind len ih =>
    subst len
    -- A bound that the text just keeps shows that a turn shortens it.
    rcases h u.length place.few u v (place.of_few (Nat.lt_succ_self _)) with refused | ⟨x, u₁, v₁, left, right, place₁⟩
    · exact ⟨[], u, v, .stop u, refused, .stop v, place, by simp⟩
    · have read := place₁.few
      obtain ⟨l, u', v', turns, refused, turns', place', short⟩ :=
        ih _ read (place₁.of_few (Nat.lt_trans read place.few)) rfl
      exact ⟨x :: l, u', v', .turn left turns, refused, .turn right turns', place', by rw [List.length_cons]; omega⟩

end

theorem covers_semicolon : Covers (Extended a tail (n + 1)) (Extended a tail n) (word ";") (word ";") := by
  intro u v place
  by_cases found : ";".toList <+: u
  · exact .inr (agree_word (by decide) (by simp [isQuote]) place found)
  · exact .inl (refuses_word found)

theorem descends_semicolon : Descends (Extended a []) N id (word ";") (word ";") := by
  refine fun n _ => alike_of_agree fun u v place => ?_
  rcases covers_semicolon u v place with refused | agreed
  · refine .inl ⟨refused, ?_⟩
    rwa [place.text, List.append_nil]
  · exact .inr agreed

theorem covers_nextStatement (deep : n < d) (deep' : n < d') :
    Covers (Extended a tail (n + 1)) (Extended a tail n) (nextStatement d) (nextStatement d') := by
  have apart : Covers (Extended a tail (n + 1)) (Extended a tail n) separator separator :=
    (covers_of_level level_spaces).bind fun _ => covers_semicolon.bind fun _ => covers_of_level level_spaces
  have further : Level (Extended a tail) n id (statement d) (statement d') :=
    (descends_statement (Nat.le_of_lt deep) (Nat.le_of_lt deep')).level graded_extended
  exact apart.bind fun _ => covers_of_level further

theorem level_separator_end : Level (Extended a []) N id separator separator :=
  level_spaces.bind fun _ _ _ => (descends_semicolon.level graded_extended).bind fun _ _ _ => level_spaces

theorem descends_nextStatement (deep : N ≤ d) (deep' : N ≤ d') :
    Descends (Extended a []) N id (nextStatement d) (nextStatement d') :=
  level_separator_end.bind_descends fun _ _ _ => descends_statement deep deep'

theorem level_block (deep : N ≤ d) (deep' : N ≤ d') : Level (Extended a []) N id (block d) (block d') := by
  have statements : Level (Extended a []) N id (sepBy (statement d) separator) (sepBy (statement d') separator) :=
    (descends_statement deep deep').sepBy_same graded_extended level_separator_end
  have ending := (descends_semicolon (a := a) (N := N)).level graded_extended
  exact level_spaces.bind fun _ _ _ => statements.bind fun
    | ss, _, rfl => level_spaces.bind fun _ _ _ => ending.optional.bind fun _ _ _ => level_spaces.bind fun _ _ _ =>
      level_pure rfl

theorem takes_block_of_statements {A : Block} (gap : Takes spaces cs mid (· = ()))
    (h : Takes (sepBy (statement d) separator) mid rest (· = A)) {left : List Char} (close : Closes rest left) :
    Takes (block d) cs left (· = A) := by
  obtain ⟨o, u, v, gap', attempt, gap''⟩ := close
  refine gap.bind fun _ _ => h.bind ?_
  rintro _ rfl
  exact gap'.bind fun _ _ => attempt.bind fun _ _ => gap''.bind fun _ _ => takes_pure rfl

theorem extended_start (ends : tail = [] ∨ tail.head? = some ';' ∧ Closed a) :
    Extended a tail (a.length + 1) a (a ++ tail) :=
  ⟨Nat.lt_succ_self _, ⟨[], rfl, closed_nil⟩, rfl, ends⟩

/-- A text that is a block closes its quotes. -/
theorem closed_of_parse (h : parse a = .ok A) : Closed a := by
  have start := extended_start (a := a) (.inl rfl)
  rcases start.agree_of_level (level_block (Nat.le_refl _) (Nat.le_refl _)) with ⟨refused, -⟩ | ⟨ss, u, v, left, -, place⟩
  · exact absurd h refused.run_ne
  · obtain ⟨rfl, -⟩ := left.of_run h
    obtain ⟨w, same, closed⟩ := place.reached
    rwa [same, List.append_nil]

/-- The text starts with a statement, and turns follow it up to the rest. -/
def Begins (depth : Nat) (cs : List Char) (s : Statement) (l : Block) (rest : List Char) : Prop :=
  ∃ u v, Takes spaces cs u (· = ()) ∧ Takes (statement depth) u v (· = s) ∧ Turns (nextStatement depth) v l rest ∧
    l.length + rest.length ≤ v.length ∧ v.length ≤ cs.length

/-- A block is read in the same parts when a semicolon follows it, and at any greater depth. -/
theorem exists_begins (h : parse a = .ok A) (nonempty : A ≠ [])
    (ends : tail = [] ∨ tail.head? = some ';') (deep : a.length < d) :
    ∃ s l rest, A = s :: l ∧ Begins d (a ++ tail) s l (rest ++ tail) ∧ Refuses (nextStatement (a.length + 1)) rest ∧
      Closes rest [] ∧ Extended a tail a.length rest (rest ++ tail) := by
  have start := extended_start (ends.imp_right fun head => ⟨head, closed_of_parse h⟩)
  rcases start.agree_of_level level_spaces with ⟨refused, -⟩ | ⟨_, u₁, v₁, gap, gap', place₁⟩
  · obtain ⟨u, gap⟩ := exists_takes_spaces a
    exact absurd refused gap.not_refuses
  · have both := place₁.agree_of_descends (descends_statement (Nat.le_refl _) deep)
    rcases both with ⟨refused, -⟩ | ⟨s, u₂, v₂, first, first', place₂⟩
    · obtain ⟨rest, close⟩ := exists_closes u₁
      have nothing : Takes (sepBy (statement (a.length + 1)) separator) u₁ u₁ (· = []) :=
        refused.sepBy1.orElse (takes_pure rfl)
      exact absurd ((takes_block_of_statements gap nothing close).of_run h).2 nonempty
    · obtain ⟨l, u₃, v₃, turns, refused, turns', place₃, short⟩ :=
        exists_turns (fun m hm => covers_nextStatement (Nat.lt_succ_of_lt hm) (Nat.lt_trans hm deep)) place₂
      obtain ⟨rest, close⟩ := exists_closes u₃
      have whole := takes_block_of_statements gap (turns.sepBy first refused (by omega)) close
      obtain ⟨rfl, rfl⟩ := whole.of_run h
      have lengths := place₁.few
      have lengths' := place₂.few
      obtain rfl := place₁.text
      obtain rfl := place₂.text
      obtain rfl := place₃.text
      refine ⟨s, l, u₃, rfl, ⟨_, _, gap', first', turns', ?_, ?_⟩, refused, close, place₃⟩
      · rw [List.length_append, List.length_append]
        omega
      · rw [List.length_append, List.length_append]
        omega

variable {s t : Statement} {l m : Block} {B : Block}

/-- What follows the semicolon is read as it is on its own. -/
theorem Begins.join (first : Begins d (a ++ ';' :: b) s l (mid ++ ';' :: b)) (blank : ∀ c ∈ mid, isBlank c = true)
    (second : Begins d b t m rest) : Begins d (a ++ ';' :: b) s (l ++ t :: m) rest := by
  obtain ⟨u, v, gap, statement, turns, short, within⟩ := first
  obtain ⟨u', v', gap', statement', turns', short', within'⟩ := second
  have apart : Takes separator (mid ++ ';' :: b) u' (· = ()) := by
    refine (takes_spaces blank ?_).bind fun _ _ => (takes_semicolon b).bind fun _ _ => gap'
    rintro _ ⟨⟩
    rfl
  have next : Takes (nextStatement d) (mid ++ ';' :: b) v' (· = t) := apart.bind fun _ _ => statement'
  refine ⟨u, v, gap, statement, turns.append (.turn next turns'), ?_, within⟩
  simp only [List.length_append, List.length_cons] at short ⊢
  omega

theorem Begins.parse_eq (h : Begins (cs.length + 1) cs s l rest) (refused : Refuses (nextStatement (cs.length + 1)) rest)
    (close : Closes rest []) : parse cs = .ok (s :: l) := by
  obtain ⟨u, v, gap, first, turns, short, -⟩ := h
  obtain ⟨_, whole, rfl⟩ := (takes_block_of_statements gap (turns.sepBy first refused (by omega)) close).run
  exact whole

theorem refuses_deeper (place : Extended b [] b.length rest rest) (refused : Refuses (nextStatement (b.length + 1)) rest)
    (deep : b.length < d) : Refuses (nextStatement d) rest := by
  have place := place.of_few (Nat.lt_succ_of_lt place.few)
  rcases place.agree_of_descends (descends_nextStatement (Nat.le_refl _) deep) with ⟨-, stop⟩ | ⟨_, _, _, left, -⟩
  · exact stop
  · exact absurd refused left.not_refuses

/-- The statements of the two are read one after the other. -/
theorem parse_join (ha : parse a = .ok A) (hb : parse b = .ok B) (nonempty : A ≠ []) (nonempty' : B ≠ [])
    (ends : ¬ EndsInSemicolon a) : parse (a ++ ';' :: b) = .ok (A ++ B) := by
  have length : (a ++ ';' :: b).length = a.length + (b.length + 1) := by rw [List.length_append, List.length_cons]
  have semicolon : ';' :: b = [] ∨ (';' :: b).head? = some ';' := .inr rfl
  have nothing : ([] : List Char) = [] ∨ ([] : List Char).head? = some ';' := .inl rfl
  obtain ⟨s, l, mid, rfl, first, -, close, place⟩ :=
    exists_begins (d := (a ++ ';' :: b).length + 1) ha nonempty semicolon (by omega)
  obtain ⟨t, m, rest, rfl, second, refused, close', place'⟩ :=
    exists_begins (d := (a ++ ';' :: b).length + 1) hb nonempty' nothing (by omega)
  rw [List.append_nil, List.append_nil] at second
  have blank : ∀ c ∈ mid, isBlank c = true := by
    refine close.blank ?_
    rintro ⟨before, blanks, same, blank⟩
    obtain ⟨w, reached, -⟩ := place.reached
    exact ends ⟨w ++ before, blanks, by rw [reached, same, List.append_assoc], blank⟩
  have stop : Refuses (nextStatement ((a ++ ';' :: b).length + 1)) rest := by
    rw [List.append_nil] at place'
    exact refuses_deeper place' refused (by omega)
  exact (first.join blank second).parse_eq stop close'

end TextGrammar.Script
