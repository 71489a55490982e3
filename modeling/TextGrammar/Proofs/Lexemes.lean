import TextGrammar.Script.Reading
import TextGrammar.Proofs.ParserProgress
set_option autoImplicit false

namespace TextGrammar.Script
open Parsing Parser Token

inductive Lexeme where
  | sign (s : String)
  /-- A name or a keyword. -/
  | name (s : String)
  | number (n : Nat)
  | text (s : String)

def signs : List String :=
  ["(", ")", ",", "!", "||", "&&", "==", "!=", "<=", ">=", "<", ">", "+", "-", "*", "/", "%"]

def IsName (s : String) : Prop :=
  ∃ c cs, s.toList = c :: cs ∧ isNameStart c = true ∧ ∀ d ∈ cs, isNameChar d = true

def quotes : List Char := ['"', '\'']

inductive Lexeme.Spells : Lexeme → List Char → Prop
  | sign {s : String} (h : s ∈ signs) : Spells (.sign s) s.toList
  | name {s : String} (h : IsName s) : Spells (.name s) s.toList
  | number (n : Nat) : Spells (.number n) (Nat.toDigits 10 n)
  | text (s : String) {quote : Char} {special : Char → Bool} (h : quote ∈ quotes)
    (escaping : Escaping escapes quote special) : Spells (.text s) (quote :: (escaped special s.toList ++ [quote]))

inductive Spaced : List Lexeme → List Char → Prop
  | nil : Spaced [] []
  | blank {ls : List Lexeme} {c : Char} {cs : List Char} (h : isBlank c = true) (more : Spaced ls cs) :
      Spaced ls (c :: cs)
  | cons {l : Lexeme} {ls : List Lexeme} {text cs : List Char} (h : l.Spells text) (more : Spaced ls cs) :
    Spaced (l :: ls) (text ++ cs)

def Fresh : List Lexeme → List Char → Prop
  | [], cs => cs = []
  | l :: ls, cs => ∃ text rest, l.Spells text ∧ Spaced ls rest ∧ cs = text ++ rest

variable {l : Lexeme} {ls : List Lexeme} {cs rest text : List Char} {s : String} {c d : Char}

theorem isDigit_of_isNameStart (h : isNameStart c = true) : Decimal.isDigit c = false := by
  rw [isNameStart, Bool.or_eq_true, beq_iff_eq] at h
  rcases h with h | rfl
  · exact isDigit_of_isLetter h
  · decide

theorem sign_head (h : s ∈ signs) :
    ∃ c cs, s.toList = c :: cs ∧ isBlank c = false ∧ isNameChar c = false ∧ c ≠ '.' := by
  have all : ∀ s ∈ signs, s.toList.head?.any fun c => !isBlank c && !isNameChar c && c != '.' := by decide
  obtain ⟨c, hc, first⟩ := (Option.any_eq_true _ _).1 (all s h)
  obtain ⟨cs, hcs⟩ := List.head?_eq_some_iff.1 hc
  simp only [Bool.and_eq_true, Bool.not_eq_true', bne_iff_ne] at first
  exact ⟨c, cs, hcs, first.1.1, first.1.2, first.2⟩

theorem isBlank_of_isNameChar (h : isNameChar c = true) : isBlank c = false := by
  rw [Bool.eq_false_iff]
  intro blank
  simp only [isBlank, Bool.or_eq_true, beq_iff_eq] at blank
  rcases blank with ((rfl | rfl) | rfl) | rfl <;> exact absurd h (by decide)

theorem isNameChar_of_isDigit (h : Decimal.isDigit c = true) : isNameChar c = true := by
  rw [isNameChar, h, Bool.or_true]

theorem isNameChar_of_isNameStart (h : isNameStart c = true) : isNameChar c = true := by
  rw [isNameChar, h, Bool.true_or]

theorem plain_of_quote (h : c ∈ quotes) : Decimal.isDigit c = false ∧ isNameStart c = false ∧ isBlank c = false := by
  have all : ∀ c ∈ quotes, Decimal.isDigit c = false ∧ isNameStart c = false ∧ isBlank c = false :=
    forall_mem_of_all (by decide)
  exact all c h

/-- No spelling is empty or starts with a blank. -/
theorem Lexeme.Spells.head (h : l.Spells text) : ∃ c cs, text = c :: cs ∧ isBlank c = false := by
  cases h with
  | sign h =>
    obtain ⟨c, cs, hs, plain, -⟩ := sign_head h
    exact ⟨c, cs, hs, plain⟩
  | name h =>
    obtain ⟨c, cs, hs, start, -⟩ := h
    exact ⟨c, cs, hs, isBlank_of_isNameChar (isNameChar_of_isNameStart start)⟩
  | number n =>
    obtain ⟨c, cs, hcs⟩ := List.exists_cons_of_ne_nil (Nat.toDigits_ne_nil (b := 10) (n := n))
    have digit : Decimal.isDigit c = true := isDigit_of_mem_toDigits c (hcs ▸ List.mem_cons_self)
    exact ⟨c, cs, hcs, isBlank_of_isNameChar (isNameChar_of_isDigit digit)⟩
  | text s h _ => exact ⟨_, _, rfl, (plain_of_quote h).2.2⟩

theorem Fresh.spaced (h : Fresh ls cs) : Spaced ls cs := by
  cases ls with
  | nil =>
    obtain rfl := h
    exact .nil
  | cons l ls =>
    obtain ⟨text, rest, spells, more, rfl⟩ := h
    exact .cons spells more

theorem Fresh.head (h : Fresh ls cs) : ∀ c ∈ cs.head?, isBlank c = false := by
  cases ls with
  | nil =>
    obtain rfl := h
    rintro c ⟨⟩
  | cons l ls =>
    obtain ⟨text, rest, spells, -, rfl⟩ := h
    obtain ⟨c, cs, rfl, plain⟩ := spells.head
    rintro d ⟨⟩
    exact plain

theorem Spaced.exists_fresh (h : Spaced ls cs) :
    ∃ gap rest, cs = gap ++ rest ∧ (∀ c ∈ gap, isBlank c = true) ∧ Fresh ls rest := by
  induction h with
  | nil => exact ⟨[], [], rfl, nofun, rfl⟩
  | blank h _ ih =>
    obtain ⟨gap, rest, rfl, blank, fresh⟩ := ih
    exact ⟨_ :: gap, rest, rfl, List.forall_mem_cons.2 ⟨h, blank⟩, fresh⟩
  | cons h more => exact ⟨[], _, rfl, nofun, _, _, h, more, rfl⟩

theorem Spaced.takes_spaces (h : Spaced ls cs) : ∃ rest, Fresh ls rest ∧ Takes spaces cs rest fun _ => True := by
  obtain ⟨gap, rest, rfl, blank, fresh⟩ := h.exists_fresh
  refine ⟨rest, fresh, ?_⟩
  exact (takes_chars blank fresh.head).bind fun _ _ => takes_pure trivial

theorem Fresh.takes_sign (h : Fresh (.sign s :: ls) cs) :
    ∃ rest, Spaced ls rest ∧ Takes (word s) cs rest fun _ => True := by
  obtain ⟨_, rest, spells, more, rfl⟩ := h
  cases spells
  exact ⟨rest, more, takes_word s⟩

theorem Spaced.takes_sign (h : Spaced (.sign s :: ls) cs) :
    ∃ mid rest, Spaced ls rest ∧ (Takes spaces cs mid fun _ => True) ∧ Takes (word s) mid rest fun _ => True := by
  obtain ⟨mid, fresh, gap⟩ := h.takes_spaces
  obtain ⟨rest, more, sign⟩ := fresh.takes_sign
  exact ⟨mid, rest, more, gap, sign⟩

/-- What stands right before a sign is no part of a name or a number. -/
theorem Spaced.next (h : Spaced ls cs) (sign : ∀ l ∈ ls.head?, ∃ s, l = .sign s) :
    ∀ c ∈ cs.head?, isNameChar c = false ∧ c ≠ '.' := by
  cases h with
  | nil => rintro c ⟨⟩
  | blank blank _ =>
    rintro c ⟨⟩
    refine ⟨Bool.eq_false_iff.2 fun name => ?_, by rintro rfl; exact absurd blank (by decide)⟩
    rw [isBlank_of_isNameChar name] at blank
    cases blank
  | cons spells more =>
    obtain ⟨s, rfl⟩ := sign _ rfl
    cases spells with
    | sign hs =>
      obtain ⟨c, cs, text, -, name, point⟩ := sign_head hs
      rw [text]
      rintro d ⟨⟩
      exact ⟨name, point⟩

theorem Spaced.length_le (h : Spaced ls cs) : ls.length ≤ cs.length := by
  induction h with
  | nil => exact Nat.le_refl 0
  | blank _ _ ih => exact Nat.le_succ_of_le ih
  | cons h _ ih =>
    obtain ⟨c, cs, rfl, -⟩ := h.head
    rw [List.length_append, List.length_cons, List.length_cons]
    omega

theorem takes_identifier (h : IsName s) (stop : ∀ c ∈ rest.head?, isNameChar c = false) :
    Takes identifier (s.toList ++ rest) rest (· = s) := by
  obtain ⟨c, cs, hs, start, more⟩ := h
  rw [hs]
  refine Takes.orElse (Takes.quiet ?_)
  refine (takes_char start).bind ?_
  rintro _ rfl
  refine (takes_chars more stop).bind ?_
  rintro _ rfl
  exact takes_pure (by rw [← hs, String.ofList_toList])

theorem refuses_identifier (h : ∀ c ∈ cs.head?, isNameStart c = false) : Refuses identifier cs :=
  Refuses.or (Refuses.quiet (refuses_char h).bind) fun _ => rfl

theorem takes_keyword {w : String} (stop : ∀ c ∈ rest.head?, isNameChar c = false) :
    Takes (keyword w) (w.toList ++ rest) rest fun _ => True :=
  (takes_word w).bind fun _ _ => takes_notHere (refuses_char stop)

theorem refuses_keyword {w : String} (hw : ∀ c ∈ w.toList, isNameChar c = true) (h : IsName s) (ne : s ≠ w)
    (stop : ∀ c ∈ rest.head?, isNameChar c = false) : Refuses (keyword w) (s.toList ++ rest) := by
  obtain ⟨first, run, hs, start, more⟩ := h
  have name : ∀ c ∈ s.toList, isNameChar c = true := by
    rw [hs]
    exact List.forall_mem_cons.2 ⟨isNameChar_of_isNameStart start, more⟩
  have differ : s.toList ≠ w.toList := fun e => ne (String.toList_inj.1 e)
  by_cases found : w.toList <+: s.toList ++ rest
  · obtain ⟨tail, htail⟩ := found
    have longer : ∃ c more, tail = c :: more ∧ isNameChar c = true := by
      obtain ⟨past, hpast, rfl⟩ | ⟨past, hpast, rfl⟩ := List.append_eq_append_iff.1 htail
      · cases past with
        | nil => exact absurd (by rw [hpast, List.append_nil]) differ
        | cons c past => exact ⟨c, _, rfl, name c (by simp [hpast])⟩
      · cases past with
        | nil => exact absurd (by rw [hpast, List.append_nil]) differ
        | cons c past =>
          have inside := hw c (by simp [hpast])
          rw [stop c rfl] at inside
          cases inside
    obtain ⟨c, more, rfl, hc⟩ := longer
    rw [← htail]
    exact (takes_word w).refuses fun _ _ => (takes_char hc).refuses_notHere
  · exact Refuses.bind (refuses_word found)

theorem takes_number {n : Int64} (h : 0 ≤ n) (stop : ∀ c ∈ rest.head?, Decimal.isDigit c = false ∧ c ≠ '.') :
    Takes number (Nat.toDigits 10 n.toInt.toNat ++ rest) rest (· = .int n) := by
  have whole : Takes digits (Nat.toDigits 10 n.toInt.toNat ++ rest) rest (· = Nat.toDigits 10 n.toInt.toNat) :=
    takes_digits Nat.toDigits_ne_nil isDigit_of_mem_toDigits fun c hc => (stop c hc).1
  have pointless : ¬ ".".toList <+: rest := by
    rintro ⟨more, rfl⟩
    exact (stop '.' rfl).2 rfl
  refine Refuses.orElse (whole.refuses fun _ _ => (refuses_word pointless).bind) ?_
  refine whole.bind ?_
  rintro _ rfl
  have nonneg : 0 ≤ n.toInt := Int64.le_iff_toInt_le.1 h
  have value : Decimal.int64? (Decimal.natOfDigits (Nat.toDigits 10 n.toInt.toNat)) = some n := by
    rw [natOfDigits_toDigits, Int.toNat_of_nonneg nonneg, Decimal.int64?, if_pos ⟨n.minValue_le_toInt, n.toInt_le⟩,
      Int64.ofInt_toInt]
  rw [value]
  exact takes_require rfl

theorem refuses_number (h : ∀ c ∈ cs.head?, Decimal.isDigit c = false) : Refuses number cs := by
  have whole : Refuses digits cs := refuses_chars1 h
  exact Refuses.or whole.bind whole.bind

theorem escaping_needed (quote : Char) (h : quote ∈ quotes) :
    Escaping escapes quote fun c => c == quote || c == '\\' := by
  refine ⟨by simp, by simp, fun e he => ?_⟩
  simp only [escapes, List.mem_cons, List.not_mem_nil, or_false] at he
  simp only [quotes, List.mem_cons, List.not_mem_nil, or_false] at h
  rcases he with rfl | rfl
  · exact ⟨'n', rfl, by rcases h with rfl | rfl <;> rfl⟩
  · exact ⟨'t', rfl, by rcases h with rfl | rfl <;> rfl⟩

theorem takes_stringConstant {quote : Char} {special : Char → Bool} (h : quote ∈ quotes)
    (escaping : Escaping escapes quote special) :
    Takes stringConstant (quote :: (escaped special s.toList ++ [quote]) ++ rest) rest (· = s) := by
  have backslash : quote ≠ '\\' := by
    rintro rfl
    exact absurd h (by decide)
  have quoted (label : String) : Takes (quoted escapes quote label)
      (quote :: (escaped special s.toList ++ quote :: rest)) rest (· = s) := takes_quoted escaping backslash label s
  have text : quote :: (escaped special s.toList ++ [quote]) ++ rest =
      quote :: (escaped special s.toList ++ quote :: rest) := by
    simp
  rw [text]
  simp only [quotes, List.mem_cons, List.not_mem_nil, or_false] at h
  rcases h with rfl | rfl
  · exact (quoted _).orElse
  · exact Refuses.orElse (Refuses.bind (refuses_word_of_head rfl (by decide))) (quoted _)

theorem refuses_stringConstant (h : ∀ c ∈ cs.head?, c ∉ quotes) : Refuses stringConstant cs := by
  cases cs with
  | nil => exact fun _ => rfl
  | cons c cs =>
    have other := h c rfl
    simp only [quotes, List.mem_cons, List.not_mem_nil, or_false, not_or] at other
    exact Refuses.or (Refuses.bind (refuses_word_of_head rfl other.1)) (Refuses.bind (refuses_word_of_head rfl other.2))

end TextGrammar.Script
