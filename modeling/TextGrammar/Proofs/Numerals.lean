import TextGrammar.Proofs.Spellings
set_option autoImplicit false

namespace TextGrammar.Grammar
open Parsing Parser Token

def AllDigits (ds : List Char) : Prop := ds ≠ [] ∧ ∀ c ∈ ds, Decimal.isDigit c = true

inductive SpellsSign : Bool → List Char → Prop
  | none : SpellsSign false []
  | plus : SpellsSign false ['+']
  | minus : SpellsSign true ['-']

inductive SpellsFraction : Option (List Char) → List Char → Prop
  | none : SpellsFraction none []
  | some {ds : List Char} (h : AllDigits ds) : SpellsFraction (some ds) ('.' :: ds)

inductive SpellsPower : Option Int → List Char → Prop
  | none : SpellsPower none []
  | some {mark : Char} {negative : Bool} {s ds : List Char} (hm : mark ∈ ['e', 'E']) (hs : SpellsSign negative s)
    (h : AllDigits ds) : SpellsPower (some (Decimal.signed negative (Decimal.natOfDigits ds))) (mark :: (s ++ ds))

/-- The number that the parts of a spelling come to, unless it is an integer that fits no word. -/
def number? (negative : Bool) (whole : List Char) (fraction : Option (List Char)) (power : Option Int) :
    Option Number :=
  if fraction.isSome || power.isSome then
    some (.float (Decimal.Numeral.toFloat ⟨negative, whole, fraction.getD [], power.getD 0⟩))
  else (Decimal.int64? (Decimal.signed negative (Decimal.natOfDigits whole))).map .int

inductive SpellsNumber : Number → List Char → Prop
  | mk {negative : Bool} {whole : List Char} {fraction : Option (List Char)} {power : Option Int} {n : Number}
    {s f p : List Char} (hs : SpellsSign negative s) (hw : AllDigits whole) (hf : SpellsFraction fraction f)
    (hp : SpellsPower power p) (value : number? negative whole fraction power = some n) :
    SpellsNumber n (s ++ (whole ++ (f ++ p)))

def Writable (n : Number) : Prop := ∃ cs, SpellsNumber n cs

def Probable (p : Float) : Prop := ∃ n, Writable n ∧ nonNegative? n = some p

variable {rest cs ds : List Char} {negative : Bool} {n : Number}

/-- No digit comes here that would belong to a number in front, neither with a point nor with an exponent. -/
structure EndsNumber (rest : List Char) : Prop where
  plain : ∀ c ∈ rest.head?, Decimal.isDigit c = false ∧ c ≠ 'e' ∧ c ≠ 'E'
  point : ∀ c more, rest = '.' :: c :: more → Decimal.isDigit c = false

theorem AllDigits.head (h : AllDigits ds) : ∃ c more, ds = c :: more ∧ Decimal.isDigit c = true := by
  obtain ⟨c, more, rfl⟩ := List.exists_cons_of_ne_nil h.1
  exact ⟨c, more, rfl, h.2 c List.mem_cons_self⟩

theorem AllDigits.not_sign (h : AllDigits ds) : ∀ c ∈ (ds ++ rest).head?, c ≠ '-' ∧ c ≠ '+' := by
  obtain ⟨c, more, rfl, digit⟩ := h.head
  rintro d ⟨⟩
  constructor
  all_goals
    rintro rfl
    exact absurd digit (by decide)

theorem AllDigits.takes (h : AllDigits ds) (stop : ∀ c ∈ rest.head?, Decimal.isDigit c = false) :
    Takes digits (ds ++ rest) rest (· = ds) :=
  takes_digits h.1 h.2 stop

theorem SpellsSign.takes {s : List Char} (h : SpellsSign negative s) (stop : ∀ c ∈ rest.head?, c ≠ '-' ∧ c ≠ '+') :
    Takes sign (s ++ rest) rest (· = negative) := by
  cases h with
  | none =>
    refine (Refuses.optional (refuses_char fun c hc => ?_)).bind ?_
    · simp [(stop c hc).1, (stop c hc).2]
    · rintro _ rfl
      exact takes_pure rfl
  | plus =>
    refine (Takes.optional (takes_char (by decide))).bind ?_
    rintro _ ⟨_, rfl, rfl⟩
    exact takes_pure (by decide)
  | minus =>
    refine (Takes.optional (takes_char (by decide))).bind ?_
    rintro _ ⟨_, rfl, rfl⟩
    exact takes_pure (by decide)

theorem SpellsFraction.takes {fraction : Option (List Char)} {f : List Char} (h : SpellsFraction fraction f)
    (stop : ∀ c ∈ rest.head?, Decimal.isDigit c = false)
    (point : ∀ c more, rest = '.' :: c :: more → Decimal.isDigit c = false) :
    Takes (optional (do word "."; digits)) (f ++ rest) rest (· = fraction) := by
  cases h with
  | none =>
    refine Refuses.optional ?_
    by_cases found : ".".toList <+: rest
    · obtain ⟨more, rfl⟩ := found
      refine (takes_word ".").refuses fun _ _ => refuses_chars1 fun c hc => ?_
      obtain ⟨tail, rfl⟩ := List.head?_eq_some_iff.1 hc
      exact point c tail rfl
    · exact (refuses_word found).bind
  | some h =>
    refine (Takes.optional (Takes.bind (takes_word ".") fun _ _ => h.takes stop)).mono ?_
    rintro _ ⟨_, rfl, rfl⟩
    rfl

theorem SpellsPower.takes {power : Option Int} {p : List Char} (h : SpellsPower power p)
    (stop : ∀ c ∈ rest.head?, Decimal.isDigit c = false ∧ c ≠ 'e' ∧ c ≠ 'E') :
    Takes (optional exponent) (p ++ rest) rest (· = power) := by
  cases h with
  | none =>
    refine Refuses.optional (Refuses.bind (refuses_char fun c hc => ?_))
    simp [(stop c hc).2.1, (stop c hc).2.2]
  | @some mark negative s ds hm hs h =>
    have marked : (mark == 'e' || mark == 'E') = true := by simpa using hm
    have read :
        Takes exponent (mark :: (s ++ ds) ++ rest) rest (· = Decimal.signed negative (Decimal.natOfDigits ds)) := by
      rw [List.cons_append, List.append_assoc]
      refine (takes_char marked).bind fun _ _ => (hs.takes h.not_sign).bind ?_
      rintro _ rfl
      refine (h.takes fun c hc => (stop c hc).1).bind ?_
      rintro _ rfl
      exact takes_pure rfl
    refine read.optional.mono ?_
    rintro _ ⟨_, rfl, rfl⟩
    rfl

theorem SpellsPower.stop {power : Option Int} {p : List Char} (h : SpellsPower power p) (ends : EndsNumber rest) :
    (∀ c ∈ (p ++ rest).head?, Decimal.isDigit c = false) ∧
      ∀ c more, p ++ rest = '.' :: c :: more → Decimal.isDigit c = false := by
  cases h with
  | none => exact ⟨fun c hc => (ends.plain c hc).1, ends.point⟩
  | some hm _ _ =>
    have plain : ∀ mark ∈ ['e', 'E'], Decimal.isDigit mark = false ∧ mark ≠ '.' := forall_mem_of_all (by decide)
    refine ⟨?_, fun c more text => absurd (List.cons.inj text).1 (plain _ hm).2⟩
    rintro c ⟨⟩
    exact (plain _ hm).1

theorem SpellsFraction.stop {fraction : Option (List Char)} {f : List Char} (h : SpellsFraction fraction f)
    (stop : ∀ c ∈ rest.head?, Decimal.isDigit c = false) : ∀ c ∈ (f ++ rest).head?, Decimal.isDigit c = false := by
  cases h with
  | none => exact stop
  | some _ =>
    rintro c ⟨⟩
    decide

theorem SpellsNumber.takes (h : SpellsNumber n cs) (ends : EndsNumber rest) :
    Takes number (cs ++ rest) rest (· = n) := by
  obtain ⟨hs, hw, hf, hp, value⟩ := h
  obtain ⟨stop, point⟩ := hp.stop ends
  rw [List.append_assoc, List.append_assoc, List.append_assoc]
  refine (hs.takes hw.not_sign).bind ?_
  rintro _ rfl
  refine (hw.takes (hf.stop stop)).bind ?_
  rintro _ rfl
  refine (hf.takes stop point).bind ?_
  rintro _ rfl
  refine (hp.takes ends.plain).bind ?_
  rintro _ rfl
  unfold number? at value
  split at value
  · rename_i float
    rw [if_pos float]
    exact takes_pure (Option.some.inj value)
  · rename_i integer
    rw [if_neg integer, value]
    exact takes_require rfl

def isNumberStart (c : Char) : Bool := Decimal.isDigit c || c == '-' || c == '+'

theorem SpellsNumber.head (h : SpellsNumber n cs) : ∃ c more, cs = c :: more ∧ isNumberStart c = true := by
  obtain ⟨hs, hw, -, -, -⟩ := h
  obtain ⟨c, more, rfl, digit⟩ := hw.head
  cases hs with
  | none => exact ⟨c, _, rfl, by simp [isNumberStart, digit]⟩
  | plus => exact ⟨'+', _, rfl, rfl⟩
  | minus => exact ⟨'-', _, rfl, rfl⟩

theorem solid_of_digit {c : Char} (digit : Decimal.isDigit c = true) : Solid (c :: cs) := by
  have other : ∀ d, Decimal.isDigit d = false → c ≠ d := by
    rintro d hd rfl
    rw [digit] at hd
    cases hd
  refine solid_of_head ?_ (other _ (by decide)) (other _ (by decide))
  simp only [isBlank, Bool.or_eq_false_iff, beq_eq_false_iff_ne]
  exact ⟨⟨⟨other _ (by decide), other _ (by decide)⟩, other _ (by decide)⟩, other _ (by decide)⟩

theorem AllDigits.solid (h : AllDigits ds) : Solid (ds ++ rest) := by
  obtain ⟨c, more, rfl, digit⟩ := h.head
  exact solid_of_digit digit

theorem SpellsNumber.solid (h : SpellsNumber n cs) : Solid (cs ++ rest) := by
  obtain ⟨hs, hw, -, -, -⟩ := h
  obtain ⟨c, more, rfl, digit⟩ := hw.head
  cases hs with
  | none => exact solid_of_digit digit
  | plus => exact solid_of_head (by decide) (by decide) (by decide)
  | minus =>
    -- a second dash would begin a comment
    refine ⟨by rintro d ⟨⟩; decide, fun w hw found => ?_⟩
    simp only [List.mem_cons, List.not_mem_nil, or_false] at hw
    rcases hw with rfl | rfl | rfl
    · exact absurd (List.cons_prefix_cons.1 found).1 (by decide)
    · obtain rfl := (List.cons_prefix_cons.1 (List.cons_prefix_cons.1 found).2).1
      exact absurd digit (by decide)
    · exact absurd (List.cons_prefix_cons.1 found).1 (by decide)

theorem takes_probability {p : Float} (h : SpellsNumber n cs) (hp : nonNegative? n = some p) :
    Takes probability ('[' :: (cs ++ ']' :: rest)) rest (· = p) := by
  have ends : EndsNumber (']' :: rest) :=
    ⟨by rintro c ⟨⟩; decide, fun c more text => absurd (List.cons.inj text).1 (by decide)⟩
  have close_solid : Solid (']' :: rest) := solid_of_head (by decide) (by decide) (by decide)
  have no_percent : Refuses (word "%") (']' :: rest) := refuses_word_of_head rfl (by decide)
  refine Takes.bind (takes_word "[") fun _ _ => h.solid.takes_layout.bind fun _ _ => (h.takes ends).bind ?_
  rintro _ rfl
  rw [hp]
  refine Takes.bind (takes_require rfl) ?_
  rintro _ rfl
  refine close_solid.takes_layout.bind fun _ _ => no_percent.optional.bind ?_
  rintro _ rfl
  exact close_solid.takes_layout.bind fun _ _ => Takes.bind (takes_word "]") fun _ _ => takes_pure rfl

end TextGrammar.Grammar
