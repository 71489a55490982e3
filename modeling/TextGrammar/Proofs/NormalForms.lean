import TextGrammar.Proofs.Decimals
import TextGrammar.Proofs.RoundTrip
import TextGrammar.Proofs.Weights
set_option autoImplicit false

namespace TextGrammar.Grammar
open Parsing Parser Token Binary64

variable {e : Expr} {es : List Expr} {y p : Float}

theorem writable_fraction (negative : Bool) {whole fraction : List Char} (hw : AllDigits whole)
    (hf : AllDigits fraction)
    (value : Decimal.Numeral.toFloat ⟨negative, whole, fraction, 0⟩ = y) : Writable (.float y) := by
  obtain ⟨s, hs⟩ : ∃ s, SpellsSign negative s := by
    cases negative with
    | false => exact ⟨_, .none⟩
    | true => exact ⟨_, .minus⟩
  exact ⟨_, .mk hs hw (.some hf) .none (congrArg (fun x => some (Number.float x)) value)⟩

theorem writable_power (negative : Bool) (exponent : Nat) {whole : List Char} (hw : AllDigits whole)
    (value : Decimal.Numeral.toFloat ⟨false, whole, [], Decimal.signed negative exponent⟩ = y) :
    Writable (.float y) := by
  obtain ⟨s, hs⟩ : ∃ s, SpellsSign negative s := by
    cases negative with
    | false => exact ⟨_, .none⟩
    | true => exact ⟨_, .minus⟩
  rw [← natOfDigits_toDigits exponent] at value
  have marked : 'e' ∈ ['e', 'E'] := List.mem_cons_self
  exact ⟨_, .mk .none hw .none (.some marked hs (allDigits exponent)) (congrArg (fun x => some (Number.float x)) value)⟩

theorem writable_float (h : 0.0 ≤ y) : Writable (.float y) := by
  have zero : AllDigits ['0'] := ⟨nofun, forall_mem_of_all (by decide)⟩
  have one : AllDigits ['1'] := ⟨nofun, forall_mem_of_all (by decide)⟩
  rcases nonneg_cases h with endless | ⟨s, nothing⟩ | ⟨n, some_unit, measures⟩
  · rw [float_eq_of_unpack endless]
    exact writable_power false 999 one (by decide +kernel)
  · rw [float_eq_of_unpack nothing]
    cases s with
    | positive => exact writable_fraction false zero zero (by decide +kernel)
    | negative => exact writable_fraction true zero zero (by decide +kernel)
  · exact writable_power true _ (allDigits _) (toFloat_decimal measures some_unit)

theorem probable_of_nonneg (h : 0.0 ≤ p) : Probable p := ⟨.float p, writable_float h, if_pos h⟩

theorem yields_probability : probability.Yields Probable := fun c p c' h => probable_of_nonneg (yields_nonneg c p c' h)

theorem items_of_normal (h : e.Normal) : e.items ≠ [] ∧ ∀ f ∈ e.items, f.Normal ∧ ¬ f.IsSequence := by
  cases e with
  | sequence es =>
    refine ⟨?_, fun f hf => ⟨everyIn_iff.1 h.2 f hf, h.1.2 f hf⟩⟩
    rintro rfl
    exact absurd h.1.1 (by decide)
  | _ => exact ⟨List.cons_ne_nil _ _, List.forall_mem_singleton.2 ⟨h, not_false⟩⟩

theorem normal_ofItems (some_item : es ≠ []) (h : ∀ e ∈ es, e.Normal) : (Expr.ofItems es).Normal := by
  have flat : ∀ f ∈ es.flatMap Expr.items, f.Normal ∧ ¬ f.IsSequence := by
    intro f hf
    obtain ⟨e, he, hf⟩ := List.mem_flatMap.1 hf
    exact (items_of_normal (h e he)).2 f hf
  match es with
  | [e] => exact h e List.mem_cons_self
  | a :: b :: es =>
    have ha := List.length_pos_iff.2 (items_of_normal (h a List.mem_cons_self)).1
    have hb := List.length_pos_iff.2 (items_of_normal (h b (List.mem_cons_of_mem _ List.mem_cons_self))).1
    refine ⟨⟨?_, fun f hf => (flat f hf).2⟩, everyIn_iff.2 fun f hf => (flat f hf).1⟩
    rw [List.flatMap_cons, List.flatMap_cons, List.length_append, List.length_append]
    omega

theorem closed_normal : Closed Probable Expr.Normal where
  literal _ := trivial
  range low high := ⟨low, high⟩
  reference h := h
  generate h := h
  check h := h
  action balanced plain := ⟨balanced, plain⟩
  times _ _ _ h := ⟨trivial, h⟩
  capture _ name h := ⟨name, h⟩
  items := normal_ofItems
  choice size h := by
    refine ⟨⟨size, fun a ha => ?_⟩, everyBranch_iff.2 fun a ha => (h a ha).2⟩
    have tag := (h a ha).1
    cases probability : a.probability with
    | automatic => trivial
    | explicit p => exact tag p probability

theorem nonempty_hand : Nonempty Hand := by
  classical
  have number (n : Number) : ∃ cs, Writable n → SpellsNumber n cs := by
    by_cases h : Writable n
    · exact ⟨h.choose, fun _ => h.choose_spec⟩
    · exact ⟨[], fun written => absurd written h⟩
  have tag (p : Float) : ∃ cs, Probable p → ∃ n, SpellsNumber n cs ∧ nonNegative? n = some p := by
    by_cases h : Probable p
    · obtain ⟨n, ⟨cs, spells⟩, value⟩ := h
      exact ⟨cs, fun _ => ⟨n, spells, value⟩⟩
    · exact ⟨[], fun written => absurd written h⟩
  choose number spells_number using number
  choose tag spells_tag using tag
  exact ⟨⟨number, tag, spells_number _, spells_tag _⟩⟩

theorem normal_of_parse {source : List Char} {l : List Item} (h : parse source = .ok l) : ∀ i ∈ l, i.Normal := by
  intro i hi
  have fits := fits_of_parse closed_normal yields_probability h i hi
  cases i with
  | rule r => exact fits
  | expr e => exact fits

/-- The reader makes normal forms only, and it inverts their printing, whatever spellings of numbers are chosen. -/
theorem parse_inverts_printing :
    (∀ (source : List Char) (l : List Item), parse source = .ok l → ∀ i ∈ l, i.Normal) ∧ Nonempty Hand ∧
      ∀ (hand : Hand) (rules : List Rule), rules ≠ [] → (∀ r ∈ rules, r.Normal) →
        ∃ l, parse (printRules hand rules) = .ok l ∧ l.map Item.unplaced = rules.map fun r => .rule r.unplaced :=
  ⟨fun _ _ => normal_of_parse, nonempty_hand, fun hand _ nonempty h => parse_printRules hand nonempty h⟩

/-- A rule with a sequence, a choice in it, suffixes on both, a name with a blank, and blocks. -/
def nested : Rule where
  name := "two words"
  body := .sequence [
    .repetition (.choice [⟨.explicit 0.25, .literal "say \"\\\""⟩, ⟨.automatic, .reference "two words" 3⟩] 2) 1
      (some 3) 1,
    .capture (.action "n = n + 1") "n" true, .choice [⟨.explicit 0.5, .generate "n"⟩] 5]
  pos := 0

theorem parse_inverts_printing_nested : nested.Normal ∧ ∃ hand l, parse (printRules hand [nested]) = .ok l ∧
    l.map Item.unplaced = [.rule nested.unplaced] ∧ ∀ i ∈ l, i.Normal := by
  have code : ∀ s ∈ ["n", "n = n + 1"], Balanced s.toList := by
    intro s hs
    refine balanced_plain (List.all_eq_true.1 ?_)
    simp only [List.mem_cons, List.not_mem_nil, or_false] at hs
    rcases hs with rfl | rfl
    · decide
    · decide
  have quarter : Probable 0.25 := probable_of_nonneg (by decide +kernel)
  have half : Probable 0.5 := probable_of_nonneg (by decide +kernel)
  have name : Quotable "two words" ∧ Quotable "n" := ⟨by decide, by decide⟩
  have plain : ∀ c ∈ "n = n + 1".toList.head?, c ≠ '=' ∧ c ≠ '?' := by
    rintro c ⟨⟩
    decide
  have choice :
      (Expr.choice [⟨.explicit 0.25, .literal "say \"\\\""⟩, ⟨.automatic, .reference "two words" 3⟩] 2).Normal := by
    refine ⟨⟨.inl (Nat.le_refl 2), ?_⟩, trivial, name.1, trivial⟩
    exact List.forall_mem_cons.2 ⟨quarter, List.forall_mem_singleton.2 trivial⟩
  have lone : (Expr.choice [⟨.explicit 0.5, .generate "n"⟩] 5).Normal :=
    ⟨⟨.inr ⟨_, _, rfl⟩, List.forall_mem_singleton.2 half⟩, code _ List.mem_cons_self, trivial⟩
  have capture : (Expr.capture (.action "n = n + 1") "n" true).Normal :=
    ⟨name.2, code _ (List.mem_cons_of_mem _ List.mem_cons_self), plain⟩
  have normal : nested.Normal := by
    refine ⟨name.1, ⟨by decide, ?_⟩, ⟨trivial, choice⟩, capture, lone, trivial⟩
    exact List.forall_mem_cons.2 ⟨not_false, List.forall_mem_cons.2 ⟨not_false, List.forall_mem_singleton.2 not_false⟩⟩
  obtain ⟨made, ⟨hand⟩, inverse⟩ := parse_inverts_printing
  obtain ⟨l, parsed, same⟩ := inverse hand [nested] (List.cons_ne_nil _ _) (List.forall_mem_singleton.2 normal)
  exact ⟨normal, hand, l, parsed, same, made _ _ parsed⟩

end TextGrammar.Grammar
