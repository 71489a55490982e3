import TextGrammar.Proofs.BlockQuotes
set_option autoImplicit false

namespace TextGrammar.Script
open Parsing Parser Token

variable {whole tail : List Char} {N d d' : Nat}

theorem descends_digits : Descends (Extended whole tail) N id digits digits := descends_chars1 ⟨rfl, rfl, rfl⟩

theorem level_digits : Level (Extended whole tail) N id digits digits := descends_digits.level graded_extended

theorem level_sign : Level (Extended whole tail) N id sign sign :=
  ((descends_char ⟨rfl, rfl, rfl⟩).level graded_extended).optional.bind fun | _, _, rfl => level_pure rfl

theorem level_exponent : Level (Extended whole tail) N id exponent exponent :=
  ((descends_char ⟨rfl, rfl, rfl⟩).level graded_extended).bind fun _ _ _ => level_sign.bind fun
    | _, _, rfl => level_digits.bind fun | _, _, rfl => level_pure rfl

theorem descends_number : Descends (Extended whole tail) N id number number := by
  refine Descends.orElse ?_ (descends_digits.bind_level fun | ds, _, rfl => level_require _ _)
  exact descends_digits.bind_level fun | ds, _, rfl => (level_word rfl).bind fun _ _ _ => level_digits.bind fun
    | es, _, rfl => level_exponent.optional.bind fun | power, _, rfl => level_pure rfl

theorem ordinary_isNameChar : Ordinary isNameChar := ⟨rfl, rfl, rfl⟩

theorem descends_identifier : Descends (Extended whole tail) N id identifier identifier := by
  have name : Descends (Extended whole tail) N id nameChars nameChars :=
    (descends_char ⟨rfl, rfl, rfl⟩).bind_level fun
      | _, _, rfl => (level_chars ordinary_isNameChar).bind fun | _, _, rfl => level_pure rfl
  exact fun n hn => (name n hn).quiet.orElse (alike_expected _)

theorem descends_keyword {name : String} (h : isBare name = true) :
    Descends (Extended whole tail) N id (keyword name) (keyword name) :=
  (descends_word h).bind_level fun _ _ _ => ((descends_char ordinary_isNameChar).level graded_extended).notHere

theorem level_separator {sign : String} (h : isBare sign = true) :
    Level (Extended whole tail) N id (do spaces; word sign; spaces) (do spaces; word sign; spaces) :=
  level_spaces.bind fun _ _ _ => (level_word h).bind fun _ _ _ => level_spaces

variable {p q : Parser Term} {operand operand' : Nat → Parser Term}

theorem descends_atom (h : Descends (Extended whole tail) N id p q) :
    Descends (Extended whole tail) (N + 1) id (atom p) (atom q) := by
  have inside : Level (Extended whole tail) N id p q := h.level graded_extended
  have constant {s : String} {t : Term} (bare : isBare s = true) :
      Descends (Extended whole tail) (N + 1) id (do keyword s; return t) (do keyword s; return t) :=
    (descends_keyword bare).bind_level fun _ _ _ => level_pure rfl
  have arguments : Level (Extended whole tail) N id
      (sepBy p (do spaces; word ","; spaces)) (sepBy q (do spaces; word ","; spaces)) :=
    h.sepBy_same graded_extended (level_separator rfl)
  refine Descends.orElse ?_ <| Descends.orElse ?_ <| Descends.orElse ?_ <| (constant rfl).orElse <|
    (constant rfl).orElse <| (constant rfl).orElse <| Descends.orElse ?_ ?_
  · exact (descends_word rfl).bind fun _ _ _ => level_spaces.bind fun _ _ _ => inside.bind fun
      | x, _, rfl => level_spaces.bind fun _ _ _ => (level_word rfl).bind fun _ _ _ => level_pure rfl
  · exact descends_number.bind_level fun | v, _, rfl => level_pure rfl
  · exact descends_stringConstant.bind_level fun | s, _, rfl => level_pure rfl
  · exact descends_identifier.bind fun
      | f, _, rfl => level_spaces.bind fun _ _ _ => (level_word rfl).bind fun _ _ _ =>
        level_spaces.bind fun _ _ _ => arguments.bind fun
        | xs, _, rfl => level_spaces.bind fun _ _ _ => (level_word rfl).bind fun _ _ _ => level_pure rfl
  · exact descends_identifier.bind_level fun | s, _, rfl => level_pure rfl

theorem descends_unary (h : ∀ least, Descends (Extended whole tail) N id (operand least) (operand' least)) :
    Descends (Extended whole tail) (N + 1) id (unary operand) (unary operand') := by
  have signed {s : String} {build : Term → Term} (bare : isBare s = true) : Descends (Extended whole tail) (N + 1) id
      (do word s; spaces; let x ← operand (prefixLevel + 1); return build x)
      (do word s; spaces; let x ← operand' (prefixLevel + 1); return build x) :=
    (descends_word bare).bind fun _ _ _ => level_spaces.bind fun _ _ _ =>
      ((h _).level graded_extended).bind fun | x, _, rfl => level_pure rfl
  exact (signed rfl).orElse ((signed rfl).orElse (descends_atom (h 0)))

theorem isBare_sign : ∀ j ∈ joints, isBare j.sign = true := by decide

theorem descends_joined {js : List Joint} (among : ∀ j ∈ js, j ∈ joints)
    (h : ∀ least, Level (Extended whole tail) N id (operand least) (operand' least)) (x : Term) :
    Descends (Extended whole tail) (N + 1) id (joined operand x js) (joined operand' x js) := by
  induction js with
  | nil => exact descends_fail
  | cons j js ih =>
    refine Descends.orElse ?_ (ih fun k hk => among k (List.mem_cons_of_mem _ hk))
    have sign : Descends (Extended whole tail) (N + 1) id (word j.sign) (word j.sign) :=
      descends_word (isBare_sign j (among j List.mem_cons_self))
    exact level_spaces.bind_descends fun _ _ _ => sign.bind fun _ _ _ =>
      level_spaces.bind fun _ _ _ => (h _).bind fun | y, _, rfl => level_pure rfl

/-- Every operator reads something, so the counts are not reached. -/
theorem level_extended {least count count' : Nat} (deep : N ≤ count) (deep' : N ≤ count')
    (h : ∀ least, Level (Extended whole tail) N id (operand least) (operand' least)) (x : Term) :
    Level (Extended whole tail) N id (extended operand least count x) (extended operand' least count' x) := by
  induction N generalizing count count' x with
  | zero =>
    intro n hn
    obtain rfl := Nat.le_zero.1 hn
    exact fun _ _ place => absurd place (graded_extended.none _ _)
  | succ N ih =>
    obtain ⟨count, rfl⟩ := Nat.exists_eq_succ_of_ne_zero (show count ≠ 0 by omega)
    obtain ⟨count', rfl⟩ := Nat.exists_eq_succ_of_ne_zero (show count' ≠ 0 by omega)
    have fewer := fun least => (h least).mono (Nat.le_succ N)
    have among : ∀ j ∈ joints.filter (least ≤ ·.level), j ∈ joints := fun j hj => (List.mem_filter.1 hj).1
    refine (descends_joined among fewer x).optional_bind graded_extended (fun | y, _, rfl => ?_) (level_pure rfl)
    exact ih (Nat.le_of_succ_le_succ deep) (Nat.le_of_succ_le_succ deep') fewer y

theorem descends_termAt (deep : N ≤ d) (deep' : N ≤ d') (least : Nat) :
    Descends (Extended whole tail) N id (termAt d least) (termAt d' least) := by
  induction N generalizing d d' least with
  | zero => exact fun n hn => absurd hn (Nat.not_lt_zero n)
  | succ N ih =>
    obtain ⟨d, rfl⟩ := Nat.exists_eq_succ_of_ne_zero (show d ≠ 0 by omega)
    obtain ⟨d', rfl⟩ := Nat.exists_eq_succ_of_ne_zero (show d' ≠ 0 by omega)
    have deep := Nat.le_of_succ_le_succ deep
    have deep' := Nat.le_of_succ_le_succ deep'
    -- An operand comes after a sign or a parenthesis, so a shorter text is left for the next depth.
    refine (descends_unary (ih deep deep')).bind fun | x, _, rfl => ?_
    exact level_extended deep deep' (fun least => (ih deep deep' least).level graded_extended) x

theorem descends_statement (deep : N ≤ d) (deep' : N ≤ d') :
    Descends (Extended whole tail) N id (statement d) (statement d') := by
  have term : Descends (Extended whole tail) N id (term d) (term d') := descends_termAt deep deep' 0
  refine Descends.orElse ?_ (term.bind_level fun | x, _, rfl => level_pure rfl)
  exact descends_identifier.bind_level fun
    | name, _, rfl => level_spaces.bind fun _ _ _ => (level_word rfl).bind fun _ _ _ =>
      (level_word rfl).notHere.bind fun _ _ _ => level_spaces.bind fun _ _ _ =>
      (term.level graded_extended).bind fun | x, _, rfl => level_pure rfl

end TextGrammar.Script
