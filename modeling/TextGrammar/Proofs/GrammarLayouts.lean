import TextGrammar.Proofs.RoundTrip
import TextGrammar.Proofs.Tokens
set_option autoImplicit false

namespace TextGrammar.Grammar
open Parsing Parser Token

variable {cs t tail rest u v : List Char} {ts : List (List Char)} {n N : Nat} {inner inner' body body' : Parser Expr}

def Ahead (n : Nat) (u v : List Char) : Prop := ∃ tail ts, At tail ts n u v ∧ (tail = [] → Unbounded ts)

def Bounded (n : Nat) (u v : List Char) : Prop :=
  Inside n u v ∨ Front (fun t => Whole t ∧ ¬ ['i', 'n', 'f', '-', '-'] <+: t) n u v

def Stuck (u v : List Char) : Prop := ∃ c u' v', u = c :: u' ∧ v = c :: v' ∧ isNameChar c = true ∧ Solid u ∧ Solid v

def Loose (n : Nat) (u v : List Char) : Prop := Same n u v ∨ Stuck u v

theorem Bounded.same (h : Bounded n u v) : Same n u v := h.imp_right fun front => front.mono fun _ both => both.1

theorem alike_dots : Alike id (Same n) (Ahead n) (word "...") (word "...") := by
  refine Alike.either (alike_of_agree fun u v ⟨tail, ts, h⟩ => ?_)
    (alike_refused fun _ _ front => front.refuses_word rfl (by decide))
  rcases (h.of_few (Nat.lt_succ_of_lt h.few)).agree_word (s := "...") (by decide) with
    refused | ⟨tail', text, a, u', v', left, right, h'⟩
  · exact .inl refused
  · refine .inr ⟨a, u', v', left, right, tail', ts, h', ?_⟩
    rintro rfl
    refine h.bounds ?_
    rw [text]
    exact List.suffix_rfl

theorem alike_layout_ahead : Alike id (Ahead n) (Bounded n) layout layout := by
  refine alike_of_agree fun u v ⟨tail, ts, h, next⟩ => ?_
  obtain ⟨a, u', v', left, right, -, place⟩ := h.agree_layout next
  exact .inr ⟨a, u', v', left, right, place⟩

theorem not_blank_of_isNameChar {c : Char} (h : isNameChar c = true) : isBlank c = false := by
  rw [Bool.eq_false_iff]
  intro blank
  have outside : isNameChar c = false := not_blank_of_class (by decide) c blank
  rw [outside] at h
  cases h

/-- Behind the end of a bound that is only the beginning of a name, reading is stuck in the name. -/
theorem solid_in_name (name : ∀ d ∈ t, isNameChar d = true) (some : t ≠ []) (dashes : ¬ ['-', '-'] <+: t) (edge : Edge rest) :
    Solid (t ++ rest) := by
  obtain ⟨c, more, rfl⟩ := List.exists_cons_of_ne_nil some
  have first := name c List.mem_cons_self
  refine ⟨?_, fun w hw found => ?_⟩
  · rintro _ ⟨⟩
    exact not_blank_of_isNameChar first
  · simp only [List.mem_cons, List.not_mem_nil, or_false] at hw
    rcases hw with rfl | rfl | rfl
    · obtain rfl := (List.cons_prefix_cons.1 found).1
      exact absurd first (by decide)
    · have both : ['-', '-'] <+: c :: (more ++ rest) := found
      obtain ⟨rfl, second⟩ := List.cons_prefix_cons.1 both
      cases more with
      | nil =>
        obtain ⟨behind, rfl⟩ := second
        exact absurd (edge '-' rfl) (by decide)
      | cons d more =>
        obtain ⟨rfl, -⟩ := List.cons_prefix_cons.1 second
        exact dashes ⟨more, rfl⟩
    · obtain rfl := (List.cons_prefix_cons.1 found).1
      exact absurd first (by decide)

theorem agree_inf_name {c : Char} {run : List Char} (start : isNameStart c = true) (more : ∀ d ∈ run, isNameChar d = true)
    (bound : ¬ ['i', 'n', 'f', '-', '-'] <+: c :: run) (legible : Legible ts) (few : (c :: run).length + ts.flatten.length < n)
    (left : Stands (c :: run) ts u) (right : Stands (c :: run) ts v) :
    Refuses (word "inf") u ∧ Refuses (word "inf") v ∨ Agree (Loose n) (word "inf") (word "inf") u v := by
  have name : ∀ d ∈ c :: run, isNameChar d = true :=
    List.forall_mem_cons.2 ⟨by rw [isNameChar, start, Bool.true_or, Bool.true_or], more⟩
  by_cases found : ['i', 'n', 'f'] <+: c :: run
  · obtain ⟨past, text⟩ := found
    rw [← text] at few bound name left right
    obtain ⟨r, rfl, edge, spaced⟩ := left
    obtain ⟨s, rfl, edge', spaced'⟩ := right
    have name' : ∀ d ∈ past, isNameChar d = true := fun d hd => name d (List.mem_append_right _ hd)
    have dashes : ¬ ['-', '-'] <+: past := fun ⟨more, e⟩ => bound ⟨more, by rw [← e]; rfl⟩
    refine .inr ⟨(), past ++ r, past ++ s, (takes_word "inf").mono fun _ _ => rfl, (takes_word "inf").mono fun _ _ => rfl, ?_⟩
    cases past with
    | nil =>
      have few' : ([] : List Char).length + ts.flatten.length < n := by
        rw [List.append_nil, List.length_cons] at few
        exact Nat.lt_of_le_of_lt (Nat.add_le_add_right (Nat.zero_le _) _) few
      exact .inl (.inl ⟨[], ts, plain_nil, fun found => absurd (List.suffix_nil.1 found) nofun, legible, few',
        ⟨r, rfl, edge, spaced⟩, ⟨s, rfl, edge', spaced'⟩⟩)
    | cons d past =>
      exact .inr ⟨d, past ++ r, past ++ s, rfl, rfl, name' d List.mem_cons_self, solid_in_name name' nofun dashes edge,
        solid_in_name name' nofun dashes edge'⟩
  · have missing {x : List Char} (stands : Stands (c :: run) ts x) : Refuses (word "inf") x :=
      refuses_word (stands.not_prefix (forall_mem_of_all (by decide)) found)
    exact .inl ⟨missing left, missing right⟩

theorem alike_inf : Alike id (Bounded n) (Loose n) (word "inf") (word "inf") := by
  have inside : Alike id (Inside n) (Inside n) (word "inf") (word "inf") :=
    alike_inside_level fun _ => alike_inside_word (by decide)
  refine (inside.weaken (fun _ _ place => place) fun _ _ place => .inl place.same).either (alike_of_agree ?_)
  rintro u v ⟨t, ts, ⟨whole, bound⟩, legible, few, left, right⟩
  have refused {c : Char} {more : List Char} (other : c ≠ 'i') (left : Stands (c :: more) ts u)
      (right : Stands (c :: more) ts v) : Refuses (word "inf") u ∧ Refuses (word "inf") v := by
    obtain ⟨r, rfl, -⟩ := left
    obtain ⟨s, rfl, -⟩ := right
    exact ⟨refuses_word_of_head rfl other, refuses_word_of_head rfl other⟩
  cases whole with
  | quoted h _ =>
    have other : ∀ quote ∈ quotes, quote ≠ 'i' := forall_mem_of_all (by decide)
    exact .inl (refused (other _ h) left right)
  | quotedName _ => exact .inl (refused (by decide) left right)
  | block _ _ => exact .inl (refused (by decide) left right)
  | name start more => exact agree_inf_name start more bound legible few left right

theorem alike_layout_loose : Alike id (Loose n) (Loose n) layout layout := by
  refine (alike_layout_end.weaken (fun _ _ place => place) fun _ _ both => .inl both.2).either ?_
  refine alike_of_agree fun u v stuck => ?_
  obtain ⟨-, -, -, -, -, -, solid, solid'⟩ := id stuck
  exact .inr ⟨(), u, v, solid.takes_layout.mono fun _ _ => rfl, solid'.takes_layout.mono fun _ _ => rfl, .inr stuck⟩

theorem alike_bracket : Alike id (Loose n) (Same n) (word "]") (word "]") := by
  refine (level_word (by decide) rfl (by decide) n (Nat.le_refl n)).either (alike_refused ?_)
  rintro u v ⟨c, u', v', rfl, rfl, name, -, -⟩
  have other : c ≠ ']' := by
    rintro rfl
    exact absurd name (by decide)
  exact ⟨refuses_word_of_head rfl other, refuses_word_of_head rfl other⟩

theorem alike_times : Alike id (Bounded n) (Loose n) times times := by
  have number : Alike id (Bounded n) (Loose n) count count :=
    (descends_count.level graded_same n (Nat.le_refl n)).weaken (fun _ _ place => place.same) fun _ _ place => .inl place
  refine Alike.orElse (number.bind fun | m, _, rfl => alike_pure rfl) ?_
  exact alike_inf.bind fun _ _ _ => alike_pure rfl

theorem level_most {α γ : Type} {f : α → γ} {k l : Option (Option UInt32) → α} (same : ∀ most, f (k most) = f (l most)) :
    Level Same N f
      (do let most ← optional (do word "..."; layout; times); layout; word "]"; return k most)
      (do let most ← optional (do word "..."; layout; times); layout; word "]"; return l most) := by
  intro n _
  have bound : Alike id (Same n) (Loose n) (do word "..."; layout; times) (do word "..."; layout; times) :=
    alike_dots.bind fun _ _ _ => alike_layout_ahead.bind fun _ _ _ => alike_times
  refine (bound.optional (fun _ _ place => .inl place) fun _ _ place => place).bind fun | most, _, rfl => ?_
  exact alike_layout_loose.bind fun _ _ _ => alike_bracket.bind fun _ _ _ => alike_pure (same most)

def Suffix.unplaced : Suffix → Suffix
  | .times least most _ => .times least most 0
  | .capture name discard => .capture name discard

theorem descends_boundedTimes : Descends Same N Suffix.unplaced boundedTimes boundedTimes := by
  refine level_position.bind_descends fun _ _ _ => (descends_word (by decide) rfl (by decide)).bind_level fun _ _ _ => ?_
  refine level_layout.bind fun _ _ _ => (level_word (s := "[") (by decide) rfl (by decide)).bind fun _ _ _ => ?_
  refine level_layout.bind fun _ _ _ => (descends_count.level graded_same).bind fun
    | least, _, rfl => level_layout.bind fun _ _ _ => level_most fun most => ?_
  rfl

theorem descends_shortTimes {sign : String} {d : Char} {ws : List Char} (dense : isDense sign = true)
    (hs : sign.toList = d :: ws) (other : isOpening d = false) (least : UInt32) (most : Option UInt32) :
    Descends Same N Suffix.unplaced (shortTimes sign least most) (shortTimes sign least most) :=
  level_position.bind_descends fun _ _ _ => (descends_word dense hs other).bind_level fun _ _ _ => level_pure rfl

theorem descends_suffix : Descends Same N Suffix.unplaced suffix suffix := by
  have captures : Descends Same N Suffix.unplaced captureSuffix captureSuffix :=
    fun n hn => (descends_captureSuffix n hn).coarsen fun _ _ => congrArg Suffix.unplaced
  exact descends_boundedTimes.orElse ((descends_shortTimes (by decide) rfl (by decide) _ _).orElse
    ((descends_shortTimes (by decide) rfl (by decide) _ _).orElse
    ((descends_shortTimes (by decide) rfl (by decide) _ _).orElse captures)))

theorem descends_reference : Descends Same N Expr.unplaced reference reference := by
  refine level_position.bind_descends fun _ _ _ => descends_name.bind_level fun | n, _, rfl => ?_
  have equals : Level Same N id (do layout; word "=") (do layout; word "=") :=
    level_layout.bind fun _ _ _ => level_word (by decide) rfl (by decide)
  exact equals.notHere.bind fun _ _ _ => level_pure rfl

theorem descends_range : Descends Same N Expr.unplaced range range := by
  refine level_position.bind_descends fun _ _ _ => descends_number.bind_level fun | low, _, rfl => ?_
  have further : Level Same N id (do layout; word "..."; layout; number) (do layout; word "..."; layout; number) :=
    level_layout.bind fun _ _ _ => (level_word (by decide) rfl (by decide)).bind fun _ _ _ =>
      level_layout.bind fun _ _ _ => descends_number.level graded_same
  exact further.optional.bind fun | high, _, rfl => level_pure rfl

theorem descends_primary (h : Level Same N Expr.unplaced inner inner') :
    Descends Same (N + 1) Expr.unplaced (primary inner) (primary inner') := by
  have text {p : Parser String} (hp : Descends Same (N + 1) id p p) (k : String → Expr) :
      Descends Same (N + 1) Expr.unplaced (do let s ← p; return k s) (do let s ← p; return k s) :=
    hp.bind_level fun | s, _, rfl => level_pure rfl
  refine (text descends_literal _).orElse ((text (descends_block_of rfl (by decide)) _).orElse ?_)
  refine (text (descends_block_of rfl (by decide)) _).orElse ((text descends_block _).orElse ?_)
  refine descends_reference.orElse (descends_range.orElse ?_)
  refine (descends_word (by decide) rfl (by decide)).bind fun _ _ _ => level_layout.bind fun _ _ _ => ?_
  refine h.bind fun e e' same => level_layout.bind fun _ _ _ => ?_
  exact (level_word (by decide) rfl (by decide)).bind fun _ _ _ => level_pure same

theorem apply_unplaced (s : Suffix) (e : Expr) : (s.apply e).unplaced = s.unplaced.apply e.unplaced := by
  cases s <;> simp only [Suffix.apply, Suffix.unplaced, Expr.unplaced]

theorem foldl_apply_unplaced (l : List Suffix) (e : Expr) :
    (l.foldl Suffix.apply e).unplaced = (l.map Suffix.unplaced).foldl Suffix.apply e.unplaced := by
  induction l generalizing e with
  | nil => rfl
  | cons s l ih => rw [List.foldl_cons, ih, apply_unplaced, List.map_cons, List.foldl_cons]

theorem descends_repeated (h : Level Same N Expr.unplaced inner inner') :
    Descends Same (N + 1) Expr.unplaced (repeated inner) (repeated inner') := by
  refine (descends_primary h).bind_level fun e e' same => ?_
  refine (Descends.many graded_same (level_layout.bind_descends fun _ _ _ => descends_suffix)).bind fun l l' sames => ?_
  exact level_pure (by rw [foldl_apply_unplaced, foldl_apply_unplaced, same, sames])

theorem items_unplaced (e : Expr) : e.unplaced.items = e.items.map Expr.unplaced := by
  cases e with
  | sequence es => rw [Expr.unplaced, Expr.items, unplacedIn_eq, Expr.items]
  | _ => rfl

theorem ofItems_map_unplaced (es : List Expr) : (Expr.ofItems es).unplaced = Expr.ofItems (es.map Expr.unplaced) := by
  have several (es : List Expr) : (Expr.sequence (es.flatMap Expr.items)).unplaced =
      .sequence ((es.map Expr.unplaced).flatMap Expr.items) := by
    rw [Expr.unplaced, unplacedIn_eq, List.map_flatMap, List.flatMap_map]
    simp only [items_unplaced]
  match es with
  | [] => rfl
  | [e] => rfl
  | e :: e' :: es => exact several (e :: e' :: es)

theorem descends_sequence (h : Level Same N Expr.unplaced inner inner') :
    Descends Same (N + 1) Expr.unplaced (sequence inner) (sequence inner') := by
  refine ((descends_repeated h).sepBy1 graded_same level_layout).bind_level fun es es' same => level_pure ?_
  rw [ofItems_map_unplaced, ofItems_map_unplaced, same]

theorem descends_probability : Descends Same N id probability probability := by
  refine (descends_word (by decide) rfl (by decide)).bind_level fun _ _ _ => level_layout.bind fun _ _ _ => ?_
  refine (descends_number.level graded_same).bind fun | x, _, rfl => (level_require (f := id) _ _).bind fun | p, _, rfl => ?_
  refine level_layout.bind fun _ _ _ => ?_
  refine (level_word (by decide) rfl (by decide)).optional.bind fun | percent, _, rfl => ?_
  refine level_layout.bind fun _ _ _ => ?_
  exact (level_word (by decide) rfl (by decide)).bind fun _ _ _ => level_pure rfl

theorem descends_tagged (h : Descends Same N Expr.unplaced body body') :
    Descends Same N Alternative.unplaced (tagged body) (tagged body') := by
  refine (descends_probability.level graded_same).optional.bind_descends fun | p, _, rfl => ?_
  refine level_layout.bind_descends fun _ _ _ => h.bind_level fun e e' same => level_pure ?_
  rw [Alternative.unplaced, Alternative.unplaced, same]

theorem descends_separated (h : Descends Same N Expr.unplaced body body') :
    Descends Same N Alternative.unplaced (separated body) (separated body') := by
  have bars : Descends Same N id (word "/" <|> word "|") (word "/" <|> word "|") :=
    (descends_word (by decide) rfl (by decide)).orElse (descends_word (by decide) rfl (by decide))
  refine bars.bind_level fun _ _ _ => level_layout.bind fun _ _ _ => (descends_tagged h).level graded_same

theorem choice_unplaced {as bs : List (Alternative Expr)} {pos pos' : Nat}
    (same : as.map Alternative.unplaced = bs.map Alternative.unplaced) :
    (Expr.choice as pos).unplaced = (Expr.choice bs pos').unplaced := by
  rw [Expr.unplaced, Expr.unplaced, unplacedBranches_eq, unplacedBranches_eq, same]

theorem descends_choice (h : Descends Same N Expr.unplaced body body') :
    Descends Same N Expr.unplaced (choice body) (choice body') := by
  have first : Descends Same N (fun x : Bool × Alternative Expr => (x.1, x.2.unplaced))
      ((do let a ← separated body; return (true, a)) <|> (do let a ← tagged body; return (false, a)))
      ((do let a ← separated body'; return (true, a)) <|> (do let a ← tagged body'; return (false, a))) :=
    ((descends_separated h).bind_level fun a b same => level_pure (by rw [same])).orElse
      ((descends_tagged h).bind_level fun a b same => level_pure (by rw [same]))
  have more := Descends.many graded_same (level_layout.bind_descends fun _ _ _ => descends_separated h)
  refine level_position.bind_descends fun pos pos' _ => first.bind_level fun x y same => more.bind fun as bs sames => ?_
  obtain ⟨led, p, e⟩ := x
  obtain ⟨_, p', e'⟩ := y
  obtain ⟨rfl, alternative⟩ := Prod.mk.inj same
  obtain ⟨rfl, body⟩ := Alternative.mk.inj alternative
  have whole (as bs : List (Alternative Expr)) (sames : as.map Alternative.unplaced = bs.map Alternative.unplaced) :
      Level Same N Expr.unplaced (pure (.choice (⟨p, e⟩ :: as) pos)) (pure (.choice (⟨p, e'⟩ :: bs) pos')) := by
    refine level_pure (choice_unplaced ?_)
    rw [List.map_cons, List.map_cons, sames, Alternative.unplaced, Alternative.unplaced, body]
  cases as with
  | cons a as =>
    cases bs with
    | nil => cases sames
    | cons b bs => exact whole _ _ sames
  | nil =>
    cases bs with
    | cons b bs => cases sames
    | nil =>
      cases led with
      | true => exact descends_fail.level graded_same
      | false =>
        cases p with
        | automatic => exact level_pure body
        | explicit _ => exact whole [] [] rfl

theorem descends_choiceAt {depth depth' : Nat} (h : N ≤ depth) (h' : N ≤ depth') :
    Descends Same N Expr.unplaced (choiceAt depth) (choiceAt depth') := by
  induction N generalizing depth depth' with
  | zero => exact fun n hn => absurd hn (Nat.not_lt_zero n)
  | succ N ih =>
    cases depth with
    | zero => exact absurd h (Nat.not_succ_le_zero N)
    | succ depth =>
      cases depth' with
      | zero => exact absurd h' (Nat.not_succ_le_zero N)
      | succ depth' =>
        have inside := ih (Nat.le_of_succ_le_succ h) (Nat.le_of_succ_le_succ h')
        exact descends_choice (descends_sequence (inside.level graded_same))

theorem descends_item (h : Descends Same N Expr.unplaced body body') :
    Descends Same N Item.unplaced (item body) (item body') := by
  have rule : Descends Same N Rule.unplaced (definition body) (definition body') := by
    refine level_position.bind_descends fun _ _ _ => descends_name.bind_level fun | n, _, rfl => ?_
    refine level_layout.bind fun _ _ _ => (level_word (s := "=") (by decide) rfl (by decide)).bind fun _ _ _ => ?_
    refine level_layout.bind fun _ _ _ => (h.level graded_same).bind fun e e' same => ?_
    refine level_layout.bind fun _ _ _ => (level_word (s := ";") (by decide) rfl (by decide)).bind fun _ _ _ => level_pure ?_
    rw [Rule.unplaced, Rule.unplaced, same]
  refine (rule.bind_level fun r r' same => level_pure ?_).orElse (h.bind_level fun e e' same => level_pure ?_)
  · rw [Item.unplaced, Item.unplaced, same]
  · rw [Item.unplaced, Item.unplaced, same]

/-- Two texts of the same tokens are both refused, or both are read, and then as the same items up to their offsets. -/
theorem parse_spaced (legible : Legible ts) (left : Spaced ts u) (right : Spaced ts v) :
    (∃ s t, parse u = .error s ∧ parse v = .error t) ∨
      ∃ l m, parse u = .ok l ∧ parse v = .ok m ∧ l.map Item.unplaced = m.map Item.unplaced := by
  have few : ts.flatten.length < ts.flatten.length + 1 := Nat.lt_succ_self _
  have start : Alike id (fun x y => x = u ∧ y = v) (Same (ts.flatten.length + 1)) layout layout := by
    refine alike_of_agree fun x y both => .inr ?_
    obtain ⟨rfl, rfl⟩ := both
    obtain ⟨a, u', v', taken, taken', -, place⟩ := left.agree_layout (Q := fun _ => True) right legible few fun _ _ => trivial
    exact ⟨a, u', v', taken, taken', place.imp_right fun front => front.mono fun _ both => both.1⟩
  have further := descends_item (descends_choiceAt (N := ts.flatten.length + 1) (Nat.succ_le_succ left.le_length)
    (Nat.succ_le_succ right.le_length))
  have whole : Alike (List.map Item.unplaced) (fun x y => x = u ∧ y = v)
      (fun x y => (x = [] ↔ y = []) ∧ Same (ts.flatten.length + 1) x y) (items (u.length + 1)) (items (v.length + 1)) := by
    refine start.bind fun _ _ _ => (further.sepBy graded_same level_layout _ (Nat.le_refl _)).bind fun l m same => ?_
    exact alike_layout_end.bind fun _ _ _ => alike_pure same
  exact whole.run (fun _ _ both => both.1) ⟨rfl, rfl⟩

end TextGrammar.Grammar
