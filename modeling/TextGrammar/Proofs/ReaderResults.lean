import TextGrammar.Compile
import TextGrammar.Proofs.Numerals
import TextGrammar.Proofs.GrammarPhrases
import TextGrammar.Proofs.Subexpressions
set_option autoImplicit false

namespace TextGrammar

namespace Parsing.Parser

variable {α β : Type} {p q : Parser α} {P : α → Prop} {Q : β → Prop}

def Yields (p : Parser α) (P : α → Prop) : Prop := ∀ c a c', (p c).outcome = some (a, c') → P a

theorem yields_true (p : Parser α) : p.Yields fun _ => True := fun _ _ _ _ => trivial

theorem yields_pure {a : α} (h : P a) : (pure a : Parser α).Yields P := by
  rintro c b c' hb
  cases hb
  exact h

theorem yields_fail : (fail : Parser α).Yields P := by
  intro c a c' h
  cases h

theorem Yields.bind {f : α → Parser β} (hp : p.Yields P) (hf : ∀ a, P a → (f a).Yields Q) : (p >>= f).Yields Q := by
  intro c b c' h
  rw [outcome_bind, Option.bind_eq_some_iff] at h
  obtain ⟨⟨a, d⟩, ha, hb⟩ := h
  exact hf a (hp c a d ha) d b c' hb

theorem yields_after {f : α → Parser β} (p : Parser α) (hf : ∀ a, (f a).Yields Q) : (p >>= f).Yields Q :=
  (yields_true p).bind fun a _ => hf a

theorem Yields.orElse (hp : p.Yields P) (hq : q.Yields P) : (p <|> q).Yields P := by
  intro c a c' h
  rw [outcome_orElse, Option.or_eq_some_iff] at h
  rcases h with h | ⟨-, h⟩
  · exact hp c a c' h
  · exact hq c a c' h

theorem Yields.optional (hp : p.Yields P) : (optional p).Yields fun o => ∀ a ∈ o, P a := by
  refine (hp.bind fun a ha => yields_pure ?_).orElse (yields_pure nofun)
  rintro b ⟨⟩
  exact ha

theorem Yields.repeated (hp : p.Yields P) (fuel : Nat) (c : Cursor) : ∀ a ∈ (repeated p fuel c).1, P a := by
  induction fuel generalizing c with
  | zero => simp [Parser.repeated]
  | succ fuel ih =>
    rw [Parser.repeated]
    cases h : (p c).outcome with
    | none => simp
    | some r =>
      obtain ⟨b, d⟩ := r
      intro a ha
      rcases List.mem_cons.1 ha with rfl | ha
      · exact hp c a d h
      · exact ih d a ha

theorem Yields.many (hp : p.Yields P) : (many p).Yields fun l => ∀ a ∈ l, P a := by
  intro c l c' h
  rw [outcome_many, Option.some.injEq] at h
  have hl := hp.repeated (c.rest.length + 1) c
  rw [h] at hl
  exact hl

theorem Yields.sepBy1 {separator : Parser β} (hp : p.Yields P) :
    (sepBy1 p separator).Yields fun l => l ≠ [] ∧ ∀ a ∈ l, P a := by
  refine hp.bind fun a ha => ?_
  refine (yields_after separator fun _ => hp).many.bind fun more hmore => yields_pure ⟨List.cons_ne_nil _ _, ?_⟩
  intro b hb
  rcases List.mem_cons.1 hb with rfl | hb
  · exact ha
  · exact hmore b hb

theorem Yields.run {source : List Char} {a : α} (hp : p.Yields P) (h : p.run source = .ok a) : P a := by
  have whole : (do let a ← p; finish; return a : Parser α).Yields P :=
    hp.bind fun a ha => yields_after finish fun _ => yields_pure ha
  simp only [Parser.run] at h
  split at h
  · rename_i b d hb
    cases h
    exact whole _ _ _ hb
  · cases h

/-- What a parser returns is in a relation with the text that it has read. -/
def Matches (p : Parser α) (R : α → List Char → Prop) : Prop :=
  ∀ c a c', (p c).outcome = some (a, c') → ∃ text, c.rest = text ++ c'.rest ∧ R a text

variable {R : α → List Char → Prop} {S : β → List Char → Prop}

theorem Matches.yields (h : p.Matches R) : p.Yields fun a => ∃ text, R a text := by
  intro c a c' ha
  obtain ⟨text, -, hr⟩ := h c a c' ha
  exact ⟨text, hr⟩

theorem Matches.mono {R' : α → List Char → Prop} (h : p.Matches R) (hR : ∀ a text, R a text → R' a text) :
    p.Matches R' := by
  intro c a c' ha
  obtain ⟨text, split, hr⟩ := h c a c' ha
  exact ⟨text, split, hR a text hr⟩

theorem matches_pure {a : α} (h : R a []) : (pure a : Parser α).Matches R := by
  rintro c b c' hb
  cases hb
  exact ⟨[], rfl, h⟩

theorem matches_require {what : String} {o : Option α} (h : ∀ a ∈ o, R a []) : (require what o).Matches R := by
  intro c b c' hb
  rw [outcome_require, Option.map_eq_some_iff] at hb
  obtain ⟨a, ha, hc⟩ := hb
  cases hc
  exact ⟨[], rfl, h _ ha⟩

theorem Matches.bind {f : α → Parser β} (hp : p.Matches R)
    (hf : ∀ a text, R a text → (f a).Matches fun b more => S b (text ++ more)) :
    (p >>= f).Matches S := by
  intro c b c' h
  rw [outcome_bind, Option.bind_eq_some_iff] at h
  obtain ⟨⟨a, d⟩, ha, hb⟩ := h
  obtain ⟨text, split, hr⟩ := hp c a d ha
  obtain ⟨more, split', hs⟩ := hf a text hr d b c' hb
  exact ⟨text ++ more, by rw [split, split', List.append_assoc], hs⟩

theorem Matches.orElse (hp : p.Matches R) (hq : q.Matches R) : (p <|> q).Matches R := by
  intro c a c' h
  rw [outcome_orElse, Option.or_eq_some_iff] at h
  rcases h with h | ⟨-, h⟩
  · exact hp c a c' h
  · exact hq c a c' h

theorem Matches.optional (hp : p.Matches R) :
    (optional p).Matches fun o text => (o = none ∧ text = []) ∨ ∃ a, o = some a ∧ R a text :=
  Matches.orElse (hp.bind fun a _ ha => matches_pure (Or.inr ⟨a, rfl, by rwa [List.append_nil]⟩))
    (matches_pure (Or.inl ⟨rfl, rfl⟩))

theorem matches_char (label : String) (ok : Char → Bool) :
    (char label ok).Matches fun c text => text = [c] ∧ ok c = true := by
  rintro ⟨rest, pos⟩ a c' h
  cases rest with
  | nil => cases h
  | cons b rest =>
    rw [outcome_char] at h
    split at h
    · rename_i hb
      cases h
      exact ⟨[_], rfl, rfl, hb⟩
    · cases h

theorem matches_chars (label : String) (ok : Char → Bool) :
    (chars label ok).Matches fun run text => text = run ∧ ∀ c ∈ run, ok c = true := by
  intro c run c' h
  cases h
  exact ⟨_, List.takeWhile_append_dropWhile.symm, rfl, List.all_eq_true.1 List.all_takeWhile⟩

theorem matches_chars1 (label : String) (ok : Char → Bool) :
    (chars1 label ok).Matches fun run text => text = run ∧ run ≠ [] ∧ ∀ c ∈ run, ok c = true := by
  refine (matches_char label ok).bind fun c _ hc => (matches_chars label ok).bind fun run _ hrun => matches_pure ?_
  obtain ⟨rfl, hc⟩ := hc
  obtain ⟨rfl, hrun⟩ := hrun
  exact ⟨by simp, List.cons_ne_nil _ _, List.forall_mem_cons.2 ⟨hc, hrun⟩⟩

theorem matches_word (w : String) : (word w).Matches fun _ text => text = w.toList := by
  intro c a c' h
  rw [outcome_word, Option.map_eq_some_iff] at h
  obtain ⟨rest, found, hc⟩ := h
  cases hc
  exact ⟨_, stripPrefix?_eq_some_iff.1 found, rfl⟩

theorem Matches.many {T : List α → List Char → Prop} (hp : p.Matches R) (nil : T [] [])
    (cons : ∀ a text l more, R a text → T l more → T (a :: l) (text ++ more)) : (many p).Matches T := by
  have turns (fuel : Nat) :
      ∀ c, ∃ text, c.rest = text ++ (repeated p fuel c).2.rest ∧ T (repeated p fuel c).1 text := by
    induction fuel with
    | zero => exact fun c => ⟨[], rfl, nil⟩
    | succ fuel ih =>
      intro c
      rw [Parser.repeated]
      cases h : (p c).outcome with
      | none => exact ⟨[], rfl, nil⟩
      | some r =>
        obtain ⟨a, d⟩ := r
        obtain ⟨text, split, ha⟩ := hp c a d h
        obtain ⟨more, split', hl⟩ := ih d
        exact ⟨text ++ more, by rw [split, split', List.append_assoc], cons a text _ more ha hl⟩
  intro c l c' h
  rw [outcome_many, Option.some.injEq] at h
  have all := turns (c.rest.length + 1) c
  rwa [h] at all

end Parsing.Parser

namespace Grammar
open Parsing Parser Token

theorem matches_digits : digits.Matches fun ds text => text = ds ∧ AllDigits ds := matches_chars1 _ _

theorem matches_sign : sign.Matches SpellsSign := by
  refine (matches_char _ _).optional.bind fun o text h => matches_pure ?_
  rw [List.append_nil]
  obtain ⟨rfl, rfl⟩ | ⟨c, rfl, rfl, hc⟩ := h
  · exact .none
  · simp only [Bool.or_eq_true, beq_iff_eq] at hc
    rcases hc with rfl | rfl
    · exact .minus
    · exact .plus

theorem matches_power : (optional exponent).Matches SpellsPower := by
  have power : exponent.Matches fun e text => SpellsPower (some e) text := by
    refine (matches_char _ _).bind fun mark _ hm => matches_sign.bind fun negative s hs =>
      matches_digits.bind fun ds _ hd => ?_
    obtain ⟨rfl, hm⟩ := hm
    obtain ⟨rfl, hd⟩ := hd
    refine matches_pure ?_
    rw [List.append_nil]
    exact .some (by simpa using hm) hs hd
  refine power.optional.mono fun o text h => ?_
  obtain ⟨rfl, rfl⟩ | ⟨e, rfl, h⟩ := h
  · exact .none
  · exact h

theorem matches_fraction : (optional (do word "."; digits)).Matches SpellsFraction := by
  refine ((matches_word ".").bind fun _ _ hw => matches_digits.mono fun ds _ hd => ?_).optional.mono
    (R := fun o text => (o = none ∧ text = []) ∨ ∃ ds, o = some ds ∧ SpellsFraction (some ds) text) fun o text h => ?_
  · obtain rfl := hw
    obtain ⟨rfl, hd⟩ := hd
    exact .some hd
  · obtain ⟨rfl, rfl⟩ | ⟨ds, rfl, h⟩ := h
    · exact .none
    · exact h

theorem matches_number : number.Matches SpellsNumber := by
  refine matches_sign.bind fun negative s hs => matches_digits.bind fun ds whole hw => ?_
  refine matches_fraction.bind fun fraction f hf => matches_power.bind fun power p hp => ?_
  obtain ⟨same, hw⟩ := hw
  subst same
  have spelled {n : Number} (value : number? negative whole fraction power = some n) :
      SpellsNumber n (s ++ (whole ++ (f ++ (p ++ [])))) := by
    rw [List.append_nil]
    exact .mk hs hw hf hp value
  split
  · rename_i float
    exact matches_pure (spelled (by rw [number?, if_pos float]))
  · rename_i integer
    refine matches_require fun n hn => spelled ?_
    rw [number?, if_neg integer]
    exact hn

theorem yields_number : number.Yields Writable := matches_number.yields

theorem yields_name : name.Yields Quotable := by
  refine Yields.orElse ?_ (Yields.orElse ?_ fun _ _ _ h => by cases h)
  · refine yields_after _ fun _ => Yields.bind (matches_chars _ _).yields fun cs hcs => yields_after _ fun _ =>
      yields_pure ?_
    obtain ⟨_, rfl, hcs⟩ := hcs
    intro c hc
    rw [String.toList_ofList] at hc
    exact bne_iff_ne.1 (hcs c hc)
  · refine Yields.bind (matches_char _ _).yields fun a ha => Yields.bind (matches_chars _ _).yields fun run hrun =>
      yields_pure ?_
    obtain ⟨_, rfl, ha⟩ := ha
    obtain ⟨_, rfl, hrun⟩ := hrun
    intro c hc
    rw [String.toList_ofList] at hc
    rintro rfl
    rcases List.mem_cons.1 hc with rfl | hc
    · exact absurd ha (by decide)
    · exact absurd (hrun _ hc) (by decide)

theorem matches_code (depth : Nat) : (code depth).Matches fun cs text => text = cs ∧ Balanced cs := by
  induction depth with
  | zero =>
    intro c a c' h
    cases h
  | succ depth ih =>
    have one : (part depth).Matches fun cs text => text = cs ∧ Balanced cs := by
      refine Matches.orElse ?_ (Matches.orElse ?_ ?_)
      · refine (matches_word _).bind fun _ _ hw => (matches_char _ _).bind fun c _ hc => matches_pure ?_
        obtain rfl := hw
        obtain ⟨rfl, -⟩ := hc
        exact ⟨rfl, .escape c .nil⟩
      · refine (matches_chars1 _ _).mono fun run text h => ?_
        obtain ⟨rfl, -, plain⟩ := h
        exact ⟨rfl, balanced_plain plain⟩
      · refine (matches_word _).bind fun _ _ hw => ih.bind fun cs _ hcs => (matches_word _).bind fun _ _ hw' =>
          matches_pure ?_
        obtain rfl := hw
        obtain ⟨rfl, hcs⟩ := hcs
        obtain rfl := hw'
        exact ⟨rfl, .braces hcs .nil⟩
    rw [code_succ]
    refine (one.many (T := fun l text => text = l.flatten ∧ Balanced l.flatten) ⟨rfl, .nil⟩ ?_).bind fun l text h =>
      matches_pure ?_
    · rintro a _ l _ ⟨rfl, ha⟩ ⟨rfl, hl⟩
      exact ⟨rfl, ha.append hl⟩
    · rwa [List.append_nil]

theorem matches_block (opening : String) :
    (block opening).Matches fun s text => text = opening.toList ++ (s.toList ++ ['\x7d']) ∧ Balanced s.toList := by
  have inside : blockCode.Matches fun s text => text = s.toList ∧ Balanced s.toList := by
    intro c s c' h
    have mapped : (do let cs ← code (c.rest.length + 1); return String.ofList cs : Parser String).Matches
        fun s text => text = s.toList ∧ Balanced s.toList := by
      refine (matches_code _).bind fun cs _ hcs => matches_pure ?_
      obtain ⟨rfl, hcs⟩ := hcs
      rw [String.toList_ofList, List.append_nil]
      exact ⟨rfl, hcs⟩
    exact mapped c s c' h
  refine (matches_word _).bind fun _ _ hw => inside.bind fun s _ hs => (matches_word _).bind fun _ _ hw' =>
    matches_pure ?_
  obtain rfl := hw
  obtain ⟨rfl, hs⟩ := hs
  obtain rfl := hw'
  exact ⟨rfl, hs⟩

/-- An action begins with neither of the characters that make another block of it: the reader tries those first. -/
theorem plain_of_block {c c' : Cursor} {s : String} {d : Char} {opening : String} (hw : opening.toList = ['\x7b', d])
    (plain : isPlain d = true) (other : (block opening c).outcome = none)
    (h : (block "\x7b" c).outcome = some (s, c')) :
    Balanced s.toList ∧ ∀ b ∈ s.toList.head?, b ≠ d := by
  obtain ⟨_, split, rfl, balanced⟩ := matches_block "\x7b" c s c' h
  refine ⟨balanced, ?_⟩
  rintro b hb rfl
  obtain ⟨more, hs⟩ := List.head?_eq_some_iff.1 hb
  rw [hs] at balanced split
  have behind : Balanced (String.ofList more).toList := by
    rw [String.toList_ofList]
    exact balanced.behind plain
  have taken : Takes (block opening) (opening.toList ++ ((String.ofList more).toList ++ '\x7d' :: c'.rest)) c'.rest _ :=
    takes_block opening behind
  rw [hw, String.toList_ofList] at taken
  obtain ⟨rest, pos⟩ := c
  obtain ⟨t, pos', found, -⟩ := taken pos
  have text : rest = '\x7b' :: b :: (more ++ '\x7d' :: c'.rest) := by simpa using split
  have found' : (block opening ⟨'\x7b' :: b :: (more ++ '\x7d' :: c'.rest), pos⟩).outcome = some (t, ⟨c'.rest, pos'⟩) :=
    found
  rw [text, found'] at other
  cases other

/-- A property that passes from expressions to those that the reader makes of them. Probabilities in them have a property of
their own. -/
structure Closed (tag : Float → Prop) (P : Expr → Prop) : Prop where
  literal (s : String) : P (.literal s)
  range {low high : Number} {pos : Nat} : Writable low → Writable high → P (.range low high pos)
  reference {n : String} {pos : Nat} : Quotable n → P (.reference n pos)
  generate {s : String} : Balanced s.toList → P (.generate s)
  check {s : String} : Balanced s.toList → P (.check s)
  action {s : String} : Balanced s.toList → (∀ c ∈ s.toList.head?, c ≠ '=' ∧ c ≠ '?') → P (.action s)
  times {e : Expr} (least : UInt32) (most : Option UInt32) (pos : Nat) : P e → P (.repetition e least most pos)
  capture {e : Expr} {n : String} (discard : Bool) : Quotable n → P e → P (.capture e n discard)
  items {es : List Expr} : es ≠ [] → (∀ e ∈ es, P e) → P (.ofItems es)
  choice {as : List (Alternative Expr)} {pos : Nat} : (2 ≤ as.length ∨ ∃ p e, as = [⟨.explicit p, e⟩]) →
    (∀ a ∈ as, (∀ p, a.probability = .explicit p → tag p) ∧ P a.body) → P (.choice as pos)

variable {tag : Float → Prop} {P : Expr → Prop} {inner body : Parser Expr}

theorem yields_action (closed : Closed tag P) {c c' : Cursor} {e : Expr} (generate : (block "\x7b=" c).outcome = none)
    (check : (block "\x7b?" c).outcome = none)
    (h : ((do let s ← block "\x7b"; return .action s : Parser Expr) c).outcome = some (e, c')) : P e := by
  rw [outcome_bind, Option.bind_eq_some_iff] at h
  obtain ⟨⟨s, d⟩, hs, he⟩ := h
  cases he
  obtain ⟨balanced, first⟩ := plain_of_block rfl (by decide) generate hs
  exact closed.action balanced fun b hb => ⟨first b hb, (plain_of_block rfl (by decide) check hs).2 b hb⟩

theorem outcome_bind_eq_none {α β : Type} {p : Parser α} {f : α → β} {c : Cursor}
    (h : ((do let a ← p; return f a : Parser β) c).outcome = none) : (p c).outcome = none := by
  rw [outcome_bind] at h
  cases hp : (p c).outcome with
  | none => rfl
  | some r =>
    rw [hp] at h
    cases h

theorem yields_range (closed : Closed tag P) : range.Yields P := by
  have greatest : (optional (do layout; word "..."; layout; number)).Yields fun o => ∀ n ∈ o, Writable n :=
    (yields_after _ fun _ => yields_after _ fun _ => yields_after _ fun _ => yields_number).optional
  refine yields_after _ fun _ => yields_number.bind fun low hl => greatest.bind fun high hh => yields_pure ?_
  cases high with
  | none => exact closed.range hl hl
  | some n => exact closed.range hl (hh n rfl)

theorem yields_primary (closed : Closed tag P) (h : inner.Yields P) : (primary inner).Yields P := by
  have block {opening : String} {f : String → Expr} (hf : ∀ s, Balanced s.toList → P (f s)) :
      (do let s ← block opening; return f s : Parser Expr).Yields P :=
    (matches_block opening).yields.bind fun s hs => yields_pure (hf s hs.choose_spec.2)
  have rest : (reference <|> range <|> (do word "("; layout; let e ← inner; layout; word ")"; return e)).Yields P := by
    refine Yields.orElse ?_ ((yields_range closed).orElse ?_)
    · exact yields_after _ fun _ => yields_name.bind fun _ hn => yields_after _ fun _ =>
        yields_pure (closed.reference hn)
    · refine yields_after _ fun _ => yields_after _ fun _ => h.bind fun e he => ?_
      exact yields_after _ fun _ => yields_after _ fun _ => yields_pure he
  intro c e c' he
  -- an action is read where the two other blocks were refused
  rw [primary, outcome_orElse, Option.or_eq_some_iff] at he
  rcases he with he | ⟨-, he⟩
  · exact (yields_after literal fun s => yields_pure (closed.literal s)) c e c' he
  rw [outcome_orElse, Option.or_eq_some_iff] at he
  rcases he with he | ⟨generate, he⟩
  · exact block (fun _ => closed.generate) c e c' he
  rw [outcome_orElse, Option.or_eq_some_iff] at he
  rcases he with he | ⟨check, he⟩
  · exact block (fun _ => closed.check) c e c' he
  rw [outcome_orElse, Option.or_eq_some_iff] at he
  rcases he with he | ⟨-, he⟩
  · exact yields_action closed (outcome_bind_eq_none generate) (outcome_bind_eq_none check) he
  · exact rest c e c' he

theorem closed_suffixes (closed : Closed tag P) {suffixes : List Suffix} {e : Expr} (h : P e)
    (names : ∀ s ∈ suffixes, ∀ n discard, s = .capture n discard → Quotable n) : P (suffixes.foldl Suffix.apply e) := by
  induction suffixes generalizing e with
  | nil => exact h
  | cons s suffixes ih =>
    refine ih ?_ fun t ht => names t (List.mem_cons_of_mem _ ht)
    cases s with
    | times least most pos => exact closed.times least most pos h
    | capture n discard => exact closed.capture discard (names _ List.mem_cons_self n discard rfl) h

theorem yields_suffix : suffix.Yields fun s => ∀ n discard, s = .capture n discard → Quotable n := by
  have short (sign : String) (least : UInt32) (most : Option UInt32) :
      (shortTimes sign least most).Yields fun s => ∀ n discard, s = .capture n discard → Quotable n :=
    yields_after _ fun _ => yields_after _ fun _ => yields_pure nofun
  refine Yields.orElse ?_ ((short _ _ _).orElse ((short _ _ _).orElse ((short _ _ _).orElse ?_)))
  · refine yields_after _ fun _ => yields_after _ fun _ => yields_after _ fun _ => yields_after _ fun _ => ?_
    refine yields_after _ fun _ => yields_after _ fun _ => yields_after _ fun _ => yields_after _ fun _ => ?_
    exact yields_after _ fun _ => yields_after _ fun _ => yields_pure nofun
  · refine yields_after _ fun _ => yields_after _ fun _ => yields_after _ fun _ => yields_after _ fun _ => ?_
    refine yields_after _ fun _ => yields_name.bind fun n hn => yields_after _ fun _ => yields_after _ fun _ =>
      yields_pure ?_
    rintro _ _ ⟨⟩
    exact hn

theorem yields_sequence (closed : Closed tag P) (h : inner.Yields P) : (sequence inner).Yields P := by
  have parts : (repeated inner).Yields P :=
    (yields_primary closed h).bind fun e he =>
    (yields_after layout fun _ => yields_suffix).many.bind fun suffixes names =>
      yields_pure (closed_suffixes closed he names)
  exact parts.sepBy1.bind fun es hes => yields_pure (closed.items hes.1 hes.2)

def Alternative.Fits (tag : Float → Prop) (P : Expr → Prop) (a : Alternative Expr) : Prop :=
  (∀ p, a.probability = .explicit p → tag p) ∧ P a.body

theorem yields_tagged (ht : probability.Yields tag) (h : body.Yields P) :
    (tagged body).Yields (Alternative.Fits tag P) := by
  refine ht.optional.bind fun o ho => yields_after _ fun _ => h.bind fun e he => yields_pure ⟨fun p hp => ?_, he⟩
  cases o with
  | none => cases hp
  | some q =>
    cases hp
    exact ho _ rfl

theorem yields_separated (ht : probability.Yields tag) (h : body.Yields P) :
    (separated body).Yields (Alternative.Fits tag P) :=
  yields_after _ fun _ => yields_after _ fun _ => yields_tagged ht h

theorem yields_choice (closed : Closed tag P) (ht : probability.Yields tag) (h : body.Yields P) :
    (choice body).Yields P := by
  refine yields_after _ fun pos => ?_
  have first : (((do let a ← separated body; return (true, a)) <|> (do let a ← tagged body; return (false, a)) :
      Parser (Bool × Alternative Expr))).Yields fun r => r.2.Fits tag P := by
    refine Yields.orElse ?_ ?_
    · exact (yields_separated ht h).bind fun _ ha => yields_pure ha
    · exact (yields_tagged ht h).bind fun _ ha => yields_pure ha
  refine first.bind fun r hr => ?_
  refine (yields_after layout fun _ => yields_separated ht h).many.bind fun more hmore => ?_
  obtain ⟨led, a⟩ := r
  match led, a, more, hr, hmore with
  | _, a, b :: bs, ha, hmore =>
    exact yields_pure (closed.choice (Or.inl (by simp)) (List.forall_mem_cons.2 ⟨ha, hmore⟩))
  | false, ⟨.automatic, e⟩, [], ha, _ => exact yields_pure ha.2
  | false, ⟨.explicit q, e⟩, [], ha, _ =>
    exact yields_pure (closed.choice (Or.inr ⟨q, e, rfl⟩) (List.forall_mem_singleton.2 ha))
  | true, _, [], _, _ => exact yields_fail

theorem yields_choiceAt (closed : Closed tag P) (ht : probability.Yields tag) (depth : Nat) :
    (choiceAt depth).Yields P := by
  induction depth with
  | zero => exact yields_fail
  | succ depth ih => exact yields_choice closed ht (yields_sequence closed ih)

def Item.Fits (P : Expr → Prop) : Item → Prop
  | .rule r => Quotable r.name ∧ P r.body
  | .expr e => P e

theorem yields_item (h : body.Yields P) : (item body).Yields (Item.Fits P) := by
  have rule : (definition body).Yields fun r => Quotable r.name ∧ P r.body := by
    refine yields_after _ fun _ => yields_name.bind fun _ hn => yields_after _ fun _ => yields_after _ fun _ =>
      yields_after _ fun _ => h.bind fun e he => ?_
    exact yields_after _ fun _ => yields_after _ fun _ => yields_pure ⟨hn, he⟩
  refine Yields.orElse ?_ ?_
  · exact rule.bind fun _ hr => yields_pure hr
  · exact h.bind fun _ he => yields_pure he

/-- What the reader builds has every property that passes to what it builds. -/
theorem fits_of_parse (closed : Closed tag P) (ht : probability.Yields tag) {source : List Char} {l : List Item}
    (h : parse source = .ok l) : ∀ i ∈ l, i.Fits P := by
  have all (depth : Nat) : (items depth).Yields fun l => ∀ i ∈ l, i.Fits P := by
    have some_items : (sepBy1 (item (choiceAt depth)) layout).Yields fun l => ∀ i ∈ l, i.Fits P :=
      fun c l c' hl => ((yields_item (yields_choiceAt closed ht depth)).sepBy1 c l c' hl).2
    refine yields_after _ fun _ => Yields.bind ?_ fun l hl => yields_after _ fun _ => yields_pure hl
    exact some_items.orElse (yields_pure fun _ h => absurd h List.not_mem_nil)
  exact (all _).run h

section
variable {Q : Expr → Prop} {e f : Expr} {es : List Expr}

theorem every_items (h : e.Every Q) (hf : f ∈ e.items) : f.Every Q := by
  cases e with
  | sequence es => exact everyIn_iff.1 h.2 f hf
  | _ =>
    obtain rfl := List.mem_singleton.1 hf
    exact h

theorem every_ofItems (sequence : ∀ es, Q (.sequence es)) (h : ∀ e ∈ es, e.Every Q) : (Expr.ofItems es).Every Q := by
  have flat : (Expr.sequence (es.flatMap Expr.items)).Every Q := by
    refine ⟨sequence _, everyIn_iff.2 fun f hf => ?_⟩
    obtain ⟨e, he, hf⟩ := List.mem_flatMap.1 hf
    exact every_items (h e he) hf
  match es with
  | [] => exact flat
  | [e] => exact h e (List.mem_singleton_self e)
  | _ :: _ :: _ => exact flat

def Expr.IsChoice : Expr → Prop
  | .choice _ _ => True
  | _ => False

theorem closed_every (other : ∀ e : Expr, ¬ e.IsChoice → Q e)
    (choice : ∀ (as : List (Alternative Expr)) (pos : Nat), as ≠ [] →
      (∀ a ∈ as, ∀ p, a.probability = .explicit p → tag p) → Q (.choice as pos)) : Closed tag (·.Every Q) where
  literal _ := other _ not_false
  range _ _ := other _ not_false
  reference _ := other _ not_false
  generate _ := other _ not_false
  check _ := other _ not_false
  action _ _ := other _ not_false
  times _ _ _ h := ⟨other _ not_false, h⟩
  capture _ _ h := ⟨other _ not_false, h⟩
  items _ h := every_ofItems (fun _ => other _ not_false) h
  choice {as _} size h := by
    refine ⟨choice as _ ?_ fun a ha => (h a ha).1, everyBranch_iff.2 fun a ha => (h a ha).2⟩
    rintro rfl
    rcases size with two | ⟨_, _, one⟩
    · exact absurd two (by decide)
    · cases one

end

theorem every_of_read {Q : Expr → Prop} (closed : Closed tag (·.Every Q)) (ht : probability.Yields tag)
    {source : List Char}
    {g : Grammar} (h : read source = .ok g) : ∀ e ∈ g.entry ++ g.rules.map Rule.body, e.Every Q := by
  unfold read at h
  split at h
  · rename_i items hi
    cases h
    have all := fits_of_parse closed ht hi
    intro e he
    rcases List.mem_append.1 he with he | he
    · obtain ⟨i, hi, hx⟩ := List.mem_filterMap.1 he
      cases i with
      | rule r => cases hx
      | expr f =>
        cases hx
        exact all _ hi
    · obtain ⟨r, hr, rfl⟩ := List.mem_map.1 he
      obtain ⟨i, hi, hx⟩ := List.mem_filterMap.1 hr
      cases i with
      | rule r' =>
        cases hx
        exact (all _ hi).2
      | expr f => cases hx
  · cases h

abbrev Filled (e : Expr) : Prop := e.Every Expr.Populated

/-- Every choice in a grammar that was read has an alternative. -/
theorem filled_of_read {source : List Char} {g : Grammar} (h : read source = .ok g) :
    ∀ e ∈ g.entry ++ g.rules.map Rule.body, Filled e := by
  refine every_of_read (closed_every (fun e other => ?_) fun as pos some_left _ => some_left) (yields_true _) h
  cases e with
  | choice as pos => exact absurd trivial other
  | _ => trivial

end Grammar
end TextGrammar
