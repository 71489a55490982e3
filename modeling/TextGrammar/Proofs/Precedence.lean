import TextGrammar.Proofs.Lexemes
import TextGrammar.Script.Function
set_option autoImplicit false

namespace TextGrammar.Script
open Parsing Parser Token

def Relation.sign : Relation → String
  | .eq => "=="
  | .ne => "!="
  | .lt => "<"
  | .le => "<="
  | .gt => ">"
  | .ge => ">="

def Relation.level : Relation → Nat
  | .eq | .ne => 2
  | .lt | .le | .gt | .ge => 3

def Operation.sign : Operation → String
  | .add => "+"
  | .sub => "-"
  | .mul => "*"
  | .div => "/"
  | .rem => "%"

def Operation.level : Operation → Nat
  | .add | .sub => 4
  | .mul | .div | .rem => 5

/-- How tightly the outermost operator of a term binds. A term without operators binds tightest. -/
def level : Term → Nat
  | .or _ _ => 0
  | .and _ _ => 1
  | .relate r _ _ => r.level
  | .operate o _ _ => o.level
  | .not _ | .negate _ => 6
  | .constant _ | .variable _ | .call _ _ => 7

/-- The tokens of an operand whose own operators should have at least the level `least`. -/
def grouped (least level : Nat) (ls : List Lexeme) : List Lexeme :=
  if least ≤ level then ls else .sign "(" :: ls ++ [.sign ")"]

def constantLexemes : Value → List Lexeme
  | .nil => [.name "nil"]
  | .bool b => [.name (if b then "true" else "false")]
  | .int n => [.number n.toInt.toNat]
  | .str s => [.text s]
  | .float _ => []

mutual

def lexemes : Term → List Lexeme
  | .constant v => constantLexemes v
  | .variable n => [.name n]
  | .call f xs => .name f :: .sign "(" :: argumentLexemes xs ++ [.sign ")"]
  | .not x => .sign "!" :: grouped 6 (level x) (lexemes x)
  | .negate x => .sign "-" :: grouped 6 (level x) (lexemes x)
  | .or x y => grouped 0 (level x) (lexemes x) ++ .sign "||" :: grouped 1 (level y) (lexemes y)
  | .and x y => grouped 1 (level x) (lexemes x) ++ .sign "&&" :: grouped 2 (level y) (lexemes y)
  | .relate r x y =>
    grouped r.level (level x) (lexemes x) ++ .sign r.sign :: grouped (r.level + 1) (level y) (lexemes y)
  | .operate o x y =>
    grouped o.level (level x) (lexemes x) ++ .sign o.sign :: grouped (o.level + 1) (level y) (lexemes y)

def argumentLexemes : List Term → List Lexeme
  | [] => []
  | x :: xs => lexemes x ++ furtherLexemes xs

def furtherLexemes : List Term → List Lexeme
  | [] => []
  | x :: xs => .sign "," :: lexemes x ++ furtherLexemes xs

end

/-- The terms that have a spelling: no float occurs in them, no negative constant, and no name that is a keyword. -/
inductive Plain : Term → Prop
  | nil : Plain (.constant .nil)
  | bool (b : Bool) : Plain (.constant (.bool b))
  | int {n : Int64} (h : 0 ≤ n) : Plain (.constant (.int n))
  | text (s : String) : Plain (.constant (.str s))
  | name {n : String} (h : IsName n) (free : n ∉ keywords) : Plain (.variable n)
  | call {f : String} {xs : List Term} (h : IsName f) (free : f ∉ keywords) (arguments : ∀ x ∈ xs, Plain x) :
    Plain (.call f xs)
  | not {x : Term} (h : Plain x) : Plain (.not x)
  | negate {x : Term} (h : Plain x) : Plain (.negate x)
  | and {x y : Term} (hx : Plain x) (hy : Plain y) : Plain (.and x y)
  | or {x y : Term} (hx : Plain x) (hy : Plain y) : Plain (.or x y)
  | relate (r : Relation) {x y : Term} (hx : Plain x) (hy : Plain y) : Plain (.relate r x y)
  | operate (o : Operation) {x y : Term} (hx : Plain x) (hy : Plain y) : Plain (.operate o x y)

/-- Nothing after a term goes on with an operator of at least the level `least`. -/
def Stops (least : Nat) (ls : List Lexeme) : Prop :=
  ∀ l ∈ ls.head?, l = .sign ")" ∨ l = .sign "," ∨ ∃ j ∈ joints, j.level < least ∧ l = .sign j.sign

variable {t x y : Term} {l : Lexeme} {ls after : List Lexeme} {cs mid rest : List Char} {depth least other : Nat}
    {j : Joint} {s : String}

theorem isName_of_mem_keywords (h : s ∈ keywords) : IsName s := by
  simp only [keywords, List.mem_cons, List.not_mem_nil, or_false] at h
  rcases h with rfl | rfl | rfl <;> exact ⟨_, _, rfl, by decide, forall_mem_of_all (by decide)⟩

theorem Spaced.append {cs' : List Char} {ls' : List Lexeme} (h : Spaced ls cs) (h' : Spaced ls' cs') :
    Spaced (ls ++ ls') (cs ++ cs') := by
  induction h with
  | nil => exact h'
  | blank blank _ ih => exact .blank blank ih
  | cons spells _ ih =>
    rw [List.append_assoc]
    exact .cons spells ih

theorem Spaced.single {text : List Char} (h : l.Spells text) : Spaced [l] text := by
  have spaced := Spaced.cons h .nil
  rwa [List.append_nil] at spaced

theorem Spaced.grouped (h : Spaced ls cs) : ∃ cs', Spaced (grouped least other ls) cs' := by
  unfold Script.grouped
  split
  · exact ⟨cs, h⟩
  · exact ⟨_, (Spaced.cons (.sign (by decide)) h).append (.single (.sign (by decide)))⟩

theorem Spaced.between {ls' : List Lexeme} {cs' : List Char} {least' other' : Nat} (hs : s ∈ signs) (h : Spaced ls cs)
    (h' : Spaced ls' cs') :
    ∃ text, Spaced (Script.grouped least other ls ++ .sign s :: Script.grouped least' other' ls') text := by
  obtain ⟨left, hleft⟩ := h.grouped
  obtain ⟨right, hright⟩ := h'.grouped
  exact ⟨_, hleft.append (.cons (.sign hs) hright)⟩

theorem exists_spaced_further {xs : List Term} (h : ∀ x ∈ xs, ∃ cs, Spaced (lexemes x) cs) :
    ∃ cs, Spaced (furtherLexemes xs) cs := by
  induction xs with
  | nil => exact ⟨[], .nil⟩
  | cons x xs ih =>
    obtain ⟨first, hfirst⟩ := h x List.mem_cons_self
    obtain ⟨others, hothers⟩ := ih fun y hy => h y (List.mem_cons_of_mem _ hy)
    rw [furtherLexemes]
    exact ⟨_, (Spaced.cons (.sign (by decide)) hfirst).append hothers⟩

theorem exists_spaced_arguments {xs : List Term} (h : ∀ x ∈ xs, ∃ cs, Spaced (lexemes x) cs) :
    ∃ cs, Spaced (argumentLexemes xs) cs := by
  cases xs with
  | nil => exact ⟨[], .nil⟩
  | cons x xs =>
    obtain ⟨first, hfirst⟩ := h x List.mem_cons_self
    obtain ⟨others, hothers⟩ := exists_spaced_further fun y hy => h y (List.mem_cons_of_mem _ hy)
    rw [argumentLexemes]
    exact ⟨_, hfirst.append hothers⟩

theorem Plain.exists_spaced (h : Plain t) : ∃ cs, Spaced (lexemes t) cs := by
  induction h with
  | nil => exact ⟨_, .single (.name (isName_of_mem_keywords (by decide)))⟩
  | bool b => exact ⟨_, .single (.name (isName_of_mem_keywords (by cases b <;> decide)))⟩
  | int _ => exact ⟨_, .single (.number _)⟩
  | text s => exact ⟨_, .single (.text s (by decide) (escaping_needed '"' (by decide)))⟩
  | name hn _ =>
    rw [lexemes]
    exact ⟨_, .single (.name hn)⟩
  | call hf _ _ ih =>
    obtain ⟨cs, spaced⟩ := exists_spaced_arguments ih
    rw [lexemes]
    exact ⟨_, (Spaced.cons (.name hf) (.cons (.sign (by decide)) spaced)).append (.single (.sign (by decide)))⟩
  | not _ ih | negate _ ih =>
    obtain ⟨cs, spaced⟩ := ih
    obtain ⟨cs', spaced⟩ := spaced.grouped
    rw [lexemes]
    exact ⟨_, .cons (.sign (by decide)) spaced⟩
  | and _ _ ihx ihy | or _ _ ihx ihy =>
    rw [lexemes]
    exact ihx.choose_spec.between (by decide) ihy.choose_spec
  | relate r _ _ ihx ihy =>
    rw [lexemes]
    exact ihx.choose_spec.between (by cases r <;> decide) ihy.choose_spec
  | operate o _ _ ihx ihy =>
    rw [lexemes]
    exact ihx.choose_spec.between (by cases o <;> decide) ihy.choose_spec

theorem stops_nil : Stops least [] := nofun

theorem Stops.mono (h : Stops least after) (le : least ≤ other) : Stops other after := by
  intro l hl
  obtain h | h | ⟨j, hj, lt, h⟩ := h l hl
  · exact Or.inl h
  · exact Or.inr (Or.inl h)
  · exact Or.inr (Or.inr ⟨j, hj, Nat.lt_of_lt_of_le lt le, h⟩)

theorem level_lt_of_mem (h : j ∈ joints) : j.level < prefixLevel := by
  have all : ∀ j ∈ joints, j.level < prefixLevel := by decide
  exact all j h

theorem Stops.loosest (h : Stops least after) : Stops prefixLevel after := by
  intro l hl
  obtain h | h | ⟨j, hj, -, h⟩ := h l hl
  · exact Or.inl h
  · exact Or.inr (Or.inl h)
  · exact Or.inr (Or.inr ⟨j, hj, level_lt_of_mem hj, h⟩)

theorem stops_joint (hj : j ∈ joints) (lt : j.level < least) : Stops least (.sign j.sign :: after) := by
  rintro l ⟨⟩
  exact Or.inr (Or.inr ⟨j, hj, lt, rfl⟩)

theorem stops_close : Stops least (.sign ")" :: after) := by
  rintro l ⟨⟩
  exact Or.inl rfl

theorem stops_comma : Stops least (.sign "," :: after) := by
  rintro l ⟨⟩
  exact Or.inr (Or.inl rfl)

theorem sign_mem_of_mem (h : j ∈ joints) : j.sign ∈ signs := by
  have all : ∀ j ∈ joints, j.sign ∈ signs := by decide
  exact all j h

theorem Stops.sign (h : Stops least (l :: after)) : ∃ s ∈ signs, l = .sign s ∧ s.toList.head? ≠ some '(' := by
  obtain rfl | rfl | ⟨j, hj, -, rfl⟩ := h l rfl
  · exact ⟨_, by decide, rfl, by decide⟩
  · exact ⟨_, by decide, rfl, by decide⟩
  · have all : ∀ j ∈ joints, j.sign.toList.head? ≠ some '(' := by decide
    exact ⟨_, sign_mem_of_mem hj, rfl, all j hj⟩

theorem Stops.next (h : Stops least after) (spaced : Spaced after rest) :
    ∀ c ∈ rest.head?, isNameChar c = false ∧ c ≠ '.' := by
  refine spaced.next fun l hl => ?_
  obtain ⟨more, rfl⟩ := List.head?_eq_some_iff.1 hl
  obtain ⟨s, -, hs, -⟩ := h.sign
  exact ⟨s, hs⟩

theorem Stops.not_open (h : Stops least after) (fresh : Fresh after rest) : Refuses (word "(") rest := by
  cases after with
  | nil =>
    obtain rfl := fresh
    exact fun _ => rfl
  | cons l after =>
    obtain ⟨s, hs, rfl, other⟩ := h.sign
    obtain ⟨text, rest, spells, -, rfl⟩ := fresh
    cases spells
    obtain ⟨c, cs, text, -⟩ := sign_head hs
    rw [text] at other ⊢
    exact refuses_word_of_head rfl fun e => other (by rw [e]; rfl)

/-- One of two operators that come in this order in the table: they differ in their first characters, or the first is the
second with an equals sign. -/
def Apart (j k : Joint) : Prop :=
  j.sign.toList.head? ≠ k.sign.toList.head? ∨ j.sign.toList = k.sign.toList ++ ['=']

theorem joints_apart : joints.Pairwise Apart := by
  unfold Apart
  decide

def turn (operand : Nat → Parser Term) (x : Term) (j : Joint) : Parser Term := do
  spaces
  word j.sign
  spaces
  let y ← operand (j.level + 1)
  return j.build x y

theorem refuses_joined {operand : Nat → Parser Term} {js : List Joint} (h : ∀ j ∈ js, Refuses (turn operand x j) cs) :
    Refuses (joined operand x js) cs := by
  induction js with
  | nil => exact refuses_fail
  | cons j js ih => exact Refuses.or (h j List.mem_cons_self) (ih fun k hk => h k (List.mem_cons_of_mem _ hk))

theorem takes_joined {operand : Nat → Parser Term} {P : Term → Prop} {before behind : List Joint}
    (refuses : ∀ k ∈ before, Refuses (turn operand x k) cs) (takes : Takes (turn operand x j) cs rest P) :
    Takes (joined operand x (before ++ j :: behind)) cs rest P := by
  induction before with
  | nil => exact Takes.orElse takes
  | cons k before ih =>
    exact Refuses.orElse (refuses k List.mem_cons_self) (ih fun k hk => refuses k (List.mem_cons_of_mem _ hk))

theorem refuses_turn {operand : Nat → Parser Term} (gap : Takes spaces cs mid fun _ => True)
    (h : ¬ j.sign.toList <+: mid) :
    Refuses (turn operand x j) cs :=
  gap.refuses fun _ _ => (refuses_word h).bind

theorem not_leading_of_head {w v : List Char} (hw : w ≠ []) (hv : v ≠ []) (h : w.head? ≠ v.head?) :
    ¬ w <+: v ++ cs := by
  obtain ⟨c, w, rfl⟩ := List.exists_cons_of_ne_nil hw
  obtain ⟨d, v, rfl⟩ := List.exists_cons_of_ne_nil hv
  intro found
  exact h (congrArg some (List.cons_prefix_cons.1 found).1)

theorem sign_ne_nil (h : s ∈ signs) : s.toList ≠ [] := by
  obtain ⟨c, cs, text, -⟩ := sign_head h
  rw [text]
  exact List.cons_ne_nil c cs

theorem Apart.not_leading {k : Joint} (h : Apart j k) (hj : j ∈ joints) (hk : k ∈ joints) (next : cs.head? ≠ some '=') :
    ¬ j.sign.toList <+: k.sign.toList ++ cs := by
  rcases h with h | h
  · exact not_leading_of_head (sign_ne_nil (sign_mem_of_mem hj)) (sign_ne_nil (sign_mem_of_mem hk)) h
  · rw [h, List.prefix_append_right_inj]
    rintro ⟨more, rfl⟩
    exact next rfl

theorem head_ne_of_level_lt {k : Joint} (hj : j ∈ joints) (hk : k ∈ joints) (lt : k.level < j.level) :
    j.sign.toList.head? ≠ k.sign.toList.head? := by
  have all : ∀ j ∈ joints, ∀ k ∈ joints, k.level < j.level → j.sign.toList.head? ≠ k.sign.toList.head? := by decide
  exact all j hj k hk lt

theorem Stops.refuses_joined {operand : Nat → Parser Term} (h : Stops least after) (spaced : Spaced after cs) :
    Refuses (joined operand x (joints.filter (least ≤ ·.level))) cs := by
  obtain ⟨mid, fresh, gap⟩ := spaced.takes_spaces
  refine Script.refuses_joined fun j hj => refuses_turn gap ?_
  obtain ⟨hj, tight⟩ := List.mem_filter.1 hj
  have nonempty := sign_ne_nil (sign_mem_of_mem hj)
  cases after with
  | nil =>
    obtain rfl := fresh
    rwa [List.prefix_nil]
  | cons l after =>
    obtain ⟨text, rest, spells, -, rfl⟩ := fresh
    have plain : ∀ j ∈ joints, j.sign.toList.head? ≠ some ')' ∧ j.sign.toList.head? ≠ some ',' := by decide
    obtain rfl | rfl | ⟨k, hk, loose, rfl⟩ := h l rfl
    · cases spells
      exact not_leading_of_head nonempty (by decide) (plain j hj).1
    · cases spells
      exact not_leading_of_head nonempty (by decide) (plain j hj).2
    · cases spells
      refine not_leading_of_head nonempty (sign_ne_nil (sign_mem_of_mem hk)) (head_ne_of_level_lt hj hk ?_)
      exact Nat.lt_of_lt_of_le loose (of_decide_eq_true tight)

/-- The operators that come before one in the table are not read in its place. -/
theorem takes_operator {operand : Nat → Parser Term} {P : Term → Prop} {mid' : List Char} (hj : j ∈ joints)
    (tight : least ≤ j.level) (gap : Takes spaces cs (j.sign.toList ++ mid) fun _ => True) (next : mid.head? ≠ some '=')
    (gap' : Takes spaces mid mid' fun _ => True) (right : Takes (operand (j.level + 1)) mid' rest P) :
    Takes (joined operand x (joints.filter (least ≤ ·.level))) cs rest fun t => ∃ y, t = j.build x y ∧ P y := by
  have hf : j ∈ joints.filter (least ≤ ·.level) := List.mem_filter.2 ⟨hj, decide_eq_true tight⟩
  obtain ⟨before, behind, split⟩ := List.append_of_mem hf
  have apart : ∀ k ∈ before, Apart k j ∧ k ∈ joints := by
    intro k hk
    have pairs := joints_apart.filter (least ≤ ·.level)
    rw [split] at pairs
    refine ⟨(List.pairwise_append.1 pairs).2.2 k hk j List.mem_cons_self, ?_⟩
    exact (List.mem_filter.1 (split ▸ List.mem_append_left _ hk)).1
  rw [split]
  refine takes_joined (fun k hk => refuses_turn gap ?_) ?_
  · exact (apart k hk).1.not_leading (apart k hk).2 hj next
  · refine gap.bind fun _ _ => (takes_word j.sign).bind fun _ _ => ?_
    exact gap'.bind fun _ _ => right.bind fun y hy => takes_pure ⟨y, rfl, hy⟩

def Opening (ls : List Lexeme) : Prop :=
  ∃ l more, ls = l :: more ∧ (∀ s, l = .sign s → s ∈ ["(", "!", "-"]) ∧
    ((∃ n, l = .name n) → ∀ l' ∈ more.head?, ∃ s, l' = .sign s)

theorem opening_sign (h : s ∈ ["(", "!", "-"]) : Opening (.sign s :: ls) := by
  refine ⟨_, _, rfl, ?_, ?_⟩
  · rintro _ ⟨⟩
    exact h
  · rintro ⟨n, ⟨⟩⟩

theorem opening_single (h : ∀ s, l ≠ .sign s) : Opening [l] := ⟨_, _, rfl, fun s e => absurd e (h s), fun _ => nofun⟩

theorem Opening.append (h : Opening ls) : Opening (ls ++ .sign s :: after) := by
  obtain ⟨l, more, rfl, sign, name⟩ := h
  refine ⟨l, _, rfl, sign, fun hn => ?_⟩
  cases more with
  | nil =>
    rintro l' ⟨⟩
    exact ⟨s, rfl⟩
  | cons l' more => exact name hn

theorem Opening.grouped (h : Opening ls) : Opening (grouped least other ls) := by
  unfold Script.grouped
  split
  · exact h
  · exact opening_sign (by decide)

theorem Plain.opening (h : Plain t) : Opening (lexemes t) := by
  induction h with
  | nil | bool _ | int _ | text _ | name _ _ =>
    rw [lexemes]
    exact opening_single nofun
  | call _ _ _ _ =>
    rw [lexemes]
    exact (opening_single (l := .name _) nofun).append
  | not _ _ | negate _ _ =>
    rw [lexemes]
    exact opening_sign (by decide)
  | and _ _ ih _ | or _ _ ih _ | relate _ _ _ ih _ | operate _ _ _ ih _ =>
    rw [lexemes]
    exact ih.grouped.append

theorem Lexeme.Spells.head_ne {text : List Char} (h : l.Spells text) (sign : ∀ s, l = .sign s → s ∈ ["(", "!", "-"]) :
    text.head? ≠ some '=' := by
  cases h with
  | sign _ =>
    have all : ∀ s ∈ ["(", "!", "-"], s.toList.head? ≠ some '=' := by decide
    exact all _ (sign _ rfl)
  | name h =>
    obtain ⟨c, cs, hs, start, -⟩ := h
    rw [hs]
    rintro ⟨⟩
    exact absurd start (by decide)
  | number n =>
    obtain ⟨c, cs, hcs⟩ := List.exists_cons_of_ne_nil (Nat.toDigits_ne_nil (b := 10) (n := n))
    have digit : Decimal.isDigit c = true := isDigit_of_mem_toDigits c (hcs ▸ List.mem_cons_self)
    rw [hcs]
    rintro ⟨⟩
    exact absurd digit (by decide)
  | text s h _ =>
    rintro ⟨⟩
    exact absurd h (by decide)

theorem Opening.head_ne (h : Opening ls) (spaced : Spaced (ls ++ after) cs) : cs.head? ≠ some '=' := by
  obtain ⟨l, more, rfl, sign, -⟩ := h
  cases spaced with
  | blank blank _ =>
    rintro ⟨⟩
    exact absurd blank (by decide)
  | cons spells _ =>
    have other := spells.head_ne sign
    obtain ⟨c, cs, rfl, -⟩ := spells.head
    exact other

/-- The tokens `ls` are read as the term `t`, and then it goes on with the operators behind them; `turns` of them have
been read on the way. -/
def Opens (t : Term) (ls : List Lexeme) (depth least : Nat) (after : List Lexeme) : Prop :=
  ∀ cs, Fresh (ls ++ after) cs → ∃ turns mid, turns < ls.length ∧ Spaced after mid ∧
    ∀ count rest (P : Term → Prop), Takes (extended (termAt depth) least count t) mid rest P →
      Takes (do let x ← unary (termAt depth); extended (termAt depth) least (turns + count) x) cs rest P

def Reads (t : Term) : Prop :=
  ∀ depth least after, least ≤ level t ∨ prefixLevel ≤ level t → (lexemes t).length ≤ depth →
    Stops (level t + 1) after → Opens t (lexemes t) depth least after

theorem takes_extended (h : Stops least after) (spaced : Spaced after cs) (count : Nat) :
    Takes (extended (termAt depth) least count x) cs cs (· = x) := by
  cases count with
  | zero => exact takes_pure rfl
  | succ count =>
    refine (h.refuses_joined spaced).optional.bind ?_
    rintro _ rfl
    exact takes_pure rfl

theorem Opens.takes (h : Opens t ls depth least after) (enough : ls.length ≤ depth) (stops : Stops least after)
    (fresh : Fresh (ls ++ after) cs) :
    ∃ rest, Spaced after rest ∧ Takes (termAt (depth + 1) least) cs rest (· = t) := by
  obtain ⟨turns, rest, few, spaced, go⟩ := h cs fresh
  refine ⟨rest, spaced, ?_⟩
  have whole := go (depth - turns) rest (· = t) (takes_extended stops spaced _)
  rwa [Nat.add_sub_of_le (by omega)] at whole

/-- Nothing but operators is read behind a prefix operator with its operand, and behind an atom. -/
theorem opens_of_unary (nonempty : ls ≠ [])
    (h : ∀ cs, Fresh (ls ++ after) cs → ∃ rest, Spaced after rest ∧ Takes (unary (termAt depth)) cs rest (· = t)) :
    Opens t ls depth least after := by
  intro cs fresh
  obtain ⟨mid, spaced, takes⟩ := h cs fresh
  refine ⟨0, mid, List.length_pos_iff.2 nonempty, spaced, fun count rest P more => ?_⟩
  rw [Nat.zero_add]
  refine takes.bind ?_
  rintro _ rfl
  exact more

theorem takes_unary_of_atom {operand : Nat → Parser Term} {P : Term → Prop} {c : Char} (bang : c ≠ '!') (dash : c ≠ '-')
    (h : Takes (atom (operand 0)) (c :: cs) rest P) : Takes (unary operand) (c :: cs) rest P :=
  Refuses.orElse (Refuses.bind (refuses_word_of_head rfl bang))
    (Refuses.orElse (Refuses.bind (refuses_word_of_head rfl dash)) h)

theorem takes_parenthesized {operand : Nat → Parser Term} (fresh : Fresh (.sign "(" :: (ls ++ .sign ")" :: after)) cs)
    (inner : ∀ cs, Fresh (ls ++ .sign ")" :: after) cs →
      ∃ rest, Spaced (.sign ")" :: after) rest ∧ Takes (operand 0) cs rest (· = t)) :
    ∃ rest, Spaced after rest ∧ Takes (unary operand) cs rest (· = t) := by
  obtain ⟨text, mid, spells, spaced, rfl⟩ := fresh
  cases spells
  obtain ⟨mid', fresh', gap⟩ := spaced.takes_spaces
  obtain ⟨back, close, takes⟩ := inner mid' fresh'
  obtain ⟨back', rest, more, gap', closes⟩ := close.takes_sign
  refine ⟨rest, more, takes_unary_of_atom (by decide) (by decide) (Takes.orElse ?_)⟩
  refine (takes_word "(").bind fun _ _ => gap.bind fun _ _ => takes.bind ?_
  rintro _ rfl
  exact gap'.bind fun _ _ => closes.bind fun _ _ => takes_pure rfl

theorem Reads.takes_term (h : Reads t) (enough : (lexemes t).length ≤ depth) (stops : Stops 0 after)
    (fresh : Fresh (lexemes t ++ after) cs) : ∃ rest, Spaced after rest ∧ Takes (term (depth + 1)) cs rest (· = t) :=
  (h depth 0 after (Or.inl (Nat.zero_le _)) enough (stops.mono (Nat.zero_le _))).takes enough stops fresh

theorem opens_grouped (h : Reads t) (hleast : least ≤ other ∨ prefixLevel ≤ other)
    (enough : (grouped other (level t) (lexemes t)).length ≤ depth) (stops : Stops (other + 1) after) :
    Opens t (grouped other (level t) (lexemes t)) depth least after := by
  unfold grouped at enough ⊢
  split at enough
  · rename_i le
    rw [if_pos le]
    refine h depth least after ?_ enough (stops.mono (Nat.succ_le_succ le))
    exact hleast.imp (Nat.le_trans · le) (Nat.le_trans · le)
  · rename_i lt
    rw [if_neg lt]
    obtain _ | depth := depth
    · simp at enough
    have inside : (lexemes t).length ≤ depth := by
      simp only [List.length_append, List.length_cons, List.length_nil] at enough
      omega
    refine opens_of_unary (List.cons_ne_nil _ _) fun cs fresh => ?_
    have fresh' : Fresh (.sign "(" :: (lexemes t ++ .sign ")" :: after)) cs := by simpa using fresh
    refine takes_parenthesized fresh' fun cs fresh => ?_
    exact h.takes_term inside stops_close fresh

theorem Reads.takes (h : Reads t) (hleast : least ≤ other ∨ prefixLevel ≤ other)
    (enough : (grouped other (level t) (lexemes t)).length ≤ depth) (stops : Stops least after)
    (fresh : Fresh (grouped other (level t) (lexemes t) ++ after) cs) :
    ∃ rest, Spaced after rest ∧ Takes (termAt (depth + 1) least) cs rest (· = t) := by
  have stops' : Stops (other + 1) after := by
    rcases hleast with le | le
    · exact stops.mono (Nat.le_succ_of_le le)
    · exact stops.loosest.mono (Nat.le_succ_of_le le)
  exact (opens_grouped h hleast enough stops').takes enough stops fresh

theorem reads_joint (hj : j ∈ joints) (hlevel : level (j.build x y) = j.level)
    (hlexemes : lexemes (j.build x y) =
      grouped j.level (level x) (lexemes x) ++ .sign j.sign :: grouped (j.level + 1) (level y) (lexemes y))
    (opening : Opening (lexemes y)) (hx : Reads x) (hy : Reads y) : Reads (j.build x y) := by
  intro depth least after hleast enough stops cs fresh
  have lt : j.level < prefixLevel := level_lt_of_mem hj
  have loose : least ≤ j.level := by omega
  rw [hlexemes] at enough fresh ⊢
  rw [hlevel] at stops
  have total := enough
  rw [List.length_append, List.length_cons] at total
  rw [List.append_assoc] at fresh
  have left_enough : (grouped j.level (level x) (lexemes x)).length ≤ depth := by omega
  obtain ⟨turns, mid, few, spaced, left⟩ :=
    opens_grouped hx (Or.inl loose) left_enough (stops_joint hj (Nat.lt_succ_self _)) cs fresh
  obtain ⟨mid', ⟨text, tail, spells, spaced', rfl⟩, gap⟩ := spaced.takes_spaces
  cases spells
  obtain ⟨tail', fresh', gap'⟩ := spaced'.takes_spaces
  obtain _ | depth := depth
  · omega
  have right_enough : (grouped (j.level + 1) (level y) (lexemes y)).length ≤ depth := by omega
  obtain ⟨rest, spaced'', right⟩ := hy.takes (Or.inl (Nat.le_refl _)) right_enough stops fresh'
  refine ⟨turns + 1, rest, ?_, spaced'', fun count rest' P more => ?_⟩
  · rw [List.length_append, List.length_cons]
    omega
  rw [Nat.add_assoc, Nat.add_comm 1 count]
  refine left (count + 1) rest' P ?_
  have operator := takes_operator (x := x) hj loose gap (opening.grouped.head_ne spaced') gap' right
  refine operator.optional.bind ?_
  rintro _ ⟨_, rfl, y', rfl, rfl⟩
  exact more

def prefixed (sign : String) (build : Term → Term) (operand : Nat → Parser Term) : Parser Term := do
  word sign
  spaces
  let x ← operand (prefixLevel + 1)
  return build x

theorem Reads.takes_prefixed {build : Term → Term} (hx : Reads x)
    (enough : (Lexeme.sign s :: grouped prefixLevel (level x) (lexemes x)).length ≤ depth)
    (stops : Stops (prefixLevel + 1) after)
    (fresh : Fresh (.sign s :: grouped prefixLevel (level x) (lexemes x) ++ after) cs) :
    ∃ mid rest, cs = s.toList ++ mid ∧ Spaced after rest ∧
      Takes (prefixed s build (termAt depth)) cs rest (· = build x) := by
  obtain ⟨text, mid, spells, spaced, rfl⟩ := fresh
  cases spells
  obtain ⟨mid', fresh', gap⟩ := spaced.takes_spaces
  obtain _ | depth := depth
  · cases enough
  obtain ⟨rest, spaced', operand⟩ := hx.takes (Or.inr (Nat.le_refl _)) (Nat.le_of_succ_le_succ enough) stops fresh'
  refine ⟨mid, rest, rfl, spaced', (takes_word s).bind fun _ _ => gap.bind fun _ _ => operand.bind ?_⟩
  rintro _ rfl
  exact takes_pure rfl

theorem reads_not (hx : Reads x) : Reads (.not x) := by
  intro depth least after _ enough stops
  rw [lexemes] at enough ⊢
  refine opens_of_unary (List.cons_ne_nil _ _) fun cs fresh => ?_
  obtain ⟨mid, rest, rfl, spaced, takes⟩ := hx.takes_prefixed enough stops fresh
  exact ⟨rest, spaced, Takes.orElse takes⟩

theorem reads_negate (hx : Reads x) : Reads (.negate x) := by
  intro depth least after _ enough stops
  rw [lexemes] at enough ⊢
  refine opens_of_unary (List.cons_ne_nil _ _) fun cs fresh => ?_
  obtain ⟨mid, rest, rfl, spaced, takes⟩ := hx.takes_prefixed enough stops fresh
  exact ⟨rest, spaced, Refuses.orElse (Refuses.bind (refuses_word_of_head rfl (by decide))) (Takes.orElse takes)⟩

theorem reads_atom
    (h : ∀ depth after cs, (lexemes t).length ≤ depth → Stops (level t + 1) after → Fresh (lexemes t ++ after) cs →
      (∃ c more, cs = c :: more ∧ c ≠ '!' ∧ c ≠ '-') ∧
        ∃ rest, Spaced after rest ∧ Takes (atom (termAt depth 0)) cs rest (· = t))
    (nonempty : lexemes t ≠ []) : Reads t := by
  intro depth least after _ enough stops
  refine opens_of_unary nonempty fun cs fresh => ?_
  obtain ⟨⟨c, more, rfl, bang, dash⟩, rest, spaced, takes⟩ := h depth after cs enough stops fresh
  exact ⟨rest, spaced, takes_unary_of_atom bang dash takes⟩

theorem reads_int {n : Int64} (h : 0 ≤ n) : Reads (.constant (.int n)) := by
  refine reads_atom (fun depth after cs _ stops fresh => ?_) (by simp [lexemes, constantLexemes])
  rw [lexemes] at fresh
  obtain ⟨text, rest, spells, spaced, rfl⟩ := fresh
  cases spells
  obtain ⟨c, ds, hds⟩ := List.exists_cons_of_ne_nil (Nat.toDigits_ne_nil (b := 10) (n := n.toInt.toNat))
  have digit : Decimal.isDigit c = true := isDigit_of_mem_toDigits c (hds ▸ List.mem_cons_self)
  have other : ∀ d, Decimal.isDigit d = false → c ≠ d := by
    rintro d hd rfl
    rw [digit] at hd
    cases hd
  refine ⟨⟨c, ds ++ rest, by rw [hds]; rfl, other _ (by decide), other _ (by decide)⟩, rest, spaced, ?_⟩
  have stop : ∀ c ∈ rest.head?, Decimal.isDigit c = false ∧ c ≠ '.' := by
    intro c hc
    obtain ⟨name, point⟩ := stops.next spaced c hc
    rw [isNameChar, Bool.or_eq_false_iff] at name
    exact ⟨name.2, point⟩
  have open_refused : Refuses (word "(") (Nat.toDigits 10 n.toInt.toNat ++ rest) := by
    rw [hds]
    exact refuses_word_of_head rfl (other _ (by decide))
  refine Refuses.orElse open_refused.bind (Takes.orElse ((takes_number h stop).bind ?_))
  rintro _ rfl
  exact takes_pure rfl

theorem reads_text (s : String) : Reads (.constant (.str s)) := by
  refine reads_atom (fun depth after cs _ stops fresh => ?_) (by simp [lexemes, constantLexemes])
  rw [lexemes] at fresh
  obtain ⟨text, rest, spells, spaced, rfl⟩ := fresh
  cases spells with
  | @text _ quote _ hq escaping =>
  have other : ∀ d, d ∉ quotes → quote ≠ d := by
    rintro d hd rfl
    exact hd hq
  have digit : Decimal.isDigit quote = false := (plain_of_quote hq).1
  refine ⟨⟨quote, _, rfl, other _ (by decide), other _ (by decide)⟩, rest, spaced, ?_⟩
  refine Refuses.orElse (Refuses.bind (refuses_word_of_head rfl (other _ (by decide)))) ?_
  refine Refuses.orElse (Refuses.bind (refuses_number ?_)) (Takes.orElse ((takes_stringConstant hq escaping).bind ?_))
  · rintro c ⟨⟩
    exact digit
  · rintro _ rfl
    exact takes_pure rfl

def named (term : Parser Term) : Parser Term :=
  (do keyword "true"; return .constant (.bool true))
  <|> (do keyword "false"; return .constant (.bool false))
  <|> (do keyword "nil"; return .constant .nil)
  <|> (do
    let f ← identifier
    spaces
    word "("
    spaces
    let arguments ← sepBy term (do spaces; word ","; spaces)
    spaces
    word ")"
    return .call f arguments)
  <|> (do let n ← identifier; return .variable n)

theorem reads_named {n : String} {more : List Lexeme} (h : IsName n) (hlexemes : lexemes t = .name n :: more)
    (takes : ∀ depth after rest, (lexemes t).length ≤ depth → Stops (level t + 1) after → Spaced (more ++ after) rest →
      ∃ rest', Spaced after rest' ∧ Takes (named (termAt depth 0)) (n.toList ++ rest) rest' (· = t)) : Reads t := by
  refine reads_atom (fun depth after cs enough stops fresh => ?_) (by rw [hlexemes]; exact List.cons_ne_nil _ _)
  rw [hlexemes] at fresh
  obtain ⟨text, rest, spells, spaced, rfl⟩ := fresh
  cases spells
  obtain ⟨rest', spaced', takes⟩ := takes depth after rest enough stops spaced
  obtain ⟨c, cs, text, start, -⟩ := h
  have other : ∀ d, isNameStart d = false → c ≠ d := by
    rintro d hd rfl
    rw [start] at hd
    cases hd
  rw [text] at takes ⊢
  refine ⟨⟨c, _, rfl, other _ (by decide), other _ (by decide)⟩, rest', spaced', ?_⟩
  refine Refuses.orElse (Refuses.bind (refuses_word_of_head rfl (other _ (by decide)))) ?_
  refine Refuses.orElse (Refuses.bind (refuses_number ?_))
    (Refuses.orElse (Refuses.bind (refuses_stringConstant ?_)) takes)
  · rintro d ⟨⟩
    exact isDigit_of_isNameStart start
  · rintro d ⟨⟩ quote
    rw [(plain_of_quote quote).2.1] at start
    cases start

theorem reads_bool (b : Bool) : Reads (.constant (.bool b)) := by
  cases b with
  | true =>
    refine reads_named (isName_of_mem_keywords (by decide)) rfl fun depth after rest _ stops spaced =>
      ⟨rest, spaced, ?_⟩
    exact Takes.orElse ((takes_keyword fun c hc => (stops.next spaced c hc).1).bind fun _ _ => takes_pure rfl)
  | false =>
    have name : IsName "false" := isName_of_mem_keywords (by decide)
    refine reads_named name rfl fun depth after rest _ stops spaced => ⟨rest, spaced, ?_⟩
    have stop := fun c hc => (stops.next spaced c hc).1
    refine Refuses.orElse (refuses_keyword (forall_mem_of_all (by decide)) name (by decide) stop).bind ?_
    exact Takes.orElse ((takes_keyword stop).bind fun _ _ => takes_pure rfl)

theorem reads_nil : Reads (.constant .nil) := by
  have name : IsName "nil" := isName_of_mem_keywords (by decide)
  refine reads_named name rfl fun depth after rest _ stops spaced => ⟨rest, spaced, ?_⟩
  have stop := fun c hc => (stops.next spaced c hc).1
  refine Refuses.orElse (refuses_keyword (forall_mem_of_all (by decide)) name (by decide) stop).bind ?_
  refine Refuses.orElse (refuses_keyword (forall_mem_of_all (by decide)) name (by decide) stop).bind ?_
  exact Takes.orElse ((takes_keyword stop).bind fun _ _ => takes_pure rfl)

def applied (term : Parser Term) : Parser Term :=
  (do
    let f ← identifier
    spaces
    word "("
    spaces
    let arguments ← sepBy term (do spaces; word ","; spaces)
    spaces
    word ")"
    return .call f arguments)
  <|> (do let n ← identifier; return .variable n)

/-- No keyword stands where another name does. -/
theorem takes_named_of_applied {n : String} {term : Parser Term} {P : Term → Prop} (h : IsName n) (free : n ∉ keywords)
    (stop : ∀ c ∈ rest.head?, isNameChar c = false) {rest' : List Char}
    (takes : Takes (applied term) (n.toList ++ rest) rest' P) : Takes (named term) (n.toList ++ rest) rest' P := by
  have refused : ∀ w ∈ keywords, Refuses (keyword w) (n.toList ++ rest) := by
    intro w hw
    have chars : ∀ w ∈ keywords, w.toList.all isNameChar = true := by decide
    exact refuses_keyword (List.all_eq_true.1 (chars w hw)) h (fun e => free (e ▸ hw)) stop
  refine Refuses.orElse (refused _ (by decide)).bind (Refuses.orElse (refused _ (by decide)).bind ?_)
  exact Refuses.orElse (refused _ (by decide)).bind takes

theorem reads_variable {n : String} (h : IsName n) (free : n ∉ keywords) : Reads (.variable n) := by
  have tokens : lexemes (.variable n) = .name n :: [] := by rw [lexemes]
  refine reads_named h tokens fun depth after rest _ stops spaced => ⟨rest, spaced, ?_⟩
  have stop := fun c hc => (stops.next spaced c hc).1
  have name := takes_identifier h stop
  obtain ⟨mid, fresh, gap⟩ := spaced.takes_spaces
  refine takes_named_of_applied h free stop (Refuses.orElse ?_ ?_)
  · exact name.refuses fun _ _ => gap.refuses fun _ _ => (stops.not_open fresh).bind
  · refine name.bind ?_
    rintro _ rfl
    exact takes_pure rfl

theorem stops_arguments (xs : List Term) : Stops least (furtherLexemes xs ++ .sign ")" :: after) := by
  cases xs with
  | nil => exact stops_close
  | cons x xs =>
    rw [furtherLexemes]
    exact stops_comma

theorem length_le_furtherLexemes (xs : List Term) : xs.length ≤ (furtherLexemes xs).length := by
  induction xs with
  | nil => exact Nat.le_refl 0
  | cons x xs ih =>
    rw [furtherLexemes, List.length_cons, List.length_append, List.length_cons]
    omega

theorem refuses_term_close (fresh : Fresh (.sign ")" :: after) cs) : Refuses (term depth) cs := by
  obtain ⟨text, rest, spells, -, rfl⟩ := fresh
  cases spells
  cases depth with
  | zero => exact refuses_fail
  | succ depth =>
    have no_word {c : Char} {w : String} {ws : List Char} (hw : w.toList = c :: ws) (h : ')' ≠ c) :
        Refuses (word w) (')' :: rest) := refuses_word_of_head hw h
    have no_name : Refuses identifier (')' :: rest) := refuses_identifier (by rintro c ⟨⟩; decide)
    have no_number : Refuses number (')' :: rest) := refuses_number (by rintro c ⟨⟩; decide)
    have no_text : Refuses stringConstant (')' :: rest) := refuses_stringConstant (by rintro c ⟨⟩; decide)
    have no_applied : Refuses (applied (termAt depth 0)) (')' :: rest) := no_name.bind.or no_name.bind
    have no_named : Refuses (named (termAt depth 0)) (')' :: rest) :=
      Refuses.or (no_word rfl (by decide)).bind.bind (Refuses.or (no_word rfl (by decide)).bind.bind
        (Refuses.or (no_word rfl (by decide)).bind.bind no_applied))
    have no_atom : Refuses (atom (termAt depth 0)) (')' :: rest) :=
      Refuses.or (no_word rfl (by decide)).bind (no_number.bind.or (no_text.bind.or no_named))
    exact Refuses.bind (Refuses.or (no_word rfl (by decide)).bind (Refuses.or (no_word rfl (by decide)).bind no_atom))

theorem loops_arguments {xs : List Term} (h : ∀ x ∈ xs, Reads x) (enough : (furtherLexemes xs).length ≤ depth)
    (spaced : Spaced (furtherLexemes xs ++ .sign ")" :: after) cs) :
    ∃ rest, Spaced (.sign ")" :: after) rest ∧
      Loops (do let _ ← (do spaces; word ","; spaces : Parser Unit); term (depth + 1)) xs.length cs rest (· = xs) := by
  induction xs generalizing cs with
  | nil =>
    have close : Spaced (.sign ")" :: after) cs := spaced
    obtain ⟨mid, fresh, gap⟩ := close.takes_spaces
    obtain ⟨text, rest, spells, -, rfl⟩ := fresh
    cases spells
    refine ⟨cs, spaced, Refuses.loops ?_⟩
    exact (gap.refuses fun _ _ => (refuses_word_of_head rfl (by decide)).bind).bind
  | cons x xs ih =>
    rw [furtherLexemes, List.length_append, List.length_cons] at enough
    rw [furtherLexemes, List.append_assoc, List.cons_append] at spaced
    obtain ⟨mid, back, spaced, gap, comma⟩ := spaced.takes_sign
    obtain ⟨front, fresh, gap'⟩ := spaced.takes_spaces
    have first_enough : (lexemes x).length ≤ depth := by omega
    obtain ⟨next, spaced, first⟩ := (h x List.mem_cons_self).takes_term first_enough (stops_arguments xs) fresh
    obtain ⟨rest, spaced, others⟩ := ih (fun y hy => h y (List.mem_cons_of_mem _ hy)) (by omega) spaced
    refine ⟨rest, spaced, Loops.mono (Takes.loops (P := (· = x)) ?_ others) (by rintro _ ⟨_, _, rfl, rfl, rfl⟩; rfl)⟩
    exact (gap.bind fun _ _ => comma.bind fun _ _ => gap').bind fun _ _ => first

theorem takes_arguments {xs : List Term} (h : ∀ x ∈ xs, Reads x) (enough : (argumentLexemes xs).length ≤ depth)
    (fresh : Fresh (argumentLexemes xs ++ .sign ")" :: after) cs) :
    ∃ rest, Spaced (.sign ")" :: after) rest ∧
      Takes (sepBy (term (depth + 1)) (do spaces; word ","; spaces)) cs rest (· = xs) := by
  cases xs with
  | nil =>
    refine ⟨cs, Fresh.spaced fresh, Refuses.orElse (Refuses.sepBy1 (refuses_term_close fresh)) (takes_pure rfl)⟩
  | cons x xs =>
    rw [argumentLexemes, List.length_append] at enough
    rw [argumentLexemes, List.append_assoc] at fresh
    have first_enough : (lexemes x).length ≤ depth := by omega
    have others_enough : (furtherLexemes xs).length ≤ depth := by omega
    obtain ⟨mid, spaced, first⟩ := (h x List.mem_cons_self).takes_term first_enough (stops_arguments xs) fresh
    obtain ⟨rest, spaced', others⟩ := loops_arguments (fun y hy => h y (List.mem_cons_of_mem _ hy)) others_enough spaced
    have turns : xs.length ≤ mid.length := by
      have tokens := spaced.length_le
      have each := length_le_furtherLexemes xs
      rw [List.length_append] at tokens
      omega
    refine ⟨rest, spaced', Takes.orElse (Takes.mono (first.sepBy1 others turns) ?_)⟩
    rintro _ ⟨_, _, rfl, rfl, rfl⟩
    rfl

theorem reads_call {f : String} {xs : List Term} (h : IsName f) (free : f ∉ keywords) (arguments : ∀ x ∈ xs, Reads x) :
    Reads (.call f xs) := by
  have tokens : lexemes (.call f xs) = .name f :: .sign "(" :: (argumentLexemes xs ++ [.sign ")"]) := by
    rw [lexemes]
    rfl
  refine reads_named h tokens fun depth after rest enough stops spaced => ?_
  rw [tokens, List.length_cons, List.length_cons, List.length_append] at enough
  obtain _ | depth := depth
  · omega
  have stop : ∀ c ∈ rest.head?, isNameChar c = false :=
    fun c hc => (spaced.next (by rintro l ⟨⟩; exact ⟨_, rfl⟩) c hc).1
  rw [List.cons_append, List.append_assoc, List.singleton_append] at spaced
  obtain ⟨mid, back, spaced, gap, opening⟩ := spaced.takes_sign
  obtain ⟨front, fresh, gap'⟩ := spaced.takes_spaces
  have inside : (argumentLexemes xs).length ≤ depth := by omega
  obtain ⟨behind, spaced, taken⟩ := takes_arguments arguments inside fresh
  obtain ⟨last, rest', spaced, gap'', closing⟩ := spaced.takes_sign
  refine ⟨rest', spaced, takes_named_of_applied h free stop (Takes.orElse ?_)⟩
  refine (takes_identifier h stop).bind ?_
  rintro _ rfl
  refine gap.bind fun _ _ => opening.bind fun _ _ => gap'.bind fun _ _ => taken.bind ?_
  rintro _ rfl
  exact gap''.bind fun _ _ => closing.bind fun _ _ => takes_pure rfl

/-- What a text spells is read as the term whose tokens it has. -/
theorem Plain.reads (h : Plain t) : Reads t := by
  induction h with
  | nil => exact reads_nil
  | bool b => exact reads_bool b
  | int h => exact reads_int h
  | text s => exact reads_text s
  | name h free => exact reads_variable h free
  | call h free _ ih => exact reads_call h free ih
  | not _ ih => exact reads_not ih
  | negate _ ih => exact reads_negate ih
  | and _ hy ihx ihy =>
    exact reads_joint (j := ⟨"&&", 1, .and⟩) (by simp [joints]) rfl (by rw [lexemes]) hy.opening ihx ihy
  | or _ hy ihx ihy =>
    exact reads_joint (j := ⟨"||", 0, .or⟩) (by simp [joints]) rfl (by rw [lexemes]) hy.opening ihx ihy
  | relate r _ hy ihx ihy =>
    exact reads_joint (j := ⟨r.sign, r.level, .relate r⟩)
      (by cases r <;> simp [joints, Relation.sign, Relation.level]) rfl
      (by rw [lexemes]) hy.opening ihx ihy
  | operate o _ hy ihx ihy =>
    exact reads_joint (j := ⟨o.sign, o.level, .operate o⟩)
      (by cases o <;> simp [joints, Operation.sign, Operation.level]) rfl
      (by rw [lexemes]) hy.opening ihx ihy

theorem Lexeme.Spells.refuses_identifier {text : List Char} (h : l.Spells text) (other : ∀ n, l ≠ .name n) :
    Refuses identifier (text ++ rest) := by
  obtain ⟨c, cs, rfl, -⟩ := h.head
  refine Script.refuses_identifier ?_
  rintro d ⟨⟩
  refine Bool.eq_false_iff.2 fun start => ?_
  generalize htext : c :: cs = text at h
  cases h with
  | sign hs =>
    obtain ⟨d, ds, hd, -, name, -⟩ := sign_head hs
    obtain ⟨rfl, -⟩ := List.cons.inj (htext.trans hd)
    rw [isNameChar_of_isNameStart start] at name
    cases name
  | name _ => exact other _ rfl
  | number n =>
    have digit : Decimal.isDigit c = true := isDigit_of_mem_toDigits c (htext ▸ List.mem_cons_self)
    rw [isDigit_of_isNameStart start] at digit
    cases digit
  | text s hq _ =>
    obtain ⟨rfl, -⟩ := List.cons.inj htext
    rw [(plain_of_quote hq).2.1] at start
    cases start

/-- The only sign with an equals sign at its front is `==`, which is no assignment. -/
theorem refuses_assignment_sign {p : Parser Statement} (hs : s ∈ signs) :
    Refuses (do word "="; notHere (word "="); p) (s.toList ++ rest) := by
  have all : ∀ s ∈ signs, s = "==" ∨ s.toList.head? ≠ some '=' := by decide
  rcases all s hs with rfl | other
  · have equals (tail : List Char) : Takes (word "=") ('=' :: tail) tail fun _ => True := takes_word "="
    exact (equals ('=' :: rest)).refuses fun _ _ => (equals rest).refuses_notHere.bind
  · exact Refuses.bind (refuses_word (not_leading_of_head (List.cons_ne_nil _ _) (sign_ne_nil hs) (Ne.symm other)))

theorem refuses_assignment (opening : Opening ls) (fresh : Fresh ls cs) : Refuses (assignment depth) cs := by
  obtain ⟨l, more, rfl, -, follow⟩ := opening
  obtain ⟨text, rest, spells, spaced, rfl⟩ := fresh
  by_cases named : ∃ n, l = .name n
  · have signs := follow named
    obtain ⟨n, rfl⟩ := named
    cases spells with
    | name hn =>
      obtain ⟨mid, fresh, gap⟩ := spaced.takes_spaces
      refine (takes_identifier hn fun c hc => (spaced.next signs c hc).1).refuses fun _ _ => gap.refuses fun _ _ => ?_
      cases more with
      | nil =>
        obtain rfl := fresh
        exact Refuses.bind fun _ => rfl
      | cons l' more =>
        obtain ⟨s, rfl⟩ := signs l' rfl
        obtain ⟨text, rest, spells, -, rfl⟩ := fresh
        cases spells with
        | sign hs => exact refuses_assignment_sign hs
  · exact Refuses.bind (spells.refuses_identifier fun n e => named ⟨n, e⟩)

theorem takes_block (h : Plain t) (spaced : Spaced (lexemes t) cs) (enough : (lexemes t).length ≤ depth) :
    Takes (block (depth + 1)) cs [] (· = [.evaluate t]) := by
  obtain ⟨mid, fresh, gap⟩ := spaced.takes_spaces
  have alone : Fresh (lexemes t ++ []) mid := by rwa [List.append_nil]
  obtain ⟨rest, behind, takes⟩ := h.reads.takes_term enough stops_nil alone
  obtain ⟨last, rfl, gap'⟩ := behind.takes_spaces
  have statement : Takes (statement (depth + 1)) mid rest (· = .evaluate t) := by
    refine Refuses.orElse (refuses_assignment h.opening fresh) (takes.bind ?_)
    rintro _ rfl
    exact takes_pure rfl
  have no_more : Refuses (do let _ ← (do spaces; word ";"; spaces : Parser Unit); Script.statement (depth + 1)) rest :=
    (gap'.refuses fun _ _ => Refuses.bind fun _ => rfl).bind
  have statements :
      Takes (sepBy (Script.statement (depth + 1)) (do spaces; word ";"; spaces)) mid rest (· = [.evaluate t]) := by
    refine Takes.orElse (Takes.mono (statement.sepBy1 no_more.loops (Nat.zero_le _)) ?_)
    rintro _ ⟨_, _, rfl, rfl, rfl⟩
    rfl
  have no_semicolon : Refuses (word ";") [] := fun _ => rfl
  obtain ⟨_, rfl, no_gap⟩ := Spaced.nil.takes_spaces
  refine gap.bind fun _ _ => statements.bind ?_
  rintro _ rfl
  exact gap'.bind fun _ _ => no_semicolon.optional.bind fun _ _ => no_gap.bind fun _ _ => takes_pure rfl

/-- A text that spells the tokens of a term is a block with the term as its only statement. -/
theorem parse_eq_of_spaced (h : Plain t) (spaced : Spaced (lexemes t) cs) : parse cs = .ok [.evaluate t] := by
  obtain ⟨b, parsed, rfl⟩ := (takes_block h spaced spaced.length_le).run
  exact parsed

theorem parse_eq_of_spaced_mixed :
    parse "a-(b - 1)*-f( 'x\\'' )\n== !nil".toList = .ok [.evaluate (.relate .eq
      (.operate .sub (.variable "a")
        (.operate .mul (.operate .sub (.variable "b") (.constant (.int 1)))
          (.negate (.call "f" [.constant (.str "x'")]))))
      (.not (.constant .nil)))] := by
  have letter {n : String} {c : Char} (hn : n.toList = [c]) (hc : isNameStart c = true) : IsName n :=
    ⟨c, [], hn, hc, nofun⟩
  have plain_a : Plain (.variable "a") := .name (letter rfl rfl) (by decide)
  have plain_b : Plain (.variable "b") := .name (letter rfl rfl) (by decide)
  have plain_call : Plain (.call "f" [.constant (.str "x'")]) :=
    .call (letter rfl rfl) (by decide) (List.forall_mem_singleton.2 (.text "x'"))
  have plain_product :=
    Plain.operate .mul (.operate .sub plain_b (.int (by decide : 0 ≤ (1 : Int64)))) (.negate plain_call)
  have sign {s : String} {ls : List Lexeme} {cs : List Char} (hs : s ∈ signs) (h : Spaced ls cs) :
      Spaced (.sign s :: ls) (s.toList ++ cs) := .cons (.sign hs) h
  have name {s : String} {ls : List Lexeme} {cs : List Char} (hs : IsName s) (h : Spaced ls cs) :
      Spaced (.name s :: ls) (s.toList ++ cs) := .cons (.name hs) h
  refine parse_eq_of_spaced (.relate .eq (.operate .sub plain_a plain_product) (.not .nil)) ?_
  have right : Spaced [.sign "==", .sign "!", .name "nil"] "\n== !nil".toList :=
    .blank rfl (sign (by decide) (.blank rfl (sign (by decide) (.single (.name (isName_of_mem_keywords (by decide)))))))
  have argument : Spaced [.text "x'", .sign ")", .sign "==", .sign "!", .name "nil"] " 'x\\'' )\n== !nil".toList :=
    .blank rfl (.cons (.text "x'" (by decide) (escaping_needed '\'' (by decide))) (.blank rfl (sign (by decide) right)))
  have call :
      Spaced (.sign "-" :: .name "f" :: .sign "(" :: [.text "x'", .sign ")", .sign "==", .sign "!", .name "nil"])
      "-f( 'x\\'' )\n== !nil".toList := sign (by decide) (name (letter rfl rfl) (sign (by decide) argument))
  refine name (letter rfl rfl) (sign (by decide) (sign (by decide) (name (letter rfl rfl) (.blank rfl ?_))))
  exact sign (by decide) (.blank rfl (.cons (.number 1) (sign (by decide) (sign (by decide) call))))

end TextGrammar.Script
