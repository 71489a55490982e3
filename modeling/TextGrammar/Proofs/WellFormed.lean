import TextGrammar.Proofs.AssembledPrograms
import TextGrammar.Compile
set_option autoImplicit false

namespace TextGrammar
namespace Grammar

mutual

def Expr.parts : Expr → List Expr
  | .literal text => [.literal text]
  | .range low high pos => [.range low high pos]
  | .reference name pos => [.reference name pos]
  | .repetition body least most pos => .repetition body least most pos :: body.parts
  | .sequence es => .sequence es :: partsOfAll es
  | .choice alternatives pos => .choice alternatives pos :: partsOfBranches alternatives
  | .generate code => [.generate code]
  | .check code => [.check code]
  | .action code => [.action code]
  | .capture body name discard => .capture body name discard :: body.parts

def partsOfAll : List Expr → List Expr
  | [] => []
  | e :: es => e.parts ++ partsOfAll es

def partsOfBranches : List (Alternative Expr) → List Expr
  | [] => []
  | a :: as => a.body.parts ++ partsOfBranches as

end

mutual

/-- What holds of the parts of an expression holds of everything in it. -/
theorem every_of_parts {P : Expr → Prop} : ∀ e : Expr, (∀ x ∈ e.parts, P x) → e.Every P
  | .literal _, h | .range _ _ _, h | .reference _ _, h | .generate _, h | .check _, h | .action _, h =>
    h _ (List.mem_singleton_self _)
  | .repetition body _ _ _, h | .capture body _ _, h =>
    ⟨h _ List.mem_cons_self, every_of_parts body fun x hx => h x (List.mem_cons_of_mem _ hx)⟩
  | .sequence es, h => ⟨h _ List.mem_cons_self, everyIn_of_parts es fun x hx => h x (List.mem_cons_of_mem _ hx)⟩
  | .choice as _, h => ⟨h _ List.mem_cons_self, everyBranch_of_parts as fun x hx => h x (List.mem_cons_of_mem _ hx)⟩

theorem everyIn_of_parts {P : Expr → Prop} : ∀ es : List Expr, (∀ x ∈ partsOfAll es, P x) → EveryIn P es
  | [], _ => trivial
  | e :: es, h => ⟨every_of_parts e fun x hx => h x (List.mem_append_left _ hx),
      everyIn_of_parts es fun x hx => h x (List.mem_append_right _ hx)⟩

theorem everyBranch_of_parts {P : Expr → Prop} : ∀ as : List (Alternative Expr), (∀ x ∈ partsOfBranches as, P x) →
    EveryBranch P as
  | [], _ => trivial
  | a :: as, h => ⟨every_of_parts a.body fun x hx => h x (List.mem_append_left _ hx),
      everyBranch_of_parts as fun x hx => h x (List.mem_append_right _ hx)⟩

end

mutual

theorem every_part {P : Expr → Prop} : ∀ e : Expr, e.Every P → ∀ x ∈ e.parts, x.Every P
  | .literal _, h | .range _ _ _, h | .reference _ _, h | .generate _, h | .check _, h | .action _, h =>
    List.forall_mem_singleton.2 h
  | .repetition body _ _ _, h | .capture body _ _, h => List.forall_mem_cons.2 ⟨h, every_part body h.2⟩
  | .sequence es, h => List.forall_mem_cons.2 ⟨h, every_partOfAll es h.2⟩
  | .choice as _, h => List.forall_mem_cons.2 ⟨h, every_partOfBranches as h.2⟩

theorem every_partOfAll {P : Expr → Prop} : ∀ es : List Expr, EveryIn P es → ∀ x ∈ partsOfAll es, x.Every P
  | [], _ => nofun
  | e :: es, h => List.forall_mem_append.2 ⟨every_part e h.1, every_partOfAll es h.2⟩

theorem every_partOfBranches {P : Expr → Prop} : ∀ as : List (Alternative Expr), EveryBranch P as →
    ∀ x ∈ partsOfBranches as, x.Every P
  | [], _ => nofun
  | a :: as, h => List.forall_mem_append.2 ⟨every_part a.body h.1, every_partOfBranches as h.2⟩

end

def Number.AtMost : Number → Number → Prop
  | .int low, .int high => low ≤ high
  | low, high => ¬ high.toFloat < low.toFloat

/-- No probability is out of bounds: the explicit ones sum to one at most, give or take the tolerance, and every
alternative is left with a weight. -/
structure Weighted (alternatives : List (Alternative Expr)) : Prop where
  sum : ¬ 1.0 + tolerance < explicitSum alternatives
  positive : ∀ w ∈ weights alternatives, ¬ w ≤ 0.0

/-- What an expression has to obey by itself if its references may name the rules in `names`. -/
def Expr.Acceptable (names : List String) : Expr → Prop
  | .reference name _ => name ∈ names
  | .repetition _ least (some most) _ => least ≤ most
  | .range low high _ => low.AtMost high
  | .choice alternatives _ => Weighted alternatives
  | _ => True

/-- The fault of an expression by itself, and where it is reported. -/
inductive Expr.Breaks (names : List String) : Expr → CompileFault → Nat → Prop
  | reference {name pos} : name ∉ names → Breaks names (.reference name pos) (.undefinedRule name) pos
  | repetition {body least most pos} : most < least →
      Breaks names (.repetition body least (some most) pos) (.invalidRepetition least most) pos
  | range {low high pos} : ¬ low.AtMost high → Breaks names (.range low high pos) (.invalidRange low high) pos
  | sum {alternatives pos} : 1.0 + tolerance < explicitSum alternatives →
      Breaks names (.choice alternatives pos) (.probabilityOverflow (explicitSum alternatives)) pos
  | weight {alternatives pos w} : ¬ 1.0 + tolerance < explicitSum alternatives → w ∈ weights alternatives →
      w ≤ 0.0 → Breaks names (.choice alternatives pos) .zeroWeight pos

end Grammar

section
open Float.Model

variable {x y : UnpackedFloat}

theorem compare_flipped : y.compare x = (x.compare y).map Ordering.swap := by
  cases x with
  | notANumber => cases y <;> rfl
  | infinity s =>
    cases y with
    | notANumber => cases s <;> rfl
    | _ s' => cases s <;> cases s' <;> rfl
  | zero s =>
    cases y with
    | notANumber => rfl
    | _ s' => cases s' <;> rfl
  | finite s m e =>
    cases y with
    | notANumber => cases s <;> rfl
    | finite s' m' e' =>
      have sizes : (compare e' e).then (compare m' m) = ((compare e e').then (compare m m')).swap := by
        rw [Ordering.swap_then, Int.compare_swap, Nat.compare_swap]
      cases s <;> cases s' <;> first | rfl | exact congrArg some sizes | exact congrArg (some ∘ Ordering.swap) sizes
    | _ s' => cases s <;> cases s' <;> rfl

theorem comparable (hx : x.isNaN = false) (hy : y.isNaN = false) : ∃ o, x.compare y = some o := by
  cases x with
  | notANumber => cases hx
  | _ s =>
    cases y with
    | notANumber => cases hy
    | _ s' => cases s <;> cases s' <;> exact ⟨_, rfl⟩

theorem not_lt_float {a b : Float} (ha : a.isNaN = false) (hb : b.isNaN = false) : ¬ b < a ↔ a ≤ b := by
  have less : b < a ↔ b.toModel.unpack.lt a.toModel.unpack = true := decide_eq_true_iff
  have most : a ≤ b ↔ a.toModel.unpack.le b.toModel.unpack = true := decide_eq_true_iff
  obtain ⟨o, compared⟩ := comparable ha hb
  rw [less, most, UnpackedFloat.lt, UnpackedFloat.le, compare_flipped, compared]
  cases o <;> decide

end

namespace Grammar

theorem Number.atMost_iff {low high : Number} (hl : low.toFloat.isNaN = false) (hh : high.toFloat.isNaN = false) :
    low.AtMost high ↔ match low, high with
      | .int a, .int b => a ≤ b
      | low, high => low.toFloat ≤ high.toFloat := by
  cases low with
  | float x => exact not_lt_float hl hh
  | int a =>
    cases high with
    | float y => exact not_lt_float hl hh
    | int b => exact Iff.rfl

theorem weighted_iff {alternatives : List (Alternative Expr)} (hs : (explicitSum alternatives).isNaN = false)
    (hw : ∀ w ∈ weights alternatives, w.isNaN = false) :
    Weighted alternatives ↔ explicitSum alternatives ≤ 1.0 + tolerance ∧ ∀ w ∈ weights alternatives, 0.0 < w := by
  have bound : (1.0 + tolerance).isNaN = false := by decide +kernel
  have zero : (0.0 : Float).isNaN = false := by decide +kernel
  have heavy : ∀ w ∈ weights alternatives, (¬ w ≤ 0.0 ↔ 0.0 < w) := fun w among => by
    rw [← not_lt_float (hw w among) zero, not_not]
  refine ⟨fun h => ⟨(not_lt_float hs bound).1 h.sum, fun w among => (heavy w among).1 (h.positive w among)⟩, ?_⟩
  rintro ⟨sum, positive⟩
  exact ⟨(not_lt_float hs bound).2 sum, fun w among => (heavy w among).2 (positive w among)⟩

variable {names : List String} {e : Expr} {fault : CompileFault} {pos : Nat}

def Expr.ownFault? (names : List String) : Expr → Option Fault
  | .range low high pos => if (span low high).isEmpty then some (.invalidRange low high, pos) else none
  | .reference name pos => if names.contains name then none else some (.undefinedRule name, pos)
  | .repetition _ least most pos => (Assembly.repetitionFault? least most).map (·, pos)
  | .choice alternatives pos => (weightFault? alternatives).map (·, pos)
  | _ => none

theorem span_isEmpty (low high : Number) : (span low high).isEmpty = true ↔ ¬ low.AtMost high := by
  have floats : ∀ a b : Float, ((if b < a then Span.empty else if a == b then .single (Decimal.valueText a)
      else .floats a b).isEmpty = true ↔ ¬ ¬ b < a) := by
    intro a b
    by_cases less : b < a
    · simp [less, Span.isEmpty]
    · by_cases equal : a == b <;> simp [less, equal, Span.isEmpty]
  cases low with
  | float x => exact floats x high.toFloat
  | int a =>
    cases high with
    | float y => exact floats (Binary64.ofInt64 a) y
    | int b =>
      simp only [span, Number.AtMost, Int64.not_le]
      by_cases less : b < a
      · simp [less, Span.isEmpty]
      · by_cases equal : a = b <;> simp [less, equal, Span.isEmpty]

theorem ownFault?_range {low high : Number} {at' : Nat} :
    (Expr.range low high at').ownFault? names = some (fault, pos) ↔ (Expr.range low high at').Breaks names fault pos := by
  rw [Expr.ownFault?]
  constructor
  · split
    · rename_i empty
      intro h
      cases h
      exact .range ((span_isEmpty low high).1 empty)
    · rintro ⟨⟩
  · intro broken
    cases broken with
    | range apart => rw [if_pos ((span_isEmpty low high).2 apart)]

theorem ownFault?_repetition {body : Expr} {least : UInt32} {most : Option UInt32} {at' : Nat} :
    (Expr.repetition body least most at').ownFault? names = some (fault, pos) ↔
      (Expr.repetition body least most at').Breaks names fault pos := by
  rw [Expr.ownFault?]
  cases most with
  | none => constructor <;> intro h <;> cases h
  | some most =>
    rw [Assembly.repetitionFault?]
    constructor
    · split
      · rename_i less
        intro h
        cases h
        exact .repetition less
      · rintro ⟨⟩
    · intro broken
      cases broken with
      | repetition less =>
        rw [if_pos less]
        rfl

theorem ownFault?_choice {alternatives : List (Alternative Expr)} {at' : Nat} :
    (Expr.choice alternatives at').ownFault? names = some (fault, pos) ↔
      (Expr.choice alternatives at').Breaks names fault pos := by
  rw [Expr.ownFault?, weightFault?]
  constructor
  · split
    · rename_i excess
      intro h
      cases h
      exact .sum excess
    · rename_i within
      split
      · rename_i light
        intro h
        cases h
        obtain ⟨w, among, zero⟩ := List.any_eq_true.1 light
        exact .weight within among (of_decide_eq_true zero)
      · rintro ⟨⟩
  · intro broken
    cases broken with
    | sum excess =>
      rw [if_pos excess]
      rfl
    | weight within among zero =>
      rw [if_neg within, if_pos (List.any_eq_true.2 ⟨_, among, decide_eq_true zero⟩)]
      rfl

theorem ownFault?_eq_some : e.ownFault? names = some (fault, pos) ↔ e.Breaks names fault pos := by
  cases e with
  | reference name at' =>
    rw [Expr.ownFault?]
    constructor
    · split
      · rintro ⟨⟩
      · rename_i unknown
        intro h
        cases h
        exact .reference (by simpa using unknown)
    · intro broken
      cases broken with
      | reference unknown => simp [unknown]
  | range low high at' => exact ownFault?_range
  | repetition body least most at' => exact ownFault?_repetition
  | choice alternatives at' => exact ownFault?_choice
  | _ => constructor <;> intro h <;> cases h

/-- An expression obeys the rules if and only if it breaks none. -/
theorem acceptable_iff : e.Acceptable names ↔ ∀ fault pos, ¬ e.Breaks names fault pos := by
  cases e with
  | reference name at' =>
    refine ⟨fun known _ _ broken => ?_, fun h => ?_⟩
    · cases broken with
      | reference unknown => exact unknown known
    · by_contra unknown
      exact h _ _ (.reference unknown)
  | range low high at' =>
    refine ⟨fun order _ _ broken => ?_, fun h => ?_⟩
    · cases broken with
      | range apart => exact apart order
    · by_contra apart
      exact h _ _ (.range apart)
  | repetition body least most at' =>
    cases most with
    | none => exact ⟨fun _ _ _ broken => (by cases broken), fun _ => trivial⟩
    | some most =>
      refine ⟨fun order _ _ broken => ?_, fun h => ?_⟩
      · cases broken with
        | repetition less => exact UInt32.not_lt.2 order less
      · refine UInt32.not_lt.1 fun less => ?_
        exact h _ _ (.repetition less)
  | choice alternatives at' =>
    refine ⟨fun weighted _ _ broken => ?_, fun h => ⟨fun excess => ?_, fun w among zero => ?_⟩⟩
    · cases broken with
      | sum excess => exact weighted.sum excess
      | weight _ among zero => exact weighted.positive _ among zero
    · exact h _ _ (.sum excess)
    · by_cases excess : 1.0 + tolerance < explicitSum alternatives
      · exact h _ _ (.sum excess)
      · exact h _ _ (.weight excess among zero)
  | _ => exact ⟨fun _ _ _ broken => (by cases broken), fun _ => trivial⟩

theorem ownFault?_eq_none : e.ownFault? names = none ↔ e.Acceptable names := by
  rw [acceptable_iff]
  cases own : e.ownFault? names with
  | none =>
    refine ⟨fun _ fault pos broken => ?_, fun _ => rfl⟩
    rw [← ownFault?_eq_some, own] at broken
    cases broken
  | some f => exact ⟨fun h => (by cases h), fun h => absurd (ownFault?_eq_some.1 own) (h f.1 f.2)⟩

mutual

/-- The checks on the way through an expression are those of its parts, one after the other. -/
theorem fault?_eq : ∀ e : Expr, e.fault? names = e.parts.findSome? (Expr.ownFault? names)
  | .literal _ | .generate _ | .check _ | .action _ => rfl
  | .range low high pos => by
    rw [Expr.fault?, Expr.parts, List.findSome?_singleton]
    rfl
  | .reference name pos => by
    rw [Expr.fault?, Expr.parts, List.findSome?_singleton]
    rfl
  | .sequence es => faultInAll?_eq es
  | .capture body name discard => fault?_eq body
  | .repetition body least most pos => by
    rw [Assembly.repetition_fault?, fault?_eq body, Expr.parts, List.findSome?_cons, Expr.ownFault?]
    cases Assembly.repetitionFault? least most <;> rfl
  | .choice alternatives pos => by
    rw [Assembly.choice_fault?, faultInAlternatives?_eq alternatives, Expr.parts, List.findSome?_cons, Expr.ownFault?]
    cases weightFault? alternatives <;> rfl

theorem faultInAll?_eq : ∀ es : List Expr, faultInAll? names es = (partsOfAll es).findSome? (Expr.ownFault? names)
  | [] => rfl
  | e :: es => by rw [faultInAll?, partsOfAll, List.findSome?_append, fault?_eq e, faultInAll?_eq es]

theorem faultInAlternatives?_eq : ∀ as : List (Alternative Expr),
    faultInAlternatives? names as = (partsOfBranches as).findSome? (Expr.ownFault? names)
  | [] => rfl
  | a :: as => by
    rw [faultInAlternatives?, partsOfBranches, List.findSome?_append, fault?_eq a.body, faultInAlternatives?_eq as]

end

theorem faultInAll?_eq_some {es : List Expr} : faultInAll? names es = some (fault, pos) ↔
    ∃ before e after, partsOfAll es = before ++ e :: after ∧ (∀ x ∈ before, x.Acceptable names) ∧
      e.Breaks names fault pos := by
  simp only [faultInAll?_eq, List.findSome?_eq_some_iff, ownFault?_eq_some, ownFault?_eq_none]
  constructor
  · rintro ⟨before, e, after, parts, broken, fine⟩
    exact ⟨before, e, after, parts, fine, broken⟩
  · rintro ⟨before, e, after, parts, fine, broken⟩
    exact ⟨before, e, after, parts, broken, fine⟩

theorem faultInAll?_eq_none {es : List Expr} :
    faultInAll? names es = none ↔ ∀ e ∈ partsOfAll es, e.Acceptable names := by
  simp only [faultInAll?_eq, List.findSome?_eq_none_iff, ownFault?_eq_none]

theorem duplicate?_eq_some {rs : List Rule} : duplicate? names rs = some (fault, pos) ↔
    ∃ before r after, rs = before ++ r :: after ∧ duplicate? names before = none ∧
      (r.name ∈ names ∨ r.name ∈ before.map Rule.name) ∧ fault = .duplicateRule r.name ∧ pos = r.pos := by
  induction rs generalizing names with
  | nil => simp [duplicate?]
  | cons x rs ih =>
    by_cases taken : x.name ∈ names
    · have here : duplicate? names (x :: rs) = some (.duplicateRule x.name, x.pos) := by simp [duplicate?, taken]
      rw [here]
      constructor
      · intro h
        cases h
        exact ⟨[], x, rs, rfl, rfl, .inl taken, rfl, rfl⟩
      · rintro ⟨before, r, after, split, distinct, -, rfl, rfl⟩
        cases before with
        | nil =>
          cases split
          rfl
        | cons y before =>
          cases split
          simp [duplicate?, taken] at distinct
    · have on : ∀ rs, duplicate? names (x :: rs) = duplicate? (x.name :: names) rs := fun rs => by
        simp [duplicate?, taken]
      rw [on, ih]
      constructor
      · rintro ⟨before, r, after, rfl, distinct, again, rest⟩
        refine ⟨x :: before, r, after, rfl, (on before).trans distinct, ?_, rest⟩
        simp only [List.mem_cons, List.map_cons] at again ⊢
        tauto
      · rintro ⟨before, r, after, split, distinct, again, rest⟩
        cases before with
        | nil =>
          cases split
          simp [taken] at again
        | cons y before =>
          cases split
          refine ⟨before, r, after, rfl, (on before).symm.trans distinct, ?_, rest⟩
          simp only [List.mem_cons, List.map_cons] at again ⊢
          tauto

def parts (g : Grammar) : List Expr := partsOfAll (g.entry ++ g.rules.map Rule.body)

structure WellFormed (items : List Item) : Prop where
  nonempty : items ≠ []
  distinct : (ofItems items).names.Nodup
  acceptable : ∀ e ∈ (ofItems items).parts, e.Acceptable (ofItems items).names

/-- The fault that a grammar is blamed for if its source ends at `length`, and where: the first rule that has the name
of an earlier one; that there is nothing at all; or the first expression that breaks a rule. -/
inductive FirstFault (g : Grammar) (length : Nat) : CompileFault → Nat → Prop
  | duplicate {before r after} : g.rules = before ++ r :: after → (before.map Rule.name).Nodup →
      r.name ∈ before.map Rule.name → FirstFault g length (.duplicateRule r.name) r.pos
  | empty : g.rules = [] → g.entry = [] → FirstFault g length .emptyGrammar length
  | inside {before e after fault pos} : g.names.Nodup → g.parts = before ++ e :: after →
      (∀ x ∈ before, x.Acceptable g.names) → e.Breaks g.names fault pos → FirstFault g length fault pos

variable {g : Grammar} {length : Nat}

theorem isEmpty_iff : g.isEmpty = true ↔ g.rules = [] ∧ g.entry = [] := by
  simp [isEmpty]

theorem isEmpty_of_fault? (h : g.fault? length = none) : g.isEmpty = false := by
  rw [Grammar.fault?, Option.or_eq_none_iff] at h
  by_contra empty
  rw [if_pos (by simpa using empty)] at h
  cases h.2

theorem ofItems_isEmpty (items : List Item) : (ofItems items).isEmpty = true ↔ items = [] := by
  rw [isEmpty_iff]
  cases items with
  | nil => simp [ofItems]
  | cons item items => cases item <;> simp [ofItems, Item.rule?, Item.expr?]

theorem fault?_eq_some : g.fault? length = some (fault, pos) ↔ FirstFault g length fault pos := by
  rw [Grammar.fault?, Option.or_eq_some_iff, duplicate?_eq_some]
  constructor
  · rintro (⟨before, r, after, split, distinct, again, rfl, rfl⟩ | ⟨distinct, rest⟩)
    · exact .duplicate split (duplicate?_eq_none.1 distinct).1 (again.resolve_left List.not_mem_nil)
    · have unique : g.names.Nodup := (duplicate?_eq_none.1 distinct).1
      split at rest
      · rename_i none_at_all
        cases rest
        exact .empty (isEmpty_iff.1 none_at_all).1 (isEmpty_iff.1 none_at_all).2
      · obtain ⟨before, e, after, parts, fine, broken⟩ := faultInAll?_eq_some.1 rest
        exact .inside unique parts fine broken
  · intro first
    cases first with
    | duplicate split distinct again =>
      exact .inl ⟨_, _, _, split, duplicate?_eq_none.2 ⟨distinct, fun _ _ => List.not_mem_nil⟩, .inr again, rfl, rfl⟩
    | empty rules entry =>
      refine .inr ⟨by rw [rules]; rfl, ?_⟩
      rw [if_pos (isEmpty_iff.2 ⟨rules, entry⟩)]
    | inside distinct split fine broken =>
      refine .inr ⟨duplicate?_eq_none.2 ⟨distinct, fun _ _ => List.not_mem_nil⟩, ?_⟩
      have something : ¬ g.isEmpty = true := by
        intro none_at_all
        obtain ⟨rules, entry⟩ := isEmpty_iff.1 none_at_all
        rw [parts, rules, entry] at split
        simp [partsOfAll] at split
      rw [if_neg something]
      exact faultInAll?_eq_some.2 ⟨_, _, _, split, fine, broken⟩

theorem fault?_eq_none (items : List Item) (length : Nat) :
    (ofItems items).fault? length = none ↔ WellFormed items := by
  rw [Grammar.fault?, Option.or_eq_none_iff, duplicate?_eq_none]
  constructor
  · rintro ⟨⟨distinct, -⟩, rest⟩
    split at rest
    · cases rest
    · rename_i something
      refine ⟨?_, distinct, faultInAll?_eq_none.1 rest⟩
      exact fun none_at_all => something ((ofItems_isEmpty items).2 none_at_all)
  · rintro ⟨nonempty, distinct, acceptable⟩
    refine ⟨⟨distinct, fun _ _ => List.not_mem_nil⟩, ?_⟩
    rw [if_neg (by simpa [ofItems_isEmpty] using nonempty)]
    exact faultInAll?_eq_none.2 acceptable

end Grammar

namespace Program
open Grammar Parsing.Parser

/-- A source that spells some items has their program, or an error that locates their first fault. -/
theorem compileChars_eq {source : List Char} {items : List Item} (spelled : Grammar.parse source = .ok items) :
    compileChars source = ((Grammar.ofItems items).fault? (byteLength source)).elim (.ok (.ofGrammar (.ofItems items)))
      fun f => .error (.ofOffset f.1 source f.2) := by
  have read : Grammar.read source = .ok (.ofItems items) := by rw [Grammar.read, spelled]
  rw [compileChars, read]
  simp only [bind, Except.bind]
  cases (Grammar.ofItems items).fault? (byteLength source) <;> rfl

end Program

namespace Assembly
open Grammar Parsing.Parser

/-- What is assembled for a list of items is a program if the grammar is well-formed, and the first fault otherwise; no
label is left over in either case. A source that spells the items is refused for that fault, at its place. -/
theorem assemble_iff_wellFormed (items : List Item) (source : List Char) :
    ((∃ p, assemble items (byteLength source) = .ok p) ↔ WellFormed items) ∧
    (∀ fault pos, assemble items (byteLength source) = .error (.fault (fault, pos)) ↔
      FirstFault (ofItems items) (byteLength source) fault pos) ∧
    assemble items (byteLength source) ≠ .error .dangling ∧
    (Grammar.parse source = .ok items →
      (∀ p, Program.compileChars source = .ok p ↔ assemble items (byteLength source) = .ok p) ∧
      ∀ e, Program.compileChars source = .error e ↔ ∃ fault pos,
        assemble items (byteLength source) = .error (.fault (fault, pos)) ∧ e = .ofOffset fault source pos) := by
  have reports := assemble_reports items (byteLength source)
  cases first : (ofItems items).fault? (byteLength source) with
  | some f =>
    obtain ⟨fault, pos⟩ := f
    rw [first] at reports
    have refused : assemble items (byteLength source) = .error (.fault (fault, pos)) := reports
    rw [refused, ← fault?_eq_none items (byteLength source), first]
    simp only [← fault?_eq_some, first]
    refine ⟨by simp, fun fault' pos' => ?_, by simp, fun spelled => ?_⟩
    · simp
    · rw [Program.compileChars_eq spelled, first]
      refine ⟨by simp, fun e => ⟨?_, ?_⟩⟩
      · rintro ⟨⟩
        exact ⟨fault, pos, rfl, rfl⟩
      · rintro ⟨_, _, ⟨⟩, rfl⟩
        rfl
  | none =>
    rw [first] at reports
    obtain ⟨p, assembled, rfl⟩ := reports
    rw [assembled, ← fault?_eq_none items (byteLength source), first]
    simp only [← fault?_eq_some, first]
    refine ⟨by simp, by simp, by simp, fun spelled => ?_⟩
    rw [Program.compileChars_eq spelled, first, Option.elim_none]
    exact ⟨by simp, by simp⟩

/-- A weight of zero in a body that never runs, in a rule that nothing reaches, comes before a name that is not there. -/
theorem assemble_iff_wellFormed_never : ∃ items fault pos,
    Grammar.parse "'x' r = ('y' | [0.0] 'z')*[0] s ;".toList = .ok items ∧ ¬ WellFormed items ∧
    FirstFault (ofItems items) 33 fault pos ∧ fault.kind = .zeroWeight ∧
    Program.compileChars "'x' r = ('y' | [0.0] 'z')*[0] s ;".toList =
      .error (.ofOffset fault "'x' r = ('y' | [0.0] 'z')*[0] s ;".toList pos) := by
  have length : byteLength "'x' r = ('y' | [0.0] 'z')*[0] s ;".toList = 33 := by decide +kernel
  have refused : ((Program.compileChars "'x' r = ('y' | [0.0] 'z')*[0] s ;".toList).map fun _ => ()).mapError
      (fun e => e.fault.kind) = .error .zeroWeight := by decide +kernel
  cases spelled : Grammar.parse "'x' r = ('y' | [0.0] 'z')*[0] s ;".toList with
  | error seen =>
    rw [Program.compileChars, Grammar.read, spelled] at refused
    cases refused
  | ok items =>
    obtain ⟨accepted, first, -, read⟩ := assemble_iff_wellFormed items "'x' r = ('y' | [0.0] 'z')*[0] s ;".toList
    obtain ⟨-, errors⟩ := read spelled
    cases compiled : Program.compileChars "'x' r = ('y' | [0.0] 'z')*[0] s ;".toList with
    | ok p =>
      rw [compiled] at refused
      cases refused
    | error e =>
      obtain ⟨fault, pos, assembled, rfl⟩ := (errors e).1 compiled
      rw [compiled] at refused
      rw [length] at accepted first assembled
      refine ⟨items, fault, pos, rfl, fun fine => ?_, (first fault pos).1 assembled, Except.error.inj refused, rfl⟩
      obtain ⟨p, other⟩ := accepted.2 fine
      rw [assembled] at other
      cases other

end Assembly
end TextGrammar
