import Mathlib.Algebra.GroupWithZero.Nat
import TextGrammar.Program.Emission.Length
import TextGrammar.Program.Listing
import TextGrammar.Proofs.Compiled
set_option autoImplicit false

namespace TextGrammar

def Unbroken (s : String) : Prop := '\n' ∉ s.toList

instance : DecidablePred Unbroken := fun s => inferInstanceAs (Decidable ('\n' ∉ s.toList))

def breaks (s : String) : Nat := s.toList.count '\n'

theorem breaks_eq_zero_iff {s : String} : breaks s = 0 ↔ Unbroken s := List.count_eq_zero

theorem breaks_append (s t : String) : breaks (s ++ t) = breaks s + breaks t := by
  rw [breaks, String.toList_append, List.count_append]
  rfl

theorem breaks_join (l : List String) : breaks (String.join l) = (l.map breaks).sum := by
  induction l with
  | nil => rfl
  | cons s l ih => rw [String.join_cons, breaks_append, ih, List.map_cons, List.sum_cons]

theorem breaks_feeds (l : List String) : ((l.map (· ++ "\n")).map breaks).sum = (l.map breaks).sum + l.length := by
  have feed : breaks "\n" = 1 := rfl
  induction l with
  | nil => rfl
  | cons s l ih =>
    rw [List.map_cons, List.map_cons, List.sum_cons, ih, List.map_cons, List.sum_cons, List.length_cons, breaks_append]
    omega

theorem unbroken_cons {c : Char} {cs : List Char} (hc : c ≠ '\n') (h : '\n' ∉ cs) : '\n' ∉ c :: cs :=
  List.not_mem_cons_of_ne_of_not_mem (Ne.symm hc) h

theorem unbroken_append {s t : String} (hs : Unbroken s) (ht : Unbroken t) : Unbroken (s ++ t) := by
  rw [Unbroken, String.toList_append, List.mem_append, not_or]
  exact ⟨hs, ht⟩

theorem unbroken_ofList {cs : List Char} (h : '\n' ∉ cs) : Unbroken (String.ofList cs) := by
  rwa [Unbroken, String.toList_ofList]

namespace Decimal

theorem unbroken_nat (n : Nat) : Unbroken (toString n) := by
  rw [Unbroken, Nat.toString_eq_repr, Nat.toList_repr]
  exact fun h => absurd (Nat.isDigit_of_mem_toDigits (by decide) (by decide) h) (by decide)

theorem unbroken_int (z : Int) : Unbroken (toString z) := by
  cases z with
  | ofNat n => exact unbroken_nat n
  | negSucc n =>
    have sign : Unbroken "-" := by decide
    exact unbroken_append sign (unbroken_nat (n + 1))

theorem unbroken_shortest (tie : Tie) (mantissa : Nat) (exponent : Int) :
    '\n' ∉ (shortest tie mantissa exponent).digits := fun h =>
  unbroken_nat _ (List.mem_reverse.1 ((List.dropWhile_sublist _).subset (List.mem_reverse.1 h)))

theorem unbroken_zeros (n : Nat) : '\n' ∉ zeros n := fun h => absurd (List.eq_of_mem_replicate h) (by decide)

theorem Expansion.unbroken_positional {e : Expansion} (h : '\n' ∉ e.digits) : '\n' ∉ e.positional := by
  have front (n : Nat) : '\n' ∉ e.digits.take n := fun found => h (List.mem_of_mem_take found)
  have back (n : Nat) : '\n' ∉ e.digits.drop n := fun found => h (List.mem_of_mem_drop found)
  unfold positional
  simp only
  split
  · simp [unbroken_zeros, h]
  · split
    · simp [unbroken_zeros, h]
    · simp [front, back]

theorem Expansion.unbroken_scientific {e : Expansion} (h : '\n' ∉ e.digits) : '\n' ∉ e.scientific := by
  have power : '\n' ∉ 'e' :: (toString (e.point - 1)).toList := unbroken_cons (by decide) (unbroken_int _)
  obtain ⟨digits, point⟩ := e
  unfold scientific
  match digits, h with
  | [], _ => exact unbroken_cons (by decide) power
  | [d], h => exact unbroken_cons (Ne.symm (List.ne_of_not_mem_cons h)) power
  | d :: c :: ds, h =>
    obtain ⟨first, others⟩ := List.ne_and_not_mem_of_not_mem_cons h
    refine unbroken_cons (Ne.symm first) (unbroken_cons (by decide) ?_)
    exact fun found => (List.mem_append.1 found).elim others power

theorem unbroken_withSign (negative : Bool) {cs : List Char} (h : '\n' ∉ cs) : '\n' ∉ withSign negative cs := by
  cases negative with
  | false => exact h
  | true => exact unbroken_cons (by decide) h

theorem unbroken_plainText (x : Float) : Unbroken (plainText x) := by
  unfold plainText
  split
  · decide
  · exact unbroken_ofList (unbroken_withSign _ (by decide))
  · refine unbroken_ofList (unbroken_withSign _ ?_)
    split
    · decide
    · exact Expansion.unbroken_positional (unbroken_shortest _ _ _)

theorem Style.unbroken_text (s : Style) (x : Float) : Unbroken (s.text x) := by
  unfold text
  split
  · decide
  · exact unbroken_ofList (unbroken_withSign _ (by decide))
  · refine unbroken_ofList (unbroken_withSign _ ?_)
    have digits := unbroken_shortest s.tie
    split
    · decide
    · simp only
      split
      · exact Expansion.unbroken_scientific (digits _ _)
      · have positional {m : Nat} {k : Int} := Expansion.unbroken_positional (digits m k)
        split
        · exact fun found => (List.mem_append.1 found).elim positional (by decide)
        · exact positional

end Decimal

namespace Quoted

theorem unbroken_hexDigits (n : Nat) : '\n' ∉ hexDigits n := by
  have digit : ∀ k < 16, '\n' ∉ [Nat.digitChar k] := by decide
  induction n using Nat.strongRecOn with
  | ind n ih =>
    rw [hexDigits, Nat.toDigits_eq_if (by decide)]
    split
    · exact digit n ‹_›
    · rw [List.mem_append, not_or]
      exact ⟨ih _ (by omega), digit _ (Nat.mod_lt _ (by decide))⟩

theorem unbroken_encodeChar (c : Char) : '\n' ∉ encodeChar c := by
  by_cases feed : c = '\n'
  · subst feed
    decide
  · unfold encodeChar
    split_ifs
    any_goals decide
    · exact unbroken_cons feed List.not_mem_nil
    · simp [unbroken_hexDigits]

theorem unbroken_text (s : String) : Unbroken (text s) := by
  refine unbroken_ofList fun h => ?_
  rw [encode, List.cons_append, List.mem_cons, List.mem_append, List.mem_flatMap] at h
  rcases h with h | ⟨c, -, h⟩ | h
  · exact absurd h (by decide)
  · exact unbroken_encodeChar c h
  · exact absurd h (by decide)

end Quoted

theorem unbroken_intercalate {s : String} {l : List String} (hs : Unbroken s) (h : ∀ t ∈ l, Unbroken t) :
    Unbroken (s.intercalate l) := by
  induction l with
  | nil => exact (by decide : Unbroken "")
  | cons t l ih =>
    obtain ⟨ht, hl⟩ := List.forall_mem_cons.1 h
    cases l with
    | nil => rwa [String.intercalate_singleton]
    | cons u l =>
      rw [String.intercalate_cons_cons]
      exact unbroken_append (unbroken_append ht hs) (ih hl)

namespace Instruction

theorem unbroken_candidateText (c : Candidate) : Unbroken (candidateText c) :=
  unbroken_append (unbroken_append (Decimal.unbroken_plainText _) (by decide)) (Decimal.unbroken_nat _)

def name : Instruction → String
  | .capture name _ => name
  | _ => ""

theorem breaks_text (i : Instruction) : breaks i.text = breaks i.name := by
  have plain {s : String} (h : Unbroken s) : breaks s = breaks "" := breaks_eq_zero_iff.2 h
  have bounds {s t : String} (hs : Unbroken s) (ht : Unbroken t) : Unbroken ("push_random " ++ s ++ "..." ++ t) :=
    unbroken_append (unbroken_append (unbroken_append (by decide) hs) (by decide)) ht
  cases i with
  | pushLiteral _ | pushCount _ | jumpIfZero _ | jumpIf _ | flip _ | jump _ | call _ | eval _ | pushRescuePoint _ =>
    exact plain (unbroken_append (by decide) (Decimal.unbroken_nat _))
  | pop | dec | ret | write | choose | rescue | pushOffset | halt => rfl
  | pushInteger low high => exact plain (bounds (Decimal.unbroken_int _) (Decimal.unbroken_int _))
  | pushFloat low high => exact plain (bounds (Decimal.Style.unbroken_text _ _) (Decimal.Style.unbroken_text _ _))
  | pushCandidates cs =>
    refine plain ?_
    change Unbroken (if cs.isEmpty then "push_candidates" else "push_candidates " ++ ", ".intercalate (cs.map candidateText))
    split
    · decide
    · refine unbroken_append (by decide) (unbroken_intercalate (by decide) fun t ht => ?_)
      obtain ⟨c, -, rfl⟩ := List.mem_map.1 ht
      exact unbroken_candidateText c
  | capture name discard =>
    have opening : breaks (if discard then "capture! " else "capture ") = 0 := by cases discard <;> rfl
    change breaks ((if discard then "capture! " else "capture ") ++ name) = breaks name
    rw [breaks_append, opening, Nat.zero_add]

end Instruction

namespace Program

/-- The text of the block that an instruction evaluates. -/
def blockOf (p : Program) : Instruction → String
  | .eval i => p.scripts.getD i ""
  | _ => ""

/-- The line of an instruction: its address, right-aligned, and what it is. -/
def entry (p : Program) (address : Nat) (i : Instruction) : String :=
  alignRight addressWidth (toString address) ++ "  " ++ i.text ++ p.comment i

def heading (r : String × Nat) : String := r.1 ++ ":"

/-- The lines from an address on, the name of each rule directly before the instruction at its address. -/
def entriesFrom (p : Program) (address : Nat) : List Instruction → List String
  | [] => []
  | i :: is => (p.rules.filter fun r => r.2 == address).map heading ++ p.entry address i :: p.entriesFrom (address + 1) is

def entries (p : Program) : List String := p.entriesFrom 0 p.code.toList

variable {p : Program} {address : Nat} {i : Instruction} {is : List Instruction}

theorem unbroken_pushn (n : Nat) : Unbroken ("".pushn ' ' n) := by
  induction n with
  | zero => exact (by decide : Unbroken "")
  | succ n ih =>
    change '\n' ∉ (("".pushn ' ' n).push ' ').toList
    rw [String.toList_push, List.mem_append, not_or]
    exact ⟨ih, by decide⟩

theorem unbroken_alignRight (width : Nat) {s : String} (h : Unbroken s) : Unbroken (alignRight width s) :=
  unbroken_append (unbroken_pushn _) h

theorem breaks_comment (p : Program) (i : Instruction) : breaks (p.comment i) = breaks (p.blockOf i) := by
  cases i with
  | pushLiteral index => exact breaks_eq_zero_iff.2 (unbroken_append (by decide) (Quoted.unbroken_text _))
  | eval index =>
    rw [comment, breaks_append, breaks_append, blockOf]
    exact Nat.zero_add _
  | _ => rfl

/-- A line is broken where the names and the block in it are. -/
theorem breaks_entry (p : Program) (address : Nat) (i : Instruction) :
    breaks (p.entry address i) = breaks i.name + breaks (p.blockOf i) := by
  have blanks : breaks "  " = 0 := rfl
  have number := breaks_eq_zero_iff.2 (unbroken_alignRight addressWidth (Decimal.unbroken_nat address))
  rw [entry, breaks_append, breaks_append, breaks_append, number, blanks, i.breaks_text, breaks_comment, Nat.zero_add]

theorem breaks_heading (r : String × Nat) : breaks (heading r) = breaks r.1 := by
  rw [heading, breaks_append]
  rfl

theorem join_linesFrom (p : Program) (address : Nat) (is : List Instruction) :
    String.join (p.linesFrom address is) = String.join ((p.entriesFrom address is).map (· ++ "\n")) := by
  induction is generalizing address with
  | nil => rfl
  | cons i is ih =>
    have headings : ((p.rules.filter fun r => r.2 == address).map heading).map (· ++ "\n") = p.ruleLines address := by
      rw [ruleLines, List.map_map]
      refine List.map_congr_left fun r _ => ?_
      rw [Function.comp_apply, heading, String.append_assoc]
      rfl
    rw [linesFrom, entriesFrom, List.map_append, headings, List.map_cons, String.join_cons, String.join_append,
      String.join_cons, ih, line, entry]
    simp only [String.append_assoc]

theorem sum_filter_succ (f : String × Nat → Nat) (rules : List (String × Nat)) (address n : Nat) :
    ((rules.filter fun r => address ≤ r.2 && r.2 < address + (n + 1)).map f).sum =
      ((rules.filter fun r => r.2 == address).map f).sum +
        ((rules.filter fun r => address + 1 ≤ r.2 && r.2 < address + 1 + n).map f).sum := by
  induction rules with
  | nil => rfl
  | cons r rules ih =>
    simp only [List.filter_cons, Bool.and_eq_true, decide_eq_true_eq, beq_iff_eq]
    rcases Nat.lt_trichotomy r.2 address with less | rfl | more
    · rw [if_neg (by omega), if_neg (by omega), if_neg (by omega), ih]
    · rw [if_pos (by omega), if_pos rfl, if_neg (by omega), List.map_cons, List.sum_cons, List.map_cons, List.sum_cons, ih,
        ← Nat.add_assoc]
    · rw [if_neg (by omega : ¬ r.2 = address)]
      split_ifs
      · rw [List.map_cons, List.sum_cons, List.map_cons, List.sum_cons, ih, Nat.add_left_comm]
      · omega
      · omega
      · exact ih

/-- What the entries from an address on add up to: a share of every instruction, and one of every rule that starts there. -/
theorem sum_entriesFrom (p : Program) (address : Nat) (is : List Instruction) {f : String → Nat} {g : Instruction → Nat}
    (share : ∀ address i, f (p.entry address i) = g i) : ((p.entriesFrom address is).map f).sum = (is.map g).sum +
      ((p.rules.filter fun r => address ≤ r.2 && r.2 < address + is.length).map (f ∘ heading)).sum := by
  induction is generalizing address with
  | nil =>
    have outside : ∀ r ∈ p.rules, ¬ (address ≤ r.2 && r.2 < address + ([] : List Instruction).length) = true := by
      intro r _
      simp
    rw [List.filter_eq_nil_iff.2 outside]
    rfl
  | cons i is ih =>
    rw [entriesFrom, List.map_append, List.sum_append, List.map_map, List.map_cons, List.sum_cons, share, ih, List.map_cons,
      List.sum_cons, List.length_cons, sum_filter_succ]
    omega

end Program

namespace Emission
open Grammar

theorem ruleAddresses_lt (t : Symbols) (base : Nat) (rs : List Rule) :
    ∀ r ∈ ruleAddresses base rs, r.2 < base + (emitRules t base rs).length := by
  induction rs generalizing base with
  | nil => exact nofun
  | cons r rs ih =>
    rw [ruleAddresses, emitRules, List.length_append, List.length_cons, length_emit]
    refine List.forall_mem_cons.2 ⟨by omega, fun q hq => ?_⟩
    have later := ih (base + size r.body + 1) q hq
    omega

theorem address_lt (g : Grammar) : ∀ r ∈ (Program.ofGrammar g).rules, r.2 < (Program.ofGrammar g).size := by
  intro r hr
  have inside := ruleAddresses_lt (symbols g) (entrySize g + 1) g.rules r hr
  rw [Program.size, ← Array.length_toList, ofGrammar_code, List.length_append, List.length_cons, length_emitEntry]
  omega

end Emission

namespace Program

theorem rule_address_lt {source : String} {p : Program} (h : compile source = .ok p) : ∀ r ∈ p.rules, r.2 < p.size := by
  obtain ⟨g, -, -, rfl⟩ := compile_eq_ok h
  exact Emission.address_lt g

def carried (p : Program) : Nat :=
  (p.code.toList.map fun i => breaks i.name + breaks (p.blockOf i)).sum + (p.rules.map fun r => breaks r.1).sum

theorem carried_eq_zero_iff (p : Program) : p.carried = 0 ↔
    (∀ i ∈ p.code.toList, Unbroken i.name ∧ Unbroken (p.blockOf i)) ∧ ∀ r ∈ p.rules, Unbroken r.1 := by
  simp only [carried, Nat.add_eq_zero_iff, List.sum_eq_zero_iff_forall_eq_nat, List.forall_mem_map, breaks_eq_zero_iff]

/-- A listing is its entries, as many as there are instructions and rules, each with a line feed behind it. It has more lines
than entries exactly if a name or a block that is listed has line feeds. -/
theorem listing_entries {source : String} {p : Program} (h : compile source = .ok p) :
    p.listing = String.join (p.entries.map (· ++ "\n")) ∧ p.entries.length = p.size + p.rules.length ∧
      breaks p.listing = p.size + p.rules.length + p.carried ∧
      (breaks p.listing = p.size + p.rules.length ↔
        (∀ i ∈ p.code.toList, Unbroken i.name ∧ Unbroken (p.blockOf i)) ∧ ∀ r ∈ p.rules, Unbroken r.1) := by
  have all : (p.rules.filter fun r => 0 ≤ r.2 && r.2 < 0 + p.code.toList.length) = p.rules := by
    refine List.filter_eq_self.2 fun r hr => ?_
    have inside := rule_address_lt h r hr
    rw [size, ← Array.length_toList] at inside
    simpa using inside
  have number : p.entries.length = p.size + p.rules.length := by
    have one := p.sum_entriesFrom 0 p.code.toList (f := fun _ => 1) (g := fun _ => 1) fun _ _ => rfl
    have rules : ((fun _ : String => 1) ∘ heading) = fun _ => 1 := rfl
    rw [all, rules, List.map_const', List.map_const', List.map_const', List.sum_replicate_nat, List.sum_replicate_nat,
      List.sum_replicate_nat, Nat.mul_one, Nat.mul_one, Nat.mul_one] at one
    rwa [size, ← Array.length_toList]
  have text : p.listing = String.join (p.entries.map (· ++ "\n")) := join_linesFrom p 0 _
  have total : breaks p.listing = p.size + p.rules.length + p.carried := by
    have shares := p.sum_entriesFrom 0 p.code.toList (f := breaks) (g := fun i => breaks i.name + breaks (p.blockOf i))
      p.breaks_entry
    rw [all] at shares
    have headings : breaks ∘ heading = fun r => breaks r.1 := funext breaks_heading
    rw [headings] at shares
    rw [text, breaks_join, breaks_feeds, number, entries, shares, carried]
    omega
  refine ⟨text, number, total, ?_⟩
  rw [total, ← carried_eq_zero_iff]
  omega

/-- A block that is written on two lines takes two lines of the listing as well. -/
theorem listing_entries_split : ∃ p, compile "r = \x7b=\n1\x7d ;" = .ok p ∧ p.size + p.rules.length = 6 ∧
    p.entries.length = 6 ∧ breaks p.listing = 7 := by
  obtain ⟨p, hp, parts⟩ : ∃ p, compile "r = \x7b=\n1\x7d ;" = .ok p ∧
      (p.size + p.rules.length, p.entries.length, breaks p.listing) = (6, 6, 7) := exists_compile (by decide +kernel)
  simp only [Prod.mk.injEq] at parts
  exact ⟨p, hp, parts⟩

end Program
end TextGrammar
