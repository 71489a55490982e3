import TextGrammar.Proofs.Compiled
set_option autoImplicit false

namespace TextGrammar

namespace Grammar
open Emission

mutual

/-- An expression and everything inside it that can run. -/
def Expr.live : Expr → List Expr
  | .literal text => [.literal text]
  | .range low high pos => [.range low high pos]
  | .reference name pos => [.reference name pos]
  | .generate code => [.generate code]
  | .check code => [.check code]
  | .action code => [.action code]
  | .sequence es => .sequence es :: liveIn es
  | .repetition body least most pos =>
    .repetition body least most pos :: if never least most then [] else body.live
  | .choice alternatives pos => .choice alternatives pos :: liveInBranches alternatives
  | .capture body name discard => .capture body name discard :: body.live

def liveIn : List Expr → List Expr
  | [] => []
  | e :: es => e.live ++ liveIn es

def liveInBranches : List (Alternative Expr) → List Expr
  | [] => []
  | a :: as => a.body.live ++ liveInBranches as

end

/-- Whether an expression by itself can take output back or look at it again. -/
def Expr.Revisits : Expr → Prop
  | .choice _ _ | .check _ | .capture _ _ _ => True
  | .repetition _ least (some most) _ => least < most
  | .repetition _ _ none _ => True
  | _ => False

def Expr.Onward (e : Expr) : Prop := ∀ f ∈ e.live, ¬ f.Revisits

theorem faultInAll?_eq_none_iff {names : List String} {es : List Expr} :
    faultInAll? names es = none ↔ ∀ e ∈ es, e.fault? names = none := by
  induction es with
  | nil => simp [faultInAll?]
  | cons e es ih => simp [faultInAll?, ih]

theorem fault?_parts {g : Grammar} {length : Nat} (h : g.fault? length = none) :
    ∀ e ∈ g.entry ++ g.rules.map Rule.body, e.fault? g.names = none := by
  rw [fault?, Option.or_eq_none_iff] at h
  obtain ⟨-, h⟩ := h
  split at h
  · cases h
  · exact faultInAll?_eq_none_iff.1 h

end Grammar

namespace Emission
open Grammar

def Onward (code : List Instruction) : Prop := ∀ i ∈ code, i.restoresOutput = false

theorem onward_nil : Onward [] := fun _ h => by cases h

theorem onward_cons {i : Instruction} {code : List Instruction} :
    Onward (i :: code) ↔ i.restoresOutput = false ∧ Onward code := List.forall_mem_cons

theorem onward_append {xs ys : List Instruction} : Onward (xs ++ ys) ↔ Onward xs ∧ Onward ys := by
  simp only [Onward, List.forall_mem_append]

theorem mayRestoreOutput_eq_false {p : Program} : p.mayRestoreOutput = false ↔ Onward p.code.toList := by
  rw [Program.mayRestoreOutput, ← Array.any_toList, List.any_eq_false]
  exact forall₂_congr fun i _ => Bool.not_eq_true _ ▸ Iff.rfl

def Named (names : List String) (t : Symbols) : Prop := ∀ name ∈ names, ∃ a, t.rules.lookup name = some a

theorem named_symbols (g : Grammar) : Named g.names (symbols g) := by
  have addressed : ∀ (rs : List Rule) (base : Nat), ∀ name ∈ rs.map Rule.name,
      ∃ a, (ruleAddresses base rs).lookup name = some a := by
    intro rs
    induction rs with
    | nil => simp
    | cons r rs ih =>
      intro base name hname
      rw [ruleAddresses, List.lookup_cons]
      by_cases same : (name == r.name) = true
      · exact ⟨base, by rw [same]⟩
      · rw [List.map_cons, List.mem_cons] at hname
        have other : name ≠ r.name := by simpa using same
        obtain ⟨a, ha⟩ := ih (base + size r.body + 1) name (hname.resolve_left other)
        exact ⟨a, by rw [Bool.not_eq_true] at same; rw [same]; exact ha⟩
  exact addressed g.rules (entrySize g + 1)

variable {names : List String} {t : Symbols}

theorem onward_leastLoop (base body : Nat) (least : UInt32) : Onward (leastLoop base body least) := by
  unfold leastLoop
  split
  · exact onward_nil
  · simp [Onward, Instruction.restoresOutput]

theorem onward_furtherLoop (base body : Nat) {least : UInt32} {most : Option UInt32}
    (ordered : ∀ m, most = some m → least ≤ m) : Onward (furtherLoop base body least most) ↔ most = some least := by
  cases most with
  | none => simp [furtherLoop, Onward, Instruction.restoresOutput]
  | some m =>
    simp only [furtherLoop, Option.some.injEq]
    split
    · rename_i h
      simp [h, onward_nil]
    · rename_i h
      simp [h, Onward, Instruction.restoresOutput]

theorem not_revisits_iff {body : Expr} {least : UInt32} {most : Option UInt32} {pos : Nat}
    (ordered : ∀ m, most = some m → least ≤ m) :
    ¬ (Expr.repetition body least most pos).Revisits ↔ most = some least := by
  cases most with
  | none => simp [Expr.Revisits]
  | some m =>
    have le := ordered m rfl
    simp only [Expr.Revisits, Option.some.injEq]
    constructor
    · intro h
      exact UInt32.le_antisymm (UInt32.not_lt.1 h) le
    · rintro rfl
      exact UInt32.lt_irrefl m

theorem onward_iff {e : Expr} {inside : List Expr} (h : e.live = e :: inside) :
    e.Onward ↔ ¬ e.Revisits ∧ ∀ f ∈ inside, ¬ f.Revisits := by
  rw [Expr.Onward, h]
  exact List.forall_mem_cons

theorem onward_single {code : List Instruction} {e : Expr} (plain : Onward code) (alone : e.live = [e])
    (calm : ¬ e.Revisits) : Onward code ↔ e.Onward :=
  iff_of_true plain ((onward_iff alone).2 ⟨calm, fun _ h => by cases h⟩)

theorem onward_pushOf {low high : Number} {pos : Nat} (h : (Expr.range low high pos).fault? names = none) :
    Onward [t.pushOf (span low high), .write] := by
  rw [Expr.fault?] at h
  cases hs : span low high with
  | empty => rw [hs] at h; cases h
  | single text => simp [Onward, Symbols.pushOf, Instruction.restoresOutput]
  | ints a b => simp [Onward, Symbols.pushOf, Instruction.restoresOutput]
  | floats a b => simp [Onward, Symbols.pushOf, Instruction.restoresOutput]

theorem onward_callOf {name : String} {pos : Nat} (ht : Named names t)
    (h : (Expr.reference name pos).fault? names = none) : Onward [t.callOf name] := by
  rw [Expr.fault?] at h
  split at h
  · rename_i known
    obtain ⟨a, ha⟩ := ht name (List.contains_iff_mem.1 known)
    simp [Onward, Symbols.callOf, ha, Instruction.restoresOutput]
  · cases h

theorem fault?_body {body : Expr} {least : UInt32} {most : Option UInt32} {pos : Nat}
    (h : (Expr.repetition body least most pos).fault? names = none) :
    (∀ m, most = some m → least ≤ m) ∧ body.fault? names = none := by
  cases most with
  | none => exact ⟨fun m hm => (by cases hm), h⟩
  | some m =>
    rw [Expr.fault?] at h
    split at h
    · cases h
    · rename_i hm
      exact ⟨fun m' hm' => Option.some.inj hm' ▸ UInt32.not_lt.1 hm, h⟩

mutual

/-- The code of an expression only goes on if and only if everything that can run in it does. -/
theorem onward_emit (ht : Named names t) :
    ∀ (e : Expr) (base : Nat), e.fault? names = none → (Onward (emit t base e) ↔ e.Onward)
  | .literal text, base, _ => onward_single (by simp [emit, Onward, Instruction.restoresOutput]) rfl id
  | .range low high pos, base, h => onward_single (onward_pushOf h) rfl id
  | .reference name pos, base, h => onward_single (onward_callOf ht h) rfl id
  | .generate code, base, _ => onward_single (by simp [emit, Onward, Instruction.restoresOutput]) rfl id
  | .action code, base, _ => onward_single (by simp [emit, Onward, Instruction.restoresOutput]) rfl id
  | .check code, base, _ => by
    refine iff_of_false (fun plain => ?_) fun calm => calm (.check code) List.mem_cons_self trivial
    cases plain .rescue (by simp [emit])
  | .choice alternatives pos, base, _ => by
    refine iff_of_false (fun plain => ?_) fun calm => calm (.choice alternatives pos) List.mem_cons_self trivial
    cases plain .choose (by simp [emit])
  | .capture body name discard, base, _ => by
    refine iff_of_false (fun plain => ?_) fun calm => calm (.capture body name discard) List.mem_cons_self trivial
    cases plain .pushOffset (by simp [emit])
  | .sequence es, base, h => by
    rw [onward_iff rfl, emit, onward_emitAll ht es base (faultInAll?_eq_none_iff.1 h)]
    exact (and_iff_right id).symm
  | .repetition body least most pos, base, h => by
    obtain ⟨ordered, hbody⟩ := fault?_body h
    rw [onward_iff rfl, not_revisits_iff ordered, emit]
    cases hn : never least most with
    | true =>
      simp only [never, Bool.and_eq_true, beq_iff_eq] at hn
      obtain ⟨rfl, rfl⟩ := hn
      exact iff_of_true onward_nil ⟨rfl, fun f hf => by cases hf⟩
    | false =>
      simp only [Bool.false_eq_true, if_false, onward_cons, onward_append, onward_leastLoop,
        onward_furtherLoop _ _ ordered, onward_emit ht body (base + 1) hbody, Instruction.restoresOutput, true_and,
        and_true, List.cons_append]
      exact and_comm

theorem onward_emitAll (ht : Named names t) : ∀ (es : List Expr) (base : Nat), (∀ e ∈ es, e.fault? names = none) →
    (Onward (emitAll t base es) ↔ ∀ f ∈ liveIn es, ¬ f.Revisits)
  | [], base, _ => iff_of_true onward_nil fun f hf => by cases hf
  | e :: es, base, h => by
    rw [emitAll, onward_append, liveIn, List.forall_mem_append,
      onward_emitAll ht es (base + size e) fun f hf => h f (List.mem_cons_of_mem e hf),
      onward_emit ht e base (h e List.mem_cons_self)]
    rfl

end

theorem onward_liveIn {es : List Expr} : (∀ f ∈ liveIn es, ¬ f.Revisits) ↔ ∀ e ∈ es, e.Onward := by
  induction es with
  | nil => simp [liveIn]
  | cons e es ih => rw [liveIn, List.forall_mem_append, ih, List.forall_mem_cons]; rfl

theorem onward_emitRules (ht : Named names t) (rs : List Rule) (base : Nat)
    (h : ∀ r ∈ rs, r.body.fault? names = none) : Onward (emitRules t base rs) ↔ ∀ r ∈ rs, r.body.Onward := by
  induction rs generalizing base with
  | nil => exact iff_of_true onward_nil fun r hr => by cases hr
  | cons r rs ih =>
    rw [List.forall_mem_cons] at h
    rw [emitRules, onward_append, onward_cons, onward_emit ht r.body base h.1, ih _ h.2, List.forall_mem_cons]
    simp [Instruction.restoresOutput]

theorem onward_emitEntry (ht : Named names t) {g : Grammar} (h : ∀ e ∈ g.entry, e.fault? names = none) :
    Onward (emitEntry t g) ↔ ∀ e ∈ g.entry, e.Onward := by
  rw [emitEntry]
  split
  · rename_i none_bare
    rw [List.isEmpty_iff.1 none_bare]
    exact iff_of_true (by simp [Onward, Instruction.restoresOutput]) fun e he => by cases he
  · rw [onward_emitAll ht g.entry 0 h, onward_liveIn]

/-- A program may go back on output if and only if something that can run in its grammar may. -/
theorem mayRestoreOutput_ofGrammar {g : Grammar} {length : Nat} (h : g.fault? length = none) :
    (Program.ofGrammar g).mayRestoreOutput = false ↔
      ∀ e ∈ g.entry ++ g.rules.map Rule.body, e.Onward := by
  have parts := fault?_parts h
  rw [List.forall_mem_append, List.forall_mem_map] at parts
  rw [mayRestoreOutput_eq_false, ofGrammar_code, onward_append, onward_cons,
    onward_emitEntry (named_symbols g) parts.1, onward_emitRules (named_symbols g) g.rules _ parts.2,
    List.forall_mem_append, List.forall_mem_map]
  simp [Instruction.restoresOutput]

end Emission
end TextGrammar
