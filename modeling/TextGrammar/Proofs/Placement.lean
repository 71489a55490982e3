import TextGrammar.Program.Emission.Length
import TextGrammar.Proofs.Meaning
import TextGrammar.Proofs.Subexpressions
set_option autoImplicit false

namespace TextGrammar

namespace Emission
open Grammar

def CodeAt (p : Program) : Nat → List Instruction → Prop
  | _, [] => True
  | a, i :: is => p.code[a]? = some i ∧ CodeAt p (a + 1) is

structure Placed (p : Program) (t : Symbols) (base : Nat) (e : Expr) : Prop where
  code : CodeAt p base (emit t base e)
  literals : ∀ s ∈ literalsOf e, p.literals[t.literals.indexOf s]? = some s
  scripts : ∀ s ∈ scriptsOf e, p.scripts[t.scripts.indexOf s]? = some s
  feasible : e.Every Expr.Feasible

structure BranchPlaced (p : Program) (t : Symbols) (done : Nat) (b : Nat × Expr) : Prop where
  placed : Placed p t b.1 b.2
  leaves : p.code[b.1 + size b.2]? = some (.jump done) ∨ b.1 + size b.2 = done

structure RulesPlaced (p : Program) (t : Symbols) (g : Grammar) : Prop where
  some : ∀ name body, g.rule? name = some body →
    ∃ a, t.rules.lookup name = some a ∧ Placed p t a body ∧ p.code[a + size body]? = some .ret
  none : ∀ name, g.rule? name = none → t.rules.lookup name = none

variable {p : Program} {t : Symbols} {a base : Nat}

theorem codeAt_append {xs ys : List Instruction} :
    CodeAt p a (xs ++ ys) ↔ CodeAt p a xs ∧ CodeAt p (a + xs.length) ys := by
  induction xs generalizing a with
  | nil => simp [CodeAt]
  | cons x xs ih =>
    simp only [List.cons_append, CodeAt, ih, and_assoc, List.length_cons]
    rw [Nat.add_assoc, Nat.add_comm 1]

theorem codeAt_of_append {before is after : List Instruction} (h : p.code.toList = before ++ is ++ after) :
    CodeAt p before.length is := by
  induction is generalizing before with
  | nil => trivial
  | cons i is ih =>
    constructor
    · rw [← Array.getElem?_toList, h, List.append_assoc]
      simp
    · have hi := @ih (before ++ [i]) (by rw [h]; simp)
      rwa [List.length_append] at hi

theorem Placed.head {e : Expr} {es : List Expr} (h : Placed p t base (.sequence (e :: es))) : Placed p t base e := by
  have code := h.code
  rw [emit, emitAll, codeAt_append] at code
  exact ⟨code.1, fun s hs => h.literals s (List.mem_append_left _ hs),
    fun s hs => h.scripts s (List.mem_append_left _ hs), h.feasible.2.1⟩

theorem Placed.tail {e : Expr} {es : List Expr} (h : Placed p t base (.sequence (e :: es))) :
    Placed p t (base + size e) (.sequence es) := by
  have code := h.code
  rw [emit, emitAll, codeAt_append, length_emit] at code
  exact ⟨code.2, fun s hs => h.literals s (List.mem_append_right _ hs),
    fun s hs => h.scripts s (List.mem_append_right _ hs), ⟨trivial, trivial⟩, h.feasible.2.2⟩

theorem Placed.captured {body : Expr} {name : String} {discard : Bool}
    (h : Placed p t base (.capture body name discard)) :
    p.code[base]? = some .pushOffset ∧ Placed p t (base + 1) body ∧
      p.code[base + 1 + size body]? = some (.capture name discard) := by
  have code := h.code
  rw [emit, List.cons_append, CodeAt, codeAt_append, length_emit] at code
  exact ⟨code.1, ⟨code.2.1, h.literals, h.scripts, h.feasible.2⟩, code.2.2.1⟩

theorem Placed.repeated {body : Expr} {least : UInt32} {most : Option UInt32} {pos : Nat}
    (h : Placed p t base (.repetition body least most pos)) (hn : never least most = false) :
    p.code[base]? = some (.jump (base + size body + 2)) ∧ Placed p t (base + 1) body ∧
      p.code[base + 1 + size body]? = some .ret ∧
      CodeAt p (base + size body + 2) (leastLoop (base + size body + 2) (base + 1) least) ∧
      CodeAt p (base + size body + 2 + leastSize least)
        (furtherLoop (base + size body + 2 + leastSize least) (base + 1) least most) := by
  have code := h.code
  simp only [emit, hn, Bool.false_eq_true, if_false, List.cons_append, CodeAt, codeAt_append, length_emit,
    length_leastLoop, List.length_append, List.length_cons] at code
  obtain ⟨enter, ⟨body_code, ret, least_code⟩, further_code⟩ := code
  have least_base : base + 1 + size body + 1 = base + size body + 2 := by omega
  have further_base : base + 1 + (size body + (leastSize least + 1)) = base + size body + 2 + leastSize least := by
    omega
  rw [least_base] at least_code
  rw [further_base] at further_code
  exact ⟨enter, ⟨body_code, h.literals, h.scripts, h.feasible.2⟩, ret, least_code, further_code⟩

theorem branches_placed {done : Nat} {alternatives : List (Alternative Expr)}
    (code : CodeAt p base (emitBranches t base done alternatives))
    (hdone : base + sizeBranches alternatives = done)
    (literals : ∀ s ∈ literalsOfBranches alternatives, p.literals[t.literals.indexOf s]? = some s)
    (scripts : ∀ s ∈ scriptsOfBranches alternatives, p.scripts[t.scripts.indexOf s]? = some s)
    (feasible : EveryBranch Expr.Feasible alternatives) :
    ∀ b ∈ List.zip (branchTargets base alternatives) (alternatives.map Alternative.body), BranchPlaced p t done b := by
  induction alternatives generalizing base with
  | nil => simp [branchTargets]
  | cons x xs ih =>
    have first : ∀ q : CodeAt p base (emit t base x.body), Placed p t base x.body := fun q =>
      ⟨q, fun s hs => literals s (List.mem_append_left _ hs), fun s hs => scripts s (List.mem_append_left _ hs),
        feasible.1⟩
    intro b hb
    rw [branchTargets, List.map_cons, List.zip_cons_cons, List.mem_cons] at hb
    cases xs with
    | nil =>
      rw [emitBranches] at code
      rw [sizeBranches] at hdone
      rcases hb with rfl | hb
      · exact ⟨first code, .inr hdone⟩
      · simp at hb
    | cons y ys =>
      simp only [emitBranches, codeAt_append, CodeAt, length_emit] at code
      simp only [sizeBranches] at hdone
      rcases hb with rfl | hb
      · exact ⟨first code.1, .inl code.2.1⟩
      · exact ih code.2.2 (by omega) (fun s hs => literals s (List.mem_append_right _ hs))
          (fun s hs => scripts s (List.mem_append_right _ hs)) feasible.2 b hb

theorem Placed.chosen {alternatives : List (Alternative Expr)} {pos : Nat}
    (h : Placed p t base (.choice alternatives pos)) :
    p.code[base]? = some (.pushCandidates (candidates (base + 2) alternatives)) ∧
      p.code[base + 1]? = some .choose ∧ alternatives ≠ [] ∧
      (∀ b ∈ List.zip (branchTargets (base + 2) alternatives) (alternatives.map Alternative.body),
        BranchPlaced p t (base + 2 + sizeBranches alternatives) b) ∧
      p.code[base + 2 + sizeBranches alternatives]? = some .pop ∧
      p.code[base + 2 + sizeBranches alternatives + 1]? = some .pop := by
  have code := h.code
  simp only [emit, List.cons_append, CodeAt, codeAt_append, length_emitBranches] at code
  obtain ⟨push, choose, branches, pop, pop', -⟩ := code
  exact ⟨push, choose, h.feasible.1.2, branches_placed branches rfl h.literals h.scripts h.feasible.2, pop, pop'⟩

end Emission
end TextGrammar
