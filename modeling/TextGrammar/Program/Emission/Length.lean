import TextGrammar.Program.Emission
set_option autoImplicit false

namespace TextGrammar.Emission
open Grammar

theorem length_leastLoop (base body : Nat) (least : UInt32) :
    (leastLoop base body least).length = leastSize least := by
  unfold leastLoop leastSize
  split <;> rfl

theorem length_furtherLoop (base body : Nat) (least : UInt32) (most : Option UInt32) :
    (furtherLoop base body least most).length = furtherSize least most := by
  cases most with
  | none => rfl
  | some m =>
    simp only [furtherLoop, furtherSize]
    split <;> rfl

mutual

theorem length_emit (t : Symbols) (base : Nat) : ∀ e : Expr, (emit t base e).length = size e
  | .literal _ | .range _ _ _ | .reference _ _ | .generate _ | .check _ | .action _ => by simp [emit, size]
  | .sequence es => by rw [emit, size, length_emitAll t base es]
  | .repetition body least most pos => by
    rw [emit, size]
    split
    · rfl
    · simp only [List.length_cons, List.length_append, length_emit t _ body, length_leastLoop, length_furtherLoop]
      omega
  | .choice alternatives pos => by
    simp only [emit, size, List.length_cons, List.length_append, length_emitBranches, List.length_nil]
    omega
  | .capture body _ _ => by
    simp only [emit, size, List.length_cons, List.length_append, length_emit t _ body, List.length_nil]

theorem length_emitAll (t : Symbols) (base : Nat) : ∀ es : List Expr, (emitAll t base es).length = sizeAll es
  | [] => rfl
  | e :: es => by
    rw [emitAll, sizeAll, List.length_append, length_emit t base e, length_emitAll t _ es]

theorem length_emitBranches (t : Symbols) (base done : Nat) :
    ∀ as : List (Alternative Expr), (emitBranches t base done as).length = sizeBranches as
  | [] => rfl
  | [a] => by rw [emitBranches, sizeBranches, length_emit t base a.body]
  | a :: b :: as => by
    rw [emitBranches, sizeBranches, List.length_append, List.length_cons, length_emit t base a.body,
      length_emitBranches t _ done (b :: as)]
    omega
    all_goals simp

end

end TextGrammar.Emission
