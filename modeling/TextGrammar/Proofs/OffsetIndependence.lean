import TextGrammar.Compile
import TextGrammar.Proofs.RoundTrip
set_option autoImplicit false

namespace TextGrammar

namespace Grammar

def unplaced (g : Grammar) : Grammar := ⟨g.rules.map Rule.unplaced, g.entry.map Expr.unplaced⟩

theorem ofItems_map_item (l : List Item) : Grammar.ofItems (l.map Item.unplaced) = (Grammar.ofItems l).unplaced := by
  have rules : Item.rule? ∘ Item.unplaced = fun i => i.rule?.map Rule.unplaced := by
    funext i
    cases i <;> rfl
  have entry : Item.expr? ∘ Item.unplaced = fun i => i.expr?.map Expr.unplaced := by
    funext i
    cases i <;> rfl
  rw [Grammar.ofItems, List.filterMap_map, List.filterMap_map, rules, entry, unplaced, Grammar.ofItems, List.map_filterMap,
    List.map_filterMap]

section
variable (as : List (Alternative Expr))

theorem explicitSum_unplaced : explicitSum (as.map Alternative.unplaced) = explicitSum as := by
  rw [explicitSum, List.foldl_map]
  rfl

theorem automaticShare_unplaced : automaticShare (as.map Alternative.unplaced) = automaticShare as := by
  have automatic : Alternative.isAutomatic ∘ Alternative.unplaced = Alternative.isAutomatic := rfl
  rw [automaticShare, automaticShare, List.countP_map, automatic, List.length_map, explicitSum_unplaced]

theorem weights_unplaced : weights (as.map Alternative.unplaced) = weights as := by
  rw [weights, automaticShare_unplaced, List.map_map]
  rfl

theorem weightFault?_unplaced : weightFault? (as.map Alternative.unplaced) = weightFault? as := by
  rw [weightFault?, explicitSum_unplaced, weights_unplaced]
  rfl

end

mutual

theorem fault?_unplaced (names : List String) :
    ∀ e : Expr, (e.unplaced.fault? names).map Prod.fst = (e.fault? names).map Prod.fst
  | .literal _ | .generate _ | .check _ | .action _ => rfl
  | .range low high _ => by
    rw [Expr.unplaced, Expr.fault?, Expr.fault?]
    split <;> rfl
  | .reference name _ => by
    rw [Expr.unplaced, Expr.fault?, Expr.fault?]
    split <;> rfl
  | .repetition body least none _ => fault?_unplaced names body
  | .repetition body least (some most) _ => by
    rw [Expr.unplaced, Expr.fault?, Expr.fault?]
    split
    · rfl
    · exact fault?_unplaced names body
  | .sequence es => faultInAll?_unplaced names es
  | .choice as _ => by
    rw [Expr.unplaced, Expr.fault?, Expr.fault?, unplacedBranches_eq, weightFault?_unplaced, ← unplacedBranches_eq]
    split
    · rfl
    · exact faultInAlternatives?_unplaced names as
  | .capture body _ _ => fault?_unplaced names body

theorem faultInAll?_unplaced (names : List String) :
    ∀ es : List Expr, (faultInAll? names (unplacedIn es)).map Prod.fst = (faultInAll? names es).map Prod.fst
  | [] => rfl
  | e :: es => by
    rw [unplacedIn, faultInAll?, faultInAll?, Option.map_or, Option.map_or, fault?_unplaced names e,
      faultInAll?_unplaced names es]

theorem faultInAlternatives?_unplaced (names : List String) : ∀ as : List (Alternative Expr),
    (faultInAlternatives? names (unplacedBranches as)).map Prod.fst = (faultInAlternatives? names as).map Prod.fst
  | [] => rfl
  | a :: as => by
    rw [unplacedBranches, faultInAlternatives?, faultInAlternatives?, Option.map_or, Option.map_or,
      fault?_unplaced names a.body, faultInAlternatives?_unplaced names as]

end

theorem duplicate?_unplaced (names : List String) (rules : List Rule) :
    (duplicate? names (rules.map Rule.unplaced)).map Prod.fst = (duplicate? names rules).map Prod.fst := by
  induction rules generalizing names with
  | nil => rfl
  | cons r rules ih =>
    have name : r.unplaced.name = r.name := rfl
    rw [List.map_cons, duplicate?, duplicate?, name]
    split
    · rfl
    · exact ih _

theorem names_unplaced (g : Grammar) : g.unplaced.names = g.names := by
  rw [names, unplaced, List.map_map]
  rfl

theorem bodies_unplaced (g : Grammar) :
    g.unplaced.entry ++ g.unplaced.rules.map Rule.body = unplacedIn (g.entry ++ g.rules.map Rule.body) := by
  have bodies : Rule.body ∘ Rule.unplaced = Expr.unplaced ∘ Rule.body := rfl
  rw [unplacedIn_eq, List.map_append, unplaced, List.map_map, List.map_map, bodies]

/-- A grammar has the same fault wherever its expressions stand, and its text ends. -/
theorem fault?_map_unplaced (g : Grammar) (m n : Nat) : (g.unplaced.fault? m).map Prod.fst = (g.fault? n).map Prod.fst := by
  have empty : g.unplaced.isEmpty = g.isEmpty := by
    rw [isEmpty, isEmpty, unplaced, List.isEmpty_map, List.isEmpty_map]
  rw [fault?, fault?, Option.map_or, Option.map_or, empty, names_unplaced, bodies_unplaced, unplaced, duplicate?_unplaced]
  split
  · rfl
  · rw [faultInAll?_unplaced]

end Grammar

namespace Emission
open Grammar

mutual

theorem size_unplaced : ∀ e : Expr, size e.unplaced = size e
  | .literal _ | .range _ _ _ | .generate _ | .action _ | .reference _ _ | .check _ => rfl
  | .sequence es => sizeAll_unplaced es
  | .repetition body least most _ => by rw [Expr.unplaced, size, size, size_unplaced body]
  | .choice as _ => by rw [Expr.unplaced, size, size, sizeBranches_unplaced as]
  | .capture body _ _ => by rw [Expr.unplaced, size, size, size_unplaced body]

theorem sizeAll_unplaced : ∀ es : List Expr, sizeAll (unplacedIn es) = sizeAll es
  | [] => rfl
  | e :: es => by rw [unplacedIn, sizeAll, sizeAll, size_unplaced e, sizeAll_unplaced es]

theorem sizeBranches_unplaced : ∀ as : List (Alternative Expr), sizeBranches (unplacedBranches as) = sizeBranches as
  | [] => rfl
  | [a] => size_unplaced a.body
  | a :: b :: as => by
    have more := sizeBranches_unplaced (b :: as)
    change size a.body.unplaced + 1 + sizeBranches (unplacedBranches (b :: as)) = size a.body + 1 + sizeBranches (b :: as)
    rw [size_unplaced a.body, more]

end

mutual

theorem literalsOf_unplaced : ∀ e : Expr, literalsOf e.unplaced = literalsOf e
  | .literal _ | .range _ _ _ | .generate _ | .action _ | .reference _ _ | .check _ => rfl
  | .sequence es => literalsOfAll_unplaced es
  | .repetition body _ _ _ | .capture body _ _ => literalsOf_unplaced body
  | .choice as _ => literalsOfBranches_unplaced as

theorem literalsOfAll_unplaced : ∀ es : List Expr, literalsOfAll (unplacedIn es) = literalsOfAll es
  | [] => rfl
  | e :: es => by rw [unplacedIn, literalsOfAll, literalsOfAll, literalsOf_unplaced e, literalsOfAll_unplaced es]

theorem literalsOfBranches_unplaced :
    ∀ as : List (Alternative Expr), literalsOfBranches (unplacedBranches as) = literalsOfBranches as
  | [] => rfl
  | a :: as => by
    rw [unplacedBranches, literalsOfBranches, literalsOfBranches, literalsOf_unplaced a.body, literalsOfBranches_unplaced as]

end

mutual

theorem scriptsOf_unplaced : ∀ e : Expr, scriptsOf e.unplaced = scriptsOf e
  | .literal _ | .range _ _ _ | .generate _ | .action _ | .reference _ _ | .check _ => rfl
  | .sequence es => scriptsOfAll_unplaced es
  | .repetition body _ _ _ | .capture body _ _ => scriptsOf_unplaced body
  | .choice as _ => scriptsOfBranches_unplaced as

theorem scriptsOfAll_unplaced : ∀ es : List Expr, scriptsOfAll (unplacedIn es) = scriptsOfAll es
  | [] => rfl
  | e :: es => by rw [unplacedIn, scriptsOfAll, scriptsOfAll, scriptsOf_unplaced e, scriptsOfAll_unplaced es]

theorem scriptsOfBranches_unplaced :
    ∀ as : List (Alternative Expr), scriptsOfBranches (unplacedBranches as) = scriptsOfBranches as
  | [] => rfl
  | a :: as => by
    rw [unplacedBranches, scriptsOfBranches, scriptsOfBranches, scriptsOf_unplaced a.body, scriptsOfBranches_unplaced as]

end

theorem branchTargets_unplaced (base : Nat) (as : List (Alternative Expr)) :
    branchTargets base (as.map Alternative.unplaced) = branchTargets base as := by
  induction as generalizing base with
  | nil => rfl
  | cons a as ih => rw [List.map_cons, branchTargets, branchTargets, Alternative.unplaced, size_unplaced, ih]

theorem candidates_unplaced (base : Nat) (as : List (Alternative Expr)) :
    candidates base (unplacedBranches as) = candidates base as := by
  rw [unplacedBranches_eq, candidates, candidates, weights_unplaced, branchTargets_unplaced]

variable (t : Symbols)

mutual

theorem emit_unplaced (base : Nat) : ∀ e : Expr, emit t base e.unplaced = emit t base e
  | .literal _ | .range _ _ _ | .generate _ | .action _ | .reference _ _ | .check _ => rfl
  | .sequence es => emitAll_unplaced base es
  | .repetition body least most _ => by
    rw [Expr.unplaced, emit, emit, size_unplaced body, emit_unplaced (base + 1) body]
  | .choice as _ => by
    rw [Expr.unplaced, emit, emit, candidates_unplaced, sizeBranches_unplaced, emitBranches_unplaced _ _ as]
  | .capture body _ _ => by rw [Expr.unplaced, emit, emit, emit_unplaced (base + 1) body]

theorem emitAll_unplaced (base : Nat) : ∀ es : List Expr, emitAll t base (unplacedIn es) = emitAll t base es
  | [] => rfl
  | e :: es => by rw [unplacedIn, emitAll, emitAll, emit_unplaced base e, size_unplaced, emitAll_unplaced _ es]

theorem emitBranches_unplaced (base done : Nat) :
    ∀ as : List (Alternative Expr), emitBranches t base done (unplacedBranches as) = emitBranches t base done as
  | [] => rfl
  | [a] => emit_unplaced base a.body
  | a :: b :: as => by
    have more := emitBranches_unplaced (base + size a.body + 1) done (b :: as)
    change emit t base a.body.unplaced ++ .jump done ::
        emitBranches t (base + size a.body.unplaced + 1) done (unplacedBranches (b :: as)) =
      emit t base a.body ++ .jump done :: emitBranches t (base + size a.body + 1) done (b :: as)
    rw [emit_unplaced base a.body, size_unplaced, more]

end

theorem ruleAddresses_unplaced (base : Nat) (rules : List Rule) :
    ruleAddresses base (rules.map Rule.unplaced) = ruleAddresses base rules := by
  induction rules generalizing base with
  | nil => rfl
  | cons r rules ih => rw [List.map_cons, ruleAddresses, ruleAddresses, Rule.unplaced, size_unplaced, ih]

theorem emitRules_unplaced (base : Nat) (rules : List Rule) :
    emitRules t base (rules.map Rule.unplaced) = emitRules t base rules := by
  induction rules generalizing base with
  | nil => rfl
  | cons r rules ih => rw [List.map_cons, emitRules, emitRules, Rule.unplaced, size_unplaced, emit_unplaced, ih]

theorem entrySize_unplaced (g : Grammar) : entrySize g.unplaced = entrySize g := by
  rw [entrySize, entrySize, Grammar.unplaced, List.isEmpty_map, ← unplacedIn_eq, sizeAll_unplaced]

theorem symbols_unplaced (g : Grammar) : symbols g.unplaced = symbols g := by
  rw [symbols, symbols, bodies_unplaced, literalsOfAll_unplaced, scriptsOfAll_unplaced, entrySize_unplaced,
    Grammar.unplaced, ruleAddresses_unplaced]

theorem emitEntry_unplaced (g : Grammar) : emitEntry t g.unplaced = emitEntry t g := by
  rw [emitEntry, emitEntry, entrySize_unplaced, Grammar.unplaced, List.isEmpty_map, ← unplacedIn_eq, emitAll_unplaced]

end Emission

namespace Program
open Emission Grammar

theorem ofGrammar_unplaced (g : Grammar) : ofGrammar g.unplaced = ofGrammar g := by
  rw [ofGrammar, ofGrammar, symbols_unplaced, emitEntry_unplaced, entrySize_unplaced, Grammar.unplaced, emitRules_unplaced]

theorem compileChars_of_parse {source : List Char} {l : List Item} (h : parse source = .ok l) :
    compileChars source = match (Grammar.ofItems l).fault? (Parsing.Parser.byteLength source) with
      | some (fault, offset) => .error (.ofOffset fault source offset)
      | none => .ok (ofGrammar (.ofItems l)) := by
  rw [compileChars, Grammar.read, h]
  rfl

/-- Sources that are read as the same items, up to their offsets, compile to the same program, or neither compiles. -/
theorem compileChars_of_unplaced {u v : List Char} {l m : List Item} (hu : parse u = .ok l) (hv : parse v = .ok m)
    (same : l.map Item.unplaced = m.map Item.unplaced) (p : Program) : compileChars u = .ok p ↔ compileChars v = .ok p := by
  have grammars : (Grammar.ofItems l).unplaced = (Grammar.ofItems m).unplaced := by
    rw [← ofItems_map_item, ← ofItems_map_item, same]
  have programs : ofGrammar (.ofItems l) = ofGrammar (.ofItems m) := by
    rw [← ofGrammar_unplaced, grammars, ofGrammar_unplaced]
  have faults (i j : Nat) : ((Grammar.ofItems l).fault? i).map Prod.fst = ((Grammar.ofItems m).fault? j).map Prod.fst := by
    rw [← fault?_map_unplaced _ i, grammars, fault?_map_unplaced]
  rw [compileChars_of_parse hu, compileChars_of_parse hv, programs]
  have kinds := faults (Parsing.Parser.byteLength u) (Parsing.Parser.byteLength v)
  generalize (Grammar.ofItems l).fault? _ = x, (Grammar.ofItems m).fault? _ = y at kinds ⊢
  match x, y with
  | none, none => exact Iff.rfl
  | some _, some _ => exact ⟨nofun, nofun⟩

end Program
end TextGrammar
