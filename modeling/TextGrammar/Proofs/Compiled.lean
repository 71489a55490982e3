import TextGrammar.Generator
import TextGrammar.Proofs.Simulation
import TextGrammar.Proofs.ReaderResults
set_option autoImplicit false

namespace TextGrammar

namespace TextPool

theorem mem_foldl_insert (texts : List String) (q : TextPool) (s : String) :
    s ∈ (texts.foldl insert q).texts ↔ s ∈ texts ∨ s ∈ q.texts := by
  induction texts generalizing q with
  | nil => simp
  | cons x texts ih => rw [List.foldl_cons, ih, mem_insert, List.mem_cons, or_left_comm, or_assoc]

theorem mem_ofList (texts : List String) (s : String) : s ∈ (ofList texts).texts ↔ s ∈ texts := by
  rw [ofList, mem_foldl_insert]
  simp [empty]

end TextPool

namespace Grammar

mutual

theorem ordered_of_fault? {names : List String} :
    ∀ e : Expr, e.fault? names = none → e.Every Expr.Ordered
  | .literal _, _ => trivial
  | .range _ _ _, _ => trivial
  | .reference _ _, _ => trivial
  | .generate _, _ => trivial
  | .check _, _ => trivial
  | .action _, _ => trivial
  | .sequence es, h => ⟨trivial, ordered_of_faultInAll? es h⟩
  | .repetition body least none pos, h => ⟨trivial, ordered_of_fault? body h⟩
  | .repetition body least (some most) pos, h => by
    rw [Expr.fault?] at h
    split at h
    · cases h
    · rename_i hm
      exact ⟨UInt32.not_lt.1 hm, ordered_of_fault? body h⟩
  | .choice alternatives pos, h => by
    rw [Expr.fault?] at h
    split at h
    · cases h
    · exact ⟨trivial, ordered_of_faultInAlternatives? alternatives h⟩
  | .capture body name discard, h => ⟨trivial, ordered_of_fault? body h⟩

theorem ordered_of_faultInAll? {names : List String} :
    ∀ es : List Expr, faultInAll? names es = none → EveryIn Expr.Ordered es
  | [], _ => trivial
  | e :: es, h => by
    rw [faultInAll?, Option.or_eq_none_iff] at h
    exact ⟨ordered_of_fault? e h.1, ordered_of_faultInAll? es h.2⟩

theorem ordered_of_faultInAlternatives? {names : List String} :
    ∀ as : List (Alternative Expr), faultInAlternatives? names as = none → EveryBranch Expr.Ordered as
  | [], _ => trivial
  | a :: as, h => by
    rw [faultInAlternatives?, Option.or_eq_none_iff] at h
    exact ⟨ordered_of_fault? a.body h.1, ordered_of_faultInAlternatives? as h.2⟩

end

/-- Everything in a grammar can be carried out, and there is something in it. -/
structure Sound (g : Grammar) : Prop where
  feasible : ∀ e ∈ g.entry ++ g.rules.map Rule.body, e.Every Expr.Feasible
  nonempty : g.entry ≠ [] ∨ g.rules ≠ []

theorem Sound.rule {g : Grammar} (hg : g.Sound) (name : String) (body : Expr) (h : g.rule? name = some body) :
    body.Every Expr.Feasible := by
  obtain ⟨r, hr, rfl⟩ := Option.map_eq_some_iff.1 h
  exact hg.feasible _ (List.mem_append_right _ (List.mem_map_of_mem (List.mem_of_find?_eq_some hr)))

theorem Sound.start_items {g : Grammar} (hg : g.Sound) : (Expr.sequence g.entry).Every Expr.Feasible :=
  ⟨⟨trivial, trivial⟩, everyIn_iff.2 fun e he => hg.feasible e (List.mem_append_left _ he)⟩

theorem Sound.start {g : Grammar} (hg : g.Sound) {start : Option String} {e : Expr} (h : g.start? start = some e) :
    e.Every Expr.Feasible := by
  cases start with
  | some name => exact hg.rule name e h
  | none =>
    simp only [start?] at h
    split at h
    · cases h
      exact ⟨trivial, trivial⟩
    · cases h
      exact hg.start_items

theorem sound_of_fault? {g : Grammar} {length : Nat} (h : g.fault? length = none)
    (filled : ∀ e ∈ g.entry ++ g.rules.map Rule.body, Filled e) : g.Sound := by
  rw [fault?, Option.or_eq_none_iff] at h
  obtain ⟨-, h⟩ := h
  split at h
  · cases h
  · rename_i h0
    refine ⟨fun e he => ?_, ?_⟩
    · exact every_and e (everyIn_iff.1 (ordered_of_faultInAll? _ h) e he) (filled e he)
    · simp only [isEmpty, Bool.and_eq_true, List.isEmpty_iff, not_and_or] at h0
      exact h0.symm

end Grammar

namespace Emission
open Grammar

variable {p : Program} {t : Symbols} {g : Grammar} {base : Nat} {name : String}

theorem literalsOfAll_eq (es : List Expr) : literalsOfAll es = es.flatMap literalsOf := by
  induction es with
  | nil => rfl
  | cons e es ih => rw [literalsOfAll, ih, List.flatMap_cons]

theorem scriptsOfAll_eq (es : List Expr) : scriptsOfAll es = es.flatMap scriptsOf := by
  induction es with
  | nil => rfl
  | cons e es ih => rw [scriptsOfAll, ih, List.flatMap_cons]

theorem placed_of_texts {a : Nat} {e : Expr} (code : CodeAt (.ofGrammar g) a (emit (symbols g) a e))
    (literals : literalsOf e ⊆ literalsOfAll (g.entry ++ g.rules.map Rule.body))
    (scripts : scriptsOf e ⊆ scriptsOfAll (g.entry ++ g.rules.map Rule.body)) (feasible : e.Every Expr.Feasible) :
    Placed (.ofGrammar g) (symbols g) a e where
  code := code
  literals s hs := by
    rw [Program.ofGrammar, List.getElem?_toArray]
    exact TextPool.getElem?_indexOf _ s ((TextPool.mem_ofList _ s).2 (literals hs))
  scripts s hs := by
    rw [Program.ofGrammar, List.getElem?_toArray]
    exact TextPool.getElem?_indexOf _ s ((TextPool.mem_ofList _ s).2 (scripts hs))
  feasible := feasible

theorem placed_of_mem {a : Nat} {e : Expr} (hg : g.Sound) (he : e ∈ g.entry ++ g.rules.map Rule.body)
    (code : CodeAt (.ofGrammar g) a (emit (symbols g) a e)) : Placed (.ofGrammar g) (symbols g) a e := by
  refine placed_of_texts code ?_ ?_ (hg.feasible e he)
  · rw [literalsOfAll_eq]
    exact fun s hs => List.mem_flatMap.2 ⟨e, he, hs⟩
  · rw [scriptsOfAll_eq]
    exact fun s hs => List.mem_flatMap.2 ⟨e, he, hs⟩

theorem placed_entry (hg : g.Sound) (code : CodeAt (.ofGrammar g) 0 (emitAll (symbols g) 0 g.entry)) :
    Placed (.ofGrammar g) (symbols g) 0 (.sequence g.entry) := by
  refine placed_of_texts code ?_ ?_ hg.start_items
  · rw [literalsOfAll_eq, List.flatMap_append, ← literalsOfAll_eq]
    exact List.subset_append_left _ _
  · rw [scriptsOfAll_eq, List.flatMap_append, ← scriptsOfAll_eq]
    exact List.subset_append_left _ _

theorem length_emitEntry (t : Symbols) (g : Grammar) : (emitEntry t g).length = entrySize g := by
  rw [emitEntry, entrySize]
  split
  · rfl
  · exact length_emitAll t 0 g.entry

theorem ofGrammar_code (g : Grammar) : (Program.ofGrammar g).code.toList =
    emitEntry (symbols g) g ++ .halt :: emitRules (symbols g) (entrySize g + 1) g.rules := rfl

theorem entry_codeAt (g : Grammar) : CodeAt (.ofGrammar g) 0 (emitEntry (symbols g) g) :=
  @codeAt_of_append (.ofGrammar g) [] _ (.halt :: emitRules (symbols g) (entrySize g + 1) g.rules) rfl

theorem halt_codeAt (g : Grammar) : (Program.ofGrammar g).code[entrySize g]? = some .halt := by
  rw [← Array.getElem?_toList, ofGrammar_code, ← length_emitEntry (symbols g),
    List.getElem?_append_right (Nat.le_refl _), Nat.sub_self, List.getElem?_cons_zero]

theorem rules_codeAt (g : Grammar) :
    CodeAt (.ofGrammar g) (entrySize g + 1) (emitRules (symbols g) (entrySize g + 1) g.rules) := by
  have h := @codeAt_of_append (.ofGrammar g) (emitEntry (symbols g) g ++ [.halt])
    (emitRules (symbols g) (entrySize g + 1) g.rules) [] (by rw [ofGrammar_code]; simp)
  rwa [List.length_append, length_emitEntry] at h

/-- A lookup among the addresses finds the code of the rule that a search by name finds. -/
theorem lookup_ruleAddresses {rs : List Rule} (code : CodeAt p base (emitRules t base rs)) :
    (∀ r, rs.find? (fun r => r.name == name) = some r → ∃ a, (ruleAddresses base rs).lookup name = some a ∧
      CodeAt p a (emit t a r.body) ∧ p.code[a + size r.body]? = some .ret) ∧
    (rs.find? (fun r => r.name == name) = none → (ruleAddresses base rs).lookup name = none) := by
  induction rs generalizing base with
  | nil => exact ⟨fun r h => (by cases h), fun _ => rfl⟩
  | cons x rs ih =>
    simp only [emitRules, codeAt_append, CodeAt, length_emit] at code
    rw [ruleAddresses, List.find?_cons, List.lookup_cons]
    by_cases hx : x.name = name
    · have here : (x.name == name) = true := by simpa using hx
      have here' : (name == x.name) = true := by simpa using hx.symm
      rw [here, here']
      refine ⟨fun r hr => ?_, fun h => by cases h⟩
      cases hr
      exact ⟨base, rfl, code.1, code.2.1⟩
    · have other : (x.name == name) = false := by simpa using hx
      have other' : (name == x.name) = false := by simpa using fun h => hx h.symm
      rw [other, other']
      exact ih code.2.2

theorem rulesPlaced (hg : g.Sound) : RulesPlaced (.ofGrammar g) (symbols g) g where
  some name body h := by
    obtain ⟨r, hr, rfl⟩ := Option.map_eq_some_iff.1 h
    obtain ⟨a, found, code, ret⟩ := (lookup_ruleAddresses (rules_codeAt g)).1 r hr
    refine ⟨a, found, placed_of_mem hg ?_ code, ret⟩
    exact List.mem_append_right _ (List.mem_map_of_mem (List.mem_of_find?_eq_some hr))
  none name h := (lookup_ruleAddresses (rules_codeAt g)).2 (Option.map_eq_none_iff.1 h)

end Emission

namespace Program
open Grammar Emission

/-- The address at which a run starts: none for the entry, or that of a rule. -/
def start? (p : Program) : Option String → Option (Option Nat)
  | none => some none
  | some name => (p.rule? name).map some

theorem read_of_compile {source : String} {p : Program} (h : compile source = .ok p) :
    ∃ g, Grammar.read source.toList = .ok g ∧ g.fault? (Parsing.Parser.byteLength source.toList) = none ∧
      p = ofGrammar g := by
  unfold compile compileChars at h
  cases hr : Grammar.read source.toList with
  | error e => rw [hr] at h; cases h
  | ok g =>
    rw [hr] at h
    simp only [bind, Except.bind] at h
    cases hf : g.fault? (Parsing.Parser.byteLength source.toList) with
    | some fault => rw [hf] at h; cases h
    | none =>
      rw [hf] at h
      cases h
      exact ⟨g, rfl, hf, rfl⟩

theorem compile_eq_ok {source : String} {p : Program} (h : compile source = .ok p) :
    ∃ g, Grammar.read source.toList = .ok g ∧ g.Sound ∧ p = ofGrammar g := by
  obtain ⟨g, hr, hf, hp⟩ := read_of_compile h
  exact ⟨g, hr, sound_of_fault? hf (filled_of_read hr), hp⟩

theorem exists_compile {α : Type} {source : String} {f : Program → α} {a : α}
    (h : (compile source).toOption.map f = some a) : ∃ p, compile source = .ok p ∧ f p = a := by
  cases hp : compile source with
  | error fault =>
    rw [hp] at h
    cases h
  | ok p =>
    rw [hp] at h
    exact ⟨p, rfl, Option.some.inj h⟩

/-- A source whose run was found to end with a result and some output. -/
theorem exists_run {σ ε : Type} [Sink σ] [Evaluator ε] {source : String} {steps : Nat} {sink out : σ} {evaluator : ε}
    {entropy : Entropy} {b : Bool} (h : ((compile source).toOption.bind fun p =>
      (Machine.run p steps (Machine.initial p none sink evaluator entropy)).bind fun x =>
        x.result.toOption.map fun b => (b, x.state.sink)) = some (b, out)) :
    ∃ p s, compile source = .ok p ∧
      Machine.run p steps (Machine.initial p none sink evaluator entropy) = some ⟨.ok b, s⟩ ∧ s.sink = out := by
  cases hp : compile source with
  | error e =>
    rw [hp] at h
    cases h
  | ok p =>
    rw [hp] at h
    change (Machine.run p steps _).bind _ = _ at h
    obtain ⟨⟨result, s⟩, hrun, hx⟩ := Option.bind_eq_some_iff.1 h
    cases result with
    | error fault => cases hx
    | ok b' =>
      cases hx
      exact ⟨p, s, rfl, hrun, rfl⟩

theorem exists_attempt {σ ε : Type} [Sink σ] [Evaluator ε] {source : String} {steps : Nat} {sink out : σ}
    {evaluator : ε} {entropy left : Entropy} {result : Except RunFault Bool} (h : ((compile source).toOption.bind fun p =>
      ((Generator.new p evaluator).generate steps sink entropy).map fun a => (a.result, a.sink, a.entropy)) =
        some (result, out, left)) :
    ∃ p a, compile source = .ok p ∧ (Generator.new p evaluator).generate steps sink entropy = some a ∧
      a.result = result ∧ a.sink = out ∧ a.entropy = left := by
  cases hp : compile source with
  | error e =>
    rw [hp] at h
    cases h
  | ok p =>
    rw [hp] at h
    change ((Generator.new p evaluator).generate steps sink entropy).map _ = _ at h
    obtain ⟨a, ha, parts⟩ := Option.map_eq_some_iff.1 h
    cases parts
    exact ⟨p, a, rfl, ha, rfl, rfl, rfl⟩

end Program

namespace Machine
open Grammar Emission Meaning

variable {σ ε : Type} [Sink σ] [Evaluator ε]

/-- Wherever a run starts, it comes to the halt with nothing on the stack if what it expands is done. -/
theorem leads_initial {g : Grammar} {start : Option String} {address : Option Nat} (hg : g.Sound)
    (ha : (Program.ofGrammar g).start? start = some address) (sink : σ) (evaluator : ε) (entropy : Entropy) :
    ∃ e, g.start? start = some e ∧ ∀ fuel, Leads (.ofGrammar g) (initial (.ofGrammar g) address sink evaluator entropy)
      fuel (entrySize g) [] (Meaning.run g fuel e ⟨[], sink, evaluator, entropy⟩) := by
  have realizes : ∀ fuel, Realizes (.ofGrammar g) (symbols g) fuel (Meaning.run g fuel : Runner σ ε) :=
    realizes_run (rulesPlaced hg)
  cases start with
  | some name =>
    obtain ⟨a, found, rfl⟩ := Option.map_eq_some_iff.1 ha
    obtain ⟨found_of, none_of⟩ := @lookup_ruleAddresses _ _ _ name g.rules (rules_codeAt g)
    cases hr : g.rules.find? fun r => r.name == name with
    | none =>
      have missing := none_of hr
      rw [show (ruleAddresses (entrySize g + 1) g.rules).lookup name = some a from found] at missing
      cases missing
    | some r =>
      obtain ⟨a', found', code, ret⟩ := found_of r hr
      obtain rfl : a' = a := Option.some.inj (found'.symm.trans found)
      have placed := placed_of_mem hg
        (List.mem_append_right _ (List.mem_map_of_mem (List.mem_of_find?_eq_some hr))) code
      refine ⟨r.body, by simp only [start?, rule?, hr, Option.map_some], fun fuel => ?_⟩
      rw [← andThen_done (Meaning.run g fuel r.body _)]
      refine (realizes fuel r.body a' [.address (entrySize g)] ⟨[], sink, evaluator, entropy⟩ placed).andThen rfl ?_
      exact fun w => .pass ret ⟨_, _, rfl⟩ rfl (.arrived w)
  | none =>
    cases ha
    have code := entry_codeAt g
    unfold emitEntry at code
    cases he : g.entry with
    | cons e es =>
      have some_entry : g.entry.isEmpty = false := by rw [he]; rfl
      rw [if_neg (by rw [some_entry]; decide)] at code
      have size_eq : entrySize g = size (.sequence g.entry) := by
        rw [entrySize, if_neg (by rw [some_entry]; decide), size]
      refine ⟨.sequence g.entry, by simp only [start?, he], fun fuel => ?_⟩
      have leads := realizes fuel (.sequence g.entry) 0 [] ⟨[], sink, evaluator, entropy⟩ (placed_entry hg code)
      rwa [Nat.zero_add, ← size_eq] at leads
    | nil =>
      have no_entry : g.entry.isEmpty = true := by rw [he]; rfl
      rw [if_pos no_entry] at code
      cases hr : g.rules with
      | nil => exact absurd hg.nonempty (by simp [he, hr])
      | cons r rs =>
        have first : (symbols g).callOf r.name = .call (entrySize g + 1) := by
          simp [Symbols.callOf, symbols, hr, ruleAddresses]
        have placed : Placed (.ofGrammar g) (symbols g) 0 (.reference r.name r.pos) :=
          placed_of_texts (by rwa [emit, first]) (List.nil_subset _) (List.nil_subset _) ⟨trivial, trivial⟩
        refine ⟨.reference r.name r.pos, by simp only [start?, he, hr], fun fuel => ?_⟩
        have leads := realizes fuel _ 0 [] ⟨[], sink, evaluator, entropy⟩ placed
        rwa [show 0 + size (.reference r.name r.pos) = entrySize g by rw [entrySize, if_pos no_entry, size]] at leads

end Machine
end TextGrammar
