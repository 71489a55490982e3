import TextGrammar.Proofs.Interning
import TextGrammar.Proofs.ExpressionCode
set_option autoImplicit false

namespace TextGrammar

def Program.texts (p : Program) : TextKind → Array String
  | .literal => p.literals
  | .script => p.scripts

namespace Grammar

theorem partsOfAll_append (es es' : List Expr) : partsOfAll (es ++ es') = partsOfAll es ++ partsOfAll es' := by
  induction es with
  | nil => rfl
  | cons e es ih => rw [List.cons_append, partsOfAll, partsOfAll, ih, List.append_assoc]

theorem exists_parts (e : Expr) : ∃ more, e.parts = e :: more := by
  cases e <;> exact ⟨_, rfl⟩

end Grammar

namespace Emission
open Grammar

mutual

theorem textsOf_parts : ∀ e : Expr, literalsOf e = e.parts.filterMap (Expr.textIn? .literal) ∧
    scriptsOf e = e.parts.filterMap (Expr.textIn? .script)
  | .literal _ | .reference _ _ | .generate _ | .check _ | .action _ => ⟨rfl, rfl⟩
  | .range low high pos => by
    refine ⟨?_, rfl⟩
    rw [literalsOf, Expr.parts, List.filterMap_cons, Expr.textIn?]
    cases span low high <;> rfl
  | .sequence es => textsOfAll_parts es
  | .repetition body _ _ _ => textsOf_parts body
  | .choice alternatives _ => textsOfBranches_parts alternatives
  | .capture body _ _ => textsOf_parts body

theorem textsOfAll_parts : ∀ es : List Expr, literalsOfAll es = (partsOfAll es).filterMap (Expr.textIn? .literal) ∧
    scriptsOfAll es = (partsOfAll es).filterMap (Expr.textIn? .script)
  | [] => ⟨rfl, rfl⟩
  | e :: es => by
    obtain ⟨literals, scripts⟩ := textsOf_parts e
    obtain ⟨more_literals, more_scripts⟩ := textsOfAll_parts es
    rw [literalsOfAll, scriptsOfAll, partsOfAll, List.filterMap_append, List.filterMap_append]
    exact ⟨by rw [literals, more_literals], by rw [scripts, more_scripts]⟩

theorem textsOfBranches_parts : ∀ as : List (Alternative Expr),
    literalsOfBranches as = (partsOfBranches as).filterMap (Expr.textIn? .literal) ∧
      scriptsOfBranches as = (partsOfBranches as).filterMap (Expr.textIn? .script)
  | [] => ⟨rfl, rfl⟩
  | a :: as => by
    obtain ⟨literals, scripts⟩ := textsOf_parts a.body
    obtain ⟨more_literals, more_scripts⟩ := textsOfBranches_parts as
    rw [literalsOfBranches, scriptsOfBranches, partsOfBranches, List.filterMap_append, List.filterMap_append]
    exact ⟨by rw [literals, more_literals], by rw [scripts, more_scripts]⟩

end

theorem texts_ofGrammar (g : Grammar) (kind : TextKind) :
    ((Program.ofGrammar g).texts kind).toList = (Interner.after (g.parts.filterMap (Expr.textIn? kind))).texts := by
  obtain ⟨literals, scripts⟩ := textsOfAll_parts (g.entry ++ g.rules.map Rule.body)
  have interned : ∀ calls, (Interner.after calls).texts = (TextPool.ofList calls).texts :=
    fun calls => congrArg TextPool.texts (Interner.pool_after calls)
  rw [interned, Grammar.parts]
  cases kind with
  | literal =>
    rw [← literals]
    rfl
  | script =>
    rw [← scripts]
    rfl

end Emission

namespace Assembly
open Grammar Emission

/-- While a list of items is assembled, the pass comes to an expression with a draft. -/
inductive ReachesIn (items : List Item) (length : Nat) (kept : Bool) (x : Expr) (dx : Draft) : Prop
  | entry {d : Draft} (declared : declare (ofItems items).rules .empty = .ok d)
      (inside : ReachesAll kept (ofItems items).entry d x dx)
  | rules {d d₁ : Draft} (declared : declare (ofItems items).rules .empty = .ok d)
      (entered : emitEntry (ofItems items) length d = .ok d₁)
      (inside : ReachesRules kept (ofItems items).rules (d₁.push .halt) x dx)

/-- How the texts that a program names go with the expressions that it was assembled for. -/
structure Origins (items : List Item) (length : Nat) (p : Program) : Prop where
  /-- The pools are what interning the texts of the grammar in their order comes to, those of dropped code among them. -/
  pools : ∀ kind, (p.texts kind).toList =
    (Interner.after ((ofItems items).parts.filterMap (Expr.textIn? kind))).texts
  /-- The pass comes to every expression. -/
  reached : ∀ x ∈ (ofItems items).parts, ∃ kept d, ReachesIn items length kept x d
  /-- By then, just the texts of the expressions before it have been interned. -/
  interned : ∀ kept x d, ReachesIn items length kept x d → ∃ before behind,
    (ofItems items).parts = before ++ x :: behind ∧
      ∀ kind, d.pool kind = (Interner.after (before.filterMap (Expr.textIn? kind))).pool
  /-- The index that is returned for the text of the expression names this text in the end, also if the code is dropped. -/
  refers : ∀ kept x d kind s, ReachesIn items length kept x d → x.textIn? kind = some s →
    (p.texts kind)[((d.pool kind).intern s).1]? = some s
  /-- Where code is kept, the instruction at the address that the pass has come to has this index. -/
  stands : ∀ x d kind s, ReachesIn items length true x d → x.textIn? kind = some s →
    p.code[d.code.length]?.bind (Instruction.indexIn? kind) = some ((d.pool kind).intern s).1
  /-- Every instruction that names a text was emitted for an expression with this text. -/
  emitted : ∀ a kind i, p.code[a]?.bind (Instruction.indexIn? kind) = some i →
    ∃ x d s, ReachesIn items length true x d ∧ d.code.length = a ∧ x.textIn? kind = some s ∧
      i = ((d.pool kind).intern s).1 ∧ (p.texts kind)[i]? = some s

variable {kept : Bool} {kind : TextKind} {s : String} {e x : Expr} {d d' d₁ d₂ dx : Draft} {length : Nat} {items : List Item}
  {p : Program}

theorem knows_own (d : Draft) : Knows (d.rules.map Prod.fst) d := by
  intro name
  induction d.rules with
  | nil => rfl
  | cons r rs ih =>
    rw [List.map_cons, List.contains_cons, List.lookup_cons, ih]
    cases name == r.1 <;> rfl

theorem Reports.of_ok {α : Type} {fault? : Option Fault} {a : α} {P : α → Prop} (h : Reports fault? (.ok a) P) : P a := by
  cases fault? with
  | some fault => cases h
  | none =>
    obtain ⟨_, same, holds⟩ := h
    cases same
    exact holds

/-- The pass has come from one draft to another over some expressions, the texts of which it has interned. -/
def Passed (before : List Expr) (d dx : Draft) : Prop :=
  ∀ kind, dx.pool kind = (before.filterMap (Expr.textIn? kind)).foldl TextPool.insert (d.pool kind)

theorem Passed.append {es es' : List Expr} (h : Passed es d d₁) (h' : Passed es' d₁ d₂) : Passed (es ++ es') d d₂ := by
  intro kind
  rw [h' kind, h kind, List.filterMap_append, List.foldl_append]

theorem Bare.passed (h : Bare d d₁) : Passed [] d d₁ := h.pools

theorem emit_passed (h : emit e d = .ok d') : Passed e.parts d d' := by
  have reports := assembles e d (knows_own d)
  rw [h] at reports
  have grows := reports.of_ok.grows
  obtain ⟨literals, scripts⟩ := textsOf_parts e
  intro kind
  cases kind with
  | literal => exact literals ▸ grows.literals
  | script => exact scripts ▸ grows.scripts

theorem emitAll_passed (es : List Expr) (h : emitAll es d = .ok d') : Passed (partsOfAll es) d d' := by
  induction es generalizing d with
  | nil =>
    cases h
    exact (Bare.refl _).passed
  | cons e es ih =>
    obtain ⟨d₁, first, rest⟩ := bind_eq_ok h
    exact (emit_passed first).append (ih rest)

/-- The pass has come to one of some expressions, and has interned the texts of those before it. -/
def Amid (es : List Expr) (d : Draft) (x : Expr) (dx : Draft) : Prop :=
  ∃ before behind, es = before ++ x.parts ++ behind ∧ Passed before d dx

theorem amid_self (d : Draft) (x : Expr) : Amid x.parts d x d :=
  ⟨[], [], (List.append_nil _).symm, (Bare.refl d).passed⟩

theorem Amid.earlier {es : List Expr} (h : Amid es d x dx) (es' : List Expr) : Amid (es ++ es') d x dx := by
  obtain ⟨before, behind, rfl, passed⟩ := h
  exact ⟨before, behind ++ es', List.append_assoc _ _ _, passed⟩

theorem Amid.later {es es' : List Expr} (h : Amid es' d₁ x dx) (passed : Passed es d d₁) : Amid (es ++ es') d x dx := by
  obtain ⟨before, behind, rfl, further⟩ := h
  refine ⟨es ++ before, behind, ?_, passed.append further⟩
  rw [List.append_assoc, List.append_assoc, List.append_assoc]

theorem Amid.opened {es : List Expr} (h : Amid es d₁ x dx) (opened : Bare d d₁) : Amid es d x dx := h.later opened.passed

theorem Amid.inside {es : List Expr} (h : Amid es d₁ x dx) (opened : Bare d d₁) (e : Expr)
    (literal : e.textIn? .literal = none) (script : e.textIn? .script = none) : Amid (e :: es) d x dx := by
  have passed : Passed [e] d d₁ := fun kind => by
    rw [opened.pools]
    cases kind with
    | literal => rw [List.filterMap_cons, literal]; rfl
    | script => rw [List.filterMap_cons, script]; rfl
  exact h.later passed

mutual

theorem Reaches.amid : ∀ {kept : Bool} {e x : Expr} {d dx : Draft}, Reaches kept e d x dx → Amid e.parts d x dx
  | _, _, _, _, _, .self e d => amid_self d e
  | _, .sequence _, _, d, _, .sequence inside => inside.amid.inside (Bare.refl d) _ rfl rfl
  | _, .repetition _ _ _ _, _, d, _, .dropped _ inside => inside.amid.inside (Bare.refl d) _ rfl rfl
  | _, .repetition _ _ _ _, _, d, _, .repetition _ inside => inside.amid.inside (bare_subroutine d) _ rfl rfl
  | _, .choice _ _, _, d, _, .choice inside => inside.amid.inside (bare_dispatch d _) _ rfl rfl
  | _, .capture _ _ _, _, d, _, .capture inside => inside.amid.inside ((Bare.refl d).push rfl rfl) _ rfl rfl

theorem ReachesAll.amid : ∀ {kept : Bool} {es : List Expr} {x : Expr} {d dx : Draft}, ReachesAll kept es d x dx →
    Amid (partsOfAll es) d x dx
  | _, _ :: es, _, _, _, .here inside => inside.amid.earlier (partsOfAll es)
  | _, _, _, _, _, .later first inside => inside.amid.later (emit_passed first)

theorem ReachesBranches.amid : ∀ {kept : Bool} {done next : Label} {as : List (Alternative Expr)} {x : Expr}
    {d dx : Draft}, ReachesBranches kept done next as d x dx → Amid (partsOfBranches as) d x dx
  | _, _, _, _ :: as, _, d, _, .here inside => (inside.amid.opened (Bare.refl d).bind).earlier (partsOfBranches as)
  | _, _, _, _, _, d, _, .later first inside =>
    ((inside.amid.opened ((Bare.refl _).push rfl rfl)).later (emit_passed first)).opened (Bare.refl d).bind

end

theorem ReachesRules.amid {rs : List Rule} (reached : ReachesRules kept rs d x dx) :
    Amid (partsOfAll (rs.map Rule.body)) d x dx := by
  induction reached with
  | @here r rs x l d dx labelled inside =>
    exact (inside.amid.opened (Bare.refl d).bind).earlier (partsOfAll (rs.map Rule.body))
  | @later r rs x l d d₁ dx labelled first _ ih =>
    have closed : Bare d₁ (d₁.push .ret) := (Bare.refl d₁).push rfl rfl
    exact ((ih.opened closed).later (emit_passed first)).opened (Bare.refl d).bind

theorem indexIn?_resolve {L : List (Option Nat)} {i i' : Instruction} (h : resolveInstruction L i = some i')
    (kind : TextKind) : i'.indexIn? kind = i.indexIn? kind := by
  cases i with
  | pushCandidates cs =>
    obtain ⟨cs', -, rfl⟩ := Option.map_eq_some_iff.1 h
    cases kind <;> rfl
  | jumpIfZero l | jumpIf l | flip l | jump l | call l | pushRescuePoint l =>
    obtain ⟨a, -, rfl⟩ := Option.map_eq_some_iff.1 h
    cases kind <;> rfl
  | _ =>
    cases h
    rfl

theorem named_resolve {L : List (Option Nat)} {code code' : List Instruction} (h : resolve L code = some code') (a : Nat)
    (kind : TextKind) : code'[a]?.bind (Instruction.indexIn? kind) = code[a]?.bind (Instruction.indexIn? kind) := by
  induction code generalizing code' a with
  | nil =>
    cases h
    rfl
  | cons i code ih =>
    rw [resolve, List.mapM_cons] at h
    obtain ⟨i', first, h⟩ := Option.bind_eq_some_iff.1 h
    obtain ⟨rest, resolved, h⟩ := Option.bind_eq_some_iff.1 h
    cases h
    cases a with
    | zero => exact indexIn?_resolve first kind
    | succ a => exact ih resolved a

theorem named_link {rules : List Rule} {haltAt : Nat} (h : link rules haltAt d = .ok p) (a : Nat) :
    p.code[a]?.bind (Instruction.indexIn? kind) = d.code[a]?.bind (Instruction.indexIn? kind) := by
  unfold link at h
  split at h
  · rename_i code addresses resolved _
    cases h
    rw [List.getElem?_toArray, named_resolve resolved]
  · cases h

theorem assemble_eq_ok (h : assemble items length = .ok p) : ∃ d d₁ d₂, declare (ofItems items).rules .empty = .ok d ∧
    emitEntry (ofItems items) length d = .ok d₁ ∧ emitRules (ofItems items).rules (d₁.push .halt) = .ok d₂ ∧
    link (ofItems items).rules d₁.code.length d₂ = .ok p := by
  obtain ⟨d, declared, h⟩ := bind_eq_ok h
  obtain ⟨d₁, entered, h⟩ := bind_eq_ok h
  obtain ⟨d₂, defined, h⟩ := bind_eq_ok h
  exact ⟨d, d₁, d₂, declared, entered, defined, h⟩

theorem declare_eq_ok {rs : List Rule} (h : declare rs .empty = .ok d) : Declares rs .empty d := by
  have none_yet : Knows [] .empty := fun _ => rfl
  have reports := declares rs .empty none_yet
  rw [h] at reports
  exact reports.of_ok

theorem ofGrammar_of_assemble (h : assemble items length = .ok p) : p = .ofGrammar (ofItems items) := by
  have reports := assemble_reports items length
  rw [h] at reports
  exact reports.of_ok

theorem reached_of_assemble (h : assemble items length = .ok p) :
    ∀ x ∈ (ofItems items).parts, ∃ kept dx, ReachesIn items length kept x dx := by
  obtain ⟨d, d₁, d₂, declared, entered, defined, -⟩ := assemble_eq_ok h
  rw [Grammar.parts, partsOfAll_append]
  refine List.forall_mem_append.2 ⟨fun x hx => ?_, fun x hx => ?_⟩
  · rcases emitEntry_eq_ok entered with ⟨none_bare, -⟩ | emitted
    · rw [none_bare] at hx
      cases hx
    · obtain ⟨kept, dx, inside⟩ := exists_reachesAll _ emitted x hx
      exact ⟨kept, dx, .entry declared inside⟩
  · obtain ⟨kept, dx, inside⟩ := exists_reachesRules _ defined x hx
    exact ⟨kept, dx, .rules declared entered inside⟩

theorem ReachesIn.amid (reached : ReachesIn items length kept x dx) : ∃ d, declare (ofItems items).rules .empty = .ok d ∧
    Amid (ofItems items).parts d x dx := by
  rw [Grammar.parts, partsOfAll_append]
  cases reached with
  | entry declared inside => exact ⟨_, declared, inside.amid.earlier _⟩
  | @rules d d₁ declared entered inside =>
    have entry : Passed (partsOfAll (ofItems items).entry) d d₁ := by
      rcases emitEntry_eq_ok entered with ⟨none_bare, called⟩ | emitted
      · rw [none_bare]
        exact called.passed
      · exact emitAll_passed _ emitted
    have halted : Bare d₁ (d₁.push .halt) := (Bare.refl d₁).push rfl rfl
    exact ⟨d, declared, (inside.amid.opened halted).later entry⟩

/-- The pools are empty at first, so they hold just what has been interned. -/
theorem ReachesIn.interned (reached : ReachesIn items length kept x dx) : ∃ before behind,
    (ofItems items).parts = before ++ x :: behind ∧
      ∀ kind, dx.pool kind = (Interner.after (before.filterMap (Expr.textIn? kind))).pool := by
  obtain ⟨d, declared, before, behind, parts, passed⟩ := reached.amid
  obtain ⟨more, whole⟩ := exists_parts x
  refine ⟨before, more ++ behind, by rw [parts, whole, List.append_assoc, List.cons_append], fun kind => ?_⟩
  have nothing : d.pool kind = .empty := by
    cases kind with
    | literal => exact (declare_eq_ok declared).literals
    | script => exact (declare_eq_ok declared).scripts
  rw [passed kind, nothing, Interner.pool_after, TextPool.ofList]

/-- What the pass got for the text of an expression is what an interner returns when the text is interned in its turn. -/
theorem refers_of_assemble (h : assemble items length = .ok p) (reached : ReachesIn items length kept x dx)
    (text : x.textIn? kind = some s) : (p.texts kind)[((dx.pool kind).intern s).1]? = some s := by
  obtain ⟨before, behind, parts, pool⟩ := reached.interned
  -- the call for this text comes behind those for the texts before it, and all the others are later calls
  rw [← Array.getElem?_toList, ofGrammar_of_assemble h, texts_ofGrammar, parts, List.filterMap_append,
    List.filterMap_cons, text, pool kind, Interner.pool_intern]
  exact Interner.refers_after _ s _

/-- Kept code is in the draft that the program is linked from. -/
theorem ReachesIn.kept_code (reached : ReachesIn items length true x dx) (h : assemble items length = .ok p) :
    ∃ d' haltAt, Kept x dx d' ∧ link (ofItems items).rules haltAt d' = .ok p := by
  obtain ⟨d, d₁, d₂, declared, entered, defined, linked⟩ := assemble_eq_ok h
  refine ⟨d₂, _, ?_, linked⟩
  cases reached with
  | entry declared' inside =>
    rw [declared] at declared'
    cases declared'
    rcases emitEntry_eq_ok entered with ⟨none_bare, -⟩ | emitted
    · rw [none_bare] at inside
      cases inside
    · have halted : Bare d₁ (d₁.push .halt) := (Bare.refl d₁).push rfl rfl
      exact ((inside.kept_code emitted).trans halted.grows).trans (emitRules_traced _ defined).grows
  | rules declared' entered' inside =>
    rw [declared] at declared'
    cases declared'
    rw [entered] at entered'
    cases entered'
    exact inside.kept_code defined

theorem stands_of_assemble (h : assemble items length = .ok p) (reached : ReachesIn items length true x dx)
    (text : x.textIn? kind = some s) :
    p.code[dx.code.length]?.bind (Instruction.indexIn? kind) = some ((dx.pool kind).intern s).1 := by
  obtain ⟨d', _, ⟨dx', there, behind, whole⟩, linked⟩ := reached.kept_code h
  obtain ⟨i, more, code, index, -⟩ := opens_of_text kind text there
  rw [named_link linked, ← whole, code]
  simpa using (index kind _).2 ⟨rfl, rfl⟩

theorem emitted_of_assemble (h : assemble items length = .ok p) {a n : Nat}
    (found : p.code[a]?.bind (Instruction.indexIn? kind) = some n) :
    ∃ x dx s, ReachesIn items length true x dx ∧ dx.code.length = a ∧ x.textIn? kind = some s ∧
      n = ((dx.pool kind).intern s).1 := by
  obtain ⟨d, d₁, d₂, declared, entered, defined, linked⟩ := assemble_eq_ok h
  have entry : Traced (ReachesIn items length true) d d₁ := (emitEntry_traced entered).mono fun _ _ => .entry declared
  have halted : Bare d₁ (d₁.push .halt) := (Bare.refl d₁).push rfl rfl
  have rules : Traced (ReachesIn items length true) (d₁.push .halt) d₂ :=
    (emitRules_traced _ defined).mono fun _ _ => .rules declared entered
  have begins : d.code = [] := (declare_eq_ok declared).code
  rw [named_link linked] at found
  exact ((entry.trans halted.traced).trans rules).named a kind n (by simp [begins]) found

theorem origins_of_assemble (h : assemble items length = .ok p) : Origins items length p where
  pools kind := by rw [ofGrammar_of_assemble h, texts_ofGrammar]
  reached := reached_of_assemble h
  interned _ _ _ reached := reached.interned
  refers _ _ _ _ _ reached text := refers_of_assemble h reached text
  stands _ _ _ _ reached text := stands_of_assemble h reached text
  emitted a kind n found := by
    obtain ⟨x, dx, s, reached, here, text, rfl⟩ := emitted_of_assemble h found
    exact ⟨x, dx, s, reached, here, text, rfl, refers_of_assemble h reached text⟩

end Assembly

open Parsing.Parser in
/-- The index that is returned for a text names it from then on, is returned for no other text, and is returned for this one
whenever it is interned again; an interner has each text once, in the order of the calls, and its list and its table say
the same. All this holds of the texts of a grammar when its program is assembled. So an instruction that names a text names
the one of the expression that it was emitted for, whatever code was dropped on the way. -/
theorem interned_identity :
    (∀ before s later, (Interner.after (before ++ s :: later)).texts[((Interner.after before).intern s).1]? = some s) ∧
    (∀ before s between t,
      ((Interner.after before).intern s).1 = ((Interner.after (before ++ s :: between)).intern t).1 ↔ s = t) ∧
    (∀ calls, (Interner.after calls).texts = calls.eraseDups ∧ (Interner.after calls).texts.Nodup) ∧
    (∀ calls s i, (Interner.after calls).index.lookup s = some i ↔ (Interner.after calls).texts[i]? = some s) ∧
    (∀ (n : Interner) s, n.pool.intern s = ((n.intern s).1, (n.intern s).2.pool)) ∧
    ∀ source p, Program.compile source = .ok p → ∃ items, Grammar.parse source.toList = .ok items ∧
      Assembly.assemble items (byteLength source.toList) = .ok p ∧
      Assembly.Origins items (byteLength source.toList) p := by
  refine ⟨Interner.refers_after, Interner.intern_eq_iff, fun calls => ⟨Interner.texts_after calls, Interner.nodup _⟩,
    fun calls => (Interner.after calls).inverse, Interner.pool_intern, fun source p compiled => ?_⟩
  obtain ⟨items, spelled, -, -, assembled⟩ := Assembly.assemble_of_compile compiled
  exact ⟨items, spelled, assembled, Assembly.origins_of_assemble assembled⟩

open Parsing.Parser in
/-- What the dropped code named first is named again later: the body that never runs gave 'b' its index. -/
theorem interned_identity_dropped : ∃ p items,
    Program.compile "r = ('b' \x7b= 2\x7d)*[0] 'a' 'b' ;" = .ok p ∧
    Grammar.parse "r = ('b' \x7b= 2\x7d)*[0] 'a' 'b' ;".toList = .ok items ∧
    p.literals = #["b", "a"] ∧ p.code[4]?.bind (Instruction.indexIn? .literal) = some 0 ∧
    ∃ x d, Assembly.ReachesIn items 29 true x d ∧ d.code.length = 4 ∧ x.textIn? .literal = some "b" ∧
      ((d.pool .literal).intern "b").1 = 0 := by
  have found : (Program.compile "r = ('b' \x7b= 2\x7d)*[0] 'a' 'b' ;").toOption.map
      (fun p => (p.literals, p.code[4]?.bind (Instruction.indexIn? .literal))) = some (#["b", "a"], some 0) := by
    decide +kernel
  have length : byteLength "r = ('b' \x7b= 2\x7d)*[0] 'a' 'b' ;".toList = 29 := by decide +kernel
  obtain ⟨p, compiled, values⟩ := Program.exists_compile found
  obtain ⟨literals, named⟩ := Prod.mk.inj values
  obtain ⟨-, -, -, -, -, programs⟩ := interned_identity
  obtain ⟨items, spelled, -, origins⟩ := programs _ p compiled
  rw [length] at origins
  obtain ⟨x, d, s, reached, here, text, index, names⟩ := origins.emitted 4 .literal 0 named
  have same : some "b" = some s := by
    rw [← names, Program.texts, literals]
    rfl
  cases same
  exact ⟨p, items, compiled, spelled, literals, named, x, d, reached, here, text, index.symm⟩

end TextGrammar
