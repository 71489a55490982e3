import TextGrammar.Proofs.WellFormed
set_option autoImplicit false

/-!
# Code and the expressions that it is emitted for

While a grammar is assembled, the pass comes to one expression after the other, each with the draft that there is by then. An
instruction that names a text is emitted when the pass comes to an expression with a text, and at no other time; it stays
where it is unless the expression is in a body that never runs, the code of which is dropped again.
-/
namespace TextGrammar

inductive TextKind where
  | literal
  | script

def Instruction.indexIn? : TextKind → Instruction → Option Nat
  | .literal, .pushLiteral i | .script, .eval i => some i
  | _, _ => none

/-- The text of an expression apart from the expressions in it. A range of one number has the text of the number. -/
def Grammar.Expr.textIn? : TextKind → Grammar.Expr → Option String
  | .literal, .literal s => some s
  | .literal, .range low high _ => match span low high with
    | .single s => some s
    | _ => none
  | .script, .generate s | .script, .check s | .script, .action s => some s
  | _, _ => none

namespace Assembly
open Grammar Emission

def Draft.pool (d : Draft) : TextKind → TextPool
  | .literal => d.literals
  | .script => d.scripts

mutual

/-- On its way over an expression, from one draft on, the pass comes to an expression in it with another draft. The code
of the inner one is kept unless it is in a repetition that never runs. -/
inductive Reaches : Bool → Expr → Draft → Expr → Draft → Prop
  | self (e : Expr) (d : Draft) : Reaches true e d e d
  | sequence {kept : Bool} {es : List Expr} {d dx : Draft} {x : Expr} (inside : ReachesAll kept es d x dx) :
      Reaches kept (.sequence es) d x dx
  | dropped {kept : Bool} {body x : Expr} {least : UInt32} {most : Option UInt32} {pos : Nat} {d dx : Draft}
      (skipped : never least most = true) (inside : Reaches kept body d x dx) :
      Reaches false (.repetition body least most pos) d x dx
  | repetition {kept : Bool} {body x : Expr} {least : UInt32} {most : Option UInt32} {pos : Nat} {d dx : Draft}
      (runs : never least most = false) (inside : Reaches kept body d.subroutine x dx) :
      Reaches kept (.repetition body least most pos) d x dx
  | choice {kept : Bool} {alternatives : List (Alternative Expr)} {pos : Nat} {x : Expr} {d dx : Draft}
      (inside : ReachesBranches kept d.labels.length (d.labels.length + 1) alternatives (d.dispatch alternatives) x dx) :
      Reaches kept (.choice alternatives pos) d x dx
  | capture {kept : Bool} {body x : Expr} {name : String} {discard : Bool} {d dx : Draft}
      (inside : Reaches kept body (d.push .pushOffset) x dx) : Reaches kept (.capture body name discard) d x dx

inductive ReachesAll : Bool → List Expr → Draft → Expr → Draft → Prop
  | here {kept : Bool} {e x : Expr} {es : List Expr} {d dx : Draft} (inside : Reaches kept e d x dx) :
      ReachesAll kept (e :: es) d x dx
  | later {kept : Bool} {e x : Expr} {es : List Expr} {d d₁ dx : Draft} (first : emit e d = .ok d₁)
      (inside : ReachesAll kept es d₁ x dx) : ReachesAll kept (e :: es) d x dx

inductive ReachesBranches : Bool → Label → Label → List (Alternative Expr) → Draft → Expr → Draft → Prop
  | here {kept : Bool} {done next : Label} {a : Alternative Expr} {as : List (Alternative Expr)} {x : Expr} {d dx : Draft}
      (inside : Reaches kept a.body (d.bind next) x dx) : ReachesBranches kept done next (a :: as) d x dx
  | later {kept : Bool} {done next : Label} {a : Alternative Expr} {as : List (Alternative Expr)} {x : Expr}
      {d d₁ dx : Draft} (first : emit a.body (d.bind next) = .ok d₁)
      (inside : ReachesBranches kept done (next + 1) as (d₁.push (.jump done)) x dx) :
      ReachesBranches kept done next (a :: as) d x dx

end

inductive ReachesRules : Bool → List Rule → Draft → Expr → Draft → Prop
  | here {kept : Bool} {r : Rule} {rs : List Rule} {x : Expr} {l : Label} {d dx : Draft}
      (labelled : d.rules.lookup r.name = some l) (inside : Reaches kept r.body (d.bind l) x dx) :
      ReachesRules kept (r :: rs) d x dx
  | later {kept : Bool} {r : Rule} {rs : List Rule} {x : Expr} {l : Label} {d d₁ dx : Draft}
      (labelled : d.rules.lookup r.name = some l) (first : emit r.body (d.bind l) = .ok d₁)
      (inside : ReachesRules kept rs (d₁.push .ret) x dx) : ReachesRules kept (r :: rs) d x dx

variable {kept : Bool} {kind : TextKind} {s : String} {e x body : Expr} {d d' d₁ d₂ dx : Draft} {i : Instruction}
  {R Q : Expr → Draft → Prop} {length : Nat}

structure Bare (d d' : Draft) : Prop where
  pools : ∀ kind, d'.pool kind = d.pool kind
  code : ∃ more, d'.code = d.code ++ more ∧ ∀ i ∈ more, ∀ kind, Instruction.indexIn? kind i = none

theorem Bare.refl (d : Draft) : Bare d d := ⟨fun _ => rfl, [], (List.append_nil _).symm, nofun⟩

theorem Bare.push (h : Bare d d₁) (literal : i.indexIn? .literal = none) (script : i.indexIn? .script = none) :
    Bare d (d₁.push i) := by
  obtain ⟨more, code, nameless⟩ := h.code
  refine ⟨h.pools, more ++ [i], by rw [Draft.push, code, List.append_assoc], fun j hj kind => ?_⟩
  rcases List.mem_append.1 hj with old | new
  · exact nameless j old kind
  · obtain rfl := List.mem_singleton.1 new
    cases kind <;> assumption

theorem Bare.bind {l : Label} (h : Bare d d₁) : Bare d (d₁.bind l) := ⟨h.pools, h.code⟩

theorem Bare.fresh {n : Nat} (h : Bare d d₁) : Bare d (d₁.fresh n) := ⟨h.pools, h.code⟩

theorem Bare.leastLoop {start : Label} (h : Bare d d₁) (least : UInt32) : Bare d (d₁.leastLoop start least) := by
  unfold Draft.leastLoop
  split
  · exact h
  · exact h.fresh.push rfl rfl |>.bind.push rfl rfl |>.push rfl rfl |>.push rfl rfl |>.push rfl rfl |>.bind.push rfl rfl

theorem Bare.furtherLoop {start : Label} (h : Bare d d₁) (least : UInt32) (most : Option UInt32) :
    Bare d (d₁.furtherLoop start least most) := by
  unfold Draft.furtherLoop
  cases most with
  | none => exact h.fresh.bind.push rfl rfl |>.push rfl rfl |>.push rfl rfl |>.push rfl rfl |>.push rfl rfl |>.bind
  | some most =>
    simp only
    split
    · exact h
    · exact h.fresh.push rfl rfl |>.bind.push rfl rfl |>.push rfl rfl |>.push rfl rfl |>.push rfl rfl |>.push rfl rfl
        |>.push rfl rfl |>.bind.push rfl rfl

theorem bare_subroutine (d : Draft) : Bare d d.subroutine := (Bare.refl d).fresh.push rfl rfl |>.bind

theorem bare_dispatch (d : Draft) (alternatives : List (Alternative Expr)) : Bare d (d.dispatch alternatives) :=
  (Bare.refl d).fresh.push rfl rfl |>.push rfl rfl

theorem Bare.grows (h : Bare d d') : d.code <+: d'.code := by
  obtain ⟨more, code, -⟩ := h.code
  exact ⟨more, code.symm⟩

/-- A later draft in which every instruction from the end of the earlier one on that names a text was emitted for one of
some expressions. -/
structure Traced (R : Expr → Draft → Prop) (d d' : Draft) : Prop where
  grows : d.code <+: d'.code
  named : ∀ a kind i, d.code.length ≤ a → d'.code[a]?.bind (Instruction.indexIn? kind) = some i →
    ∃ x dx s, R x dx ∧ dx.code.length = a ∧ x.textIn? kind = some s ∧ i = ((dx.pool kind).intern s).1

theorem Traced.mono (h : Traced R d d') (hQ : ∀ x dx, R x dx → Q x dx) : Traced Q d d' where
  grows := h.grows
  named a kind i ha hi := by
    obtain ⟨x, dx, s, hR, rest⟩ := h.named a kind i ha hi
    exact ⟨x, dx, s, hQ x dx hR, rest⟩

theorem Traced.trans (h : Traced R d d₁) (h' : Traced R d₁ d₂) : Traced R d d₂ where
  grows := h.grows.trans h'.grows
  named a kind i ha hi := by
    by_cases old : a < d₁.code.length
    · refine h.named a kind i ha ?_
      rwa [List.getElem?_eq_getElem old, h'.grows.getElem old, ← List.getElem?_eq_getElem]
    · exact h'.named a kind i (Nat.not_lt.1 old) hi

theorem Bare.traced (h : Bare d d') : Traced R d d' where
  grows := h.grows
  named a kind i ha hi := by
    obtain ⟨more, code, nameless⟩ := h.code
    rw [code, List.getElem?_append_right ha] at hi
    obtain ⟨j, hj, found⟩ := Option.bind_eq_some_iff.1 hi
    rw [nameless j (List.mem_of_getElem? hj)] at found
    cases found

def Opens (kind : TextKind) (s : String) (d d' : Draft) : Prop :=
  ∃ i more, d'.code = d.code ++ i :: more ∧
    (∀ k j, Instruction.indexIn? k i = some j ↔ k = kind ∧ j = ((d.pool kind).intern s).1) ∧
    ∀ j ∈ more, ∀ k, Instruction.indexIn? k j = none

theorem opens_literal (d : Draft) (s : String) : Opens .literal s d (d.literal s) := by
  refine ⟨_, [], rfl, fun k j => ?_, nofun⟩
  cases k <;> simp [Instruction.indexIn?, Draft.pool, TextPool.intern, eq_comm]

theorem opens_script (d : Draft) (s : String) : Opens .script s d (d.script s) := by
  refine ⟨_, [], rfl, fun k j => ?_, nofun⟩
  cases k <;> simp [Instruction.indexIn?, Draft.pool, TextPool.intern, eq_comm]

theorem Opens.bare (h : Opens kind s d d₁) (h' : Bare d₁ d') : Opens kind s d d' := by
  obtain ⟨i, more, code, index, nameless⟩ := h
  obtain ⟨more', code', nameless'⟩ := h'.code
  refine ⟨i, more ++ more', by rw [code', code, List.append_assoc, List.cons_append], index, fun j hj => ?_⟩
  exact (List.mem_append.1 hj).elim (nameless j) (nameless' j)

theorem Opens.traced (h : Opens kind s d d') (text : e.textIn? kind = some s) : Traced (Reaches true e d) d d' := by
  obtain ⟨i, more, code, index, nameless⟩ := h
  refine ⟨⟨_, code.symm⟩, fun a k j ha hj => ?_⟩
  rw [code, List.getElem?_append_right ha] at hj
  obtain ⟨found, here, named⟩ := Option.bind_eq_some_iff.1 hj
  cases behind : a - d.code.length with
  | zero =>
    rw [behind] at here
    cases here
    obtain ⟨rfl, rfl⟩ := (index k j).1 named
    exact ⟨e, d, s, .self e d, by omega, text, rfl⟩
  | succ n =>
    rw [behind] at here
    rw [nameless found (List.mem_of_getElem? here)] at named
    cases named

theorem opens_of_text (kind : TextKind) (text : x.textIn? kind = some s) (h : emit x d = .ok d') : Opens kind s d d' := by
  cases kind with
  | literal =>
    cases x with
    | literal t =>
      cases text
      cases h
      exact (opens_literal d s).bare ((Bare.refl _).push rfl rfl)
    | range low high pos =>
      rw [emit] at h
      rw [Expr.textIn?] at text
      split at text
      · rename_i single
        cases text
        rw [single] at h
        cases h
        exact (opens_literal d s).bare ((Bare.refl _).push rfl rfl)
      · cases text
    | _ => cases text
  | script =>
    cases x with
    | generate t =>
      cases text
      cases h
      exact (opens_script d s).bare ((Bare.refl _).push rfl rfl)
    | check t =>
      cases text
      cases h
      exact (opens_script d s).bare ((Bare.refl _).fresh.push rfl rfl |>.push rfl rfl |>.bind)
    | action t =>
      cases text
      cases h
      exact (opens_script d s).bare ((Bare.refl _).push rfl rfl)
    | _ => cases text

theorem Traced.truncated (h : Traced R d d₁) : Traced Q d (d₁.truncate d.code.length) := by
  obtain ⟨more, code⟩ := h.grows
  have back : (d₁.truncate d.code.length).code = d.code := by simp [Draft.truncate, ← code]
  refine ⟨⟨[], by rw [back, List.append_nil]⟩, fun a kind i ha hi => ?_⟩
  rw [back, List.getElem?_eq_none ha] at hi
  cases hi

section
variable {α β : Type} {r : Except Refusal α} {f : α → β} {g : α → Except Refusal β} {b : β}

theorem map_eq_ok (h : r.map f = .ok b) : ∃ a, r = .ok a ∧ f a = b := by
  cases r with
  | error _ => cases h
  | ok a => exact ⟨a, rfl, Except.ok.inj h⟩

theorem bind_eq_ok (h : r.bind g = .ok b) : ∃ a, r = .ok a ∧ g a = .ok b := by
  cases r with
  | error _ => cases h
  | ok a => exact ⟨a, rfl, h⟩

end

theorem emit_repetition {least : UInt32} {most : Option UInt32} {pos : Nat}
    (h : emit (.repetition body least most pos) d = .ok d') :
    (never least most = true ∧ ∃ d₁, emit body d = .ok d₁ ∧ d₁.truncate d.code.length = d') ∨
      (never least most = false ∧ ∃ d₁, emit body d.subroutine = .ok d₁ ∧ Bare d₁ d') := by
  rw [emit] at h
  split at h
  · cases h
  · cases skipped : never least most with
    | true =>
      rw [skipped] at h
      exact .inl ⟨rfl, map_eq_ok h⟩
    | false =>
      rw [skipped] at h
      obtain ⟨d₁, inside, rfl⟩ := map_eq_ok h
      exact .inr ⟨rfl, d₁, inside, ((Bare.refl d₁).push rfl rfl).bind.leastLoop least |>.furtherLoop least most⟩

theorem emit_choice {alternatives : List (Alternative Expr)} {pos : Nat} (h : emit (.choice alternatives pos) d = .ok d') :
    ∃ d₁, emitBranches d.labels.length (d.labels.length + 1) alternatives (d.dispatch alternatives) = .ok d₁ ∧
      Bare d₁ d' := by
  rw [emit] at h
  split at h
  · cases h
  · obtain ⟨d₁, inside, rfl⟩ := map_eq_ok h
    exact ⟨d₁, inside, (Bare.refl d₁).bind.push rfl rfl |>.push rfl rfl⟩

theorem emit_capture {name : String} {discard : Bool} (h : emit (.capture body name discard) d = .ok d') :
    ∃ d₁, emit body (d.push .pushOffset) = .ok d₁ ∧ Bare d₁ d' := by
  rw [emit] at h
  obtain ⟨d₁, inside, rfl⟩ := map_eq_ok h
  exact ⟨d₁, inside, (Bare.refl d₁).push rfl rfl⟩

theorem emitBranches_cons {a : Alternative Expr} {as : List (Alternative Expr)} {done next : Label}
    (h : emitBranches done next (a :: as) d = .ok d') : ∃ d₁, emit a.body (d.bind next) = .ok d₁ ∧
      (as = [] ∧ d₁ = d' ∨ emitBranches done (next + 1) as (d₁.push (.jump done)) = .ok d') := by
  cases as with
  | nil => exact ⟨d', h, .inl ⟨rfl, rfl⟩⟩
  | cons b bs =>
    rw [emitBranches] at h
    · obtain ⟨d₁, first, rest⟩ := bind_eq_ok h
      exact ⟨d₁, first, .inr rest⟩
    · simp

theorem emitRules_cons {r : Rule} {rs : List Rule} (h : emitRules (r :: rs) d = .ok d') :
    ∃ l d₁, d.rules.lookup r.name = some l ∧ emit r.body (d.bind l) = .ok d₁ ∧ emitRules rs (d₁.push .ret) = .ok d' := by
  rw [emitRules] at h
  split at h
  · rename_i l labelled
    obtain ⟨d₁, first, rest⟩ := bind_eq_ok h
    exact ⟨l, d₁, labelled, first, rest⟩
  · cases h

theorem range_traced {low high : Number} {pos : Nat} (h : emit (.range low high pos) d = .ok d') :
    Traced (Reaches true (.range low high pos) d) d d' := by
  cases numbers : span low high with
  | empty =>
    rw [emit, numbers] at h
    cases h
  | single s =>
    have text : Expr.textIn? .literal (.range low high pos) = some s := by rw [Expr.textIn?, numbers]
    exact (opens_of_text .literal text h).traced text
  | ints a b =>
    rw [emit, numbers] at h
    cases h
    exact ((Bare.refl d).push rfl rfl |>.push rfl rfl).traced
  | floats a b =>
    rw [emit, numbers] at h
    cases h
    exact ((Bare.refl d).push rfl rfl |>.push rfl rfl).traced

theorem reference_traced {name : String} {pos : Nat} (h : emit (.reference name pos) d = .ok d') :
    Traced R d d' := by
  rw [emit] at h
  split at h
  · cases h
    exact ((Bare.refl d).push rfl rfl).traced
  · cases h

mutual

/-- Whatever an expression emits is traced to the expressions in it whose code is kept. -/
theorem emit_traced : ∀ (e : Expr) {d d' : Draft}, emit e d = .ok d' → Traced (Reaches true e d) d d'
  | .literal s, _, _, h => (opens_of_text .literal rfl h).traced rfl
  | .generate s, _, _, h => (opens_of_text .script rfl h).traced rfl
  | .check s, _, _, h => (opens_of_text .script rfl h).traced rfl
  | .action s, _, _, h => (opens_of_text .script rfl h).traced rfl
  | .range low high pos, d, d', h => range_traced h
  | .reference name pos, d, d', h => reference_traced h
  | .sequence es, d, d', h => (emitAll_traced es h).mono fun _ _ => .sequence
  | .repetition body least most pos, d, d', h => by
    rcases emit_repetition h with ⟨skipped, d₁, inside, rfl⟩ | ⟨runs, d₁, inside, rest⟩
    · -- none of the code of the body is left to be traced
      exact (emit_traced body inside).truncated
    · refine ((bare_subroutine d).traced.trans ?_).trans rest.traced
      exact (emit_traced body inside).mono fun _ _ => .repetition runs
  | .choice alternatives pos, d, d', h => by
    obtain ⟨d₁, inside, rest⟩ := emit_choice h
    refine ((bare_dispatch d alternatives).traced.trans ?_).trans rest.traced
    exact (emitBranches_traced alternatives inside).mono fun _ _ => .choice
  | .capture body name discard, d, d', h => by
    obtain ⟨d₁, inside, rest⟩ := emit_capture h
    have opened : Bare d (d.push .pushOffset) := (Bare.refl d).push rfl rfl
    refine (opened.traced.trans ?_).trans rest.traced
    exact (emit_traced body inside).mono fun _ _ => .capture

theorem emitAll_traced : ∀ (es : List Expr) {d d' : Draft}, emitAll es d = .ok d' → Traced (ReachesAll true es d) d d'
  | [], d, d', h => by
    cases h
    exact (Bare.refl d).traced
  | e :: es, d, d', h => by
    obtain ⟨d₁, first, rest⟩ := bind_eq_ok h
    refine Traced.trans ((emit_traced e first).mono fun _ _ => .here) ?_
    exact (emitAll_traced es rest).mono fun _ _ => .later first

theorem emitBranches_traced : ∀ (as : List (Alternative Expr)) {done next : Label} {d d' : Draft},
    emitBranches done next as d = .ok d' → Traced (ReachesBranches true done next as d) d d'
  | [], _, _, d, d', h => by
    cases h
    exact (Bare.refl d).traced
  | a :: as, done, next, d, d', h => by
    obtain ⟨d₁, first, rest⟩ := emitBranches_cons h
    have opened : Traced (ReachesBranches true done next (a :: as) d) d d₁ :=
      (Bare.refl d).bind.traced.trans ((emit_traced a.body first).mono fun _ _ => .here)
    rcases rest with ⟨-, rfl⟩ | rest
    · exact opened
    · have jumped : Bare d₁ (d₁.push (.jump done)) := (Bare.refl d₁).push rfl rfl
      refine (opened.trans jumped.traced).trans ?_
      exact (emitBranches_traced as rest).mono fun _ _ => .later first

end

theorem emitRules_traced (rs : List Rule) (h : emitRules rs d = .ok d') : Traced (ReachesRules true rs d) d d' := by
  induction rs generalizing d with
  | nil =>
    cases h
    exact (Bare.refl _).traced
  | cons r rs ih =>
    obtain ⟨l, d₁, labelled, first, rest⟩ := emitRules_cons h
    have opened : Traced (ReachesRules true (r :: rs) d) d d₁ :=
      (Bare.refl d).bind.traced.trans ((emit_traced r.body first).mono fun _ _ => .here labelled)
    have closed : Bare d₁ (d₁.push .ret) := (Bare.refl d₁).push rfl rfl
    exact (opened.trans closed.traced).trans ((ih rest).mono fun _ _ => .later labelled first)

theorem emitEntry_eq_ok {g : Grammar} (h : emitEntry g length d = .ok d') :
    (g.entry = [] ∧ Bare d d') ∨ emitAll g.entry d = .ok d' := by
  unfold emitEntry at h
  split at h
  · cases h
  · rename_i none_bare _
    split at h
    · cases h
      exact .inl ⟨none_bare, (Bare.refl _).push rfl rfl⟩
    · cases h
  · exact .inr h

theorem emitEntry_traced {g : Grammar} (h : emitEntry g length d = .ok d') : Traced (ReachesAll true g.entry d) d d' := by
  rcases emitEntry_eq_ok h with ⟨-, called⟩ | emitted
  · exact called.traced
  · exact emitAll_traced g.entry emitted

/-- An expression is emitted from a draft on, and its code is in a later one. -/
def Kept (x : Expr) (dx d' : Draft) : Prop := ∃ dx', emit x dx = .ok dx' ∧ dx'.code <+: d'.code

theorem Kept.trans (h : Kept x dx d₁) (grows : d₁.code <+: d'.code) : Kept x dx d' := by
  obtain ⟨dx', there, within⟩ := h
  exact ⟨dx', there, within.trans grows⟩

mutual

theorem Reaches.kept_code : ∀ {e x : Expr} {d d' dx : Draft}, Reaches true e d x dx → emit e d = .ok d' → Kept x dx d'
  | _, _, _, d', _, .self _ _, h => ⟨d', h, List.prefix_refl _⟩
  | _, _, _, _, _, .sequence inside, h => inside.kept_code h
  | _, _, _, _, _, .repetition runs inside, h => by
    rcases emit_repetition h with ⟨skipped, -⟩ | ⟨-, d₁, emitted, rest⟩
    · rw [runs] at skipped
      cases skipped
    · exact (inside.kept_code emitted).trans rest.grows
  | _, _, _, _, _, .choice inside, h => by
    obtain ⟨d₁, emitted, rest⟩ := emit_choice h
    exact (inside.kept_code emitted).trans rest.grows
  | _, _, _, _, _, .capture inside, h => by
    obtain ⟨d₁, emitted, rest⟩ := emit_capture h
    exact (inside.kept_code emitted).trans rest.grows

theorem ReachesAll.kept_code : ∀ {es : List Expr} {x : Expr} {d d' dx : Draft}, ReachesAll true es d x dx →
    emitAll es d = .ok d' → Kept x dx d'
  | _ :: es, _, _, _, _, .here inside, h => by
    obtain ⟨d₁, first, rest⟩ := bind_eq_ok h
    exact (inside.kept_code first).trans (emitAll_traced es rest).grows
  | _, _, _, _, _, .later first inside, h => by
    obtain ⟨d₁, first', rest⟩ := bind_eq_ok h
    rw [first] at first'
    cases first'
    exact inside.kept_code rest

theorem ReachesBranches.kept_code : ∀ {done next : Label} {as : List (Alternative Expr)} {x : Expr} {d d' dx : Draft},
    ReachesBranches true done next as d x dx → emitBranches done next as d = .ok d' → Kept x dx d'
  | done, _, _ :: as, _, _, _, _, .here inside, h => by
    obtain ⟨d₁, first, rest⟩ := emitBranches_cons h
    rcases rest with ⟨-, rfl⟩ | rest
    · exact inside.kept_code first
    · have jumped : Bare d₁ (d₁.push (.jump done)) := (Bare.refl d₁).push rfl rfl
      exact ((inside.kept_code first).trans jumped.grows).trans (emitBranches_traced as rest).grows
  | _, _, _ :: as, _, _, _, _, .later first inside, h => by
    obtain ⟨d₁, first', rest⟩ := emitBranches_cons h
    rw [first] at first'
    cases first'
    rcases rest with ⟨rfl, -⟩ | rest
    · cases inside
    · exact inside.kept_code rest

end

theorem ReachesRules.kept_code {rs : List Rule} (reached : ReachesRules true rs d x dx) (h : emitRules rs d = .ok d') :
    Kept x dx d' := by
  induction reached with
  | @here r rs x l d dx labelled inside =>
    obtain ⟨l', d₁, labelled', first, rest⟩ := emitRules_cons h
    rw [labelled] at labelled'
    cases labelled'
    have closed : Bare d₁ (d₁.push .ret) := (Bare.refl d₁).push rfl rfl
    exact ((inside.kept_code first).trans closed.grows).trans (emitRules_traced rs rest).grows
  | later labelled first _ ih =>
    obtain ⟨l', d₁, labelled', first', rest⟩ := emitRules_cons h
    rw [labelled] at labelled'
    cases labelled'
    rw [first] at first'
    cases first'
    exact ih rest

mutual

/-- On its way over an expression, the pass comes to all the expressions in it. -/
theorem exists_reaches : ∀ (e : Expr) {d d' : Draft}, emit e d = .ok d' → ∀ x ∈ e.parts, ∃ kept dx, Reaches kept e d x dx
  | .literal _, d, _, _ | .range _ _ _, d, _, _ | .reference _ _, d, _, _ | .generate _, d, _, _ | .check _, d, _, _
  | .action _, d, _, _ => List.forall_mem_singleton.2 ⟨true, d, .self _ d⟩
  | .sequence es, d, _, h => by
    refine List.forall_mem_cons.2 ⟨⟨true, d, .self _ d⟩, fun x hx => ?_⟩
    obtain ⟨kept, dx, inside⟩ := exists_reachesAll es h x hx
    exact ⟨kept, dx, .sequence inside⟩
  | .repetition body least most pos, d, _, h => by
    refine List.forall_mem_cons.2 ⟨⟨true, d, .self _ d⟩, fun x hx => ?_⟩
    rcases emit_repetition h with ⟨skipped, d₁, emitted, -⟩ | ⟨runs, d₁, emitted, -⟩
    · obtain ⟨kept, dx, inside⟩ := exists_reaches body emitted x hx
      exact ⟨false, dx, .dropped skipped inside⟩
    · obtain ⟨kept, dx, inside⟩ := exists_reaches body emitted x hx
      exact ⟨kept, dx, .repetition runs inside⟩
  | .choice alternatives pos, d, _, h => by
    refine List.forall_mem_cons.2 ⟨⟨true, d, .self _ d⟩, fun x hx => ?_⟩
    obtain ⟨d₁, emitted, -⟩ := emit_choice h
    obtain ⟨kept, dx, inside⟩ := exists_reachesBranches alternatives emitted x hx
    exact ⟨kept, dx, .choice inside⟩
  | .capture body name discard, d, _, h => by
    refine List.forall_mem_cons.2 ⟨⟨true, d, .self _ d⟩, fun x hx => ?_⟩
    obtain ⟨d₁, emitted, -⟩ := emit_capture h
    obtain ⟨kept, dx, inside⟩ := exists_reaches body emitted x hx
    exact ⟨kept, dx, .capture inside⟩

theorem exists_reachesAll : ∀ (es : List Expr) {d d' : Draft}, emitAll es d = .ok d' →
    ∀ x ∈ partsOfAll es, ∃ kept dx, ReachesAll kept es d x dx
  | [], _, _, _ => nofun
  | e :: es, d, _, h => by
    obtain ⟨d₁, first, rest⟩ := bind_eq_ok h
    refine List.forall_mem_append.2 ⟨fun x hx => ?_, fun x hx => ?_⟩
    · obtain ⟨kept, dx, inside⟩ := exists_reaches e first x hx
      exact ⟨kept, dx, .here inside⟩
    · obtain ⟨kept, dx, inside⟩ := exists_reachesAll es rest x hx
      exact ⟨kept, dx, .later first inside⟩

theorem exists_reachesBranches : ∀ (as : List (Alternative Expr)) {done next : Label} {d d' : Draft},
    emitBranches done next as d = .ok d' → ∀ x ∈ partsOfBranches as, ∃ kept dx, ReachesBranches kept done next as d x dx
  | [], _, _, _, _, _ => nofun
  | a :: as, done, next, d, _, h => by
    obtain ⟨d₁, first, rest⟩ := emitBranches_cons h
    refine List.forall_mem_append.2 ⟨fun x hx => ?_, fun x hx => ?_⟩
    · obtain ⟨kept, dx, inside⟩ := exists_reaches a.body first x hx
      exact ⟨kept, dx, .here inside⟩
    · rcases rest with ⟨rfl, -⟩ | rest
      · cases hx
      · obtain ⟨kept, dx, inside⟩ := exists_reachesBranches as rest x hx
        exact ⟨kept, dx, .later first inside⟩

end

theorem exists_reachesRules (rs : List Rule) (h : emitRules rs d = .ok d') :
    ∀ x ∈ partsOfAll (rs.map Rule.body), ∃ kept dx, ReachesRules kept rs d x dx := by
  induction rs generalizing d with
  | nil => nofun
  | cons r rs ih =>
    obtain ⟨l, d₁, labelled, first, rest⟩ := emitRules_cons h
    refine List.forall_mem_append.2 ⟨fun x hx => ?_, fun x hx => ?_⟩
    · obtain ⟨kept, dx, inside⟩ := exists_reaches r.body first x hx
      exact ⟨kept, dx, .here labelled inside⟩
    · obtain ⟨kept, dx, inside⟩ := ih rest x hx
      exact ⟨kept, dx, .later labelled first inside⟩

end Assembly
end TextGrammar
