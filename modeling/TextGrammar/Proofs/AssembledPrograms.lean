import TextGrammar.Proofs.LabelAddresses
set_option autoImplicit false

namespace TextGrammar

namespace Grammar

variable {g : Grammar} {names : List String}

theorem duplicate?_eq_none {rs : List Rule} :
    duplicate? names rs = none ↔ (rs.map Rule.name).Nodup ∧ ∀ r ∈ rs, r.name ∉ names := by
  induction rs generalizing names with
  | nil => simp [duplicate?]
  | cons r rs ih =>
    rw [duplicate?]
    by_cases taken : r.name ∈ names
    · simp [taken]
    · rw [if_neg (by simpa using taken), ih, List.map_cons, List.nodup_cons]
      simp only [List.mem_cons, List.mem_map, not_or, not_exists, not_and]
      constructor
      · rintro ⟨distinct, other⟩
        refine ⟨⟨fun x hx => (other x hx).1, distinct⟩, fun x hx => ?_⟩
        rcases hx with rfl | hx
        · exact taken
        · exact (other x hx).2
      · rintro ⟨⟨first, distinct⟩, free⟩
        exact ⟨distinct, fun x hx => ⟨first x hx, free x (.inr hx)⟩⟩

theorem faultInAll?_append (es es' : List Expr) :
    faultInAll? names (es ++ es') = (faultInAll? names es).or (faultInAll? names es') := by
  induction es with
  | nil => rfl
  | cons e es ih => rw [List.cons_append, faultInAll?, faultInAll?, ih, Option.or_assoc]

theorem start?_none (h : g.isEmpty = false) : ∃ e, g.start? none = some e := by
  obtain ⟨rules, entry⟩ := g
  cases entry with
  | cons e es => exact ⟨_, rfl⟩
  | nil =>
    cases rules with
    | nil => cases h
    | cons r rs => exact ⟨_, rfl⟩

theorem fault?_start {e : Expr} (h : g.start? none = some e) : e.fault? g.names = faultInAll? g.names g.entry := by
  obtain ⟨rules, entry⟩ := g
  cases entry with
  | cons x xs =>
    cases h
    rfl
  | nil =>
    cases rules with
    | nil =>
      cases h
      rfl
    | cons r rs =>
      cases h
      simp [Expr.fault?, names, faultInAll?]

end Grammar

namespace Emission
open Grammar

variable {g : Grammar} {e : Expr}

theorem emitEntry_start (h : g.start? none = some e) (hg : g.isEmpty = false) :
    emitEntry (symbols g) g = emit (symbols g) 0 e ∧ entrySize g = size e ∧
      literalsOfAll g.entry = literalsOf e ∧ scriptsOfAll g.entry = scriptsOf e := by
  obtain ⟨rules, entry⟩ := g
  cases entry with
  | cons x xs =>
    cases h
    exact ⟨rfl, rfl, rfl, rfl⟩
  | nil =>
    cases rules with
    | nil => cases hg
    | cons r rs =>
      cases h
      refine ⟨?_, rfl, rfl, rfl⟩
      simp [emitEntry, emit, Symbols.callOf, symbols, ruleAddresses]

end Emission

namespace Assembly
open Grammar Emission

variable {L : List (Option Nat)} {t : Symbols} {d d₁ d₂ d₃ : Draft} {n l next : Nat} {names : List String} {g : Grammar}

theorem lookup_zip {ls : List Nat} {name : String} {i : Nat} (distinct : names.Nodup) (hn : names[i]? = some name)
    (hl : ls[i]? = some l) : (names.zip ls).lookup name = some l := by
  induction names generalizing ls i with
  | nil => cases hn
  | cons x names ih =>
    cases ls with
    | nil => cases hl
    | cons y ls =>
      rw [List.nodup_cons] at distinct
      rw [List.zip_cons_cons, List.lookup_cons]
      cases i with
      | zero =>
        cases hn
        cases hl
        simp
      | succ i =>
        have later : name ∈ names := List.mem_of_getElem? hn
        have other : (name == x) = false := by
          rw [beq_eq_false_iff_ne]
          rintro rfl
          exact distinct.1 later
        rw [other]
        exact ih distinct.2 hn hl

/-- Rules under consecutive labels, after those there were. -/
structure Declares (rs : List Rule) (d d' : Draft) : Prop where
  labels : d'.labels = d.labels ++ List.replicate rs.length none
  rules : d'.rules = d.rules ++ (rs.map Rule.name).zip (List.range' d.labels.length rs.length)
  code : d'.code = d.code
  literals : d'.literals = d.literals
  scripts : d'.scripts = d.scripts

theorem declares (rs : List Rule) (d : Draft) (hd : Knows names d) :
    Reports (duplicate? names rs) (declare rs d) (Declares rs d) := by
  induction rs generalizing names d with
  | nil => exact ⟨d, rfl, by simp, by simp, rfl, rfl, rfl⟩
  | cons r rs ih =>
    rw [duplicate?, declare, hd]
    split
    · rfl
    · have known : Knows (r.name :: names) { d.fresh 1 with rules := d.rules ++ [(r.name, d.labels.length)] } := by
        intro name
        simp only [List.contains_cons, hd name, List.lookup_append, List.lookup_cons, List.lookup_nil]
        cases d.rules.lookup name <;> cases name == r.name <;> rfl
      refine (ih _ known).imp fun d' declared => ⟨?_, ?_, declared.code, declared.literals, declared.scripts⟩
      · rw [declared.labels]
        simp [Draft.fresh, List.replicate_succ]
      · rw [declared.rules]
        simp [Draft.fresh, List.range'_succ]

theorem Declares.knows {rs : List Rule} (h : Declares rs .empty d) : Knows (rs.map Rule.name) d := by
  intro name
  have count : (rs.map Rule.name).length ≤ (List.range' 0 rs.length).length := by simp
  rw [h.rules, Bool.eq_iff_iff, Option.isSome_iff_ne_none, ne_eq, List.contains_iff_mem]
  change _ ↔ ¬ ((rs.map Rule.name).zip (List.range' 0 rs.length)).lookup name = none
  rw [List.lookup_eq_none_iff]
  constructor
  · intro named none_named
    rw [← List.map_fst_zip count] at named
    obtain ⟨entry, among, rfl⟩ := List.mem_map.1 named
    simpa using none_named entry among
  · intro found
    by_contra missing
    refine found fun entry among => ?_
    simp only [ne_eq, bne_iff_ne]
    rintro rfl
    exact missing (List.of_mem_zip among).1

theorem Declares.lookup {rs : List Rule} {r : Rule} {i : Nat} (h : Declares rs .empty d)
    (distinct : (rs.map Rule.name).Nodup) (hr : rs[i]? = some r) : d.rules.lookup r.name = some i := by
  rw [h.rules]
  have within : i < rs.length := (List.getElem?_eq_some_iff.1 hr).choose
  refine @lookup_zip i _ _ _ i distinct (by simp [hr]) ?_
  rw [List.getElem?_range' within]
  simp [Draft.empty]

/-- Rules after one another, under consecutive labels that are bound by the end. -/
structure Defines (d d' : Draft) (next : Label) (rs : List Rule) : Prop where
  grows : Grows d d' (literalsOfAll (rs.map Rule.body)) (scriptsOfAll (rs.map Rule.body))
  keeps : Keeps next d d'
  targets : ∀ i < rs.length, address? d'.labels (next + i) = ((ruleAddresses d.code.length rs).map Prod.snd)[i]?
  resolves : ∃ more, d'.code = d.code ++ more ∧
    ∀ L t, Settles L t d' → resolve L more = some (Emission.emitRules t d.code.length rs)

theorem defines_cons {r : Rule} {rs : List Rule} (free : Free next (rs.length + 1) d)
    (h : Continues (d.bind next) d₁ (size r.body) (literalsOf r.body) (scriptsOf r.body)
      fun t => Emission.emit t d.code.length r.body)
    (rest : Defines (d₁.push .ret) d₂ (next + 1) rs) : Defines d d₂ next (r :: rs) := by
  obtain ⟨grows, keeps, bound⟩ := free.labels h
  obtain ⟨more, hc, hm, resolved⟩ := h.resolves
  have after : (d₁.push .ret).code.length = d.code.length + size r.body + 1 := by
    simp [Draft.push, hc, hm, Draft.bind]
    omega
  refine ⟨grows.trans (grows_push.trans rest.grows), keeps.trans (rest.keeps.mono (by omega)), ?_, ?_⟩
  · intro i hi
    cases i with
    | zero =>
      rw [Nat.add_zero, rest.grows.bound _ _ bound]
      rfl
    | succ i =>
      have later := rest.targets i (by simpa using hi)
      rw [after] at later
      rw [← Nat.add_assoc, Nat.add_right_comm, later]
      rfl
  · obtain ⟨more', hc', resolved'⟩ := rest.resolves
    refine ⟨more ++ .ret :: more', ?_, fun L t final => ?_⟩
    · simp [hc', Draft.push, hc, Draft.bind]
    · have settled : Settles L t d₁ := (grows_push.trans rest.grows).settles final
      have others := resolved' L t final
      rw [after] at others
      exact resolve_append (resolved L t settled) (resolve_cons (i := .ret) rfl others)

theorem defines (rs : List Rule) (d : Draft) (next : Label) (hd : Knows names d) (free : Free next rs.length d)
    (labelled : ∀ i r, rs[i]? = some r → d.rules.lookup r.name = some (next + i)) :
    Reports (faultInAll? names (rs.map Rule.body)) (emitRules rs d) fun d' => Defines d d' next rs := by
  induction rs generalizing d next with
  | nil =>
    exact ⟨d, rfl, ⟨fun _ _ h => h, rfl, rfl, rfl⟩, fun _ _ => rfl, by simp, [], (List.append_nil _).symm,
      fun _ _ _ => rfl⟩
  | cons r rs ih =>
    have here : d.rules.lookup r.name = some next := labelled 0 r rfl
    rw [List.map_cons, faultInAll?, emitRules, here]
    refine (assembles r.body (d.bind next) (hd.of_rules rfl)).bind fun d₁ first => ?_
    have rules : (d₁.push .ret).rules = d.rules := first.grows.rules
    refine (ih (d₁.push .ret) (next + 1) (hd.of_rules rules) (free.rest first) fun i x hx => ?_).imp fun d₂ =>
      defines_cons free first
    rw [rules, labelled (i + 1) x (by simpa using hx), Nat.add_assoc, Nat.add_comm 1]

/-- Rules under labels that are bound to their addresses have these addresses by name. -/
theorem lookup_settled {rs : List Rule} {base : Nat} {name : String}
    (targets : ∀ i < rs.length, address? L (next + i) = ((ruleAddresses base rs).map Prod.snd)[i]?)
    (h : ((rs.map Rule.name).zip (List.range' next rs.length)).lookup name = some l) :
    ∃ a, address? L l = some a ∧ (ruleAddresses base rs).lookup name = some a := by
  induction rs generalizing base next with
  | nil => cases h
  | cons r rs ih =>
    rw [List.map_cons, List.length_cons, List.range'_succ, List.zip_cons_cons, List.lookup_cons] at h
    rw [ruleAddresses, List.lookup_cons]
    cases same : name == r.name with
    | true =>
      rw [same] at h
      cases h
      exact ⟨base, targets 0 (by simp), rfl⟩
    | false =>
      rw [same] at h
      refine ih (fun i hi => ?_) h
      have later := targets (i + 1) (by simpa using hi)
      rw [Nat.add_assoc, Nat.add_comm 1]
      exact later

theorem resolveRules {rs : List Rule} {base : Nat}
    (h : ∀ (i : Nat) (r : Rule), rs[i]? = some r → (d.rules.lookup r.name).bind (address? d.labels) =
      ((ruleAddresses base rs).map Prod.snd)[i]?) : rs.mapM (resolveRule d) = some (ruleAddresses base rs) := by
  induction rs generalizing base with
  | nil => rfl
  | cons r rs ih =>
    have first : (d.rules.lookup r.name).bind (address? d.labels) = some base := h 0 r rfl
    have rest := @ih (base + size r.body + 1) fun i x hx => h (i + 1) x (by simpa using hx)
    rw [List.mapM_cons, rest, resolveRule, first]
    rfl

theorem emitEntry_start {e : Expr} {length : Nat} (h : g.start? none = some e) (hg : g.isEmpty = false)
    (hd : Knows g.names d) : emitEntry g length d = emit e d := by
  obtain ⟨rules, entry⟩ := g
  cases entry with
  | cons x xs =>
    cases h
    rfl
  | nil =>
    cases rules with
    | nil => cases hg
    | cons r rs =>
      cases h
      have known : (d.rules.lookup r.name).isSome = true := by rw [← hd]; simp [names]
      obtain ⟨l, found⟩ := Option.isSome_iff_exists.1 known
      simp only [emitEntry, emit, found]

theorem assembles_entry (length : Nat) (hd : Knows g.names d) (hc : d.code = []) :
    Reports (if g.isEmpty then some (.emptyGrammar, length) else faultInAll? g.names g.entry) (emitEntry g length d)
      fun d' => g.isEmpty = false ∧ ∃ e, g.start? none = some e ∧ Continues d d' (size e) (literalsOf e) (scriptsOf e)
        fun t => Emission.emit t 0 e := by
  cases hg : g.isEmpty with
  | true =>
    obtain ⟨rules, entry⟩ := g
    simp only [isEmpty, Bool.and_eq_true, List.isEmpty_iff] at hg
    obtain ⟨rfl, rfl⟩ := hg
    rfl
  | false =>
    obtain ⟨e, start⟩ := start?_none hg
    have entered := assembles e d hd
    rw [hc] at entered
    rw [emitEntry_start start hg hd, ← fault?_start start]
    exact entered.imp fun d' there => ⟨rfl, e, start, there⟩

/-- Nothing is left unbound when the rules are done. -/
theorem links {g : Grammar} {e : Expr} (start : g.start? none = some e) (hg : g.isEmpty = false)
    (distinct : g.names.Nodup) (declared : Declares g.rules .empty d)
    (entered : Continues d d₁ (size e) (literalsOf e) (scriptsOf e) fun t => Emission.emit t 0 e)
    (defined : Defines (d₁.push .halt) d₂ 0 g.rules) :
    link g.rules d₁.code.length d₂ = .ok (.ofGrammar g) := by
  obtain ⟨entry_code, entry_size, entry_literals, entry_scripts⟩ := Emission.emitEntry_start start hg
  have opened : d₁.code.length = entrySize g := by
    rw [entered.length, declared.code, entry_size]
    simp [Draft.empty]
  have base : (d₁.push .halt).code.length = entrySize g + 1 := by simp [Draft.push, opened]
  have rules : d₂.rules = (g.rules.map Rule.name).zip (List.range' 0 g.rules.length) := by
    rw [defined.grows.rules]
    change d₁.rules = _
    rw [entered.grows.rules, declared.rules]
    rfl
  have literals : d₂.literals = (symbols g).literals := by
    rw [defined.grows.literals]
    change List.foldl _ d₁.literals _ = _
    rw [entered.grows.literals, declared.literals, ← entry_literals, ← List.foldl_append, symbols, TextPool.ofList,
      literalsOfAll_eq, literalsOfAll_eq, literalsOfAll_eq, List.flatMap_append]
    rfl
  have scripts : d₂.scripts = (symbols g).scripts := by
    rw [defined.grows.scripts]
    change List.foldl _ d₁.scripts _ = _
    rw [entered.grows.scripts, declared.scripts, ← entry_scripts, ← List.foldl_append, symbols, TextPool.ofList,
      scriptsOfAll_eq, scriptsOfAll_eq, scriptsOfAll_eq, List.flatMap_append]
    rfl
  have targets := defined.targets
  rw [base] at targets
  have final : Settles d₂.labels (symbols g) d₂ := by
    refine ⟨fun _ _ h => h, fun name l hl => ?_, fun s _ => by rw [literals], fun s _ => by rw [scripts]⟩
    rw [rules] at hl
    exact lookup_settled targets hl
  obtain ⟨more, hc, -, resolved⟩ := entered.resolves
  obtain ⟨more', hc', resolved'⟩ := defined.resolves
  have code : resolve d₂.labels d₂.code =
      some (Emission.emitEntry (symbols g) g ++ .halt :: Emission.emitRules (symbols g) (entrySize g + 1) g.rules) := by
    have whole : d₂.code = more ++ .halt :: more' := by
      simp [hc', Draft.push, hc, declared.code, Draft.empty]
    have settled : Settles d₂.labels (symbols g) d₁ := (grows_push.trans defined.grows).settles final
    have rest := resolved' _ _ final
    rw [base] at rest
    rw [whole, entry_code]
    exact resolve_append (resolved _ _ settled) (resolve_cons (i := .halt) rfl rest)
  have addresses : g.rules.mapM (resolveRule d₂) = some (symbols g).rules := by
    refine resolveRules fun i r hr => ?_
    have within : i < g.rules.length := (List.getElem?_eq_some_iff.1 hr).choose
    have same : d₂.rules = d.rules := by
      rw [defined.grows.rules]
      exact entered.grows.rules
    rw [same, declared.lookup distinct hr, Option.bind_some, ← targets i within, Nat.zero_add]
  rw [link, code, addresses, literals, scripts, opened]
  rfl

/-- Assembling comes to the first fault of the grammar, or to its program. -/
theorem assemble_reports (items : List Item) (length : Nat) :
    Reports ((Grammar.ofItems items).fault? length) (assemble items length) (· = .ofGrammar (.ofItems items)) := by
  generalize hg : Grammar.ofItems items = g
  have parts : g.fault? length = (duplicate? [] g.rules).or
      ((if g.isEmpty then some (.emptyGrammar, length) else faultInAll? g.names g.entry).or
        ((faultInAll? g.names (g.rules.map Rule.body)).or none)) := by
    rw [fault?, Option.or_none]
    split
    · rfl
    · rw [faultInAll?_append]
  rw [parts]
  unfold assemble
  rw [hg]
  have none_yet : Knows [] .empty := fun _ => rfl
  refine (declares g.rules .empty none_yet).unfaulted.bind fun d first => ?_
  obtain ⟨unique, declared⟩ := first
  have distinct : g.names.Nodup := (duplicate?_eq_none.1 unique).1
  have known : Knows g.names d := declared.knows
  refine (assembles_entry length known declared.code).bind fun d₁ second => ?_
  obtain ⟨filled, e, start, entered⟩ := second
  have rules : d₁.rules = d.rules := entered.grows.rules
  have free : Free 0 g.rules.length (d₁.push .halt) := by
    intro i hi
    change d₁.labels[0 + i]? = _
    have within : i < d.labels.length := by simpa [declared.labels, Draft.empty] using hi
    rw [Nat.zero_add, entered.keeps i within, declared.labels]
    simp [Draft.empty, List.getElem?_replicate_of_lt hi]
  refine (defines g.rules (d₁.push .halt) 0 (known.of_rules rules) free fun i r hr => ?_).bind fun d₂ defined => ?_
  · change d₁.rules.lookup r.name = _
    rw [rules, declared.lookup distinct hr, Nat.zero_add]
  · exact ⟨_, links start filled distinct declared entered defined, rfl⟩

/-- A program that a source compiles to is the one that is assembled for its items. -/
theorem assemble_of_compile {source : String} {p : Program} (h : Program.compile source = .ok p) :
    ∃ items, Grammar.parse source.toList = .ok items ∧
      (Grammar.ofItems items).fault? (Parsing.Parser.byteLength source.toList) = none ∧
      p = .ofGrammar (.ofItems items) ∧ assemble items (Parsing.Parser.byteLength source.toList) = .ok p := by
  obtain ⟨g, read, fine, rfl⟩ := Program.read_of_compile h
  unfold Grammar.read at read
  cases spelled : Grammar.parse source.toList with
  | error seen =>
    rw [spelled] at read
    cases read
  | ok items =>
    rw [spelled] at read
    cases read
    have reports := assemble_reports items (Parsing.Parser.byteLength source.toList)
    rw [fine] at reports
    obtain ⟨p, assembled, rfl⟩ := reports
    exact ⟨items, rfl, fine, rfl, assembled⟩

end Assembly
end TextGrammar
