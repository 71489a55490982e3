import TextGrammar.Proofs.AppendedOutput
import TextGrammar.Proofs.ComputingEvaluators
import TextGrammar.Proofs.GrammarPhrases
import TextGrammar.Proofs.Precedence
import TextGrammar.Proofs.Refinement
set_option autoImplicit false

namespace TextGrammar
open Grammar Emission Parsing Parser Token Meaning Machine TransactionalSink

def isEscaped (c : Char) : Bool := c == '\\' || c == '"' || c == '\x7b' || c == '\x7d'

def literalRule (name text : String) : List Char :=
  quotedName name ++ '=' :: (quotedText isEscaped text ++ [';'])

def stringBlock (text : String) : String := String.ofList (' ' :: quotedText isEscaped text)

def blockRule (name text : String) : List Char :=
  quotedName name ++ '=' :: ('\x7b' :: '=' :: ((stringBlock text).toList ++ ['\x7d', ';']))

variable {cs rest : List Char} {n v : String} {e : Expr}

theorem escaping_literal : Escaping Grammar.escapes '"' isEscaped := by
  refine ⟨rfl, rfl, fun e he => ?_⟩
  simp only [Grammar.escapes, List.mem_cons, List.not_mem_nil, or_false] at he
  rcases he with rfl | rfl | rfl
  · exact ⟨'n', rfl, rfl⟩
  · exact ⟨'t', rfl, rfl⟩
  · exact ⟨'e', rfl, rfl⟩

theorem escaping_string : Escaping Script.escapes '"' isEscaped := by
  refine ⟨rfl, rfl, fun e he => ?_⟩
  simp only [Script.escapes, List.mem_cons, List.not_mem_nil, or_false] at he
  rcases he with rfl | rfl
  · exact ⟨'n', rfl, rfl⟩
  · exact ⟨'t', rfl, rfl⟩

theorem balanced_escaped (cs : List Char) : Balanced (escaped isEscaped cs) := by
  induction cs with
  | nil => exact .nil
  | cons c cs ih =>
    by_cases h : isEscaped c = true
    · rw [escaped_of_special h]
      exact .escape c ih
    · rw [escaped_of_plain h]
      refine .plain ?_ ih
      simp only [isEscaped, Bool.or_eq_true, beq_iff_eq, not_or] at h
      simp [isPlain, h]

theorem balanced_stringBlock (v : String) : Balanced (stringBlock v).toList := by
  rw [stringBlock, String.toList_ofList]
  refine .plain rfl (.plain rfl ?_)
  exact (balanced_escaped v.toList).append (.plain rfl .nil)

theorem parse_stringBlock (v : String) :
    Script.parse (stringBlock v).toList = .ok [.evaluate (.constant (.str v))] := by
  have spaced : Script.Spaced [.text v] (stringBlock v).toList := by
    rw [stringBlock, String.toList_ofList]
    exact .blank rfl (.single (.text v (by decide) escaping_string))
  obtain ⟨_, parsed, rfl⟩ := (Script.takes_block (.text v) spaced spaced.length_le).run
  exact parsed

theorem compute_stringBlock (v : String) (b : Bindings) : Script.compute (stringBlock v) b = (.ok (.str v), b) := by
  rw [Script.compute, parse_stringBlock]
  rfl

/-- The body of the rule has neither operators nor suffixes. -/
theorem parse_rule (hn : Quotable n) (solid : Solid (cs ++ [';']))
    (start : ∀ c ∈ (cs ++ [';']).head?, c ≠ '/' ∧ c ≠ '|' ∧ c ≠ '[')
    (h : ∀ inner, Takes (primary inner) (cs ++ [';']) [';'] (· = e)) :
    ∃ pos, Grammar.parse (quotedName n ++ '=' :: (cs ++ [';'])) = .ok [.rule ⟨n, e, pos⟩] := by
  have closes : Closes [';'] := ⟨';', [], rfl, by decide⟩
  have body (depth : Nat) : Takes (choiceAt (depth + 1)) (cs ++ [';']) [';'] (· = e) :=
    takes_lone (takes_repeated (h (choiceAt depth)) closes.ends) closes solid start
  have rule (depth : Nat) := takes_item_rule (takes_definition hn solid (body depth))
  have whole (depth : Nat) :=
    takes_items (solid_quotedName n) (rule depth) (refuses_further_item_nil _).loops (Nat.zero_le _)
  obtain ⟨_, parsed, _, _, rfl, ⟨⟨_, _, pos⟩, rfl, rfl, rfl⟩, rfl⟩ :=
    (whole (quotedName n ++ '=' :: (cs ++ [';'])).length).run
  exact ⟨pos, parsed⟩

theorem compile_rule {pos : Nat} (parsed : Grammar.parse cs = .ok [.rule ⟨n, e, pos⟩]) (fine : e.fault? [n] = none) :
    Program.compile (String.ofList cs) = .ok (.ofGrammar ⟨[⟨n, e, pos⟩], []⟩) ∧ Sound ⟨[⟨n, e, pos⟩], []⟩ := by
  have read : Grammar.read (String.ofList cs).toList = .ok ⟨[⟨n, e, pos⟩], []⟩ := by
    rw [String.toList_ofList, Grammar.read, parsed]
    rfl
  have faultless (length : Nat) : (⟨[⟨n, e, pos⟩], []⟩ : TextGrammar.Grammar).fault? length = none := by
    simp [Grammar.fault?, Grammar.duplicate?, Grammar.isEmpty, Grammar.names, Grammar.faultInAll?, fine]
  refine ⟨?_, sound_of_fault? (faultless 0) (filled_of_read read)⟩
  rw [Program.compile, Program.compileChars, read]
  simp only [bind, Except.bind, faultless]
  rfl

section
variable {σ : Type} [Sink σ] [SteadySink σ] {g : TextGrammar.Grammar} {w : World σ Script.Engine} {pos : Nat}

def Appends (g : TextGrammar.Grammar) (e : Expr) (v : String) (w : World σ Script.Engine) : Prop :=
  ∃ fuel w', Meaning.run g fuel e w = some (.done w') ∧ content w'.sink = content w.sink ++ Utf8.ofString v

theorem write_appends (v : String) (w : World σ Script.Engine) :
    ∃ w', w.write v = .done w' ∧ content w'.sink = content w.sink ++ Utf8.ofString v := by
  obtain ⟨count, s, hs⟩ := SteadySink.write_ok w.sink v
  refine ⟨{ w with sink := s }, ?_, content_write hs⟩
  rw [World.write, hs]

theorem literal_appends (g : TextGrammar.Grammar) (v : String) (w : World σ Script.Engine) :
    Appends g (.literal v) v w := by
  obtain ⟨w', hw, written⟩ := write_appends v w
  exact ⟨1, w', congrArg some hw, written⟩

theorem block_appends (g : TextGrammar.Grammar) (v : String) (known : w.evaluator.Faithful) :
    Appends g (.generate (stringBlock v)) v w := by
  obtain ⟨-, result, -⟩ := Script.Engine.faithful_evaluate known (stringBlock v) w.bindings
  rw [compute_stringBlock] at result
  let r := Evaluator.evaluate w.evaluator (stringBlock v) w.bindings
  obtain ⟨w', hw, written⟩ := write_appends v { w with bindings := r.bindings, evaluator := r.evaluator }
  refine ⟨1, w', congrArg some ?_, written⟩
  have evaluated : r.result = .ok (.str v) := result
  rw [World.evaluate]
  simp only [show Evaluator.evaluate w.evaluator (stringBlock v) w.bindings = r from rfl, evaluated]
  exact hw

/-- A grammar whose only rule appends a text does so wherever a run may start. -/
theorem rule_appends {start : Option String} {e' : Expr}
    (he : (⟨[⟨n, e, pos⟩], []⟩ : TextGrammar.Grammar).start? start = some e')
    (h : Appends ⟨[⟨n, e, pos⟩], []⟩ e v w) : Appends ⟨[⟨n, e, pos⟩], []⟩ e' v w := by
  have found {name : String} {body : Expr} (hr : (⟨[⟨n, e, pos⟩], []⟩ : TextGrammar.Grammar).rule? name = some body) :
      body = e := by
    obtain ⟨r, found, rfl⟩ := Option.map_eq_some_iff.1 hr
    rw [List.mem_singleton.1 (List.mem_of_find?_eq_some found)]
  cases start with
  | some name => rwa [found he]
  | none =>
    obtain ⟨fuel, w', done, written⟩ := h
    cases he
    have rule : (⟨[⟨n, e, pos⟩], []⟩ : TextGrammar.Grammar).rule? n = some e := by simp [Grammar.rule?]
    refine ⟨fuel + 1, w', ?_, written⟩
    rw [Meaning.run, within, rule]
    exact done

theorem generate_of_appends {engine : Script.Engine} {entropy : Entropy} {sink : σ} {name : Option String}
    {start : Option Nat}
    (hg : g.Sound) (hs : (Program.ofGrammar g).start? name = some start)
    (h : ∀ e, g.start? name = some e → Appends g e v ⟨[], sink, engine, entropy⟩) :
    ∃ enough, ∀ steps, enough ≤ steps →
      ∃ a, (⟨.ofGrammar g, engine, start⟩ : Generator Script.Engine).generate steps sink entropy = some a ∧
        a.result = .ok true ∧ content a.sink = content sink ++ Utf8.ofString v := by
  obtain ⟨e, he, leads⟩ := leads_initial hg hs sink engine entropy
  obtain ⟨fuel, w, done, written⟩ := h e he
  obtain ⟨enough, s, hrun, rfl⟩ := (run_iff_of_leads leads (halt_codeAt g) (.ok true) w).2 ⟨fuel, _, done, rfl⟩
  refine ⟨enough, fun steps le => ⟨Ending.attempt (Sink.position sink) ⟨.ok true, s⟩, ?_, rfl, written⟩⟩
  rw [Generator.generate_eq, run_of_le hrun le]
  rfl

end

/-- The source compiles. Wherever its program may start, on any sink that takes every text and with any entropy, an attempt
succeeds and appends the text `v`, given enough steps. -/
def AlwaysWrites (source : List Char) (v : String) : Prop :=
  ∃ p, Program.compile (String.ofList source) = .ok p ∧
    ∀ {σ : Type} [Sink σ] [SteadySink σ] (sink : σ) (engine : Script.Engine) (entropy : Entropy) (name : Option String)
      (start : Option Nat), engine.Faithful → p.start? name = some start → ∃ enough, ∀ steps, enough ≤ steps →
        ∃ a, (⟨p, engine, start⟩ : Generator Script.Engine).generate steps sink entropy = some a ∧
          a.result = .ok true ∧ content a.sink = content sink ++ Utf8.ofString v

theorem alwaysWrites_of_rule (parsed : ∃ pos, Grammar.parse cs = .ok [.rule ⟨n, e, pos⟩]) (fine : e.fault? [n] = none)
    (appends : ∀ {σ : Type} [Sink σ] [SteadySink σ] (g : TextGrammar.Grammar) (w : World σ Script.Engine),
      w.evaluator.Faithful → Appends g e v w) : AlwaysWrites cs v := by
  obtain ⟨pos, parsed⟩ := parsed
  obtain ⟨compiled, sound⟩ := compile_rule parsed fine
  refine ⟨_, compiled, fun sink engine entropy name start faithful hs => ?_⟩
  exact generate_of_appends sound hs fun e' he => rule_appends he (appends _ _ faithful)

/-- A literal and a string in a block that are spelled alike are written alike. -/
theorem escaped_alwaysWrites (hn : Quotable n) (v : String) :
    AlwaysWrites (literalRule n v) v ∧ AlwaysWrites (blockRule n v) v := by
  constructor
  · refine alwaysWrites_of_rule (n := n) ?_ rfl fun g w _ => literal_appends g v w
    refine parse_rule hn (solid_of_head (by decide) (by decide) (by decide)) (by rintro c ⟨⟩; decide) fun inner => ?_
    exact takes_primary_literal (takes_literal escaping_literal v)
  · refine alwaysWrites_of_rule (n := n) ?_ rfl fun g w known => block_appends g v known
    have body : blockRule n v =
        quotedName n ++ '=' :: (('\x7b' :: '=' :: ((stringBlock v).toList ++ ['\x7d'])) ++ [';']) := by
      simp [blockRule]
    rw [body]
    refine parse_rule hn (solid_of_head (by decide) (by decide) (by decide)) (by rintro c ⟨⟩; decide) fun inner => ?_
    have text : '\x7b' :: '=' :: ((stringBlock v).toList ++ ['\x7d']) ++ [';'] =
        '\x7b' :: '=' :: ((stringBlock v).toList ++ '\x7d' :: [';']) := by simp
    rw [text]
    exact takes_primary_generate (balanced_stringBlock v)

/-- Backslashes, quotes and braces one after the other, written to bytes that were there before. -/
theorem escaped_alwaysWrites_backslashes : ∃ p a enough,
    Program.compile (String.ofList (blockRule "r" "\\\"\x7bn\\")) = .ok p ∧
      (Generator.new p Script.Engine.empty).generate enough ([1] : Bytes) [] = some a ∧ a.result = .ok true ∧
      a.sink = [1, 92, 34, 123, 110, 92] := by
  obtain ⟨p, compiled, writes⟩ := (escaped_alwaysWrites (n := "r") (by decide) "\\\"\x7bn\\").2
  obtain ⟨enough, h⟩ := writes ([1] : Bytes) .empty [] none none Script.Engine.empty_faithful rfl
  obtain ⟨a, generated, result, written⟩ := h enough (Nat.le_refl _)
  exact ⟨p, a, enough, compiled, generated, result, written.trans (by decide)⟩

end TextGrammar
