import TextGrammar.Proofs.ReaderResults
set_option autoImplicit false

namespace TextGrammar.Grammar
open Parsing Parser Token

variable {cs mid rest : List Char} {s : String} {e : Expr} {P : Expr → Prop} {depth : Nat}

theorem takes_definition_blank {n : String} {body : Parser Expr} (hn : Takes name cs (' ' :: '=' :: ' ' :: mid) (· = n))
    (solid : Solid mid) (h : Takes body mid (' ' :: ';' :: rest) P) :
    Takes (definition body) cs rest fun r => r.name = n ∧ P r.body := by
  have sign : Solid ('=' :: ' ' :: mid) := solid_of_head (by decide) (by decide) (by decide)
  have close : Solid (';' :: rest) := solid_of_head (by decide) (by decide) (by decide)
  refine takes_position.bind fun pos _ => hn.bind ?_
  rintro _ rfl
  refine sign.takes_layout_blank.bind fun _ _ => Takes.bind (takes_word "=") fun _ _ => ?_
  refine solid.takes_layout_blank.bind fun _ _ => h.bind fun e he => ?_
  exact close.takes_layout_blank.bind fun _ _ => Takes.bind (takes_word ";") fun _ _ => takes_pure ⟨rfl, he⟩

theorem takes_lone_blank (h : Takes (primary (choiceAt depth)) cs (' ' :: rest) P) (closes : Closes rest)
    (solid : Solid cs) (start : ∀ c ∈ cs.head?, c ≠ '/' ∧ c ≠ '|' ∧ c ≠ '[') :
    Takes (choiceAt (depth + 1)) cs (' ' :: rest) P := by
  have gap := closes.ends.solid.takes_layout_blank
  have no_suffix : Refuses (do layout; suffix) (' ' :: rest) := gap.refuses fun _ _ => closes.ends.refuses_suffix
  have no_part : Refuses (do let _ ← layout; repeated (choiceAt depth)) (' ' :: rest) :=
    gap.refuses fun _ _ => (refuses_primary closes.outside).bind
  have no_alternative : Refuses (do layout; separated (sequence (choiceAt depth))) (' ' :: rest) := by
    refine gap.refuses fun _ _ => refuses_separated ?_
    obtain ⟨c, more, rfl, hc⟩ := closes
    have plain : ∀ c ∈ closings, c ≠ '/' ∧ c ≠ '|' := forall_mem_of_all (by decide)
    rintro d ⟨⟩
    exact plain c hc
  exact takes_choice_alone (takes_sequence_alone (takes_unsuffixed h no_suffix) no_part) no_alternative solid start

/-- The source `r = ⟨opening⟩⟨s⟩} ;`. -/
def blockAlone (opening s : String) : List Char :=
  "r = ".toList ++ (opening.toList ++ (s.toList ++ "\x7d ;".toList))

/-- The source is read as one rule `r` with this body, and nothing else. -/
def IsRule (source : List Char) (e : Expr) : Prop := ∃ pos, parse source = .ok [.rule ⟨"r", e, pos⟩]

theorem isRule_blockAlone {opening : String} {more : List Char} (brace : opening.toList = '\x7b' :: more)
    (h : ∀ inner rest, Takes (primary inner) (opening.toList ++ (s.toList ++ '\x7d' :: rest)) rest (· = e)) :
    IsRule (blockAlone opening s) e := by
  obtain ⟨block, hblock⟩ : ∃ block, block = opening.toList ++ (s.toList ++ "\x7d ;".toList) := ⟨_, rfl⟩
  have head : block = '\x7b' :: (more ++ (s.toList ++ "\x7d ;".toList)) := by rw [hblock, brace]; rfl
  have solid : Solid block := by
    rw [head]
    exact solid_of_head (by decide) (by decide) (by decide)
  have start : ∀ c ∈ block.head?, c ≠ '/' ∧ c ≠ '|' ∧ c ≠ '[' := by
    rw [head]
    rintro c ⟨⟩
    decide
  have body (depth : Nat) : Takes (choiceAt (depth + 1)) block [' ', ';'] (· = e) := by
    refine takes_lone_blank ?_ ⟨';', [], rfl, by decide⟩ solid start
    rw [hblock]
    exact h (choiceAt depth) [' ', ';']
  have named : Takes name ('r' :: ([] ++ ' ' :: '=' :: ' ' :: block)) (' ' :: '=' :: ' ' :: block) (· = "r") :=
    takes_bareName (by decide) nofun (by rintro d ⟨⟩; decide)
  have rule (depth : Nat) := takes_item_rule (takes_definition_blank named solid (body depth))
  have whole (depth : Nat) := takes_items (solid_of_head (by decide) (by decide) (by decide)) (rule depth)
    (refuses_further_item_nil _).loops (Nat.zero_le _)
  have text : blockAlone opening s = 'r' :: ([] ++ ' ' :: '=' :: ' ' :: block) := by rw [hblock]; rfl
  obtain ⟨_, parsed, _, _, rfl, ⟨⟨_, _, pos⟩, rfl, rfl, rfl⟩, rfl⟩ := (whole (blockAlone opening s).length).run
  rw [text] at parsed ⊢
  exact ⟨pos, parsed⟩

def HoldsBalanced : Expr → Prop
  | .generate s | .check s | .action s => Balanced s.toList
  | _ => True

theorem closed_holdsBalanced : Closed (fun _ => True) HoldsBalanced where
  literal _ := trivial
  range _ _ := trivial
  reference _ := trivial
  generate h := h
  check h := h
  action h _ := h
  times _ _ _ _ := trivial
  capture _ _ _ := trivial
  items {es} _ h := by
    match es with
    | [] => trivial
    | [e] => exact h e (List.mem_singleton_self e)
    | _ :: _ :: _ => trivial
  choice _ _ := trivial

theorem holdsBalanced_of_isRule {source : List Char} (h : IsRule source e) : HoldsBalanced e := by
  obtain ⟨pos, parsed⟩ := h
  exact (fits_of_parse closed_holdsBalanced (yields_true _) parsed _ (List.mem_singleton_self _)).2

/-- A block of each kind ends at the brace that matches the one at its start: a text can stand in it if and only if it is
balanced. -/
theorem isRule_blockAlone_iff (s : String) :
    (IsRule (blockAlone "\x7b=" s) (.generate s) ↔ Balanced s.toList) ∧
      (IsRule (blockAlone "\x7b?" s) (.check s) ↔ Balanced s.toList) ∧
      ((∀ c ∈ s.toList.head?, c ≠ '=' ∧ c ≠ '?') →
        (IsRule (blockAlone "\x7b" s) (.action s) ↔ Balanced s.toList)) := by
  refine ⟨⟨holdsBalanced_of_isRule, fun h => ?_⟩, ⟨holdsBalanced_of_isRule, fun h => ?_⟩,
    fun plain => ⟨holdsBalanced_of_isRule, fun h => ?_⟩⟩
  · exact isRule_blockAlone rfl fun _ _ => takes_primary_generate h
  · exact isRule_blockAlone rfl fun _ _ => takes_primary_check h
  · exact isRule_blockAlone rfl fun _ _ => takes_primary_action h plain

/-- A brace behind a backslash closes nothing, and an action ends at the first brace that closes none of its own. -/
theorem isRule_blockAlone_iff_escaped :
    (∀ c ∈ "a\x7b\\\x7d\x7d".toList.head?, c ≠ '=' ∧ c ≠ '?') ∧
      IsRule (blockAlone "\x7b" "a\x7b\\\x7d\x7d") (.action "a\x7b\\\x7d\x7d") ∧
      (∀ c ∈ "a\x7d \x7bb".toList.head?, c ≠ '=' ∧ c ≠ '?') ∧
      ¬ IsRule (blockAlone "\x7b" "a\x7d \x7bb") (.action "a\x7d \x7bb") := by
  have plain {cs : List Char} : ∀ c ∈ ('a' :: cs).head?, c ≠ '=' ∧ c ≠ '?' := by
    rintro c ⟨⟩
    decide
  refine ⟨plain, ((isRule_blockAlone_iff "a\x7b\\\x7d\x7d").2.2 plain).2 ?_, plain, fun h => ?_⟩
  · exact .plain rfl (.braces (.escape '\x7d' .nil) .nil)
  · have balanced := ((isRule_blockAlone_iff "a\x7d \x7bb").2.2 plain).1 h
    exact absurd (balanced.behind (by decide)) nofun

end TextGrammar.Grammar
