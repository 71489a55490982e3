import Mathlib.Data.List.Induction
import Mathlib.Data.List.TakeWhile
import TextGrammar.Parsing.Parser
set_option autoImplicit false

namespace TextGrammar.Location
open Parsing.Parser

variable {source before cs line : List Char} {offset offset' n : Nat} {l l' l'' : Location}

/-- An offset at which no character is cut in two. -/
def Boundary (source : List Char) (offset : Nat) : Prop :=
  ∃ before behind, source = before ++ behind ∧ byteLength before = offset

/-- The characters before an offset, unless it cuts one of them in two. An offset past the end counts as the end. -/
def before? : List Char → Nat → Option (List Char)
  | [], _ => some []
  | c :: cs, offset =>
    if offset = 0 then some []
    else if c.utf8Size ≤ offset then (before? cs (offset - c.utf8Size)).map (c :: ·)
    else none

def lastLine (cs : List Char) : List Char := (cs.reverse.takeWhile (· != '\n')).reverse

/-- The location behind some characters, from the number of line feeds and the length of the last line. -/
def past (cs : List Char) : Location := ⟨cs.count '\n' + 1, (lastLine cs).length + 1⟩

def cutting? (source : List Char) (offset : Nat) : Option Location := (before? source offset).map past

def fromLine : Nat → List Char → Option (List Char)
  | 0, cs => some cs
  | _ + 1, [] => none
  | n + 1, c :: cs => if c = '\n' then fromLine n cs else fromLine (n + 1) cs

/-- The offset of a location: from the start of its line as many characters forward as there are columns before it. -/
def offset? (source : List Char) (l : Location) : Option Nat :=
  (fromLine (l.line - 1) source).bind fun line =>
    if l.column - 1 ≤ line.length then
      some (byteLength source - byteLength line + byteLength (line.take (l.column - 1)))
    else none

def Precedes (l l' : Location) : Prop := l.line < l'.line ∨ l.line = l'.line ∧ l.column < l'.column

instance : DecidableRel Precedes := fun _ _ => inferInstanceAs (Decidable (_ ∨ _))

theorem byteLength_append (cs ds : List Char) : byteLength (cs ++ ds) = byteLength cs + byteLength ds := by
  induction cs with
  | nil => exact (Nat.zero_add _).symm
  | cons c cs ih =>
    change c.utf8Size + byteLength (cs ++ ds) = c.utf8Size + byteLength cs + byteLength ds
    rw [ih, Nat.add_assoc]

theorem before?_append (before behind : List Char) : before? (before ++ behind) (byteLength before) = some before := by
  induction before with
  | nil => cases behind <;> rfl
  | cons c cs ih =>
    have size : byteLength (c :: cs) = c.utf8Size + byteLength cs := rfl
    have positive := c.utf8Size_pos
    rw [List.cons_append, before?, size, if_neg (by omega), if_pos (Nat.le_add_right _ _), Nat.add_sub_cancel_left, ih]
    rfl

theorem boundary_of_before? (h : before? source offset = some before) (within : offset ≤ byteLength source) :
    Boundary source offset := by
  induction source generalizing offset before with
  | nil => exact ⟨[], [], rfl, (Nat.le_zero.1 within).symm⟩
  | cons c cs ih =>
    rw [before?] at h
    split at h
    · rename_i zero
      exact ⟨[], c :: cs, rfl, zero.symm⟩
    · split at h
      · rename_i fits
        obtain ⟨rest, found, -⟩ := Option.map_eq_some_iff.1 h
        have size : byteLength (c :: cs) = c.utf8Size + byteLength cs := rfl
        obtain ⟨front, back, rfl, length⟩ := ih found (by omega)
        refine ⟨c :: front, back, rfl, ?_⟩
        change c.utf8Size + byteLength front = offset
        omega
      · cases h

theorem cutting?_isSome_iff (within : offset ≤ byteLength source) :
    (cutting? source offset).isSome ↔ Boundary source offset := by
  rw [cutting?, Option.isSome_map, Option.isSome_iff_exists]
  constructor
  · rintro ⟨before, found⟩
    exact boundary_of_before? found within
  · rintro ⟨before, behind, rfl, rfl⟩
    exact ⟨before, before?_append before behind⟩

theorem walk_append (l : Location) (before behind : List Char) :
    walk l (before ++ behind) (byteLength before) = before.foldl after l := by
  induction before generalizing l with
  | nil => cases behind <;> rfl
  | cons c cs ih =>
    have size : byteLength (c :: cs) = c.utf8Size + byteLength cs := rfl
    have positive := c.utf8Size_pos
    rw [List.cons_append, walk, size, if_neg (by omega), Nat.add_sub_cancel_left, ih, List.foldl_cons]

theorem lastLine_concat (cs : List Char) (c : Char) :
    lastLine (cs ++ [c]) = if c = '\n' then [] else lastLine cs ++ [c] := by
  by_cases h : c = '\n' <;> simp [lastLine, h]

theorem count_concat (cs : List Char) (c : Char) :
    (cs ++ [c]).count '\n' = cs.count '\n' + if c = '\n' then 1 else 0 := by
  by_cases h : c = '\n' <;> simp [h]

theorem past_concat (cs : List Char) (c : Char) : past (cs ++ [c]) = (past cs).after c := by
  rw [past, count_concat, lastLine_concat, after]
  split
  · rfl
  · rw [List.length_append]
    rfl

theorem foldl_after (cs : List Char) : cs.foldl after ⟨1, 1⟩ = past cs := by
  induction cs using List.reverseRecOn with
  | nil => rfl
  | append_singleton cs c ih => rw [List.foldl_append, ih, List.foldl_cons, List.foldl_nil, past_concat]

theorem ofOffset_append (before rest : List Char) : ofOffset (before ++ rest) (byteLength before) = past before := by
  rw [ofOffset, walk_append, foldl_after]

theorem fromLine_succ (n : Nat) (cs : List Char) : fromLine (n + 1) cs = (fromLine n cs).bind (fromLine 1) := by
  induction cs generalizing n with
  | nil => cases n <;> rfl
  | cons c cs ih =>
    cases n with
    | zero => rfl
    | succ n =>
      rw [fromLine, fromLine]
      split
      · exact ih n
      · exact ih (n + 1)

theorem fromLine_one (plain : '\n' ∉ line) (rest : List Char) : fromLine 1 (line ++ '\n' :: rest) = some rest := by
  induction line with
  | nil => rw [List.nil_append, fromLine, if_pos rfl, fromLine]
  | cons c line ih =>
    rw [List.mem_cons, not_or] at plain
    rw [List.cons_append, fromLine, if_neg (Ne.symm plain.1), ih plain.2]

theorem not_mem_lastLine (cs : List Char) : '\n' ∉ lastLine cs := by
  intro h
  have found := List.mem_takeWhile_imp (List.mem_reverse.1 h)
  exact absurd found (by decide)

/-- The line that an offset is in begins with what stands before the offset on it. -/
theorem fromLine_count (cs rest : List Char) : fromLine (cs.count '\n') (cs ++ rest) = some (lastLine cs ++ rest) := by
  induction cs using List.reverseRecOn generalizing rest with
  | nil =>
    rw [List.count_nil, fromLine]
    rfl
  | append_singleton cs c ih =>
    rw [count_concat, lastLine_concat, List.append_assoc]
    by_cases h : c = '\n'
    · rw [if_pos h, if_pos h, fromLine_succ, ih, h]
      exact fromLine_one (not_mem_lastLine cs) rest
    · rw [if_neg h, if_neg h, Nat.add_zero, ih, List.append_assoc]

theorem offset?_past (before rest : List Char) : offset? (before ++ rest) (past before) = some (byteLength before) := by
  have line : fromLine ((past before).line - 1) (before ++ rest) = some (lastLine before ++ rest) :=
    fromLine_count before rest
  have column : (past before).column - 1 = (lastLine before).length := rfl
  have suffix : lastLine before <:+ before := by
    rw [← List.reverse_prefix, lastLine, List.reverse_reverse]
    exact List.takeWhile_prefix _
  obtain ⟨front, split⟩ := suffix
  have bytes : byteLength before = byteLength front + byteLength (lastLine before) := by
    rw [← byteLength_append, split]
  rw [offset?, line, Option.bind_some, column, List.take_left, if_pos (by rw [List.length_append]; omega),
    byteLength_append, byteLength_append]
  exact congrArg some (by omega)

theorem Precedes.trans (h : l.Precedes l') (h' : l'.Precedes l'') : l.Precedes l'' := by
  unfold Precedes at *
  omega

theorem precedes_after (l : Location) (c : Char) : l.Precedes (l.after c) := by
  unfold Precedes after
  split
  · exact .inl (Nat.lt_succ_self _)
  · exact .inr ⟨rfl, Nat.lt_succ_self _⟩

theorem precedes_foldl (l : Location) (cs : List Char) (nonempty : cs ≠ []) : l.Precedes (cs.foldl after l) := by
  induction cs generalizing l with
  | nil => exact absurd rfl nonempty
  | cons c cs ih =>
    cases cs with
    | nil => exact precedes_after l c
    | cons d ds => exact (precedes_after l c).trans (ih _ (List.cons_ne_nil _ _))

theorem precedes_of_lt (h : Boundary source offset) (h' : Boundary source offset') (less : offset < offset') :
    (ofOffset source offset).Precedes (ofOffset source offset') := by
  obtain ⟨front, back, rfl, rfl⟩ := h
  obtain ⟨front', back', split, rfl⟩ := h'
  rcases List.append_eq_append_iff.1 split with ⟨more, rfl, rfl⟩ | ⟨more, rfl, rfl⟩
  · have nonempty : more ≠ [] := by
      rintro rfl
      rw [List.append_nil] at less
      exact absurd less (Nat.lt_irrefl _)
    rw [ofOffset_append front, split, ofOffset_append, ← foldl_after, ← foldl_after, List.foldl_append]
    exact precedes_foldl _ more nonempty
  · rw [byteLength_append] at less
    omega

/-- Every offset between two characters has a location, found by cutting the source there, from which the offset is found
again, and locations are in the order of their offsets. -/
theorem ofOffset_identifies (source : List Char) :
    (∀ offset, Boundary source offset → cutting? source offset = some (ofOffset source offset) ∧
      offset? source (ofOffset source offset) = some offset) ∧
    ∀ offset offset', Boundary source offset → Boundary source offset' →
      (offset ≠ offset' → ofOffset source offset ≠ ofOffset source offset') ∧
      (offset < offset' → (ofOffset source offset).Precedes (ofOffset source offset')) := by
  have back (offset : Nat) (h : Boundary source offset) : offset? source (ofOffset source offset) = some offset := by
    obtain ⟨front, rest, rfl, rfl⟩ := h
    rw [ofOffset_append, offset?_past]
  refine ⟨fun offset h => ⟨?_, back offset h⟩, fun offset offset' h h' => ⟨fun other same => ?_, precedes_of_lt h h'⟩⟩
  · obtain ⟨front, rest, rfl, rfl⟩ := h
    rw [cutting?, before?_append, ofOffset_append]
    rfl
  · have found := back offset h
    rw [same, back offset' h'] at found
    exact other (Option.some.inj found).symm

/-- An empty line, characters of two and four bytes, an offset on a line feed and the one at the end. -/
theorem ofOffset_identifies_wide :
    let source := "é\n\n𝕏b\n".toList
    (Boundary source 2 ∧ Boundary source 9 ∧ Boundary source 10) ∧
      cutting? source 9 = some (ofOffset source 9) ∧ ofOffset source 9 = ⟨3, 3⟩ ∧ offset? source ⟨3, 3⟩ = some 9 ∧
      ofOffset source 2 ≠ ofOffset source 9 ∧ (ofOffset source 9).Precedes (ofOffset source 10) ∧
      cutting? source 6 = none := by
  intro source
  have two : Boundary source 2 := ⟨['é'], _, rfl, rfl⟩
  have nine : Boundary source 9 := ⟨['é', '\n', '\n', '𝕏', 'b'], _, rfl, rfl⟩
  have ten : Boundary source 10 := ⟨source, [], (List.append_nil _).symm, rfl⟩
  obtain ⟨each, pairs⟩ := ofOffset_identifies source
  exact ⟨⟨two, nine, ten⟩, (each 9 nine).1, rfl, (each 9 nine).2, (pairs 2 9 two nine).1 (by decide),
    (pairs 9 10 nine ten).2 (by decide), rfl⟩

end TextGrammar.Location
