import TextGrammar.Program.TextPool
set_option autoImplicit false

namespace TextGrammar

structure Interner where
  texts : List String
  index : List (String × Nat)
  inverse : ∀ s i, index.lookup s = some i ↔ texts[i]? = some s

namespace Interner

def empty : Interner := ⟨[], [], fun _ _ => ⟨nofun, nofun⟩⟩

theorem inverse_concat {texts : List String} {index : List (String × Nat)} {s : String}
    (inverse : ∀ s i, index.lookup s = some i ↔ texts[i]? = some s) (new : index.lookup s = none) (t : String) (i : Nat) :
    List.lookup t ((s, texts.length) :: index) = some i ↔ (texts ++ [s])[i]? = some t := by
  rw [List.lookup_cons]
  by_cases same : t = s
  · subst same
    have absent : texts[i]? ≠ some t := fun h => by
      rw [(inverse t i).2 h] at new
      cases new
    rw [beq_self_eq_true]
    rcases Nat.lt_trichotomy i texts.length with less | rfl | more
    · rw [List.getElem?_append_left less]
      exact iff_of_false (by simp; omega) absent
    · simp
    · rw [List.getElem?_eq_none (by simp; omega)]
      exact iff_of_false (by simp; omega) (Option.some_ne_none t).symm
  · have other : (t == s) = false := beq_eq_false_iff_ne.2 same
    rw [other]
    refine (inverse t i).trans ?_
    rw [List.getElem?_append]
    split
    · rfl
    · rename_i behind
      rw [List.getElem?_eq_none (Nat.not_lt.1 behind)]
      refine iff_of_false (Option.some_ne_none t).symm fun h => same ?_
      exact List.mem_singleton.1 (List.mem_of_getElem? h)

def intern (n : Interner) (s : String) : Nat × Interner :=
  match new : n.index.lookup s with
  | some i => (i, n)
  | none => (n.texts.length, ⟨n.texts ++ [s], (s, n.texts.length) :: n.index, inverse_concat n.inverse new⟩)

def after (calls : List String) : Interner := calls.foldl (fun n s => (n.intern s).2) empty

theorem nodup (n : Interner) : n.texts.Nodup := by
  refine List.pairwise_iff_getElem.2 fun i j hi hj less same => ?_
  have first : n.index.lookup n.texts[i] = some i := (n.inverse _ _).2 (List.getElem?_eq_getElem hi)
  have second : n.index.lookup n.texts[i] = some j := (n.inverse _ _).2 (by rw [same, List.getElem?_eq_getElem hj])
  rw [first] at second
  exact Nat.ne_of_lt less (Option.some.inj second)

def pool (n : Interner) : TextPool := ⟨n.texts, n.nodup⟩

theorem mem_texts_iff (n : Interner) (s : String) : s ∈ n.texts ↔ (n.index.lookup s).isSome := by
  simp only [List.mem_iff_getElem?, ← n.inverse, Option.isSome_iff_exists]

/-- What is looked up in the table is what is found in the list. -/
theorem pool_intern (n : Interner) (s : String) : n.pool.intern s = ((n.intern s).1, (n.intern s).2.pool) := by
  unfold intern
  split
  · rename_i i known
    have held : s ∈ n.pool.texts := (n.mem_texts_iff s).2 (by rw [known]; rfl)
    have same : n.pool.insert s = n.pool := dif_pos held
    have here : n.index.lookup s = some (n.pool.indexOf s) := (n.inverse _ _).2 (n.pool.getElem?_indexOf s held)
    rw [known] at here
    rw [TextPool.intern, same, ← Option.some.inj here]
  · rename_i new
    have absent : s ∉ n.texts := fun h => by
      have known := (n.mem_texts_iff s).1 h
      rw [new] at known
      cases known
    have more : n.pool.insert s = ⟨n.texts ++ [s], TextPool.nodup_append_singleton n.nodup absent⟩ := dif_neg absent
    rw [TextPool.intern, more, TextPool.indexOf, List.idxOf_append, if_neg absent]
    simp [pool]

end Interner
end TextGrammar
