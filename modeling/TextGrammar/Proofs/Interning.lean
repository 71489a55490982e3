import Mathlib.Data.List.Induction
import TextGrammar.Program.Interner
import TextGrammar.Proofs.Compiled
set_option autoImplicit false

namespace TextGrammar

namespace TextPool

variable {p q : TextPool} {s t : String}

theorem prefix_insert (p : TextPool) (s : String) : p.texts <+: (p.insert s).texts := by
  unfold insert
  split
  · exact List.prefix_refl _
  · exact List.prefix_append _ _

theorem prefix_foldl_insert (texts : List String) (p : TextPool) : p.texts <+: (texts.foldl insert p).texts := by
  induction texts generalizing p with
  | nil => exact List.prefix_refl _
  | cons s texts ih => exact (prefix_insert p s).trans (ih (p.insert s))

/-- From the call on, the index names the text that it was returned for. -/
theorem refers_intern (later : (p.intern s).2.texts <+: q.texts) : q.texts[(p.intern s).1]? = some s := by
  have here : (p.intern s).2.texts[(p.intern s).1]? = some s :=
    getElem?_indexOf (p.insert s) s ((mem_insert p s s).2 (.inl rfl))
  have within : (p.intern s).1 < (p.intern s).2.texts.length := (List.getElem?_eq_some_iff.1 here).choose
  rw [List.getElem?_eq_getElem within, later.getElem within] at here
  rw [List.getElem?_eq_getElem (Nat.lt_of_lt_of_le within later.length_le), here]

/-- A later call returns the same index for the same text only. -/
theorem intern_eq_iff (later : (p.intern s).2.texts <+: q.texts) : (p.intern s).1 = (q.intern t).1 ↔ s = t := by
  have first : (q.intern t).2.texts[(p.intern s).1]? = some s := refers_intern (later.trans (prefix_insert q t))
  have second : (q.intern t).2.texts[(q.intern t).1]? = some t := refers_intern (List.prefix_refl _)
  constructor
  · intro same
    rw [same, second] at first
    exact (Option.some.inj first).symm
  · rintro rfl
    have within := (List.getElem?_eq_some_iff.1 first).choose
    exact (List.getElem?_inj within (q.intern s).2.nodup).1 (first.trans second.symm)

theorem ofList_append (texts texts' : List String) : ofList (texts ++ texts') = texts'.foldl insert (ofList texts) :=
  List.foldl_append

theorem texts_ofList (texts : List String) : (ofList texts).texts = texts.eraseDups := by
  induction texts using List.reverseRecOn with
  | nil => rfl
  | append_singleton texts s ih =>
    rw [ofList_append, List.foldl_cons, List.foldl_nil, insert, List.eraseDups_append, ← ih]
    by_cases held : s ∈ (ofList texts).texts
    · have old : s ∈ texts := (mem_ofList texts s).1 held
      simp [dif_pos held, List.removeAll, old]
    · have new : s ∉ texts := fun h => held ((mem_ofList texts s).2 h)
      simp [dif_neg held, List.removeAll, new, List.eraseDups_cons]

end TextPool

namespace Interner

variable {s t : String}

theorem pool_after (calls : List String) : (after calls).pool = .ofList calls := by
  induction calls using List.reverseRecOn with
  | nil => rfl
  | append_singleton calls s ih =>
    have last : (after (calls ++ [s])).pool = ((after calls).pool.intern s).2 := by
      rw [pool_intern, after, List.foldl_append]
      rfl
    rw [last, ih, TextPool.ofList_append]
    rfl

/-- Each text is there once, in the order of the calls. -/
theorem texts_after (calls : List String) : (after calls).texts = calls.eraseDups := by
  rw [← TextPool.texts_ofList, ← pool_after]
  rfl

theorem intern_after (calls : List String) (s : String) :
    ((after calls).intern s).1 = ((TextPool.ofList calls).intern s).1 := by
  rw [← pool_after, pool_intern]

/-- All that a call leaves is there after any further calls. -/
theorem prefix_after (before : List String) (s : String) (later : List String) :
    ((TextPool.ofList before).intern s).2.texts <+: (TextPool.ofList (before ++ s :: later)).texts := by
  rw [TextPool.ofList_append]
  exact TextPool.prefix_foldl_insert later _

theorem refers_after (before : List String) (s : String) (later : List String) :
    (after (before ++ s :: later)).texts[((after before).intern s).1]? = some s := by
  have texts : (after (before ++ s :: later)).texts = (TextPool.ofList (before ++ s :: later)).texts :=
    congrArg TextPool.texts (pool_after _)
  rw [texts, intern_after]
  exact TextPool.refers_intern (prefix_after before s later)

theorem intern_eq_iff (before : List String) (s : String) (between : List String) (t : String) :
    ((after before).intern s).1 = ((after (before ++ s :: between)).intern t).1 ↔ s = t := by
  rw [intern_after, intern_after]
  exact TextPool.intern_eq_iff (prefix_after before s between)

end Interner
end TextGrammar
