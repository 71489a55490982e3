set_option autoImplicit false

namespace TextGrammar

structure TextPool where
  texts : List String
  nodup : texts.Nodup

namespace TextPool

def empty : TextPool := ⟨[], .nil⟩

theorem nodup_append_singleton {texts : List String} {s : String} (h : texts.Nodup) (hs : s ∉ texts) :
    (texts ++ [s]).Nodup := by
  rw [List.nodup_append]
  refine ⟨h, by simp, ?_⟩
  intro a ha b hb
  rw [List.mem_singleton] at hb
  exact fun e => hs (hb ▸ e ▸ ha)

def insert (p : TextPool) (s : String) : TextPool :=
  if h : s ∈ p.texts then p else ⟨p.texts ++ [s], nodup_append_singleton p.nodup h⟩

def indexOf (p : TextPool) (s : String) : Nat := p.texts.idxOf s

def intern (p : TextPool) (s : String) : Nat × TextPool := ((p.insert s).indexOf s, p.insert s)

def ofList (texts : List String) : TextPool := texts.foldl insert empty

theorem mem_insert (p : TextPool) (s t : String) : t ∈ (p.insert s).texts ↔ t = s ∨ t ∈ p.texts := by
  unfold insert
  split
  · rename_i h
    exact ⟨.inr, fun e => e.elim (fun e => e ▸ h) id⟩
  · simp [or_comm]

theorem getElem?_indexOf (p : TextPool) (s : String) (h : s ∈ p.texts) : p.texts[p.indexOf s]? = some s := by
  have hlt : p.indexOf s < p.texts.length := List.idxOf_lt_length_iff.2 h
  rw [List.getElem?_eq_getElem hlt]
  exact congrArg some (List.getElem_idxOf hlt)

theorem indexOf_insert (p : TextPool) (s t : String) (h : t ∈ p.texts) :
    (p.insert s).indexOf t = p.indexOf t := by
  unfold insert
  split
  · rfl
  · simp [indexOf, List.idxOf_append, h]

end TextPool
end TextGrammar
