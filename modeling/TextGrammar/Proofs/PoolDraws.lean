import Mathlib.Data.List.InsertIdx
import TextGrammar.Pool
set_option autoImplicit false

namespace TextGrammar.Pool

variable {τ υ : Type}

def map (f : τ → υ) (p : Pool τ) : Pool υ := ⟨p.items.map fun i => (i.1, f i.2), p.total⟩

theorem map_size (f : τ → υ) (p : Pool τ) : (p.map f).size = p.size := List.length_map _

theorem sum_map (f : τ → υ) (items : List (Float × τ)) (x : Float) :
    (items.map fun i => (i.1, f i.2)).foldl (fun sum i => sum + i.1) x = items.foldl (fun sum i => sum + i.1) x := by
  rw [List.foldl_map]

theorem map_ofList (f : τ → υ) (items : List (Float × τ)) :
    (ofList items).map f = ofList (items.map fun i => (i.1, f i.2)) := by
  rw [ofList, ofList, map, sum_map]

theorem scan_map (f : τ → υ) (target sum : Float) (items : List (Float × τ)) :
    scan target sum (items.map fun i => (i.1, f i.2)) = scan target sum items := by
  fun_induction scan target sum items with
  | case1 => rfl
  | case2 => rfl
  | case3 sum i items hne hlt =>
    obtain ⟨j, rest, rfl⟩ := List.exists_cons_of_ne_nil hne
    simp only [List.map_cons, scan, hlt, if_true]
  | case4 sum i items hne hlt ih =>
    obtain ⟨j, rest, rfl⟩ := List.exists_cons_of_ne_nil hne
    simp only [List.map_cons] at ih
    simp only [List.map_cons, scan, hlt, if_false, ih]

theorem scan_lt (target sum : Float) (items : List (Float × τ)) (h : items ≠ []) :
    scan target sum items < items.length := by
  fun_induction scan target sum items with
  | case1 => exact absurd rfl h
  | case2 => exact Nat.zero_lt_one
  | case3 => exact Nat.zero_lt_succ _
  | case4 sum i items hne hlt ih => exact Nat.succ_lt_succ (ih hne)

theorem takeAt_map (f : τ → υ) (p : Pool τ) (index : Nat) :
    (p.map f).takeAt index = (p.takeAt index).map fun r => (f r.1, r.2.map f) := by
  simp only [takeAt, map, List.getElem?_map, Option.map_map, List.eraseIdx_map]
  rfl

theorem draw_map (f : τ → υ) (p : Pool τ) (e : Entropy) :
    (p.map f).draw e = ((p.draw e).1.map fun r => (f r.1, r.2.map f), (p.draw e).2) := by
  obtain ⟨items, total⟩ := p
  match items with
  | [] => rfl
  | [i] => rfl
  | i :: j :: rest =>
    have scanned := fun target => scan_map f target 0.0 (i :: j :: rest)
    have taken := takeAt_map f ⟨i :: j :: rest, total⟩
    simp only [map, List.map_cons] at scanned taken
    simp only [draw, map, List.map_cons, scanned, taken]

/-- A pool with items gives one of them and keeps the others. -/
theorem draw_spec (p : Pool τ) (e : Entropy) (h : p.items ≠ []) : ∃ x rest e', p.draw e = (some (x, rest), e') ∧
    x ∈ p.items.map Prod.snd ∧ (∀ i ∈ rest.items, i ∈ p.items) ∧ rest.size + 1 = p.size := by
  obtain ⟨items, total⟩ := p
  match items with
  | [] => exact absurd rfl h
  | [i] => exact ⟨i.2, ⟨[], total⟩, e, rfl, by simp, by simp, rfl⟩
  | i :: j :: rest =>
    have hlt := scan_lt (e.unit.1 * total) 0.0 (i :: j :: rest) (by simp)
    have hget := List.getElem?_eq_getElem hlt
    refine ⟨_, _, e.unit.2, by simp only [draw, takeAt, hget, Option.map_some]; rfl, ?_, ?_, ?_⟩
    · exact List.mem_map_of_mem (List.getElem_mem hlt)
    · exact fun k hk => List.mem_of_mem_eraseIdx hk
    · change (List.eraseIdx _ _).length + 1 = _
      rw [List.length_eraseIdx_of_lt hlt]
      rfl

theorem mem_of_draw {p rest : Pool τ} {x : τ} {e e' : Entropy} (h : p.draw e = (some (x, rest), e')) :
    x ∈ p.items.map Prod.snd ∧ ∀ i ∈ rest.items, i ∈ p.items := by
  by_cases empty : p.items = []
  · simp [draw, empty] at h
  · obtain ⟨x', rest', e'', drawn, hx, hrest, -⟩ := draw_spec p e empty
    rw [drawn] at h
    cases h
    exact ⟨hx, hrest⟩

/-- A pool that some draws leave of another. -/
inductive LeftOver (p : Pool τ) : Pool τ → Prop
  | all : LeftOver p p
  | draw {q rest : Pool τ} {x : τ} {e e' : Entropy} (before : LeftOver p q) (drawn : q.draw e = (some (x, rest), e')) :
      LeftOver p rest

theorem LeftOver.sublist {p q : Pool τ} (h : LeftOver p q) : q.items.Sublist p.items := by
  induction h with
  | all => exact List.Sublist.refl _
  | @draw q rest x e e' _ drawn ih =>
    refine List.Sublist.trans ?_ ih
    obtain ⟨items, total⟩ := q
    match items with
    | [] => cases drawn
    | [i] =>
      cases drawn
      exact List.nil_sublist _
    | i :: j :: more =>
      simp only [Pool.draw, takeAt, Prod.mk.injEq, Option.map_eq_some_iff] at drawn
      obtain ⟨⟨k, hk, -, rfl⟩, -⟩ := drawn
      exact List.eraseIdx_sublist _ _

theorem leftOver_map {f : τ → υ} {p : Pool τ} {q : Pool υ} (h : (p.map f).LeftOver q) :
    ∃ q', p.LeftOver q' ∧ q = q'.map f := by
  induction h with
  | all => exact ⟨p, .all, rfl⟩
  | @draw _ rest x e e' _ drawn ih =>
    obtain ⟨q, before, rfl⟩ := ih
    rw [draw_map, Prod.mk.injEq, Option.map_eq_some_iff] at drawn
    obtain ⟨⟨⟨y, rest'⟩, drawn, same⟩, -⟩ := drawn
    cases same
    exact ⟨rest', before.draw (Prod.ext drawn rfl), rfl⟩

end TextGrammar.Pool
