import TextGrammar.Proofs.PoolDraws
import TextGrammar.Proofs.StepRequests
set_option autoImplicit false

namespace TextGrammar.Pool

variable {τ : Type} {p q : Pool τ} {x : τ} {xs : List τ} {e e' : Entropy}

theorem draw_of_scan {index : Nat} {i : Float × τ} (two : 2 ≤ p.size)
    (found : scan (e.unit.1 * p.total) 0.0 p.items = index) (here : p.items[index]? = some i) :
    p.draw e = (some (i.2, ⟨p.items.eraseIdx index, p.total - i.1⟩), e.drop 4) := by
  obtain ⟨items, total⟩ := p
  match items, two with
  | i :: j :: more, _ =>
    simp only [draw, takeAt, found, here, Option.map_some]
    rfl

/-- What a draw does to the items: nothing if there are none, and otherwise it takes one out. -/
theorem draw_cases (p : Pool τ) (e : Entropy) :
    (p.items = [] ∧ (p.draw e).1 = none) ∨
      ∃ before i behind total, p.items = before ++ i :: behind ∧
        (p.draw e).1 = some (i.2, ⟨before ++ behind, total⟩) := by
  obtain ⟨items, total⟩ := p
  match items with
  | [] => exact .inl ⟨rfl, rfl⟩
  | [i] => exact .inr ⟨[], i, [], total, rfl, rfl⟩
  | i :: j :: more =>
    have within := scan_lt (e.unit.1 * total) 0.0 (i :: j :: more) (List.cons_ne_nil _ _)
    have drawn := draw_of_scan (p := ⟨i :: j :: more, total⟩) (Nat.le_add_left 2 _) rfl (List.getElem?_eq_getElem within)
    refine .inr ⟨_, _, _, _, ?_, (congrArg Prod.fst drawn).trans (by rw [List.eraseIdx_eq_take_drop_succ])⟩
    rw [← List.drop_eq_getElem_cons within, List.take_append_drop]

theorem draw_eq_none_iff : (p.draw e).1 = none ↔ p.items = [] := by
  rcases p.draw_cases e with ⟨empty, drawn⟩ | ⟨before, i, behind, total, items, drawn⟩
  · exact iff_of_true drawn empty
  · rw [drawn, items]
    exact iff_of_false nofun (by simp)

/-- Items that come out of a pool one after the other, with the pool and the entropy that they leave. -/
inductive Gives : Pool τ → Entropy → List τ → Pool τ → Entropy → Prop
  | none (p : Pool τ) (e : Entropy) : Gives p e [] p e
  | draw {p rest q : Pool τ} {x : τ} {xs : List τ} {e e₁ e' : Entropy} (drawn : p.draw e = (some (x, rest), e₁))
      (more : Gives rest e₁ xs q e') : Gives p e (x :: xs) q e'

/-- Nothing is lost and nothing comes twice: what came out and what is left are together what there was. -/
theorem Gives.perm (h : p.Gives e xs q e') : (xs ++ q.items.map Prod.snd).Perm (p.items.map Prod.snd) := by
  induction h with
  | none p e => exact .refl _
  | @draw p rest q x xs e e₁ e' drawn _ ih =>
    rcases p.draw_cases e with ⟨-, nothing⟩ | ⟨before, i, behind, total, items, found⟩
    · rw [drawn] at nothing
      cases nothing
    · rw [drawn] at found
      cases found
      rw [items, List.map_append, List.map_cons]
      rw [List.map_append] at ih
      exact (ih.cons i.2).trans List.perm_middle.symm

theorem Gives.size (h : p.Gives e xs q e') : xs.length + q.size = p.size := by
  have same := h.perm.length_eq
  rwa [List.length_append, List.length_map, List.length_map] at same

/-- Drawing comes to an end. The induction is on the number of items, of which a draw takes one away. -/
theorem exists_gives (p : Pool τ) (e : Entropy) : ∃ xs q e', p.Gives e xs q e' ∧ (q.draw e').1 = none := by
  induction n : p.size generalizing p e with
  | zero => exact ⟨[], p, e, .none p e, draw_eq_none_iff.2 (List.eq_nil_of_length_eq_zero n)⟩
  | succ n ih =>
    have some_item : p.items ≠ [] := fun empty => by
      rw [size, empty] at n
      cases n
    obtain ⟨x, rest, e₁, drawn, -, -, less⟩ := draw_spec p e some_item
    obtain ⟨xs, q, e', more, done⟩ := ih rest e₁ (by omega)
    exact ⟨x :: xs, q, e', .draw drawn more, done⟩

/-- Drawing from a list of weighted items, whatever their weights are, ends after as many draws as there are items, each of
which has then come out once. On the way no draw looks for an item where there is none, and each takes four bytes of
entropy, or those that are left, if there are at least two items to choose from. -/
theorem gives_each_once (items : List (Float × τ)) (e : Entropy) :
    (∃ xs q e', (ofList items).Gives e xs q e' ∧ (q.draw e').1 = none) ∧
      ∀ xs q e', (ofList items).Gives e xs q e' →
        ((q.draw e').1 = none ↔ xs.length = items.length) ∧
        ((q.draw e').1 = none → xs.Perm (items.map Prod.snd)) ∧
        (xs ++ q.items.map Prod.snd).Perm (items.map Prod.snd) ∧
        (xs.length < items.length → ∀ target, scan target 0.0 q.items < q.items.length) ∧
        (q.draw e').2 = e'.drop (if 2 ≤ items.length - xs.length then 4 else 0) := by
  refine ⟨exists_gives _ e, fun xs q e' h => ?_⟩
  have size : xs.length + q.size = items.length := h.size
  have left : q.items = [] ↔ xs.length = items.length := by
    rw [← List.length_eq_zero_iff, ← size, Pool.size]
    omega
  refine ⟨draw_eq_none_iff.trans left, fun done => ?_, h.perm, fun some_left target => ?_, ?_⟩
  · have perm : (xs ++ q.items.map Prod.snd).Perm (items.map Prod.snd) := h.perm
    rwa [draw_eq_none_iff.1 done, List.map_nil, List.append_nil] at perm
  · exact scan_lt _ _ _ fun empty => absurd (left.1 empty) (Nat.ne_of_lt some_left)
  · rw [q.reads_draw.left, cost, ← size, Nat.add_sub_cancel_left]
    rfl

/-- Two items are equal, and both come out. The target of the first draw is in the middle, and the second draw takes the two
bytes that are left. -/
theorem gives_each_once_equal :
    let items := [(0.25, 'a'), (0.5, 'b'), (0.25, 'a')]
    ∃ q, (ofList items).Gives [0, 0, 0, 128, 255, 255] ['b', 'a', 'a'] q [] ∧ (q.draw []).1 = none ∧
      ['b', 'a', 'a'].Perm (items.map Prod.snd) := by
  intro items
  have first := draw_of_scan (p := ofList items) (e := [0, 0, 0, 128, 255, 255]) (Nat.le_succ 2)
    (by decide +kernel : _ = 1) rfl
  have second := draw_of_scan (p := ⟨[(0.25, 'a'), (0.25, 'a')], (ofList items).total - 0.5⟩) (e := [255, 255])
    (Nat.le_refl 2) (by decide +kernel : _ = 0) rfl
  obtain ⟨q, gives⟩ : ∃ q, (ofList items).Gives [0, 0, 0, 128, 255, 255] ['b', 'a', 'a'] q [] :=
    ⟨_, .draw first (.draw second (.draw rfl (.none _ _)))⟩
  obtain ⟨-, rest⟩ := gives_each_once items [0, 0, 0, 128, 255, 255]
  obtain ⟨ends, perm, -⟩ := rest _ _ _ gives
  exact ⟨q, gives, ends.2 rfl, perm (ends.2 rfl)⟩

end TextGrammar.Pool
