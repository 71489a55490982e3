import TextGrammar.Proofs.FloatOrder
import TextGrammar.Script.Arithmetic
set_option autoImplicit false

namespace TextGrammar.Script
open Binary64

def Proper (v : Value) : Prop := ∀ x, v = .float x → x.isNaN = false

/-- The value is a number, and this is its rank among the floats. -/
def Placed (v : Value) (z : Int) : Prop := ∃ x, toFloat? v = some x ∧ Ranks x z

inductive Integers : Value → Value → Prop
  | mk (m n : Int64) : Integers (.int m) (.int n)

/-- Two different integers, and a float that both are equal to. -/
structure Conflated (x y z : Value) : Prop where
  differ : ∃ m n : Int64, x = .int m ∧ z = .int n ∧ m ≠ n
  float : ∃ f, y = .float f
  left : equal x y = true
  right : equal y z = true

variable {x y z : Value} {a b : Int} {m n : Int64} {o : Ordering}

theorem proper_int (n : Int64) : Proper (.int n) := nofun

theorem proper_float {f : Float} (h : f.isNaN = false) : Proper (.float f) := by
  intro g same
  rw [Value.float.injEq] at same
  rw [← same]
  exact h

theorem placed_int (n : Int64) : Placed (.int n) (integerRank n.toInt) := ⟨_, rfl, ranks_ofInt64 n⟩

theorem Proper.exists_placed {x : Float} (h : Proper (.float x)) : ∃ a, Placed (.float x) a := by
  obtain ⟨a, ha⟩ := exists_ranks (h x rfl)
  exact ⟨a, x, rfl, ha⟩

theorem Placed.unique (h : Placed x a) (h' : Placed x b) : a = b := by
  obtain ⟨f, hf, ranks⟩ := h
  obtain ⟨g, hg, ranks'⟩ := h'
  rw [hf] at hg
  cases hg
  exact ranks.unique ranks'

theorem orderFloats_eq {f g : Float} (hf : Ranks f a) (hg : Ranks g b) : orderFloats f g = some (compare a b) := by
  rw [orderFloats]
  rcases Int.lt_trichotomy a b with less | same | more
  · rw [if_pos ((hf.lt_iff hg).2 less), Int.compare_eq_lt.2 less]
  · subst same
    rw [if_neg fun h => Int.lt_irrefl a ((hf.lt_iff hg).1 h), if_neg fun h => Int.lt_irrefl a ((hg.lt_iff hf).1 h),
      if_pos ((hf.beq_iff hg).2 rfl), Int.compare_eq_eq.2 rfl]
  · rw [if_neg fun h => Int.lt_asymm more ((hf.lt_iff hg).1 h), if_pos ((hg.lt_iff hf).2 more), Int.compare_eq_gt.2 more]

theorem placed_compare (hx : Placed x a) (hy : Placed y b) (mixed : ¬ Integers x y) :
    order? x y = some (compare a b) ∧ (equal x y = true ↔ a = b) := by
  obtain ⟨f, hf, ranks⟩ := hx
  obtain ⟨g, hg, ranks'⟩ := hy
  have order := orderFloats_eq ranks ranks'
  have same := ranks.beq_iff ranks'
  cases x with
  | int m =>
    cases hf
    cases y with
    | int n => exact absurd (.mk m n) mixed
    | float g =>
      cases hg
      exact ⟨order, same⟩
    | _ => cases hg
  | float f =>
    cases hf
    cases y with
    | int n =>
      cases hg
      exact ⟨order, same⟩
    | float g =>
      cases hg
      exact ⟨order, same⟩
    | _ => cases hg
  | _ => cases hf

@[simp] theorem not_placed_nil : ¬ Placed .nil a := fun ⟨_, h, _⟩ => nomatch h

@[simp] theorem not_placed_bool {t : Bool} : ¬ Placed (.bool t) a := fun ⟨_, h, _⟩ => nomatch h

@[simp] theorem not_placed_str {s : String} : ¬ Placed (.str s) a := fun ⟨_, h, _⟩ => nomatch h

theorem equal_iff_of_placed (hx : Placed x a) (hy : Placed y b) (mixed : ¬ Integers x y) :
    equal x y = true ↔ x = y ∨ ∃ c, Placed x c ∧ Placed y c ∧ ¬ Integers x y := by
  rw [(placed_compare hx hy mixed).2]
  constructor
  · intro same
    subst same
    exact .inr ⟨a, hx, hy, mixed⟩
  · rintro (same | ⟨c, hx', hy', -⟩)
    · subst same
      exact hx.unique hy
    · rw [hx.unique hx', hy.unique hy']

/-- Values are equal when they are the same, and numbers of which one is a float also when their ranks are. -/
theorem equal_iff (hx : Proper x) (hy : Proper y) :
    equal x y = true ↔ x = y ∨ ∃ c, Placed x c ∧ Placed y c ∧ ¬ Integers x y := by
  cases x with
  | int m =>
    cases y with
    | int n =>
      have whole : ∀ c, ¬ (Placed (.int m) c ∧ Placed (.int n) c ∧ ¬ Integers (.int m) (.int n)) :=
        fun c h => h.2.2 (.mk m n)
      simp [equal, whole]
    | float g =>
      obtain ⟨b, hb⟩ := hy.exists_placed
      exact equal_iff_of_placed (placed_int m) hb nofun
    | _ => simp [equal]
  | float f =>
    obtain ⟨a, ha⟩ := hx.exists_placed
    cases y with
    | int n => exact equal_iff_of_placed ha (placed_int n) nofun
    | float g =>
      obtain ⟨b, hb⟩ := hy.exists_placed
      exact equal_iff_of_placed ha hb nofun
    | _ => simp [equal]
  | _ => cases y <;> simp [equal]

theorem equal_self (hx : Proper x) : equal x x = true := (equal_iff hx hx).2 (.inl rfl)

theorem Integers.swap (h : Integers x y) : Integers y x := by
  cases h
  exact .mk _ _

theorem equal_comm (hx : Proper x) (hy : Proper y) : equal x y = equal y x := by
  have forward {u v : Value} (hu : Proper u) (hv : Proper v) (h : equal u v = true) : equal v u = true := by
    rw [equal_iff hv hu]
    rcases (equal_iff hu hv).1 h with same | ⟨c, placed, placed', mixed⟩
    · exact .inl same.symm
    · exact .inr ⟨c, placed', placed, fun whole => mixed whole.swap⟩
  exact Bool.eq_iff_iff.2 ⟨forward hx hy, forward hy hx⟩

/-- A number that is not an integer beside this one is a float. -/
theorem Placed.float {n : Int64} (h : Placed y a) (mixed : ¬ Integers (.int n) y) : ∃ f, y = .float f := by
  obtain ⟨f, hf, -⟩ := h
  cases y with
  | int m => exact absurd (.mk n m) mixed
  | float f => exact ⟨f, rfl⟩
  | _ => cases hf

theorem equal_trans (hx : Proper x) (hy : Proper y) (hz : Proper z) (h : equal x y = true) (h' : equal y z = true) :
    equal x z = true ∨ Conflated x y z := by
  rcases (equal_iff hx hy).1 h with same | ⟨a, ha, hb, mixed⟩
  · subst same
    exact .inl h'
  · rcases (equal_iff hy hz).1 h' with same | ⟨b, hb', hc, mixed'⟩
    · subst same
      exact .inl h
    · cases hb.unique hb'
      by_cases whole : Integers x z
      · cases whole with
        | mk m n =>
          by_cases same : m = n
          · subst same
            exact .inl (equal_self hx)
          · exact .inr ⟨⟨m, n, rfl, rfl, same⟩, hb.float mixed, h, h'⟩
      · exact .inl ((equal_iff hx hz).2 (.inr ⟨a, ha, hc, whole⟩))

/-- How two values compare that have an order: two integers, two texts, or two numbers of which one is a float. -/
inductive Compared : Value → Value → Ordering → Prop
  | integers (m n : Int64) : Compared (.int m) (.int n) (compare m.toInt n.toInt)
  | texts (s t : String) : Compared (.str s) (.str t) (compare s t)
  | numbers {x y : Value} {a b : Int} (hx : Placed x a) (hy : Placed y b) (mixed : ¬ Integers x y) :
    Compared x y (compare a b)

theorem Compared.order?_eq (h : Compared x y o) : order? x y = some o := by
  cases h with
  | integers m n => rfl
  | texts s t => rfl
  | numbers hx hy mixed => exact (placed_compare hx hy mixed).1

theorem compared_of_order? (hx : Proper x) (hy : Proper y) (h : order? x y = some o) : Compared x y o := by
  have known {p : Ordering} (compared : Compared x y p) : Compared x y o := by
    rw [compared.order?_eq] at h
    cases h
    exact compared
  cases x with
  | int m =>
    cases y with
    | int n => exact known (.integers m n)
    | float g =>
      obtain ⟨b, hb⟩ := hy.exists_placed
      exact known (.numbers (placed_int m) hb nofun)
    | _ => cases h
  | float f =>
    obtain ⟨a, ha⟩ := hx.exists_placed
    cases y with
    | int n => exact known (.numbers ha (placed_int n) nofun)
    | float g =>
      obtain ⟨b, hb⟩ := hy.exists_placed
      exact known (.numbers ha hb nofun)
    | _ => cases h
  | str s =>
    cases y with
    | str t => exact known (.texts s t)
    | _ => cases h
  | _ => cases y <;> cases h

theorem Compared.swap (h : Compared x y o) : Compared y x o.swap := by
  cases h with
  | integers m n =>
    rw [← Std.OrientedOrd.eq_swap]
    exact .integers n m
  | texts s t =>
    rw [← Std.OrientedOrd.eq_swap]
    exact .texts t s
  | numbers hx hy mixed =>
    rw [← Std.OrientedOrd.eq_swap]
    exact .numbers hy hx fun whole => mixed whole.swap

theorem Compared.equal_eq (h : Compared x y o) : equal x y = (o == .eq) := by
  rw [Bool.eq_iff_iff, beq_iff_eq]
  cases h with
  | integers m n => simp [equal, Int64.toInt_inj]
  | texts s t => simp [equal]
  | numbers hx hy mixed => rw [(placed_compare hx hy mixed).2, compare_eq_iff_eq]

theorem Compared.rank_le (h : Compared x y o) (low : o ≠ .gt) (hx : Placed x a) (hy : Placed y b) : a ≤ b := by
  cases h with
  | integers m n =>
    rw [hx.unique (placed_int m), hy.unique (placed_int n)]
    exact integerRank_mono (compare_le_iff_le.1 low)
  | texts s t => exact absurd hx not_placed_str
  | numbers hx' hy' mixed =>
    rw [hx.unique hx', hy.unique hy']
    exact compare_le_iff_le.1 low

theorem Compared.placed (h : Compared x y o) (hx : Placed x a) : ∃ b, Placed y b := by
  cases h with
  | integers m n => exact ⟨_, placed_int n⟩
  | texts s t => exact absurd hx not_placed_str
  | numbers hx' hy mixed => exact ⟨_, hy⟩

theorem Compared.exists_trans {p : Ordering} (h : Compared x y o) (h' : Compared y z p) : ∃ q, Compared x z q := by
  have numeric {a : Int} (hx : Placed x a) : ∃ q, Compared x z q := by
    obtain ⟨b, hy⟩ := h.placed hx
    obtain ⟨c, hz⟩ := h'.placed hy
    by_cases whole : Integers x z
    · cases whole with
      | mk m n => exact ⟨_, .integers m n⟩
    · exact ⟨_, .numbers hx hz whole⟩
  cases h with
  | integers m k => exact numeric (placed_int m)
  | texts s u =>
    cases h' with
    | texts u t => exact ⟨_, .texts s t⟩
    | numbers hy hz mixed => exact absurd hy not_placed_str
  | numbers hx hy mixed => exact numeric hx

/-- Along a chain nothing decreases but across a float that both ends are equal to. -/
theorem Compared.not_gt_trans {p q : Ordering} (h : Compared x y o) (h' : Compared y z p) (h'' : Compared x z q)
    (low : o ≠ .gt) (low' : p ≠ .gt) : q ≠ .gt ∨ Conflated x y z := by
  cases h'' with
  | integers m n =>
    cases h with
    | integers m k =>
      cases h' with
      | integers k n =>
        exact .inl (compare_le_iff_le.2 (Int.le_trans (compare_le_iff_le.1 low) (compare_le_iff_le.1 low')))
      | numbers hy hz mixed => exact absurd (.mk k n) mixed
    | @numbers _ _ a b hx hy mixed =>
      by_cases order : m.toInt ≤ n.toInt
      · exact .inl (compare_le_iff_le.2 order)
      · -- The ranks go up with the chain and down with the integers, so they are all the same.
        have left := (Compared.numbers hx hy mixed).rank_le low (placed_int m) hy
        have right := h'.rank_le low' hy (placed_int n)
        have back : integerRank n.toInt ≤ integerRank m.toInt := integerRank_mono (by omega)
        obtain ⟨f, float⟩ := hy.float mixed
        subst float
        have differ : m ≠ n := by
          intro same
          subst same
          exact order (Int.le_refl _)
        refine .inr ⟨⟨m, n, rfl, rfl, differ⟩, ⟨f, rfl⟩, ?_, ?_⟩
        · exact (placed_compare (placed_int m) hy nofun).2.2 (by omega)
        · exact (placed_compare hy (placed_int n) nofun).2.2 (by omega)
  | texts s t =>
    cases h with
    | texts s u =>
      cases h' with
      | texts u t => exact .inl (compare_le_iff_le.2 (le_trans (compare_le_iff_le.1 low) (compare_le_iff_le.1 low')))
      | numbers hy hz mixed => exact absurd hy not_placed_str
    | numbers hx hy mixed => exact absurd hx not_placed_str
  | numbers hx hz mixed =>
    obtain ⟨b, hy⟩ := h.placed hx
    exact .inl (compare_le_iff_le.2 (Int.le_trans (h.rank_le low hx hy) (h'.rank_le low' hy hz)))

/-- Integers are never conflated that a significand has room for. -/
theorem Conflated.large {m n : Int64} (h : Conflated (.int m) y (.int n)) (hy : Proper y) :
    2 ^ 53 < m.toInt.natAbs ∨ 2 ^ 53 < n.toInt.natAbs := by
  obtain ⟨⟨_, _, hm, hn, differ⟩, ⟨f, float⟩, left, right⟩ := h
  cases hm
  cases hn
  subst float
  by_contra small
  obtain ⟨b, hb⟩ := hy.exists_placed
  have low : integerRank m.toInt = b := (placed_compare (placed_int m) hb nofun).2.1 left
  have high : b = integerRank n.toInt := (placed_compare hb (placed_int n) nofun).2.1 right
  rw [integerRank_of_small (by omega)] at low high
  have units : (2 : Int) ^ places ≠ 0 := Int.pow_ne_zero (by decide)
  exact differ (Int64.toInt_inj.1 (Int.eq_of_mul_eq_mul_right units (low.trans high)))

def Relation.holds : Relation → Ordering → Bool
  | .eq, o => o == .eq
  | .ne, o => o != .eq
  | .lt, o => o == .lt
  | .le, o => o != .gt
  | .gt, o => o == .gt
  | .ge, o => o != .lt

def Relation.converse : Relation → Relation
  | .lt => .gt
  | .le => .ge
  | .gt => .lt
  | .ge => .le
  | r => r

theorem Relation.holds_swap (r : Relation) (o : Ordering) : r.converse.holds o.swap = r.holds o := by
  cases r <;> cases o <;> rfl

theorem Relation.holds_le : Relation.le.holds o = true ↔ o ≠ .gt := by
  rw [Relation.holds, bne_iff_ne]

theorem Compared.relate_eq (h : Compared x y o) (r : Relation) : relate r x y = .ok (r.holds o) := by
  have equality := h.equal_eq
  have order : order x y = .ok o := by rw [order, h.order?_eq]
  cases r with
  | eq => exact congrArg Except.ok equality
  | ne => exact congrArg (fun t => Except.ok (!t)) equality
  | _ => simp only [relate, order, Relation.holds, Except.map]

theorem Compared.relate_converse (h : Compared x y o) (r : Relation) : relate r.converse y x = relate r x y := by
  rw [h.swap.relate_eq, h.relate_eq, Relation.holds_swap]

/-- An answer to `<`, `<=`, `>` or `>=` means that the values have an order, and all relations go by it. -/
theorem compared_of_relate {r : Relation} {t : Bool} (hx : Proper x) (hy : Proper y) (ordering : r ≠ .eq ∧ r ≠ .ne)
    (h : relate r x y = .ok t) : ∃ o, Compared x y o ∧ t = r.holds o := by
  cases known : order? x y with
  | some o =>
    have compared := compared_of_order? hx hy known
    rw [compared.relate_eq, Except.ok.injEq] at h
    exact ⟨o, compared, h.symm⟩
  | none =>
    have failed : order x y = .error (.cannotCompare x.kind y.kind) := by rw [order, known]
    cases r with
    | eq => exact absurd rfl ordering.1
    | ne => exact absurd rfl ordering.2
    | _ =>
      simp only [relate, failed, Except.map] at h
      cases h

/-- Comparison is a consistent order of all values but NaNs: equality is an equivalence and `<=` is transitive, unless the
ends of the chain are different integers and the middle is a float that both are equal to. -/
theorem relate_consistent (hx : Proper x) (hy : Proper y) (hz : Proper z) :
    relate .eq x x = .ok true ∧ relate .eq x y = relate .eq y x ∧
      (relate .eq x y = .ok true → relate .eq y z = .ok true → relate .eq x z = .ok true ∨ Conflated x y z) ∧
      (∀ t, relate .lt x y = .ok t ↔ relate .gt y x = .ok t) ∧
      (∀ t, relate .lt x y = .ok t → ∃ e g, relate .eq x y = .ok e ∧ relate .gt x y = .ok g ∧ [t, e, g].count true = 1 ∧
        relate .le x y = .ok (!g) ∧ relate .ge x y = .ok (!t)) ∧
      (relate .le x y = .ok true → relate .le y z = .ok true →
        relate .le x z = .ok true ∨ Conflated x y z ∧ relate .lt z x = .ok true) := by
  have equality {u v : Value} : relate .eq u v = .ok true ↔ equal u v = true := by rw [relate, Except.ok.injEq]
  refine ⟨equality.2 (equal_self hx), congrArg Except.ok (equal_comm hx hy), ?_, fun t => ⟨?_, ?_⟩, ?_, ?_⟩
  · intro left right
    rw [equality] at left right ⊢
    exact equal_trans hx hy hz left right
  · intro less
    obtain ⟨o, compared, -⟩ := compared_of_relate hx hy (by decide) less
    exact (compared.relate_converse .lt).trans less
  · intro more
    obtain ⟨o, compared, -⟩ := compared_of_relate hy hx (by decide) more
    exact (compared.relate_converse .gt).trans more
  · intro t less
    obtain ⟨o, compared, answer⟩ := compared_of_relate hx hy (by decide) less
    refine ⟨_, _, compared.relate_eq .eq, compared.relate_eq .gt, ?_, compared.relate_eq .le, ?_⟩
    · rw [answer]
      cases o <;> rfl
    · rw [compared.relate_eq, answer]
      rfl
  · intro left right
    obtain ⟨o, compared, low⟩ := compared_of_relate hx hy (by decide) left
    obtain ⟨p, compared', low'⟩ := compared_of_relate hy hz (by decide) right
    obtain ⟨q, compared''⟩ := compared.exists_trans compared'
    by_cases more : q = .gt
    · have chain :=
        compared.not_gt_trans compared' compared'' (Relation.holds_le.1 low.symm) (Relation.holds_le.1 low'.symm)
      refine .inr ⟨chain.resolve_left fun low => low more, ?_⟩
      rw [compared''.swap.relate_eq, more]
      rfl
    · rw [compared''.relate_eq, Relation.holds_le.2 more]
      exact .inl rfl

theorem relate_consistent_halves :
    Proper (.int 2) ∧ Proper (.float 2.5) ∧ Proper (.int 3) ∧ relate .lt (.int 2) (.float 2.5) = .ok true ∧
      relate .gt (.float 2.5) (.int 2) = .ok true ∧ relate .le (.int 2) (.int 3) = .ok true := by
  have half : Proper (.float 2.5) := proper_float (by decide +kernel)
  have compared : relate .lt (.int 2) (.float 2.5) = .ok true ∧ relate .le (.int 2) (.float 2.5) = .ok true ∧
      relate .le (.float 2.5) (.int 3) = .ok true := by decide +kernel
  have apart : equal (.int 2) (.float 2.5) = false := by decide +kernel
  obtain ⟨-, -, -, turned, -, chained⟩ := relate_consistent (proper_int 2) half (proper_int 3)
  refine ⟨proper_int 2, half, proper_int 3, compared.1, (turned true).1 compared.1, ?_⟩
  rcases chained compared.2.1 compared.2.2 with low | ⟨conflated, -⟩
  · exact low
  · rw [conflated.left] at apart
    cases apart

/-- Two integers beyond 2^53 are equal to one float without being equal. -/
theorem equal_conflates :
    Proper (.int 9007199254740993) ∧ Proper (.float 9007199254740992) ∧ Proper (.int 9007199254740992) ∧
      relate .eq (.int 9007199254740993) (.float 9007199254740992) = .ok true ∧
      relate .eq (.float 9007199254740992) (.int 9007199254740992) = .ok true ∧
      relate .eq (.int 9007199254740993) (.int 9007199254740992) = .ok false :=
  ⟨proper_int _, proper_float (by decide +kernel), proper_int _, by decide +kernel⟩

end TextGrammar.Script
