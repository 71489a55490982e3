import TextGrammar.Proofs.StepEffects
import TextGrammar.Proofs.WellFormed
set_option autoImplicit false

namespace TextGrammar
open Grammar Emission

structure Segment where
  first : Nat
  stop : Nat

instance : Membership Nat Segment := ⟨fun s a => s.first ≤ a ∧ a < s.stop⟩

theorem Segment.mem_iff {s : Segment} {a : Nat} : a ∈ s ↔ s.first ≤ a ∧ a < s.stop := Iff.rfl

/-- The entry, and then each rule up to where the next one starts. -/
def Program.segments (p : Program) : List Segment :=
  List.zipWith Segment.mk (0 :: p.rules.map Prod.snd) (p.rules.map Prod.snd ++ [p.size])

/-- Every choice has its candidates right before it. -/
def Program.Led (p : Program) : Prop :=
  ∀ a : Nat, p.code[a]? = some .choose → ∃ b cs, a = b + 1 ∧ p.code[b]? = some (.pushCandidates cs)

theorem Program.Led.not_choose {p : Program} {a : Nat} {i : Instruction} (led : p.Led) (hi : p.code[a]? = some i)
    (other : i.offers = false) : p.code[a + 1]? ≠ some .choose := by
  intro here
  obtain ⟨b, cs, next, before⟩ := led _ here
  obtain rfl : a = b := by omega
  rw [hi] at before
  cases before
  cases other

namespace Emission

variable {p : Program} {t : Symbols} {base a first last : Nat} {i : Instruction}

def Led (code : List Instruction) : Prop :=
  ∀ before after, code = before ++ .choose :: after → ∃ start cs, before = start ++ [.pushCandidates cs]

theorem led_nil : Led [] := by
  intro before after h
  simp at h

theorem led_cons {code : List Instruction} (hi : i ≠ .choose) (h : Led code) : Led (i :: code) := by
  intro before after split
  cases before with
  | nil =>
    cases split
    exact absurd rfl hi
  | cons j before =>
    obtain ⟨rfl, rest⟩ := List.cons.inj split
    obtain ⟨start, cs, rfl⟩ := h before after rest
    exact ⟨i :: start, cs, rfl⟩

theorem led_choose {cs : List Candidate} {code : List Instruction} (h : Led code) :
    Led (.pushCandidates cs :: .choose :: code) := by
  intro before after split
  match before with
  | [] => cases split
  | [i] =>
    obtain ⟨rfl, -⟩ := List.cons.inj split
    exact ⟨[], cs, rfl⟩
  | i :: j :: before =>
    obtain ⟨-, rest⟩ := List.cons.inj split
    obtain ⟨-, behind⟩ := List.cons.inj rest
    obtain ⟨start, cs', rfl⟩ := h before after behind
    exact ⟨i :: j :: start, cs', rfl⟩

theorem led_append {xs ys : List Instruction} (hx : Led xs) (hy : Led ys) : Led (xs ++ ys) := by
  intro before after split
  rcases List.append_eq_append_iff.1 split with ⟨more, rfl, rest⟩ | ⟨more, rfl, rest⟩
  · obtain ⟨start, cs, rfl⟩ := hy more after rest
    exact ⟨xs ++ start, cs, (List.append_assoc ..).symm⟩
  · cases more with
    | nil =>
      obtain ⟨start, cs, empty⟩ := hy [] after rest.symm
      simp at empty
    | cons j more =>
      cases rest
      exact hx before more rfl

theorem led_leastLoop (base body : Nat) (least : UInt32) : Led (leastLoop base body least) := by
  unfold leastLoop
  split
  · exact led_nil
  · repeat refine led_cons (by simp) ?_
    exact led_nil

theorem led_furtherLoop (base body : Nat) (least : UInt32) (most : Option UInt32) :
    Led (furtherLoop base body least most) := by
  cases most with
  | none =>
    repeat refine led_cons (by simp) ?_
    exact led_nil
  | some most =>
    rw [furtherLoop]
    split
    · exact led_nil
    · repeat refine led_cons (by simp) ?_
      exact led_nil

mutual

theorem led_emit (t : Symbols) : ∀ (e : Expr) (base : Nat), Led (emit t base e)
  | .literal text, base => led_cons (by simp) (led_cons (by simp) led_nil)
  | .generate code, base => led_cons (by simp) (led_cons (by simp) led_nil)
  | .action code, base => led_cons (by simp) (led_cons (by simp) led_nil)
  | .check code, base => led_cons (by simp) (led_cons (by simp) (led_cons (by simp) led_nil))
  | .range low high pos, base => by
    rw [emit]
    cases span low high <;> exact led_cons (by simp [Symbols.pushOf]) (led_cons (by simp) led_nil)
  | .reference name pos, base => by
    rw [emit, Symbols.callOf]
    cases t.rules.lookup name <;> exact led_cons (by simp) led_nil
  | .sequence es, base => led_emitAll t es base
  | .capture body name discard, base => by
    rw [emit]
    exact led_cons (by simp) (led_append (led_emit t body _) (led_cons (by simp) led_nil))
  | .repetition body least most pos, base => by
    rw [emit]
    split
    · exact led_nil
    · refine led_cons (by simp) (led_append (led_append (led_emit t body _) (led_cons (by simp) ?_)) ?_)
      · exact led_leastLoop _ _ _
      · exact led_furtherLoop _ _ _ _
  | .choice alternatives pos, base => by
    rw [emit]
    exact led_choose (led_append (led_emitBranches t alternatives _ _) (led_cons (by simp) (led_cons (by simp) led_nil)))

theorem led_emitAll (t : Symbols) : ∀ (es : List Expr) (base : Nat), Led (emitAll t base es)
  | [], _ => led_nil
  | e :: es, base => led_append (led_emit t e base) (led_emitAll t es _)

theorem led_emitBranches (t : Symbols) : ∀ (as : List (Alternative Expr)) (base done : Nat),
    Led (emitBranches t base done as)
  | [], _, _ => led_nil
  | [a], base, _ => led_emit t a.body base
  | a :: b :: as, base, done => by
    rw [emitBranches]
    exact led_append (led_emit t a.body base) (led_cons (by simp) (led_emitBranches t (b :: as) _ done))
    simp

end

theorem led_emitRules (t : Symbols) (rs : List Rule) (base : Nat) : Led (emitRules t base rs) := by
  induction rs generalizing base with
  | nil => exact led_nil
  | cons r rs ih => exact led_append (led_emit t r.body base) (led_cons (by simp) (ih _))

theorem led_of_code (led : Led p.code.toList) : p.Led := by
  intro a h
  rw [← Array.getElem?_toList] at h
  obtain ⟨within, here⟩ := List.getElem?_eq_some_iff.1 h
  have split : p.code.toList = p.code.toList.take a ++ .choose :: p.code.toList.drop (a + 1) := by
    rw [← here, List.getElem_cons_drop, List.take_append_drop]
  obtain ⟨start, cs, before⟩ := led _ _ split
  have length := congrArg List.length before
  rw [List.length_take, Nat.min_eq_left (Nat.le_of_lt within), List.length_append, List.length_singleton] at length
  refine ⟨start.length, cs, length, ?_⟩
  rw [← Array.getElem?_toList, split, before]
  simp

theorem led_ofGrammar (g : Grammar) : (Program.ofGrammar g).Led := by
  refine led_of_code ?_
  rw [ofGrammar_code]
  refine led_append ?_ (led_cons (by simp) (led_emitRules _ _ _))
  rw [emitEntry]
  split
  · exact led_cons (by simp) led_nil
  · exact led_emitAll _ _ _

/-- The body of a repetition as a subroutine: jumped over by what is before it, and left by a return. -/
structure LocalSubroutine (p : Program) (t : Symbols) (a : Nat) (body : Expr) : Prop where
  skipped : ∃ b, a = b + 1 ∧ p.code[b]? = some (.jump (a + size body + 1))
  code : CodeAt p a (emit t a body)
  leaves : p.code[a + size body]? = some .ret

/-- A call of a rule, or of a repetition among `parts` whose body is between `first` and `last`. -/
def Calls (p : Program) (t : Symbols) (first last : Nat) (parts : List Expr) (a : Nat) : Prop :=
  (∃ name, t.rules.lookup name = some a) ∨ ∃ body least most pos, .repetition body least most pos ∈ parts ∧
    first ≤ a ∧ a + size body < last ∧ LocalSubroutine p t a body

structure Stays (p : Program) (t : Symbols) (first last : Nat) (parts : List Expr) (i : Instruction) : Prop where
  targets : ∀ b ∈ i.targets, first ≤ b ∧ b ≤ last ∧ p.code[b]? ≠ some .choose
  calls : ∀ a, i = .call a → Calls p t first last parts a
  literals : ∀ k, i = .pushLiteral k → k < p.literals.size
  scripts : ∀ k, i = .eval k → k < p.scripts.size
  ends : i ≠ .halt

variable {first' last' : Nat} {parts parts' : List Expr}

theorem Calls.mono (h : Calls p t first last parts a) (hf : first' ≤ first) (hl : last ≤ last')
    (hp : parts ⊆ parts') : Calls p t first' last' parts' a := by
  obtain rule | ⟨body, least, most, pos, among, from_first, to_last, there⟩ := h
  · exact .inl rule
  · exact .inr ⟨body, least, most, pos, hp among, by omega, by omega, there⟩

theorem Stays.mono (h : Stays p t first last parts i) (hf : first' ≤ first) (hl : last ≤ last')
    (hp : parts ⊆ parts') : Stays p t first' last' parts' i where
  targets b hb := by
    obtain ⟨from_first, to_last, entered⟩ := h.targets b hb
    exact ⟨by omega, by omega, entered⟩
  calls a ha := (h.calls a ha).mono hf hl hp
  literals := h.literals
  scripts := h.scripts
  ends := h.ends

def plain : Instruction → Bool
  | .pushInteger _ _ | .pushFloat _ _ | .pushCount _ | .pop | .dec | .ret | .write | .choose | .rescue | .pushOffset
  | .capture _ _ => true
  | _ => false

theorem stays_plain (h : plain i = true) : Stays p t first last parts i := by
  refine ⟨?_, ?_, ?_, ?_, ?_⟩ <;> cases i <;> simp_all [plain, Instruction.targets]

theorem stays_jump {b : Nat} (h : i.targets = [b]) (hf : first ≤ b) (hl : b ≤ last)
    (entered : p.code[b]? ≠ some .choose) : Stays p t first last parts i := by
  have target : ∀ c ∈ i.targets, first ≤ c ∧ c ≤ last ∧ p.code[c]? ≠ some .choose := by
    intro c hc
    rw [h, List.mem_singleton] at hc
    rw [hc]
    exact ⟨hf, hl, entered⟩
  refine ⟨target, ?_, ?_, ?_, ?_⟩ <;> cases i <;> simp_all [Instruction.targets]

theorem stays_call (h : Calls p t first last parts a) : Stays p t first last parts (.call a) := by
  refine ⟨?_, ?_, ?_, ?_, ?_⟩ <;> simp [Instruction.targets, h]

theorem stays_literal {k : Nat} (h : k < p.literals.size) : Stays p t first last parts (.pushLiteral k) := by
  refine ⟨?_, ?_, ?_, ?_, ?_⟩ <;> simp [Instruction.targets, h]

theorem stays_eval {k : Nat} (h : k < p.scripts.size) : Stays p t first last parts (.eval k) := by
  refine ⟨?_, ?_, ?_, ?_, ?_⟩ <;> simp [Instruction.targets, h]

theorem stays_candidates {cs : List Candidate}
    (h : ∀ b ∈ cs.map Candidate.target, first ≤ b ∧ b ≤ last ∧ p.code[b]? ≠ some .choose) :
    Stays p t first last parts (.pushCandidates cs) :=
  ⟨h, by simp, by simp, by simp, by simp⟩

theorem stays_callOf (name : String) : Stays p t first last parts (t.callOf name) := by
  rw [Symbols.callOf]
  cases found : t.rules.lookup name with
  | some a => exact stays_call (.inl ⟨name, found⟩)
  | none => exact stays_plain rfl

theorem stays_leastLoop {least : UInt32} (led : p.Led) (code : CodeAt p base (leastLoop base a least))
    (hf : first ≤ base) (hl : base + leastSize least ≤ last) (body : Calls p t first last parts a) :
    ∀ i ∈ leastLoop base a least, Stays p t first last parts i := by
  by_cases none_left : least = 0
  · simp [leastLoop, none_left]
  · simp only [leastLoop, none_left, if_false, CodeAt] at code ⊢
    simp only [leastSize, none_left, if_false] at hl
    obtain ⟨enter, top, -, -, again, -⟩ := code
    have done : p.code[base + 5]? ≠ some .choose := led.not_choose again rfl
    have start : p.code[base + 1]? ≠ some .choose := led.not_choose enter rfl
    simp only [List.forall_mem_cons]
    refine ⟨stays_plain rfl, stays_jump rfl (by omega) (by omega) done, stays_call body, stays_plain rfl,
      stays_jump rfl (by omega) (by omega) start, stays_plain rfl, List.forall_mem_nil _⟩

theorem stays_furtherLoop {least : UInt32} {most : Option UInt32} (led : p.Led)
    (code : CodeAt p base (furtherLoop base a least most)) (hf : first ≤ base)
    (hl : base + furtherSize least most ≤ last) (body : Calls p t first last parts a) :
    ∀ i ∈ furtherLoop base a least most, Stays p t first last parts i := by
  cases most with
  | none =>
    simp only [furtherLoop, CodeAt] at code ⊢
    simp only [furtherSize] at hl
    obtain ⟨toss, -, -, -, again, -⟩ := code
    have done : p.code[base + 5]? ≠ some .choose := led.not_choose again rfl
    have start : p.code[base]? ≠ some .choose := by
      simp [toss]
    simp only [List.forall_mem_cons]
    exact ⟨stays_jump rfl (by omega) (by omega) done, stays_jump rfl (by omega) (by omega) done, stays_call body,
      stays_plain rfl, stays_jump rfl (by omega) (by omega) start, List.forall_mem_nil _⟩
  | some most =>
    by_cases equal : most = least
    · simp [furtherLoop, equal]
    · simp only [furtherLoop, equal, if_false, CodeAt] at code ⊢
      simp only [furtherSize, equal, if_false] at hl
      obtain ⟨enter, -, -, -, -, -, again, -⟩ := code
      have done : p.code[base + 7]? ≠ some .choose := led.not_choose again rfl
      have start : p.code[base + 1]? ≠ some .choose := led.not_choose enter rfl
      simp only [List.forall_mem_cons]
      exact ⟨stays_plain rfl, stays_jump rfl (by omega) (by omega) done, stays_jump rfl (by omega) (by omega) done,
        stays_call body, stays_plain rfl, stays_plain rfl, stays_jump rfl (by omega) (by omega) start, stays_plain rfl,
        List.forall_mem_nil _⟩

theorem target_mem_branchTargets {alternatives : List (Alternative Expr)} {c : Candidate}
    (h : c ∈ candidates base alternatives) : c.target ∈ branchTargets base alternatives := by
  obtain ⟨k, within, rfl⟩ := List.getElem_of_mem h
  simp only [candidates, List.getElem_zipWith]
  exact List.getElem_mem _

theorem branchTargets_entered (led : p.Led) {alternatives : List (Alternative Expr)} {done : Nat}
    (placed : ∀ b ∈ List.zip (branchTargets base alternatives) (alternatives.map Alternative.body),
      BranchPlaced p t done b)
    (hd : base + sizeBranches alternatives = done) (first : p.code[base]? ≠ some .choose) :
    ∀ b ∈ branchTargets base alternatives, base ≤ b ∧ b ≤ done ∧ p.code[b]? ≠ some .choose := by
  induction alternatives generalizing base with
  | nil => exact List.forall_mem_nil _
  | cons x xs ih =>
    rw [branchTargets, List.map_cons, List.zip_cons_cons, List.forall_mem_cons] at placed
    rw [branchTargets, List.forall_mem_cons]
    refine ⟨⟨Nat.le_refl _, by omega, first⟩, ?_⟩
    cases xs with
    | nil => exact List.forall_mem_nil _
    | cons y ys =>
      simp only [sizeBranches] at hd
      have leaves : p.code[base + size x.body]? = some (.jump done) := by
        rcases placed.1.leaves with leaves | behind
        · exact leaves
        · simp only at behind
          omega
      have later := ih placed.2 (by omega) (led.not_choose leaves rfl)
      intro b hb
      obtain ⟨behind, rest⟩ := later b hb
      exact ⟨by omega, rest⟩

mutual

theorem stays_emit (led : p.Led) : ∀ (e : Expr) (base : Nat), Placed p t base e →
    ∀ i ∈ emit t base e, Stays p t base (base + size e) e.parts i
  | .literal text, base, h => by
    rw [emit, List.forall_mem_cons, List.forall_mem_singleton]
    have held := h.literals text (by simp [literalsOf])
    exact ⟨stays_literal (Array.getElem?_eq_some_iff.1 held).choose, stays_plain rfl⟩
  | .generate text, base, h => by
    rw [emit, List.forall_mem_cons, List.forall_mem_singleton]
    have held := h.scripts text (by simp [scriptsOf])
    exact ⟨stays_eval (Array.getElem?_eq_some_iff.1 held).choose, stays_plain rfl⟩
  | .action text, base, h => by
    rw [emit, List.forall_mem_cons, List.forall_mem_singleton]
    have held := h.scripts text (by simp [scriptsOf])
    exact ⟨stays_eval (Array.getElem?_eq_some_iff.1 held).choose, stays_plain rfl⟩
  | .check text, base, h => by
    have code := h.code
    rw [emit, CodeAt, CodeAt, CodeAt] at code
    rw [emit, List.forall_mem_cons, List.forall_mem_cons, List.forall_mem_singleton]
    have held := h.scripts text (by simp [scriptsOf])
    have passed : p.code[base + 3]? ≠ some .choose := led.not_choose code.2.2.1 rfl
    exact ⟨stays_eval (Array.getElem?_eq_some_iff.1 held).choose,
      stays_jump rfl (by omega) (by simp [size]) passed, stays_plain rfl⟩
  | .range low high pos, base, h => by
    rw [emit, List.forall_mem_cons, List.forall_mem_singleton]
    refine ⟨?_, stays_plain rfl⟩
    cases numbers : span low high with
    | single text =>
      have held := h.literals text (by simp [literalsOf, numbers])
      exact stays_literal (Array.getElem?_eq_some_iff.1 held).choose
    | _ => exact stays_plain rfl
  | .reference name pos, base, h => by
    rw [emit, List.forall_mem_singleton]
    exact stays_callOf name
  | .sequence es, base, h => by
    intro i hi
    exact (stays_emitAll led es base h i hi).mono (Nat.le_refl _) (Nat.le_refl _) (List.subset_cons_self _ _)
  | .capture body name discard, base, h => by
    obtain ⟨-, inside, -⟩ := h.captured
    have within := stays_emit led body (base + 1) inside
    rw [emit, List.cons_append, List.forall_mem_cons, List.forall_mem_append, List.forall_mem_singleton]
    refine ⟨stays_plain rfl, fun i hi => ?_, stays_plain rfl⟩
    refine (within i hi).mono (by omega) ?_ (List.subset_cons_self _ _)
    rw [size]
    omega
  | .repetition body least most pos, base, h => by
    cases hn : never least most with
    | true =>
      rw [emit, hn]
      exact List.forall_mem_nil _
    | false =>
      obtain ⟨enter, inside, leaves, least_code, further_code⟩ := h.repeated hn
      have within := stays_emit led body (base + 1) inside
      have length : size (.repetition body least most pos) =
          size body + 2 + leastSize least + furtherSize least most := by simp [size, hn]
      have jump : p.code[base]? = some (.jump (base + 1 + size body + 1)) := by
        rw [enter]
        congr 2
        omega
      have behind : p.code[base + size body + 2]? ≠ some .choose := by
        have after := led.not_choose leaves rfl
        rwa [show base + 1 + size body + 1 = base + size body + 2 by omega] at after
      have calls : Calls p t base (base + size (.repetition body least most pos))
          (Expr.repetition body least most pos).parts (base + 1) :=
        .inr ⟨body, least, most, pos, List.mem_cons_self, by omega, by omega, ⟨base, rfl, jump⟩, inside.code, leaves⟩
      rw [emit, hn]
      simp only [Bool.false_eq_true, if_false, List.cons_append, List.forall_mem_cons, List.forall_mem_append]
      refine ⟨stays_jump rfl (by omega) (by omega) behind, ⟨fun i hi => ?_, stays_plain rfl, ?_⟩, ?_⟩
      · exact (within i hi).mono (by omega) (by omega) (List.subset_cons_self _ _)
      · exact stays_leastLoop led least_code (by omega) (by omega) calls
      · exact stays_furtherLoop led further_code (by omega) (by omega) calls
  | .choice alternatives pos, base, h => by
    obtain ⟨push, choose, -, branches, pop, -⟩ := h.chosen
    have length : size (.choice alternatives pos) = 2 + sizeBranches alternatives + 2 := rfl
    have done : p.code[base + 2 + sizeBranches alternatives]? ≠ some .choose := by
      simp [pop]
    have entered := branchTargets_entered led branches rfl (led.not_choose choose rfl)
    have within := stays_emitBranches led alternatives (base + 2) _ branches rfl done
    rw [emit]
    simp only [List.cons_append, List.forall_mem_cons, List.forall_mem_append]
    refine ⟨stays_candidates fun b hb => ?_, stays_plain rfl, fun i hi => ?_, stays_plain rfl, stays_plain rfl,
      List.forall_mem_nil _⟩
    · obtain ⟨c, hc, rfl⟩ := List.mem_map.1 hb
      obtain ⟨from_first, to_last, rest⟩ := entered c.target (target_mem_branchTargets hc)
      exact ⟨by omega, by omega, rest⟩
    · exact (within i hi).mono (by omega) (by omega) (List.subset_cons_self _ _)

theorem stays_emitAll (led : p.Led) : ∀ (es : List Expr) (base : Nat), Placed p t base (.sequence es) →
    ∀ i ∈ emitAll t base es, Stays p t base (base + sizeAll es) (partsOfAll es) i
  | [], base, h => List.forall_mem_nil _
  | e :: es, base, h => by
    have first := stays_emit led e base h.head
    have rest := stays_emitAll led es (base + size e) h.tail
    rw [emitAll, List.forall_mem_append]
    refine ⟨fun i hi => (first i hi).mono (Nat.le_refl _) ?_ ?_, fun i hi => (rest i hi).mono ?_ ?_ ?_⟩
    all_goals simp [sizeAll, partsOfAll, Nat.add_assoc]

theorem stays_emitBranches (led : p.Led) : ∀ (as : List (Alternative Expr)) (base done : Nat),
    (∀ b ∈ List.zip (branchTargets base as) (as.map Alternative.body), BranchPlaced p t done b) →
    base + sizeBranches as = done → p.code[done]? ≠ some .choose →
    ∀ i ∈ emitBranches t base done as, Stays p t base done (partsOfBranches as) i
  | [], _, _, _, _, _ => List.forall_mem_nil _
  | [a], base, done, placed, hd, _ => by
    rw [branchTargets, List.map_cons, List.zip_cons_cons, List.forall_mem_cons] at placed
    rw [sizeBranches] at hd
    rw [emitBranches]
    intro i hi
    refine (stays_emit led a.body base placed.1.placed i hi).mono (Nat.le_refl _) (by omega) ?_
    simp [partsOfBranches]
  | a :: b :: as, base, done, placed, hd, hdone => by
    rw [branchTargets, List.map_cons, List.zip_cons_cons, List.forall_mem_cons] at placed
    simp only [sizeBranches] at hd
    have first := stays_emit led a.body base placed.1.placed
    have rest := stays_emitBranches led (b :: as) (base + size a.body + 1) done placed.2 (by omega) hdone
    rw [emitBranches, List.forall_mem_append, List.forall_mem_cons]
    · refine ⟨fun i hi => (first i hi).mono (Nat.le_refl _) (by omega) ?_, stays_jump rfl (by omega) (Nat.le_refl _) hdone,
        fun i hi => (rest i hi).mono (by omega) (Nat.le_refl _) ?_⟩
      all_goals simp [partsOfBranches]
    · simp

end

theorem mem_of_codeAt {code : List Instruction} (h : CodeAt p base code) (hf : base ≤ a) (hl : a < base + code.length)
    (hi : p.code[a]? = some i) : i ∈ code := by
  induction code generalizing base with
  | nil =>
    rw [List.length_nil] at hl
    omega
  | cons j code ih =>
    rw [CodeAt] at h
    rcases Nat.eq_or_lt_of_le hf with rfl | later
    · rw [hi] at h
      exact List.mem_cons.2 (.inl (Option.some.inj h.1))
    · rw [List.length_cons] at hl
      exact List.mem_cons_of_mem j (ih h.2 later (by omega))

def blocks (base : Nat) : List Expr → List (Segment × Expr)
  | [] => []
  | e :: es => (⟨base, base + size e + 1⟩, e) :: blocks (base + size e + 1) es

theorem blocks_snd (base : Nat) (es : List Expr) : (blocks base es).map Prod.snd = es := by
  induction es generalizing base with
  | nil => rfl
  | cons e es ih => rw [blocks, List.map_cons, ih]

def blocksStop (base : Nat) (es : List Expr) : Nat := es.foldl (fun a e => a + size e + 1) base

theorem le_blocksStop (base : Nat) (es : List Expr) : base ≤ blocksStop base es := by
  induction es generalizing base with
  | nil => exact Nat.le_refl _
  | cons e es ih =>
    have later := ih (base + size e + 1)
    rw [blocksStop, List.foldl_cons]
    exact Nat.le_trans (by omega) later

theorem blocks_within {es : List Expr} : ∀ b ∈ blocks base es,
    base ≤ b.1.first ∧ b.1.stop = b.1.first + size b.2 + 1 ∧ b.1.stop ≤ blocksStop base es := by
  induction es generalizing base with
  | nil => exact List.forall_mem_nil _
  | cons e es ih =>
    rw [blocks, List.forall_mem_cons]
    refine ⟨⟨Nat.le_refl _, rfl, le_blocksStop _ es⟩, fun b hb => ?_⟩
    obtain ⟨from_first, length, to_last⟩ := ih b hb
    exact ⟨by omega, length, to_last⟩

/-- Blocks cover all addresses up to their end, each of them once. -/
theorem blocks_cover {es : List Expr} (hf : base ≤ a) (hl : a < blocksStop base es) :
    ∃! s, s ∈ (blocks base es).map Prod.fst ∧ a ∈ s := by
  induction es generalizing base with
  | nil =>
    rw [blocksStop, List.foldl_nil] at hl
    omega
  | cons e es ih =>
    rw [blocks, List.map_cons]
    by_cases here : a < base + size e + 1
    · refine ⟨⟨base, base + size e + 1⟩, ⟨List.mem_cons_self, hf, here⟩, ?_⟩
      rintro s ⟨among, within⟩
      rcases List.mem_cons.1 among with rfl | later
      · rfl
      · obtain ⟨b, hb, rfl⟩ := List.mem_map.1 later
        have apart := (blocks_within b hb).1
        have from_first := within.1
        omega
    · obtain ⟨s, ⟨among, within⟩, only⟩ := @ih (base + size e + 1) (by omega) hl
      refine ⟨s, ⟨List.mem_cons_of_mem _ among, within⟩, ?_⟩
      rintro s' ⟨among', within'⟩
      rcases List.mem_cons.1 among' with rfl | later
      · exact absurd within'.2 here
      · exact only s' ⟨later, within'⟩

/-- Segments between the addresses of rules are the blocks of their bodies. -/
theorem zipWith_ruleAddresses (rs : List Rule) (start base : Nat) :
    List.zipWith Segment.mk (start :: (ruleAddresses base rs).map Prod.snd)
      ((ruleAddresses base rs).map Prod.snd ++ [blocksStop base (rs.map Rule.body)]) =
        ⟨start, base⟩ :: (blocks base (rs.map Rule.body)).map Prod.fst := by
  induction rs generalizing start base with
  | nil => rfl
  | cons r rs ih =>
    have rest := ih base (base + size r.body + 1)
    simp only [ruleAddresses, List.map_cons, List.cons_append, List.zipWith_cons_cons, blocks]
    exact congrArg _ rest

theorem length_emitRules_stop (t : Symbols) (base : Nat) (rs : List Rule) :
    base + (emitRules t base rs).length = blocksStop base (rs.map Rule.body) := by
  induction rs generalizing base with
  | nil => rfl
  | cons r rs ih =>
    have rest := ih (base + size r.body + 1)
    rw [emitRules, List.length_append, List.length_cons, length_emit, List.map_cons, blocksStop, List.foldl_cons]
    rw [blocksStop] at rest
    omega

theorem rules_placed {g : Grammar} (hg : g.Sound) {rs : List Rule} (among : rs ⊆ g.rules)
    (code : CodeAt (.ofGrammar g) base (emitRules (symbols g) base rs)) :
    ∀ b ∈ blocks base (rs.map Rule.body), Placed (.ofGrammar g) (symbols g) b.1.first b.2 ∧
      (Program.ofGrammar g).code[b.1.first + size b.2]? = some .ret := by
  induction rs generalizing base with
  | nil => exact List.forall_mem_nil _
  | cons r rs ih =>
    rw [List.cons_subset] at among
    rw [emitRules, codeAt_append, length_emit, CodeAt] at code
    rw [List.map_cons, blocks, List.forall_mem_cons]
    refine ⟨⟨placed_of_mem hg ?_ code.1, code.2.1⟩, ih among.2 code.2.2⟩
    exact List.mem_append_right _ (List.mem_map_of_mem among.1)

theorem entry_placed {g : Grammar} {e : Expr} (hg : g.Sound) (start : g.start? none = some e)
    (something : g.isEmpty = false) : Placed (.ofGrammar g) (symbols g) 0 e ∧ entrySize g = size e := by
  obtain ⟨entry, length, literals, scripts⟩ := emitEntry_start start something
  have code := entry_codeAt g
  rw [entry] at code
  refine ⟨placed_of_texts code ?_ ?_ ?_, length⟩
  · rw [← literals, literalsOfAll_eq, literalsOfAll_eq, List.flatMap_append]
    exact List.subset_append_left _ _
  · rw [← scripts, scriptsOfAll_eq, scriptsOfAll_eq, List.flatMap_append]
    exact List.subset_append_left _ _
  · exact hg.start start

end Emission

open Emission

/-- The calls of a segment lead to rules, or to the bodies of repetitions within it; everything else that its
instructions lead to is within it. -/
structure Confined (p : Program) (t : Symbols) (s : Segment) (e : Expr) : Prop where
  targets : ∀ a ∈ s, ∀ i, p.code[a]? = some i → ∀ b ∈ i.targets, b ∈ s
  calls : ∀ a ∈ s, ∀ b, p.code[a]? = some (.call b) → (∃ name, p.rule? name = some b) ∨
    ∃ body least most pos, .repetition body least most pos ∈ e.parts ∧ b ∈ s ∧ b + size body ∈ s ∧
      LocalSubroutine p t b body

/-- The program of a grammar whose entry is a given expression falls into segments that control does not go past. -/
structure Closed (p : Program) (g : Grammar) (entry : Expr) : Prop where
  first : p.segments.head? = some ⟨0, p.haltAt + 1⟩
  halt : ∀ a : Nat, p.code[a]? = some .halt ↔ a = p.haltAt
  names : p.rules.map Prod.fst = g.names
  rules : ∀ (k : Nat) name a, p.rules[k]? = some (name, a) → p.rule? name = some a ∧
    ∃ stop, p.segments[k + 1]? = some ⟨a, stop + 1⟩ ∧ a ≤ stop ∧ p.code[stop]? = some .ret
  covered : ∀ a < p.size, ∃! s, s ∈ p.segments ∧ a ∈ s
  within : ∀ s ∈ p.segments, s.stop ≤ p.size
  confined : ∀ (k : Nat) s e, p.segments[k]? = some s → (entry :: g.rules.map Rule.body)[k]? = some e →
    Confined p (symbols g) s e
  literals : ∀ a i : Nat, p.code[a]? = some (.pushLiteral i) → i < p.literals.size
  scripts : ∀ a i : Nat, p.code[a]? = some (.eval i) → i < p.scripts.size
  led : p.Led
  /-- A choice is entered from its candidates only. -/
  entered : ∀ (a : Nat) i, p.code[a]? = some i → ∀ b ∈ i.targets, p.code[b]? ≠ some .choose

theorem Program.length_segments (p : Program) : p.segments.length = p.rules.length + 1 := by
  simp [segments]

namespace Emission

variable {g : Grammar} {e : Expr} {a base : Nat} {i : Instruction}

theorem segments_ofGrammar (start : g.start? none = some e) (something : g.isEmpty = false) :
    (Program.ofGrammar g).segments = (blocks 0 (e :: g.rules.map Rule.body)).map Prod.fst ∧
      (Program.ofGrammar g).size = blocksStop 0 (e :: g.rules.map Rule.body) := by
  obtain ⟨-, length, -, -⟩ := emitEntry_start start something
  have total : (Program.ofGrammar g).size = blocksStop (entrySize g + 1) (g.rules.map Rule.body) := by
    rw [← length_emitRules_stop (symbols g), Program.size, ← Array.length_toList, ofGrammar_code, List.length_append,
      length_emitEntry, List.length_cons]
    omega
  have stop : blocksStop 0 (e :: g.rules.map Rule.body) = blocksStop (entrySize g + 1) (g.rules.map Rule.body) := by
    rw [blocksStop, List.foldl_cons, length, Nat.zero_add]
    rfl
  refine ⟨?_, total.trans stop.symm⟩
  rw [Program.segments, total, blocks, List.map_cons, Nat.zero_add, ← length]
  exact zipWith_ruleAddresses g.rules 0 (entrySize g + 1)

theorem ruleAddresses_fst (base : Nat) (rs : List Rule) : (ruleAddresses base rs).map Prod.fst = rs.map Rule.name := by
  induction rs generalizing base with
  | nil => rfl
  | cons r rs ih => rw [ruleAddresses, List.map_cons, List.map_cons, ih]

theorem ruleAddresses_snd (base : Nat) (rs : List Rule) :
    (ruleAddresses base rs).map Prod.snd = (blocks base (rs.map Rule.body)).map (Segment.first ∘ Prod.fst) := by
  induction rs generalizing base with
  | nil => rfl
  | cons r rs ih =>
    rw [ruleAddresses, List.map_cons, List.map_cons, blocks, List.map_cons, ih]
    rfl

theorem block_placed {b : Segment × Expr} (hg : g.Sound) (start : g.start? none = some e)
    (something : g.isEmpty = false) (hb : b ∈ blocks 0 (e :: g.rules.map Rule.body)) :
    Placed (.ofGrammar g) (symbols g) b.1.first b.2 ∧
      ((Program.ofGrammar g).code[b.1.first + size b.2]? = some .ret ∨ b.1.first + size b.2 = entrySize g) := by
  obtain ⟨placed, length⟩ := entry_placed hg start something
  rw [blocks, List.mem_cons, Nat.zero_add, ← length] at hb
  rcases hb with rfl | hb
  · exact ⟨placed, .inr (by rw [Nat.zero_add, length])⟩
  · obtain ⟨placed, leaves⟩ := rules_placed hg (List.Subset.refl _) (rules_codeAt g) b hb
    exact ⟨placed, .inl leaves⟩

theorem block_stays {b : Segment × Expr} (hg : g.Sound) (start : g.start? none = some e)
    (something : g.isEmpty = false) (hb : b ∈ blocks 0 (e :: g.rules.map Rule.body)) (ha : a ∈ b.1)
    (hi : (Program.ofGrammar g).code[a]? = some i) :
    Stays (.ofGrammar g) (symbols g) b.1.first (b.1.first + size b.2) b.2.parts i ∨
      i = .ret ∨ i = .halt ∧ a = entrySize g := by
  obtain ⟨placed, behind⟩ := block_placed hg start something hb
  obtain ⟨-, length, -⟩ := blocks_within b hb
  obtain ⟨from_first, to_last⟩ := ha
  by_cases last : a = b.1.first + size b.2
  · rw [← last] at behind
    rcases behind with leaves | here
    · rw [hi] at leaves
      exact .inr (.inl (Option.some.inj leaves))
    · rw [here, halt_codeAt] at hi
      exact .inr (.inr ⟨(Option.some.inj hi).symm, here⟩)
  · have among := mem_of_codeAt placed.code from_first (by rw [length_emit]; omega) hi
    exact .inl (stays_emit (led_ofGrammar g) b.2 b.1.first placed i among)

theorem block_confined {b : Segment × Expr} (hg : g.Sound) (start : g.start? none = some e)
    (something : g.isEmpty = false) (hb : b ∈ blocks 0 (e :: g.rules.map Rule.body)) :
    Confined (.ofGrammar g) (symbols g) b.1 b.2 := by
  obtain ⟨-, length, -⟩ := blocks_within b hb
  refine ⟨fun a ha i hi c hc => ?_, fun a ha c hi => ?_⟩
  · rcases block_stays hg start something hb ha hi with stays | rfl | ⟨rfl, -⟩
    · obtain ⟨from_first, to_last, -⟩ := stays.targets c hc
      exact ⟨from_first, by omega⟩
    · cases hc
    · cases hc
  · rcases block_stays hg start something hb ha hi with stays | other | ⟨other, -⟩
    · rcases stays.calls c rfl with rule | ⟨body, least, most, pos, among, from_first, to_last, there⟩
      · exact .inl rule
      · exact .inr ⟨body, least, most, pos, among, ⟨from_first, by omega⟩, ⟨by omega, by omega⟩, there⟩
    · cases other
    · cases other

theorem closed_ofGrammar {length : Nat} (hg : g.Sound) (fine : g.fault? length = none)
    (start : g.start? none = some e) : Closed (.ofGrammar g) g e := by
  have something : g.isEmpty = false := isEmpty_of_fault? fine
  have distinct : g.names.Nodup := by
    rw [Grammar.fault?, Option.or_eq_none_iff, duplicate?_eq_none] at fine
    exact fine.1.1
  obtain ⟨segments, total⟩ := segments_ofGrammar start something
  obtain ⟨-, entry⟩ := entry_placed hg start something
  have names : (Program.ofGrammar g).rules.map Prod.fst = g.names := ruleAddresses_fst _ _
  have block : ∀ a < (Program.ofGrammar g).size, ∃ b ∈ blocks 0 (e :: g.rules.map Rule.body), a ∈ b.1 := by
    intro a ha
    rw [total] at ha
    obtain ⟨s, ⟨among, within⟩, -⟩ := blocks_cover (Nat.zero_le a) ha
    obtain ⟨b, hb, rfl⟩ := List.mem_map.1 among
    exact ⟨b, hb, within⟩
  have stays : ∀ (a : Nat) i, (Program.ofGrammar g).code[a]? = some i → ∃ first last parts,
      Stays (.ofGrammar g) (symbols g) first last parts i ∨ i = .ret ∨ i = .halt ∧ a = entrySize g := by
    intro a i hi
    obtain ⟨b, hb, ha⟩ := block a (Array.getElem?_eq_some_iff.1 hi).choose
    exact ⟨_, _, _, block_stays hg start something hb ha hi⟩
  refine ⟨?_, fun a => ⟨fun hi => ?_, ?_⟩, names, fun k name a hk => ?_, fun a ha => ?_, ?_, fun k s f hs hf => ?_,
    fun a k hi => ?_, fun a k hi => ?_, led_ofGrammar g, fun a i hi => ?_⟩
  · rw [segments, blocks, List.map_cons, List.head?_cons, Nat.zero_add, ← entry]
    rfl
  · obtain ⟨_, _, _, stays | other | ⟨-, here⟩⟩ := stays a .halt hi
    · exact absurd rfl stays.ends
    · cases other
    · exact here
  · rintro rfl
    exact halt_codeAt g
  · have address : ((Program.ofGrammar g).rules.map Prod.snd)[k]? = some a := by rw [List.getElem?_map, hk]; rfl
    have name_k : g.names[k]? = some name := by rw [← names, List.getElem?_map, hk]; rfl
    constructor
    · rw [Program.rule?, List.zip_of_prod names rfl]
      exact Assembly.lookup_zip distinct name_k address
    · change ((ruleAddresses _ _).map Prod.snd)[k]? = some a at address
      rw [ruleAddresses_snd, List.getElem?_map] at address
      obtain ⟨b, hb, rfl⟩ := Option.map_eq_some_iff.1 address
      have among := List.mem_of_getElem? hb
      obtain ⟨-, length, -⟩ := blocks_within b among
      refine ⟨b.1.first + size b.2, ?_, Nat.le_add_right _ _, ?_⟩
      · rw [segments, blocks, List.map_cons, List.getElem?_cons_succ, List.getElem?_map, Nat.zero_add, ← entry, hb,
          ← length]
        rfl
      · exact (rules_placed hg (List.Subset.refl _) (rules_codeAt g) b among).2
  · rw [segments]
    exact blocks_cover (Nat.zero_le a) (by rwa [← total])
  · rw [segments, total]
    intro s hs
    obtain ⟨b, hb, rfl⟩ := List.mem_map.1 hs
    exact (blocks_within b hb).2.2
  · rw [segments, List.getElem?_map] at hs
    obtain ⟨b, hb, rfl⟩ := Option.map_eq_some_iff.1 hs
    rw [← blocks_snd 0 (e :: g.rules.map Rule.body), List.getElem?_map, hb] at hf
    cases hf
    exact block_confined hg start something (List.mem_of_getElem? hb)
  · obtain ⟨_, _, _, stays | other | ⟨other, -⟩⟩ := stays a _ hi
    · exact stays.literals k rfl
    · cases other
    · cases other
  · obtain ⟨_, _, _, stays | other | ⟨other, -⟩⟩ := stays a _ hi
    · exact stays.scripts k rfl
    · cases other
    · cases other
  · obtain ⟨_, _, _, stays | rfl | ⟨rfl, -⟩⟩ := stays a _ hi
    · exact fun b hb => (stays.targets b hb).2.2
    · exact List.forall_mem_nil _
    · exact List.forall_mem_nil _

end Emission
end TextGrammar
