import TextGrammar.Proofs.PoolDraws
import TextGrammar.Proofs.MachineOutcomes
import TextGrammar.Proofs.Placement
import TextGrammar.Proofs.SampledNumbers
set_option autoImplicit false

namespace TextGrammar.Emission
open Grammar Machine Meaning

variable {σ ε : Type} [Sink σ] [Evaluator ε] {p : Program} {t : Symbols} {g : Grammar} {inner : Runner σ ε}
  {body : Expr} {a base start leave fuel : Nat} {stack : List Cell} {w : World σ ε}

/-- A subroutine at `start` whose return is at `leave` does what an expression means. -/
def Subroutine (p : Program) (fuel start leave : Nat) (inner : Runner σ ε) (body : Expr) : Prop :=
  p.code[leave]? = some .ret ∧
    ∀ stack (w : World σ ε), Leads p (w.state start stack) fuel leave stack (inner body w)

def Realizes (p : Program) (t : Symbols) (fuel : Nat) (inner : Runner σ ε) : Prop :=
  ∀ e base stack (w : World σ ε), Placed p t base e →
    Leads p (w.state base stack) fuel (base + size e) stack (inner e w)

theorem Realizes.subroutine (h : Realizes p t fuel inner) (hb : Placed p t base body)
    (hret : p.code[base + size body]? = some .ret) : Subroutine p fuel base (base + size body) inner body :=
  ⟨hret, fun stack w => h body base stack w hb⟩

theorem Subroutine.weaken {less : Nat} (h : Subroutine p fuel start leave inner body) (hl : less ≤ fuel) :
    Subroutine p less start leave inner body :=
  ⟨h.1, fun stack w => (h.2 stack w).weaken hl⟩

theorem Subroutine.call (h : Subroutine p fuel start leave inner body) (hcall : p.code[a]? = some (.call start)) :
    Leads p (w.state a stack) (fuel + 1) (a + 1) stack (inner body w) :=
  .call hcall h.1 (h.2 _ _)

theorem execute_test {n target : Nat} (hn : n + 1 < UInt32.size) :
    execute p a (w.state (a + 1) (.int (Int64.ofNat (n + 1)) :: stack)) (.jumpIfZero target) =
      .running (w.state (a + 1) (.int (Int64.ofNat (n + 1)) :: stack)) := by
  simp only [execute, World.state, counter_ne_zero hn, if_false]

theorem execute_dec (n : Nat) : execute p a (w.state (a + 1) (.int (Int64.ofNat (n + 1)) :: stack)) .dec =
    .running (w.state (a + 1) (.int (Int64.ofNat n) :: stack)) := by
  simp only [execute, World.state, counter_pred]

theorem leads_times (h : Subroutine p fuel start leave inner body) {n : Nat} (hn : n < UInt32.size)
    (code : CodeAt p a [.jumpIfZero (a + 4), .call start, .dec, .jump a, .pop]) :
    Leads p (w.state a (.int (Int64.ofNat n) :: stack)) fuel (a + 5) stack (times inner body n w) := by
  obtain ⟨test, call, dec, jump, pop, -⟩ := code
  induction n generalizing w with
  | zero =>
    refine .pass test ⟨_, _, rfl, counter_nonneg hn⟩ rfl ?_
    exact .pass pop (List.cons_ne_nil _ _) rfl (.arrived w)
  | succ n ih =>
    refine .pass test ⟨_, _, rfl, counter_nonneg hn⟩ (execute_test hn) ?_
    refine ((h.call call).weaken (Nat.le_succ fuel)).andThen rfl fun w' => ?_
    refine .pass dec ⟨_, _, rfl, counter_pos hn⟩ (execute_dec n) ?_
    exact .pass jump trivial rfl (ih (by omega))

/-- One guarded iteration of a loop whose rescue point resumes at `resume` and whose next turn starts after a pop. -/
theorem leads_guarded (h : Subroutine p fuel start leave inner body) {resume exit : Nat} {above : List Cell}
    {more : World σ ε → Option (Outcome σ ε)} (hu : unwind above = unwind stack)
    (code : CodeAt p a [.pushRescuePoint resume, .call start, .pop])
    (again : ∀ w : World σ ε, Leads p (w.state (a + 3) above) fuel exit stack (more w))
    (out : ∀ w : World σ ε, Leads p (w.state resume above) fuel exit stack (some (.done w))) :
    Leads p (w.state a above) fuel exit stack (guarded inner body w more) := by
  obtain ⟨point, call, pop, -⟩ := code
  refine .pass point trivial rfl ?_
  have run : Leads p (w.state (a + 1) (.rescue ⟨resume, Sink.position w.sink, w.bindings⟩ :: above)) fuel (a + 2)
      (.rescue ⟨resume, Sink.position w.sink, w.bindings⟩ :: above) (inner body w) :=
    (h.call call).weaken (Nat.le_succ fuel)
  unfold guarded
  match inner body w, run with
  | none, run => exact run
  | some (.done w'), ⟨n, hn⟩ =>
    refine Leads.weaken (Leads.after hn ?_) (Nat.le_add_left fuel n)
    exact .pass pop (List.cons_ne_nil _ _) rfl (again w')
  | some (.failed w'), run =>
    -- the latest rescue point is the one of this turn
    have undone : Leads p _ fuel resume above (some (w'.putBack w)) := Leads.undone run
    have left := undone.andThen hu out
    rw [andThen_done] at left
    exact left
  | some (.faulted fault w'), run => exact run

theorem leads_atMost (h : Subroutine p fuel start leave inner body) {n : Nat} (hn : n < UInt32.size)
    (code : CodeAt p a [.jumpIfZero (a + 6), .pushRescuePoint (a + 6), .call start, .pop, .dec, .jump a, .pop]) :
    Leads p (w.state a (.int (Int64.ofNat n) :: stack)) fuel (a + 7) stack (atMost inner body n w) := by
  obtain ⟨test, point, call, pop, dec, jump, last, -⟩ := code
  have out : ∀ m (w : World σ ε), Leads p (w.state (a + 6) (.int m :: stack)) fuel (a + 7) stack (some (.done w)) :=
    fun m w => .pass last (List.cons_ne_nil _ _) rfl (.arrived w)
  induction n generalizing w with
  | zero => exact .pass test ⟨_, _, rfl, counter_nonneg hn⟩ rfl (out _ w)
  | succ n ih =>
    refine .pass test ⟨_, _, rfl, counter_nonneg hn⟩ (execute_test hn) ?_
    refine leads_guarded (a := a + 1) h rfl ⟨point, call, pop, trivial⟩ (fun w' => ?_) (out _)
    refine .pass dec ⟨_, _, rfl, counter_pos hn⟩ (execute_dec n) ?_
    exact .pass jump trivial rfl (ih (by omega))

theorem leads_whileHeads (h : Subroutine p fuel start leave inner body)
    (code : CodeAt p a [.flip (a + 5), .pushRescuePoint (a + 5), .call start, .pop, .jump a]) {turns : Nat}
    (ht : turns ≤ fuel) : Leads p (w.state a stack) turns (a + 5) stack (whileHeads inner body turns w) := by
  obtain ⟨flip, point, call, pop, jump, -⟩ := code
  induction turns generalizing w with
  | zero => exact ⟨0, _, Nat.zero_le 0, .zero _⟩
  | succ turns ih =>
    rw [whileHeads]
    rcases hc : w.entropy.coin with ⟨heads, entropy⟩
    cases heads with
    | false => exact .pass flip trivial (by simp only [execute, World.state, hc]; rfl) (.arrived _)
    | true =>
      refine .instruction flip trivial (by simp only [execute, World.state, hc]; rfl) ?_
      refine leads_guarded (a := a + 1) (h.weaken (by omega)) rfl ⟨point, call, pop, trivial⟩ (fun w' => ?_) .arrived
      exact .pass jump trivial rfl (ih (by omega))

theorem leads_leastLoop (h : Subroutine p fuel start leave inner body) {least : UInt32}
    (code : CodeAt p a (leastLoop a start least)) :
    Leads p (w.state a stack) fuel (a + leastSize least) stack (times inner body least.toNat w) := by
  unfold leastLoop at code
  unfold leastSize
  split at code
  · rename_i h0
    rw [if_pos h0, h0]
    exact .arrived w
  · rename_i h0
    rw [if_neg h0]
    obtain ⟨count, loop⟩ := code
    exact .pass count trivial rfl (leads_times (a := a + 1) h least.toNat_lt loop)

omit [Evaluator ε] in
theorem further_self (least : UInt32) (w : World σ ε) :
    further inner fuel body least (some least) w = some (.done w) := by
  have none_left : Int64.ofNat (least.toNat - least.toNat) = 0 := by rw [Nat.sub_self]; rfl
  simp only [further, none_left, Entropy.integer_self]
  rfl

theorem leads_furtherLoop (h : Subroutine p fuel start leave inner body) {least : UInt32} {most : Option UInt32}
    (ordered : ∀ m, most = some m → least ≤ m) (code : CodeAt p a (furtherLoop a start least most)) :
    Leads p (w.state a stack) fuel (a + furtherSize least most) stack (further inner fuel body least most w) := by
  cases most with
  | none => exact leads_whileHeads h code (Nat.le_refl fuel)
  | some m =>
    simp only [furtherLoop] at code
    simp only [furtherSize]
    split at code
    · rename_i hm
      rw [if_pos hm, hm, further_self]
      exact .arrived w
    · rename_i hm
      rw [if_neg hm]
      obtain ⟨draw, loop⟩ := code
      have difference : (m - least).toNat = m.toNat - least.toNat := UInt32.toNat_sub_of_le m least (ordered m rfl)
      have small : m.toNat - least.toNat < UInt32.size := Nat.lt_of_le_of_lt (Nat.sub_le _ _) m.toNat_lt
      obtain ⟨k, hk, counter, count⟩ := counter_of_integer small w.entropy
      rw [← difference] at counter count
      rcases hd : w.entropy.integer 0 (Int64.ofNat (m - least).toNat) with ⟨drawn, entropy⟩
      rw [hd] at counter count
      simp only [further, ← difference, hd, count]
      refine .pass draw trivial (by simp only [execute, World.state, hd, counter]; rfl) ?_
      exact leads_atMost (a := a + 1) (w := { w with entropy := entropy }) h (by omega) loop

theorem leads_repetition {least : UInt32} {most : Option UInt32} {pos : Nat} (h : Realizes p t fuel inner)
    (hp : Placed p t base (.repetition body least most pos)) :
    Leads p (w.state base stack) (fuel + 1) (base + size (.repetition body least most pos)) stack
      (andThen (times inner body least.toNat w) (further inner fuel body least most)) := by
  cases hn : never least most with
  | true =>
    simp only [never, Bool.and_eq_true, beq_iff_eq] at hn
    obtain ⟨rfl, rfl⟩ := hn
    have nothing : size (.repetition body 0 (some 0) pos) = 0 := rfl
    rw [nothing, show times inner body (0 : UInt32).toNat w = some (.done w) from rfl, andThen, further_self]
    exact .arrived w
  | false =>
    obtain ⟨jump, placed, ret, least_code, further_code⟩ := hp.repeated hn
    have ordered : ∀ m, most = some m → least ≤ m := by
      rintro m rfl
      exact hp.feasible.1.1
    have sub := h.subroutine placed ret
    rw [size, if_neg (by rw [hn]; exact Bool.false_ne_true), ← Nat.add_assoc, ← Nat.add_assoc, ← Nat.add_assoc]
    refine .instruction jump trivial rfl ?_
    exact (leads_leastLoop sub least_code).andThen rfl fun w' => leads_furtherLoop sub ordered further_code

theorem BranchPlaced.leads_out {done : Nat} {b : Nat × Expr} (hb : BranchPlaced p t done b) {guard pool : Cell}
    (pop : p.code[done]? = some .pop) (pop' : p.code[done + 1]? = some .pop) (w : World σ ε) :
    Leads p (w.state (b.1 + size b.2) (guard :: pool :: stack)) fuel (done + 2) stack (some (.done w)) := by
  have pops : Leads p (w.state done (guard :: pool :: stack)) fuel (done + 2) stack (some (.done w)) :=
    .pass pop (List.cons_ne_nil _ _) rfl (.pass pop' (List.cons_ne_nil _ _) rfl (.arrived w))
  rcases hb.leaves with jump | here
  · exact .pass jump trivial rfl pops
  · rw [here]
    exact pops

theorem execute_choose {q : Pool (Nat × Expr)} {b : Nat × Expr} {rest : Pool (Nat × Expr)} {entropy : Entropy}
    (hd : q.draw w.entropy = (some (b, rest), entropy)) :
    execute p a (w.state (a + 1) (.candidates (q.map Prod.fst) :: stack)) .choose =
      .running (World.state { w with entropy := entropy } b.1
        ((if q.size = 1 then .placeholder else .rescue ⟨a, Sink.position w.sink, w.bindings⟩) ::
          .candidates (rest.map Prod.fst) :: stack)) := by
  simp only [execute, choose, World.state, Pool.draw_map, hd, Option.map_some, Pool.map_size, rescuePoint]

/-- One draw. A branch that fails comes back to the dispatch unless it was the last. -/
theorem leads_draw (h : Realizes p t fuel inner) {done n : Nat} {q rest : Pool (Nat × Expr)} {b : Nat × Expr}
    {entropy : Entropy} (choose : p.code[a]? = some .choose) (pop : p.code[done]? = some .pop)
    (pop' : p.code[done + 1]? = some .pop) (hn : q.size = n + 1)
    (hd : q.draw w.entropy = (some (b, rest), entropy)) (hb : BranchPlaced p t done b)
    (again : n ≠ 0 → ∀ w : World σ ε, Leads p (w.state a (.candidates (rest.map Prod.fst) :: stack)) fuel (done + 2)
      stack (draws inner n (rest.map Prod.snd) w)) :
    Leads p (w.state a (.candidates (q.map Prod.fst) :: stack)) fuel (done + 2) stack
      (draws inner (n + 1) (q.map Prod.snd) w) := by
  have filled : (q.map Prod.fst).items ≠ [] := by
    intro h0
    have := Pool.map_size Prod.fst q
    rw [Pool.size, h0, hn] at this
    cases this
  rw [draws_succ inner (by rw [Pool.draw_map, hd]; rfl : _ = (some (b.2, rest.map Prod.snd), entropy))]
  refine .pass choose ⟨_, _, rfl, filled⟩ (execute_choose hd) ?_
  have run := h b.2 b.1 ((if q.size = 1 then .placeholder else .rescue ⟨a, Sink.position w.sink, w.bindings⟩) ::
    .candidates (rest.map Prod.fst) :: stack) { w with entropy := entropy } hb.placed
  match inner b.2 { w with entropy := entropy }, run with
  | none, run => exact run
  | some (.done w'), ⟨m, hm⟩ => exact ((hb.leads_out pop pop' w').after hm).weaken (Nat.le_add_left fuel m)
  | some (.faulted fault w'), run => exact run
  | some (.failed w'), run =>
    -- the last branch stands on a placeholder, so that its failure is one of the whole choice
    by_cases h0 : n = 0
    · rw [hn, if_pos (by rw [h0])] at run ⊢
      simp only [h0, if_true]
      exact run
    · rw [hn, if_neg (by omega)] at run ⊢
      simp only [h0, if_false]
      have undone : Leads p _ fuel a (.candidates (rest.map Prod.fst) :: stack)
          (some (w'.putBack { w with entropy := entropy })) := Leads.undone run
      exact undone.andThen rfl (again h0)

theorem leads_draws (h : Realizes p t fuel inner) {done : Nat} (choose : p.code[a]? = some .choose)
    (pop : p.code[done]? = some .pop) (pop' : p.code[done + 1]? = some .pop) {n : Nat} {q : Pool (Nat × Expr)}
    (hn : q.size = n + 1) (hq : ∀ i ∈ q.items, BranchPlaced p t done i.2) :
    Leads p (w.state a (.candidates (q.map Prod.fst) :: stack)) fuel (done + 2) stack
      (draws inner (n + 1) (q.map Prod.snd) w) := by
  induction n generalizing q w with
  | zero =>
    obtain ⟨b, rest, entropy, hd, hb, -, -⟩ := q.draw_spec w.entropy (List.ne_nil_of_length_eq_add_one hn)
    obtain ⟨i, hi, rfl⟩ := List.mem_map.1 hb
    exact leads_draw h choose pop pop' hn hd (hq i hi) (fun h0 => absurd rfl h0)
  | succ n ih =>
    obtain ⟨b, rest, entropy, hd, hb, kept, smaller⟩ := q.draw_spec w.entropy (List.ne_nil_of_length_eq_add_one hn)
    obtain ⟨i, hi, rfl⟩ := List.mem_map.1 hb
    exact leads_draw h choose pop pop' hn hd (hq i hi)
      (fun _ w' => ih (by omega) fun j hj => hq j (kept j hj))

theorem length_branchTargets (base : Nat) (alternatives : List (Alternative Expr)) :
    (branchTargets base alternatives).length = alternatives.length := by
  induction alternatives generalizing base with
  | nil => rfl
  | cons x xs ih => rw [branchTargets, List.length_cons, List.length_cons, ih]

def branchPool (base : Nat) (alternatives : List (Alternative Expr)) : Pool (Nat × Expr) :=
  .ofList (List.zip (weights alternatives)
    (List.zip (branchTargets base alternatives) (alternatives.map Alternative.body)))

theorem branchPool_targets (base : Nat) (alternatives : List (Alternative Expr)) :
    (branchPool base alternatives).map Prod.fst =
      .ofList ((candidates base alternatives).map fun c => (c.weight, c.target)) := by
  have firsts : (List.zip (branchTargets base alternatives) (alternatives.map Alternative.body)).map Prod.fst =
      branchTargets base alternatives :=
    List.map_fst_zip (Nat.le_of_eq (by rw [length_branchTargets, List.length_map]))
  rw [branchPool, Pool.map_ofList, candidates, List.map_zipWith]
  refine congrArg Pool.ofList ?_
  calc
    _ = List.zip (weights alternatives)
        ((List.zip (branchTargets base alternatives) (alternatives.map Alternative.body)).map Prod.fst) :=
      List.zip_map_right.symm
    _ = List.zip (weights alternatives) (branchTargets base alternatives) := by rw [firsts]
    _ = _ := rfl

theorem branchPool_bodies (base : Nat) (alternatives : List (Alternative Expr)) :
    (branchPool base alternatives).map Prod.snd = alternativePool alternatives := by
  have seconds : (List.zip (branchTargets base alternatives) (alternatives.map Alternative.body)).map Prod.snd =
      alternatives.map Alternative.body :=
    List.map_snd_zip (Nat.le_of_eq (by rw [length_branchTargets, List.length_map]))
  rw [branchPool, Pool.map_ofList, alternativePool]
  refine congrArg Pool.ofList ?_
  calc
    _ = List.zip (weights alternatives)
        ((List.zip (branchTargets base alternatives) (alternatives.map Alternative.body)).map Prod.snd) :=
      List.zip_map_right.symm
    _ = _ := by rw [seconds]

theorem branchPool_size (base : Nat) (alternatives : List (Alternative Expr)) :
    (branchPool base alternatives).size = alternatives.length := by
  simp only [branchPool, Pool.size, Pool.ofList, List.length_zip, weights, List.length_map, length_branchTargets,
    Nat.min_self]

theorem branchPool_mem {base : Nat} {alternatives : List (Alternative Expr)} {i : Float × Nat × Expr}
    (hi : i ∈ (branchPool base alternatives).items) :
    i.2 ∈ List.zip (branchTargets base alternatives) (alternatives.map Alternative.body) :=
  (List.of_mem_zip (a := i.1) (b := i.2) hi).2

theorem leads_choice {alternatives : List (Alternative Expr)} {pos : Nat} (h : Realizes p t fuel inner)
    (hp : Placed p t base (.choice alternatives pos)) :
    Leads p (w.state base stack) (fuel + 1) (base + size (.choice alternatives pos)) stack
      (draws inner alternatives.length (alternativePool alternatives) w) := by
  obtain ⟨push, choose, some_left, placed, pop, pop'⟩ := hp.chosen
  obtain ⟨n, hn⟩ : ∃ n, alternatives.length = n + 1 :=
    Nat.exists_eq_succ_of_ne_zero (fun h0 => some_left (List.eq_nil_of_length_eq_zero h0))
  refine .instruction push trivial (u := w.state (base + 1) (.candidates ((branchPool (base + 2) alternatives).map
    Prod.fst) :: stack)) (by rw [branchPool_targets]; rfl) ?_
  rw [← branchPool_bodies (base + 2), hn, size, ← Nat.add_assoc, ← Nat.add_assoc]
  exact leads_draws h choose pop pop' ((branchPool_size _ _).trans hn) fun i hi => placed i.2 (branchPool_mem hi)

theorem leads_range {low high : Number} {pos : Nat} (hp : Placed p t base (.range low high pos)) :
    Leads p (w.state base stack) fuel (base + 2) stack (some (w.writeNumber (span low high))) := by
  obtain ⟨push, write, -⟩ := hp.code
  have single := hp.literals
  simp only [literalsOf] at single
  cases hs : span low high with
  | empty =>
    rw [hs] at push
    exact .failure (b := base + 1) (v := w) push trivial rfl rfl
  | single text =>
    rw [hs] at push single
    exact .pushLiteral push (single text (List.mem_singleton_self text)) (.write write rfl)
  | ints a b =>
    rw [hs] at push
    exact .pass push trivial rfl (.write (w := { w with entropy := _ }) write rfl)
  | floats a b =>
    rw [hs] at push
    exact .pass push trivial rfl (.write (w := { w with entropy := _ }) write rfl)

theorem leads_capture {name : String} {discard : Bool} {earlier now : World σ ε}
    (hi : p.code[a]? = some (.capture name discard)) :
    Leads p (now.state a (.offset (Sink.position earlier.sink) :: stack)) fuel (a + 1) stack
      (some (World.capture name discard earlier now)) := by
  have fits : Fits p (.offset (Sink.position earlier.sink) :: stack) (.capture name discard) := ⟨_, _, rfl⟩
  cases hb : Sink.writtenSince now.sink (Sink.position earlier.sink) with
  | none =>
    simp only [World.capture, hb]
    refine .fault hi fits (v := now.state (a + 1) stack) ?_
    simp only [execute, capture, World.state, hb, violated]
  | some bytes =>
    cases ht : Utf8.toString? bytes with
    | none =>
      simp only [World.capture, hb, ht]
      refine .failure (b := a + 1) (v := now) hi fits ?_ rfl
      simp only [execute, capture, World.state, hb, ht]
    | some text =>
      cases discard with
      | false =>
        simp only [World.capture, hb, ht, Bool.false_eq_true, if_false]
        refine .pass hi fits ?_ (.arrived _)
        simp only [execute, capture, World.state, hb, ht, Bool.false_eq_true, if_false]
      | true =>
        rcases hr : Sink.restore now.sink (Sink.position earlier.sink) with ⟨result, sink⟩
        simp only [World.capture, hb, ht, if_true, hr]
        cases result with
        | ok _ =>
          refine .pass hi fits ?_ (.arrived _)
          simp only [execute, capture, World.state, hb, ht, if_true, hr]
        | error fault =>
          refine .fault hi fits
            (v := World.state { now with bindings := now.bindings.set name (.str text), sink := sink } (a + 1) stack) ?_
          simp only [execute, capture, World.state, hb, ht, if_true, hr]

theorem leads_check {code : String} (hp : Placed p t base (.check code)) :
    Leads p (w.state base stack) fuel (base + 3) stack
      (some (w.evaluate code fun v w => if v.isTruthy then .done w else .failed w)) := by
  obtain ⟨eval, jump, rescue, -⟩ := hp.code
  refine .evaluate eval (hp.scripts code (List.mem_singleton_self code)) fun v w' => ?_
  cases hv : v.isTruthy with
  | true => exact .pass jump ⟨v, stack, rfl⟩ (by simp only [execute, popping, World.state, hv]; rfl) (.arrived w')
  | false =>
    refine .pass jump ⟨v, stack, rfl⟩ (u := w'.state (base + 2) stack) ?_ ?_
    · simp only [execute, popping, World.state, hv]
      rfl
    · exact .failure (b := base + 3) (v := w') rescue trivial rfl rfl

mutual

theorem leads_within (h : Realizes p t fuel inner) (hg : RulesPlaced p t g) :
    ∀ (e : Expr) (base : Nat) (stack : List Cell) (w : World σ ε), Placed p t base e →
      Leads p (w.state base stack) (fuel + 1) (base + size e) stack (within inner g fuel e w)
  | .literal text, base, stack, w, hp => by
    obtain ⟨push, write, -⟩ := hp.code
    exact .pushLiteral push (hp.literals text (List.mem_singleton_self text)) (.write write rfl)
  | .range low high pos, base, stack, w, hp => leads_range hp
  | .reference name pos, base, stack, w, hp => by
    have call := hp.code.1
    rw [within]
    cases hr : g.rule? name with
    | none =>
      rw [Symbols.callOf, hg.none name hr] at call
      exact .failure (b := base + 1) (v := w) call trivial rfl rfl
    | some body =>
      obtain ⟨a, found, placed, ret⟩ := hg.some name body hr
      rw [Symbols.callOf, found] at call
      exact (h.subroutine placed ret).call call
  | .sequence es, base, stack, w, hp => leads_withinAll h hg es base stack w hp
  | .repetition body least most pos, base, stack, w, hp => leads_repetition h hp
  | .choice alternatives pos, base, stack, w, hp => leads_choice h hp
  | .generate code, base, stack, w, hp => by
    obtain ⟨eval, write, -⟩ := hp.code
    exact .evaluate eval (hp.scripts code (List.mem_singleton_self code)) fun v w' => .write write rfl
  | .check code, base, stack, w, hp => leads_check hp
  | .action code, base, stack, w, hp => by
    obtain ⟨eval, pop, -⟩ := hp.code
    refine .evaluate eval (hp.scripts code (List.mem_singleton_self code)) fun v w' => ?_
    exact .pass pop (List.cons_ne_nil _ _) rfl (.arrived w')
  | .capture body name discard, base, stack, w, hp => by
    obtain ⟨offset, placed, capture⟩ := hp.captured
    refine .instruction offset trivial rfl ?_
    refine (h body (base + 1) (.offset (Sink.position w.sink) :: stack) w placed).andThen rfl fun now => ?_
    have exit : base + size (.capture body name discard) = base + 1 + size body + 1 := by
      rw [size]
      omega
    rw [exit]
    exact leads_capture capture

theorem leads_withinAll (h : Realizes p t fuel inner) (hg : RulesPlaced p t g) :
    ∀ (es : List Expr) (base : Nat) (stack : List Cell) (w : World σ ε), Placed p t base (.sequence es) →
      Leads p (w.state base stack) (fuel + 1) (base + sizeAll es) stack (withinAll inner g fuel es w)
  | [], base, stack, w, hp => .arrived w
  | e :: es, base, stack, w, hp => by
    refine (leads_within h hg e base stack w hp.head).andThen rfl fun w' => ?_
    rw [sizeAll, ← Nat.add_assoc]
    exact leads_withinAll h hg es (base + size e) stack w' hp.tail

end

/-- What an expression means with some fuel is what its code comes to. -/
theorem realizes_run (hg : RulesPlaced p t g) (fuel : Nat) :
    Realizes p t fuel (Meaning.run g fuel : Runner σ ε) := by
  induction fuel with
  | zero => exact fun e base stack w hp => ⟨0, _, Nat.le_refl 0, .zero _⟩
  | succ fuel ih => exact leads_within ih hg

end TextGrammar.Emission
