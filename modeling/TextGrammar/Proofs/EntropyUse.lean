import TextGrammar.Proofs.StepEffects
set_option autoImplicit false

namespace TextGrammar

namespace Entropy

theorem Reads.length_le {α : Type} {count : Nat} {draw : Entropy → α × Entropy} (h : Reads count draw) (e : Entropy) :
    (draw e).2.length ≤ e.length := by
  rw [h.left, List.length_drop]
  exact Nat.sub_le _ _

theorem length_coin_lt {e : Entropy} (h : e.coin.1 = true) : e.coin.2.length < e.length := by
  cases e with
  | nil => cases h
  | cons b bs => exact Nat.lt_succ_self _

end Entropy

namespace Machine

variable {σ ε : Type} {p : Program} {s t : State σ ε} {i : Instruction}

/-- Whether the next instruction tosses a coin that goes on with an unbounded repetition. -/
def continues (p : Program) (s : State σ ε) : Bool :=
  match p.code[s.pc]? with
  | some (.flip _) => s.entropy.coin.1
  | _ => false

theorem flip_of_continues (h : continues p s = true) :
    ∃ target, p.code[s.pc]? = some (.flip target) ∧ s.entropy.coin.1 = true := by
  unfold continues at h
  split at h
  · rename_i target hi
    exact ⟨target, hi, h⟩
  · cases h

theorem continues_le (p : Program) (s : State σ ε) : (continues p s).toNat ≤ s.entropy.length := by
  cases hc : continues p s with
  | true =>
    obtain ⟨-, -, tossed⟩ := flip_of_continues hc
    exact Nat.zero_lt_of_lt (Entropy.length_coin_lt tossed)
  | false => exact Nat.zero_le _

variable [Sink σ] [Evaluator ε]

/-- How many coins have gone on with an unbounded repetition within a number of steps. -/
def heads (p : Program) : Nat → State σ ε → Nat
  | 0, _ => 0
  | n + 1, s => (continues p s).toNat + match step p s with
    | .running t => heads p n t
    | _ => 0

theorem Effect.entropy_eq (h : Effect p s i (.running t)) : t.entropy = s.entropy.drop (i.cost s.stack) := by
  cases h with
  | choose before _ => simp only [Instruction.cost, before]
  | back _ _ fails _ _ => obtain rfl | ⟨_, _, rfl⟩ := fails <;> rfl
  | _ => rfl

theorem length_step_le (h : step p s = .running t) : (continues p s).toNat + t.entropy.length ≤ s.entropy.length := by
  obtain ⟨i, hi, effect⟩ := exists_effect h
  have left := effect.entropy_eq
  cases hc : continues p s with
  | true =>
    obtain ⟨target, hf, tossed⟩ := flip_of_continues hc
    obtain rfl : i = .flip target := Option.some.inj (hi.symm.trans hf)
    have spent := Entropy.length_coin_lt tossed
    rw [Entropy.reads_coin.left] at spent
    rw [left, Bool.toNat_true, Nat.add_comm]
    exact spent
  | false =>
    rw [left, List.length_drop, Bool.toNat_false, Nat.zero_add]
    exact Nat.sub_le _ _

theorem heads_le (p : Program) (n : Nat) (s : State σ ε) : heads p n s ≤ s.entropy.length := by
  induction n generalizing s with
  | zero => exact Nat.zero_le _
  | succ n ih =>
    rw [heads]
    cases hs : step p s with
    | running t => exact Nat.le_trans (Nat.add_le_add_left (ih t) _) (length_step_le hs)
    | halted succeeded t => exact continues_le p s
    | faulted fault t => exact continues_le p s

end Machine
end TextGrammar
