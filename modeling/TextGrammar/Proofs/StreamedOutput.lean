import TextGrammar.Proofs.BufferedOutput
set_option autoImplicit false

/-!
# Streams

A stream counts the bytes of the writes that succeeded. A write that fails half-way leaves bytes with the writer that
are never counted, and then a stream agrees to go back although something has been written. The position is behind what
the writer took by exactly these bytes.
-/
namespace TextGrammar
open Sink

variable {ω : Type} [Writer ω]

class HonestWriter (ω : Type) [Writer ω] : Prop where
  le_length {w w' : ω} {bytes : Bytes} {n : Nat} (h : Writer.write w bytes = (.ok n, w')) : n ≤ bytes.length

instance : HonestWriter Bucket where
  le_length {w w' bytes n} h := by
    change (if bytes ≠ [] ∧ w.room = 0 then _ else (Except.ok (min w.room bytes.length), _)) = (Except.ok n, w') at h
    split at h
    · cases h
    · cases h
      exact Nat.min_le_right _ _

structure Metered (ω : Type) where
  inner : ω
  taken : Nat

namespace Metered

def count : Except OutputFault Nat → Nat
  | .ok n => n
  | .error _ => 0

instance : Writer (Metered ω) where
  write w bytes :=
    ((Writer.write w.inner bytes).1, ⟨(Writer.write w.inner bytes).2, w.taken + count (Writer.write w.inner bytes).1⟩)
  flush w := ((Writer.flush w.inner).1, ⟨(Writer.flush w.inner).2, w.taken⟩)

variable {w w' : Metered ω} {bytes : Bytes} {result : Except OutputFault Nat}

theorem write_inner (h : Writer.write w bytes = (result, w')) : Writer.write w.inner bytes = (result, w'.inner) := by
  cases h
  rfl

theorem taken_write [HonestWriter ω] (h : Writer.write w bytes = (result, w')) :
    w'.taken = w.taken + count result ∧ count result ≤ bytes.length := by
  have counted : w'.taken = w.taken + count result := by
    cases h
    rfl
  refine ⟨counted, ?_⟩
  cases result with
  | ok n => exact HonestWriter.le_length (write_inner h)
  | error fault => exact Nat.zero_le _

theorem writeAll_inner (w : Metered ω) (bytes : Bytes) :
    writeAll w.inner bytes = ((writeAll w bytes).1, (writeAll w bytes).2.inner) := by
  fun_induction writeAll w bytes with
  | case1 w => rw [writeAll]
  | case2 w b bs w' h => rw [writeAll, write_inner h]
  | case3 w b bs n w' h ih => rw [writeAll, write_inner h]; exact ih
  | case4 w b bs fault w' h => rw [writeAll, write_inner h]

theorem writeAll_taken [HonestWriter ω] (w : Metered ω) (bytes : Bytes) :
    ∃ n ≤ bytes.length, (writeAll w bytes).2.taken = w.taken + n ∧
      ((writeAll w bytes).1 = .ok () → n = bytes.length) := by
  fun_induction writeAll w bytes with
  | case1 w => exact ⟨0, Nat.le_refl _, rfl, fun _ => rfl⟩
  | case2 w b bs w' h => exact ⟨0, Nat.zero_le _, (taken_write h).1, fun done => by cases done⟩
  | case3 w b bs k w' h ih =>
    obtain ⟨taken, fits⟩ := taken_write h
    obtain ⟨n, le, rest, all⟩ := ih
    rw [List.length_drop] at le all
    rw [count, List.length_cons] at fits
    refine ⟨k + 1 + n, ?_, by rw [rest, taken, count, Nat.add_assoc], fun done => ?_⟩
    · rw [List.length_cons]
      omega
    · rw [all done, List.length_cons]
      omega
  | case4 w b bs fault w' h => exact ⟨0, Nat.zero_le _, (taken_write h).1, fun done => by cases done⟩

end Metered

namespace Direct

theorem write_eq (s : Direct ω) (bytes : Bytes) : Sink.write s bytes =
    match writeAll s.inner bytes with
    | (.ok (), w) => (.ok bytes.length, ⟨w, s.written + bytes.length⟩)
    | (.error fault, w) => (.error fault, ⟨w, s.written⟩) := rfl

variable {s : Direct (Metered ω)} {op : Operation} {ops : List Operation}

def unmetered (s : Direct (Metered ω)) : Direct ω := ⟨s.inner.inner, s.written⟩

/-- A stream to a writer whose bytes are counted does what the stream to the writer does. -/
theorem perform_unmetered (s : Direct (Metered ω)) (op : Operation) :
    perform s.unmetered op = ((perform s op).1, (perform s op).2.unmetered) := by
  cases op with
  | write bytes =>
    rw [perform, perform, write_eq, write_eq, unmetered, Metered.writeAll_inner]
    rcases writeAll s.inner bytes with ⟨_ | _, w⟩ <;> rfl
  | _ => rfl

theorem after_unmetered (s : Direct (Metered ω)) (ops : List Operation) :
    replies s.unmetered ops = replies s ops ∧ after s.unmetered ops = (after s ops).unmetered := by
  induction ops generalizing s with
  | nil => exact ⟨rfl, rfl⟩
  | cons op ops ih =>
    obtain ⟨same, last⟩ := ih (perform s op).2
    rw [replies, replies, after, after, perform_unmetered]
    exact ⟨congrArg _ same, last⟩

/-- The bytes that the writer took of an operation that failed. -/
def missed (s : Direct (Metered ω)) (op : Operation) : Nat :=
  if (perform s op).1.isOk then 0 else (perform s op).2.inner.taken - s.inner.taken

def lost (s : Direct (Metered ω)) : List Operation → Nat
  | [] => 0
  | op :: ops => missed s op + lost (perform s op).2 ops

theorem perform_idle (idle : ∀ bytes, op ≠ .write bytes) :
    (perform s op).2.inner.taken = s.inner.taken ∧ (perform s op).2.written = s.written := by
  cases op with
  | write bytes => exact absurd rfl (idle bytes)
  | _ => exact ⟨rfl, rfl⟩

theorem missed_idle (idle : ∀ bytes, op ≠ .write bytes) : missed s op = 0 := by
  rw [missed, (perform_idle idle).1, Nat.sub_self, ite_self]

theorem perform_balance [HonestWriter ω] (s : Direct (Metered ω)) (op : Operation) :
    (perform s op).2.inner.taken + s.written = s.inner.taken + (perform s op).2.written + missed s op := by
  by_cases idle : ∀ bytes, op ≠ .write bytes
  · rw [missed_idle idle, (perform_idle idle).1, (perform_idle idle).2, Nat.add_zero]
  obtain ⟨bytes, rfl⟩ := not_forall_not.1 idle
  obtain ⟨n, -, taken, all⟩ := Metered.writeAll_taken s.inner bytes
  rw [missed, perform, write_eq]
  rcases h : writeAll s.inner bytes with ⟨fault | _, w⟩
  · rw [h] at taken
    change w.taken = _ at taken
    change w.taken + s.written = s.inner.taken + s.written + (w.taken - s.inner.taken)
    omega
  · rw [h] at taken all
    change w.taken = _ at taken
    change w.taken + s.written = s.inner.taken + (s.written + bytes.length) + 0
    rw [taken, all rfl]
    omega

theorem after_balance [HonestWriter ω] (s : Direct (Metered ω)) (ops : List Operation) :
    (after s ops).inner.taken + s.written = s.inner.taken + (after s ops).written + lost s ops := by
  induction ops generalizing s with
  | nil => rfl
  | cons op ops ih =>
    have first := perform_balance s op
    have rest := ih (perform s op).2
    rw [after, lost]
    omega

end Direct

open Direct

/-- The position of a stream is behind what its writer took by what the writer took of writes that failed. -/
theorem position_add_lost [HonestWriter ω] (w : ω) (ops : List Operation) :
    let s := Direct.new (⟨w, 0⟩ : Metered ω)
    replies s ops = replies (Direct.new w) ops ∧ position (after s ops) = position (after (Direct.new w) ops) ∧
      position (after s ops) + lost s ops = (after s ops).inner.taken := by
  intro s
  obtain ⟨same, last⟩ := after_unmetered s ops
  have balance := after_balance s ops
  change replies (Direct.new w) ops = _ at same
  change after (Direct.new w) ops = _ at last
  change (after s ops).inner.taken + 0 = 0 + (after s ops).written + _ at balance
  refine ⟨same.symm, by rw [last]; rfl, ?_⟩
  change (after s ops).written + _ = _
  omega

/-- A stream that agrees to go back has written nothing since, but for what its writer took of writes that failed. -/
theorem taken_of_restored [HonestWriter ω] {s : Direct (Metered ω)} {ops : List Operation}
    (agrees : (Sink.restore (after s ops) (position s)).1 = .ok ()) :
    (after s ops).inner.taken = s.inner.taken + lost s ops := by
  have balance := after_balance s ops
  change (if s.written = (after s ops).written then .ok () else .error OutputFault.cannotRestore) =
    Except.ok () at agrees
  split at agrees
  · omega
  · cases agrees

/-- Nothing is missing from the count if no write fails. -/
theorem lost_eq_zero {s : Direct (Metered ω)} {ops : List Operation}
    (h : Throughout (fun s op => ∀ bytes, op = .write bytes → (perform s op).1.isOk) s ops) : lost s ops = 0 := by
  induction ops generalizing s with
  | nil => rfl
  | cons op ops ih =>
    rw [lost, ih h.2, Nat.add_zero]
    by_cases idle : ∀ bytes, op ≠ .write bytes
    · exact missed_idle idle
    · obtain ⟨bytes, written⟩ := not_forall_not.1 idle
      exact if_pos (h.1 bytes written)

/-- As long as no write fails, a stream agrees to go back only where nothing has been taken since. -/
theorem unchanged_of_restored [HonestWriter ω] {s : Direct (Metered ω)} {ops : List Operation}
    (h : Throughout (fun s op => ∀ bytes, op = .write bytes → (perform s op).1.isOk) s ops)
    (agrees : (Sink.restore (after s ops) (position s)).1 = .ok ()) :
    (after s ops).inner.taken = s.inner.taken := by
  rw [taken_of_restored agrees, lost_eq_zero h, Nat.add_zero]

/-- A stream agrees to undo a write that failed half-way, and undoes nothing. -/
theorem restore_agrees :
    let s := Direct.new (⟨⟨[], 3, true⟩, 0⟩ : Metered Bucket)
    let ops : List Operation := [.write [1, 2, 3, 4]]
    replies s (ops ++ [.restore (position s)]) = [.error (.reported "writer is full"), .ok .done] ∧
      position (after s ops) = 0 ∧ (after s ops).inner.taken = 3 ∧ (after s ops).inner.inner.taken = [1, 2, 3] := by
  decide +kernel

end TextGrammar
