import TextGrammar.Proofs.Delivery
import TextGrammar.Proofs.SinkHistories
set_option autoImplicit false

namespace TextGrammar
open Sink TransactionalSink

variable {ω : Type} [Writer ω]

def handOver (w : ω) (bytes : Bytes) : Answer ω Unit :=
  match writeAll w bytes with
  | (.ok (), w) => Writer.flush w
  | (.error fault, w) => (.error fault, w)

/-- Bytes in memory that are handed to a writer when they are closed, and dropped if it takes all of them. -/
structure Held (ω : Type) where
  bytes : Bytes
  writer : ω

instance : Sink (Held ω) where
  write s more := ((Sink.write s.bytes more).1, ⟨(Sink.write s.bytes more).2, s.writer⟩)
  position s := Sink.position s.bytes
  restore s place := ((Sink.restore s.bytes place).1, ⟨(Sink.restore s.bytes place).2, s.writer⟩)
  writtenSince s := Sink.writtenSince s.bytes
  close s := ((handOver s.writer s.bytes).1,
    ⟨if (writeAll s.writer s.bytes).1.isOk then [] else s.bytes, (handOver s.writer s.bytes).2⟩)

/-- Bytes laid over others from a position on, and behind them where these end. -/
def overwrite (buffer : Bytes) (position : Nat) (bytes : Bytes) : Bytes :=
  let overlap := min (position + bytes.length) buffer.length
  buffer.take position ++ bytes.take (overlap - position) ++ buffer.drop overlap ++ bytes.drop (overlap - position)

namespace Buffered

variable {s : Buffered ω} {op : Operation} {ops : List Operation}

omit [Writer ω] in
theorem write_buffer (s : Buffered ω) (bytes : Bytes) :
    (s.write bytes).buffer = overwrite s.buffer s.position bytes := by
  have within := s.within
  change s.buffer.take s.position ++ bytes ++ s.buffer.drop (s.position + bytes.length) = _
  rw [overwrite]
  by_cases inside : s.position + bytes.length ≤ s.buffer.length
  · rw [Nat.min_eq_left inside, Nat.add_sub_cancel_left, List.take_length, List.drop_length, List.append_nil]
  · have longer := Nat.le_of_not_le inside
    rw [Nat.min_eq_right longer, List.drop_of_length_le longer, List.drop_length, List.append_nil, List.append_nil,
      List.append_assoc, List.take_append_drop]

omit [Writer ω] in
theorem bytes_write (s : Buffered ω) (bytes : Bytes) : (s.write bytes).bytes = s.bytes ++ bytes := by
  change ((s.bytes ++ bytes) ++ _).take _ = _
  exact List.take_left' (by rw [List.length_append, length_bytes]; rfl)

theorem close_error {fault : OutputFault} {w : ω} (h : writeAll s.inner s.bytes = (.error fault, w)) :
    Sink.close s = (.error fault, ⟨w, s.buffer, s.position, s.within⟩) := by
  change s.close = _
  rw [close, h]

theorem close_flush {w : ω} (h : writeAll s.inner s.bytes = (.ok (), w)) :
    Sink.close s = ((Writer.flush w).1, new (Writer.flush w).2) := by
  change s.close = _
  rw [close, h]

theorem restore_within {place : Nat} (h : place ≤ s.buffer.length) :
    Sink.restore s place = (.ok (), ⟨s.inner, s.buffer, place, h⟩) := dif_pos h

theorem perform_restore {place : Nat} (h : place ≤ s.buffer.length) :
    perform s (.restore place) = (.ok .done, ⟨s.inner, s.buffer, place, h⟩) := by
  rw [perform, restore_within h]
  rfl

def held (s : Buffered ω) : Held ω := ⟨s.bytes, s.inner⟩

theorem close_held (s : Buffered ω) :
    (Sink.close s).1 = (Sink.close s.held).1 ∧ (Sink.close s).2.held = (Sink.close s.held).2 := by
  change _ = (handOver s.inner s.bytes).1 ∧ _ = Held.mk (if (writeAll s.inner s.bytes).1.isOk then [] else s.bytes)
    (handOver s.inner s.bytes).2
  rcases h : writeAll s.inner s.bytes with ⟨fault | _, w⟩
  · rw [close_error h, handOver, h]
    exact ⟨rfl, rfl⟩
  · rw [close_flush h, handOver, h]
    exact ⟨rfl, rfl⟩

/-- An operation does the same to a buffer and to bytes in memory. -/
theorem perform_held (back : GoesBack s op) :
    (perform s op).1 = (perform s.held op).1 ∧ (perform s op).2.held = (perform s.held op).2 := by
  have length := s.length_bytes
  cases op with
  | write bytes =>
    refine ⟨rfl, ?_⟩
    change Held.mk (s.write bytes).bytes s.inner = ⟨s.bytes ++ bytes, s.inner⟩
    rw [bytes_write]
  | snapshot =>
    refine ⟨?_, rfl⟩
    change Except.ok (Reply.position s.position) = .ok (.position s.bytes.length)
    rw [length]
  | restore place =>
    have here : place ≤ s.position := back
    have there : Sink.restore s.bytes place = (.ok (), s.bytes.take place) := if_pos (by rw [length]; exact here)
    rw [perform, restore_within (Nat.le_trans here s.within)]
    refine ⟨?_, ?_⟩
    · change _ = (Sink.restore s.bytes place).1.map fun _ => Reply.done
      rw [there]
    · change Held.mk (s.buffer.take place) s.inner = ⟨(Sink.restore s.bytes place).2, s.inner⟩
      rw [there, bytes, List.take_take, Nat.min_eq_left here]
  | writtenSince since =>
    refine ⟨?_, rfl⟩
    change Except.ok (Reply.wrote (if since ≤ s.position then some (s.bytes.drop since) else none)) =
      .ok (.wrote (if since ≤ s.bytes.length then some (s.bytes.drop since) else none))
    rw [length]
  | close =>
    obtain ⟨same, left⟩ := s.close_held
    exact ⟨congrArg (Except.map fun _ => Reply.done) same, left⟩

theorem after_held (back : Throughout GoesBack s ops) :
    replies s ops = replies s.held ops ∧ (after s ops).held = after s.held ops := by
  induction ops generalizing s with
  | nil => exact ⟨rfl, rfl⟩
  | cons op ops ih =>
    obtain ⟨same, left⟩ := perform_held back.1
    obtain ⟨rest, last⟩ := ih back.2
    rw [left] at rest last
    exact ⟨by rw [replies, replies, same, rest], last⟩

structure Refines (s : Buffered ω) (v : Held ω) : Prop where
  position : Sink.position s = v.bytes.length
  bytes : s.bytes = v.bytes
  writtenSince : ∀ since, Sink.writtenSince s since = Sink.writtenSince v.bytes since
  writer : s.inner = v.writer
  idle : ∀ op, op ≠ .close → (perform s op).2.inner = v.writer
  handed : (Sink.close s).2.inner = (handOver v.writer v.bytes).2
  /-- A write lays its bytes over what the buffer keeps past the position. -/
  laid : ∀ more, (s.write more).buffer = overwrite s.buffer v.bytes.length more
  /-- What the writer did not take all of is kept. -/
  kept : ∀ fault w, writeAll v.writer v.bytes = (.error fault, w) → ∃ s', Sink.close s = (.error fault, s') ∧
    s'.bytes = v.bytes ∧ Sink.position s' = Sink.position s ∧ s'.inner = w
  /-- What the writer took is dropped, also if it cannot be flushed. -/
  dropped : ∀ w, writeAll v.writer v.bytes = (.ok (), w) →
    Sink.close s = ((Writer.flush w).1, new (Writer.flush w).2)

theorem refines_held (s : Buffered ω) : Refines s s.held where
  position := s.length_bytes.symm
  bytes := rfl
  writtenSince since := by
    change (if since ≤ s.position then some (s.bytes.drop since) else none) =
      if since ≤ s.bytes.length then some (s.bytes.drop since) else none
    rw [length_bytes]
  writer := rfl
  idle op other := by
    cases op with
    | restore place => exact s.restore_inner place
    | close => exact absurd rfl other
    | _ => rfl
  handed := congrArg Held.writer s.close_held.2
  laid more := by
    rw [write_buffer, held, length_bytes]
  kept fault w h := ⟨_, close_error h, rfl, rfl, rfl⟩
  dropped w h := close_flush h

end Buffered

/-- As long as no restore goes forward, a buffer gives the replies of bytes in memory, and holds what they hold. Its
writer is handed what they are handed when they are closed, and nothing else. -/
theorem buffered_refines (s : Buffered ω) (ops : List Operation) (back : Throughout GoesBack s ops) :
    replies s ops = replies s.held ops ∧ (after s ops).Refines (after s.held ops) := by
  obtain ⟨same, left⟩ := Buffered.after_held back
  exact ⟨same, left ▸ (after s ops).refines_held⟩

structure Bucket where
  taken : Bytes
  room : Nat
  flushable : Bool
deriving DecidableEq

instance : Writer Bucket where
  write w bytes :=
    if bytes ≠ [] ∧ w.room = 0 then (.error (.reported "writer is full"), w)
    else (.ok (min w.room bytes.length), ⟨w.taken ++ bytes.take w.room, w.room - bytes.length, w.flushable⟩)
  flush w := (if w.flushable then .ok () else .error (.reported "flush failed"), w)

/-- What is taken back is overwritten in part, and what the writer has no room for is kept. -/
theorem buffered_refines_overwritten :
    let s := Buffered.new (⟨[], 3, true⟩ : Bucket)
    let ops : List Operation := [.write [1, 2, 3, 4, 5], .restore 2, .write [9], .writtenSince 1, .write [8, 7], .close]
    Throughout GoesBack s ops ∧ (replies s ops = replies s.held ops ∧ (after s ops).Refines (after s.held ops)) ∧
      replies s ops = [.ok (.took 5), .ok .done, .ok (.took 1), .ok (.wrote (some [2, 9])), .ok (.took 2),
        .error (.reported "writer is full")] ∧
      (after s ops).bytes = [1, 2, 9, 8, 7] ∧ (after s ops).inner.taken = [1, 2, 9] := by
  intro s ops
  have back : Throughout GoesBack s ops :=
    ⟨trivial, (by decide : 2 ≤ 5), trivial, trivial, trivial, trivial, trivial⟩
  exact ⟨back, buffered_refines s ops back, by decide +kernel, by decide +kernel, by decide +kernel⟩

namespace Buffered

variable {s : Buffered ω} {op : Operation} {ops : List Operation} {place : Nat}

/-- The restores that do not cut off, or refuse, are those that go forward within what the buffer keeps. -/
theorem truly_restore_iff : Truly s (.restore place) ↔ place ≤ s.position ∨ s.buffer.length < place := by
  have length := s.length_bytes
  have within := s.within
  by_cases inside : place ≤ s.buffer.length
  · rw [Truly, restore_within inside]
    constructor
    · rintro (⟨s', -, fits, -⟩ | ⟨fault, refused⟩)
      · exact .inl (length ▸ fits)
      · cases refused
    · intro h
      have here : place ≤ s.position := h.resolve_right (Nat.not_lt.2 inside)
      refine .inl ⟨_, rfl, length ▸ here, ?_⟩
      change s.buffer.take place = (s.buffer.take s.position).take place
      rw [List.take_take, Nat.min_eq_left here]
  · have refused : Sink.restore s place = (.error (.pastEnd place s.buffer.length), s) := dif_neg inside
    exact iff_of_true (.inr ⟨_, refused⟩) (.inr (Nat.not_le.1 inside))

theorem truly_of_goesBack (back : GoesBack s op) : Truly s op := by
  cases op with
  | restore place => exact truly_restore_iff.2 (.inl back)
  | _ => trivial

instance : AppendingSink (Buffered ω) where
  write_cases s bytes := .inl ⟨_, s.write bytes, rfl, bytes_write s bytes⟩
  close_cases s := by
    rcases h : writeAll s.inner s.bytes with ⟨fault | _, w⟩
    · rw [close_error h]
      exact .inl rfl
    · rw [close_flush h]
      exact .inr rfl

/-- As long as no restore goes forward, every byte that a buffer holds, and so every byte that it hands over when it is
closed, was written at a place where nothing has been taken away since. -/
theorem byte_written {w : ω} (back : Throughout GoesBack (new w) ops) :
    (Sink.close (after (new w) ops)).2.inner =
      (handOver (after (new w) ops).inner (after (new w) ops).bytes).2 ∧
    ∀ i b, (after (new w) ops).bytes[i]? = some b → WrittenIn (new w) ops i b :=
  ⟨(refines_held _).handed, fun _ _ hb => TextGrammar.byte_written rfl (back.imp fun _ _ => truly_of_goesBack) hb⟩

/-- All that was taken away is there again after a restore to where the buffer has been. -/
theorem after_forward (within : place ≤ s.position) : after s [.restore place, .restore s.position] = s := by
  have cut := perform_restore (Nat.le_trans within s.within)
  have back := @perform_restore ω _ ⟨s.inner, s.buffer, place, Nat.le_trans within s.within⟩ s.position s.within
  rw [after, cut, after, back]
  rfl

theorem handed_again :
    let s := new (⟨[], 9, true⟩ : Bucket)
    let ops : List Operation := [.write [1, 2, 3, 4, 5], .restore 2, .restore 5]
    ¬ Throughout Truly s ops ∧ ¬ WrittenIn s ops 4 5 ∧ (after s (ops ++ [.close])).inner.taken = [1, 2, 3, 4, 5] := by
  refine ⟨fun truly => ?_, ?_, by decide +kernel⟩
  · exact absurd (truly_restore_iff.1 truly.2.2.1) (by decide)
  · rintro ⟨before, bytes, later, n, split, -, -, -, stays⟩
    have first : before = [] ∧ later = [.restore 2, .restore 5] := by
      rcases before with _ | ⟨_, _ | ⟨_, _ | ⟨_, _ | ⟨_, _⟩⟩⟩⟩ <;> cases split
      exact ⟨rfl, rfl⟩
    obtain ⟨rfl, rfl⟩ := first
    cases split
    exact absurd stays.1 (by decide)

end Buffered

end TextGrammar
