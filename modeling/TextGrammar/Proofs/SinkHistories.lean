import TextGrammar.Proofs.TransactionalSinks
set_option autoImplicit false

namespace TextGrammar

inductive Operation where
  | write (bytes : Bytes)
  | snapshot
  | restore (position : Nat)
  | writtenSince (position : Nat)
  | close
deriving DecidableEq, Repr

inductive Reply where
  | took (count : Nat)
  | position (n : Nat)
  | wrote (bytes : Option Bytes)
  | done
deriving DecidableEq, Repr

namespace Sink

variable {σ : Type} [Sink σ]

def perform (s : σ) : Operation → Answer σ Reply
  | .write bytes => ((write s bytes).1.map .took, (write s bytes).2)
  | .snapshot => (.ok (.position (position s)), s)
  | .restore position => ((restore s position).1.map fun _ => .done, (restore s position).2)
  | .writtenSince position => (.ok (.wrote (writtenSince s position)), s)
  | .close => ((close s).1.map fun _ => .done, (close s).2)

def after (s : σ) : List Operation → σ
  | [] => s
  | op :: ops => after (perform s op).2 ops

def replies (s : σ) : List Operation → List (Except OutputFault Reply)
  | [] => []
  | op :: ops => (perform s op).1 :: replies (perform s op).2 ops

def Throughout (P : σ → Operation → Prop) (s : σ) : List Operation → Prop
  | [] => True
  | op :: ops => P s op ∧ Throughout P (perform s op).2 ops

theorem Throughout.imp {P Q : σ → Operation → Prop} (h : ∀ s op, P s op → Q s op) {s : σ} {ops : List Operation}
    (hp : Throughout P s ops) : Throughout Q s ops := by
  induction ops generalizing s with
  | nil => trivial
  | cons op ops ih => exact ⟨h s op hp.1, ih hp.2⟩

theorem throughout_of_forall {P : σ → Operation → Prop} (h : ∀ s op, P s op) (s : σ) (ops : List Operation) :
    Throughout P s ops := by
  induction ops generalizing s with
  | nil => trivial
  | cons op ops ih => exact ⟨h s op, ih _⟩

def GoesBack (s : σ) : Operation → Prop
  | .restore place => place ≤ position s
  | _ => True

end Sink

open Sink TransactionalSink

variable {σ : Type} [Sink σ] [TransactionalSink σ] {s : σ} {op : Operation} {ops : List Operation} {i : Nat} {b : UInt8}

/-- What a sink holds after it went back is what it held before up to the position. Otherwise it is as it was. -/
def Truly (s : σ) : Operation → Prop
  | .restore place =>
    (∃ s', Sink.restore s place = (.ok (), s') ∧ place ≤ (content s).length ∧ content s' = (content s).take place) ∨
      ∃ fault, Sink.restore s place = (.error fault, s)
  | _ => True

/-- A sink that appends what it takes, and leaves alone or empties what it holds when it is closed. -/
class AppendingSink (σ : Type) [Sink σ] [TransactionalSink σ] : Prop where
  write_cases (s : σ) (bytes : Bytes) :
    (∃ n s', Sink.write s bytes = (.ok n, s') ∧ content s' = content s ++ bytes) ∨
      ∃ fault, Sink.write s bytes = (.error fault, s)
  close_cases (s : σ) : content (Sink.close s).2 = content s ∨ content (Sink.close s).2 = []

/-- A byte that an operation of a history wrote at a place where nothing has been taken away since. -/
def WrittenIn (s : σ) (ops : List Operation) (i : Nat) (b : UInt8) : Prop :=
  ∃ before bytes later n, ops = before ++ .write bytes :: later ∧
    (perform (after s before) (.write bytes)).1 = .ok (.took n) ∧ position (after s before) ≤ i ∧
    bytes[i - position (after s before)]? = some b ∧
    Throughout (fun u op => i < position (perform u op).2) (perform (after s before) (.write bytes)).2 later

variable [AppendingSink σ]

theorem content_perform (truly : Truly s op) :
    (∃ bytes n, op = .write bytes ∧ (perform s op).1 = .ok (.took n) ∧
      content (perform s op).2 = content s ++ bytes) ∨
    ∃ n, content (perform s op).2 = (content s).take n := by
  have same : content s = (content s).take (content s).length := List.take_length.symm
  cases op with
  | write bytes =>
    rcases AppendingSink.write_cases s bytes with ⟨n, s', hw, grown⟩ | ⟨fault, hw⟩
    · exact .inl ⟨bytes, n, rfl, by rw [perform, hw]; rfl, by rw [perform, hw]; exact grown⟩
    · exact .inr ⟨_, by rw [perform, hw]; exact same⟩
  | snapshot => exact .inr ⟨_, same⟩
  | restore place =>
    rcases truly with ⟨s', hr, -, cut⟩ | ⟨fault, hr⟩
    · exact .inr ⟨place, by rw [perform, hr]; exact cut⟩
    · exact .inr ⟨_, by rw [perform, hr]; exact same⟩
  | writtenSince position => exact .inr ⟨_, same⟩
  | close =>
    rcases AppendingSink.close_cases s with kept | emptied
    · exact .inr ⟨_, kept.trans same⟩
    · exact .inr ⟨0, emptied⟩

/-- A byte of the content was there all the time, or was written at a place where nothing has been taken away since. -/
theorem byte_cases (truly : Throughout Truly s ops) (hb : (content (after s ops))[i]? = some b) :
    ((content s)[i]? = some b ∧ Throughout (fun u op => i < position (perform u op).2) s ops) ∨
      WrittenIn s ops i b := by
  induction ops generalizing s with
  | nil => exact .inl ⟨hb, trivial⟩
  | cons op ops ih =>
    rcases ih truly.2 hb with ⟨there, stays⟩ | ⟨before, bytes, later, n, rfl, written⟩
    · have inside : i < position (perform s op).2 := by
        rw [position_eq]
        exact (List.getElem?_eq_some_iff.1 there).1
      rcases content_perform truly.1 with ⟨bytes, n, rfl, taken, grown⟩ | ⟨n, cut⟩
      · rw [grown] at there
        by_cases old : i < (content s).length
        · rw [List.getElem?_append_left old] at there
          exact .inl ⟨there, inside, stays⟩
        · rw [List.getElem?_append_right (Nat.not_lt.1 old), ← position_eq] at there
          exact .inr ⟨[], bytes, ops, n, rfl, taken, by rw [after, position_eq]; exact Nat.not_lt.1 old, there, stays⟩
      · rw [cut, List.getElem?_take] at there
        split at there
        · exact .inl ⟨there, inside, stays⟩
        · cases there
    · exact .inr ⟨op :: before, bytes, later, n, rfl, written⟩

/-- Every byte that a sink holds which was empty at first was written at a place where nothing has been taken away
since. -/
theorem byte_written (empty : content s = []) (truly : Throughout Truly s ops)
    (hb : (content (after s ops))[i]? = some b) : WrittenIn s ops i b := by
  refine (byte_cases truly hb).resolve_left fun there => ?_
  rw [empty] at there
  cases there.1

namespace Bytes

instance : AppendingSink Bytes where
  write_cases s bytes := .inl ⟨_, s ++ bytes, rfl, rfl⟩
  close_cases _ := .inl rfl

theorem truly (s : Bytes) (op : Operation) : Truly s op := by
  cases op with
  | restore place =>
    by_cases inside : place ≤ s.length
    · exact .inl ⟨s.take place, if_pos inside, inside, rfl⟩
    · exact .inr ⟨.pastEnd place s.length, if_neg inside⟩
  | _ => trivial

/-- Nothing that was taken away from bytes comes back, whatever positions they are restored to. -/
theorem byte_written {ops : List Operation} {i : Nat} {b : UInt8} (hb : (after ([] : Bytes) ops)[i]? = some b) :
    WrittenIn ([] : Bytes) ops i b :=
  TextGrammar.byte_written rfl (throughout_of_forall truly _ _) hb

end Bytes

namespace TextSink

theorem takeBytes?_eq_some {cs xs : List Char} {n : Nat} (h : takeBytes? cs n = some xs) :
    n ≤ (Utf8.encode cs).length ∧ Utf8.encode xs = (Utf8.encode cs).take n := by
  fun_induction takeBytes? cs n generalizing xs with
  | case1 cs =>
    cases h
    exact ⟨Nat.zero_le _, rfl⟩
  | case2 n => cases h
  | case3 c cs n positive fits ih =>
    obtain ⟨ys, hy, rfl⟩ := Option.map_eq_some_iff.1 h
    obtain ⟨inside, cut⟩ := ih hy
    have first := String.length_utf8EncodeChar c
    have whole : (String.utf8EncodeChar c).take n = String.utf8EncodeChar c := List.take_of_length_le (by omega)
    rw [Utf8.encode_cons, Utf8.encode_cons, List.length_append, List.take_append, whole, cut, first]
    exact ⟨by omega, rfl⟩
  | case4 c cs n positive short => cases h

theorem write_eq (s : TextSink) (bytes : Bytes) : Sink.write s bytes = match Utf8.decode bytes with
    | .ok cs => (.ok bytes.length, ⟨s.chars ++ cs⟩)
    | .error fault => (.error (.notUtf8 fault), s) := rfl

theorem restore_to (s : TextSink) (place : Nat) : Sink.restore s place = match takeBytes? s.chars place with
    | some cs => (.ok (), ⟨cs⟩)
    | none => (.error (.pastEnd place s.bytes.length), s) := rfl

instance : AppendingSink TextSink where
  write_cases s bytes := by
    rw [write_eq]
    cases hd : Utf8.decode bytes with
    | ok cs =>
      refine .inl ⟨_, _, rfl, ?_⟩
      change Utf8.encode (s.chars ++ cs) = Utf8.encode s.chars ++ bytes
      rw [Utf8.encode_append, Utf8.encode_decode hd]
    | error fault => exact .inr ⟨_, rfl⟩
  close_cases _ := .inl rfl

theorem truly (s : TextSink) (op : Operation) : Truly s op := by
  cases op with
  | restore place =>
    rw [Truly, restore_to]
    cases ht : takeBytes? s.chars place with
    | some cs =>
      obtain ⟨inside, cut⟩ := takeBytes?_eq_some ht
      exact .inl ⟨⟨cs⟩, rfl, inside, cut⟩
    | none => exact .inr ⟨_, rfl⟩
  | _ => trivial

theorem byte_written {ops : List Operation} {i : Nat} {b : UInt8}
    (hb : (after (⟨[]⟩ : TextSink) ops).bytes[i]? = some b) : WrittenIn (⟨[]⟩ : TextSink) ops i b :=
  TextGrammar.byte_written rfl (throughout_of_forall truly _ _) hb

end TextSink

end TextGrammar
