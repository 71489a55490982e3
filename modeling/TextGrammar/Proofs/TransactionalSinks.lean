import TextGrammar.Output.Limited
import TextGrammar.Output.Memory
import TextGrammar.Output.Writer
import TextGrammar.Text.Utf8.RoundTrip
set_option autoImplicit false

namespace TextGrammar

theorem Utf8.ofString_append (s t : String) : ofString (s ++ t) = ofString s ++ ofString t := by
  rw [ofString, String.toList_append, encode_append, ofString, ofString]

class TransactionalSink (σ : Type) [Sink σ] where
  content : σ → Bytes
  position_eq (s : σ) : Sink.position s = (content s).length
  content_write {s s' : σ} {text : String} {n : Nat} (h : Sink.write s (Utf8.ofString text) = (.ok n, s')) :
    content s' = content s ++ Utf8.ofString text
  restore_eq {earlier now : σ} {text : String} (h : content now = content earlier ++ Utf8.ofString text) :
    ∃ s, Sink.restore now (Sink.position earlier) = (.ok (), s) ∧ content s = content earlier
  writtenSince_eq {earlier now : σ} {text : String} (h : content now = content earlier ++ Utf8.ofString text) :
    Sink.writtenSince now (Sink.position earlier) = some (Utf8.ofString text)

open TransactionalSink

theorem bytesFrom?_append (bytes more : Bytes) : bytesFrom? (bytes ++ more) bytes.length = some more := by
  rw [bytesFrom?, if_pos (by rw [List.length_append]; omega), List.drop_left]

instance : TransactionalSink Bytes where
  content s := s
  position_eq _ := rfl
  content_write h := by
    cases h
    rfl
  restore_eq {earlier now text} h := by
    refine ⟨earlier, ?_, rfl⟩
    change (if earlier.length ≤ now.length then (Except.ok (), now.take earlier.length) else _) = _
    rw [h, if_pos (by rw [List.length_append]; omega), List.take_left]
  writtenSince_eq {earlier now text} h := by
    change bytesFrom? now earlier.length = _
    rw [h, bytesFrom?_append]

namespace TextSink

theorem takeBytes?_append (xs ys : List Char) : takeBytes? (xs ++ ys) (Utf8.encode xs).length = some xs := by
  induction xs with
  | nil => cases ys <;> rfl
  | cons c cs ih =>
    have pos := c.utf8Size_pos
    rw [Utf8.encode_cons, List.length_append, String.length_utf8EncodeChar, List.cons_append, takeBytes?,
      if_pos (Nat.le_add_right _ _), Nat.add_sub_cancel_left, ih]
    · rfl
    · omega

/-- Bytes that continue a text by a text continue its characters. -/
theorem chars_of_bytes {earlier now : TextSink} {text : String} (h : now.bytes = earlier.bytes ++ Utf8.ofString text) :
    now.chars = earlier.chars ++ text.toList := by
  rw [bytes, bytes, Utf8.ofString, ← Utf8.encode_append] at h
  have decoded := congrArg Utf8.decode h
  rw [Utf8.decode_encode, Utf8.decode_encode] at decoded
  exact Except.ok.inj decoded

instance : TransactionalSink TextSink where
  content := bytes
  position_eq _ := rfl
  content_write {s s' text n} h := by
    change (match Utf8.decode (Utf8.encode text.toList) with
      | .ok cs => (Except.ok _, (⟨s.chars ++ cs⟩ : TextSink))
      | .error fault => (.error (OutputFault.notUtf8 fault), s)) = _ at h
    rw [Utf8.decode_encode] at h
    cases h
    exact Utf8.encode_append _ _
  restore_eq {earlier now text} h := by
    refine ⟨earlier, ?_, rfl⟩
    change (match takeBytes? now.chars (Utf8.encode earlier.chars).length with
      | some cs => (Except.ok (), (⟨cs⟩ : TextSink))
      | none => _) = _
    rw [chars_of_bytes h, takeBytes?_append]
  writtenSince_eq {earlier now text} h := by
    change bytesFrom? now.bytes earlier.bytes.length = _
    rw [h, bytesFrom?_append]

end TextSink

namespace Buffered

variable {ω : Type} [Writer ω]

omit [Writer ω] in
theorem length_bytes (s : Buffered ω) : s.bytes.length = s.position := by
  rw [bytes, List.length_take, Nat.min_eq_left s.within]

omit [Writer ω] in
theorem position_le {earlier now : Buffered ω} {more : Bytes} (h : now.bytes = earlier.bytes ++ more) :
    earlier.position ≤ now.position := by
  rw [← length_bytes, ← length_bytes, h, List.length_append]
  omega

instance : TransactionalSink (Buffered ω) where
  content := bytes
  position_eq s := s.length_bytes.symm
  content_write {s s' text n} h := by
    cases h
    change ((s.bytes ++ _) ++ _).take _ = _
    exact List.take_left' (by rw [List.length_append, length_bytes]; rfl)
  restore_eq {earlier now text} h := by
    have le := position_le h
    have within := Nat.le_trans le now.within
    refine ⟨⟨now.inner, now.buffer, earlier.position, within⟩, dif_pos within, ?_⟩
    have cut := congrArg (List.take earlier.position) h
    rwa [bytes, List.take_take, Nat.min_eq_left le, List.take_left' earlier.length_bytes] at cut
  writtenSince_eq {earlier now text} h := by
    change (if earlier.position ≤ now.position then some (now.bytes.drop earlier.position) else none) = _
    rw [if_pos (position_le h), h, List.drop_left' earlier.length_bytes]

end Buffered

namespace Limited

variable {σ : Type} [Sink σ] [TransactionalSink σ]

instance : TransactionalSink (Limited σ) where
  content s := content s.inner
  position_eq s := position_eq s.inner
  content_write {s s' text n} h := by
    change s.write _ = _ at h
    rw [write] at h
    split at h
    · cases h
    · rcases hw : Sink.write s.inner (Utf8.ofString text) with ⟨result, inner⟩
      rw [hw] at h
      cases h
      exact content_write hw
  restore_eq {earlier now text} h := by
    obtain ⟨inner, hr, hc⟩ := @restore_eq σ _ _ earlier.inner now.inner text h
    refine ⟨⟨inner, now.limit⟩, ?_, hc⟩
    change (let (result, inner) := Sink.restore now.inner (Sink.position earlier.inner)
      (result, (⟨inner, now.limit⟩ : Limited σ))) = _
    rw [hr]
  writtenSince_eq {earlier now text} h := @writtenSince_eq σ _ _ earlier.inner now.inner text h

end Limited

variable {σ : Type} [Sink σ] [TransactionalSink σ] {s u v : σ}

/-- Nothing but text has been appended since. -/
def Extends (earlier now : σ) : Prop := ∃ text, content now = content earlier ++ Utf8.ofString text

theorem Extends.of_eq (h : content u = content s) : Extends s u := ⟨"", h.trans (List.append_nil _).symm⟩

theorem Extends.refl (s : σ) : Extends s s := .of_eq rfl

theorem Extends.trans (h : Extends s u) (h' : Extends u v) : Extends s v := by
  obtain ⟨text, ht⟩ := h
  obtain ⟨more, hm⟩ := h'
  exact ⟨text ++ more, by rw [hm, ht, Utf8.ofString_append, List.append_assoc]⟩

theorem Extends.position_le (h : Extends s u) : Sink.position s ≤ Sink.position u := by
  obtain ⟨text, ht⟩ := h
  rw [position_eq, position_eq, ht, List.length_append]
  omega

theorem Extends.content_eq (h : Extends s u) : content s = (content u).take (Sink.position s) := by
  obtain ⟨text, ht⟩ := h
  rw [ht, position_eq, List.take_left]

end TextGrammar
