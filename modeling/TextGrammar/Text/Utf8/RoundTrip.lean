import TextGrammar.Text.Utf8
set_option autoImplicit false

namespace TextGrammar.Utf8

theorem toNat_ofNat_of_lt {n : Nat} (h : n < 256) : (UInt8.ofNat n).toNat = n := by
  rw [UInt8.toNat_ofNat']
  exact Nat.mod_eq_of_lt h

theorem lead_two {v : Nat} (h : 0x80 ≤ v) (h' : v ≤ 0x7FF) : lead (v / 64 % 32 + 192) = some ⟨1, 0x80, 0xBF⟩ := by
  unfold lead
  rw [if_pos (by omega)]

theorem lead_three {v : Nat} (h : 0x800 ≤ v) (h' : v ≤ 0xFFFF) (hs : v < 0xD800 ∨ 0xDFFF < v) :
    ∃ l, lead (v / 4096 % 16 + 224) = some l ∧ l.more = 2 ∧
      l.low ≤ v / 64 % 64 + 128 ∧ v / 64 % 64 + 128 ≤ l.high := by
  unfold lead
  rw [if_neg (by omega)]
  split
  · exact ⟨_, rfl, rfl, by simp only []; omega, by simp only []; omega⟩
  split
  · exact ⟨_, rfl, rfl, by simp only []; omega, by simp only []; omega⟩
  rw [if_pos (by omega)]
  exact ⟨_, rfl, rfl, by simp only []; omega, by simp only []; omega⟩

theorem lead_four {v : Nat} (h : 0x10000 ≤ v) (h' : v ≤ 0x10FFFF) :
    ∃ l, lead (v / 262144 % 8 + 240) = some l ∧ l.more = 3 ∧
      l.low ≤ v / 4096 % 64 + 128 ∧ v / 4096 % 64 + 128 ≤ l.high := by
  unfold lead
  rw [if_neg (by omega), if_neg (by omega), if_neg (by omega), if_neg (by omega)]
  split
  · exact ⟨_, rfl, rfl, by simp only []; omega, by simp only []; omega⟩
  split
  · exact ⟨_, rfl, rfl, by simp only []; omega, by simp only []; omega⟩
  rw [if_pos (by omega)]
  exact ⟨_, rfl, rfl, by simp only []; omega, by simp only []; omega⟩

theorem isTail_low (n : Nat) : isTail (n % 64 + 128) = true := by
  unfold isTail
  simp only [Bool.and_eq_true, decide_eq_true_eq]
  omega

theorem decodeFrom_encodeChar (c : Char) (start : Nat) (s : Bytes) :
    decodeFrom start (String.utf8EncodeChar c ++ s) = push c.toNat (decodeFrom (start + c.utf8Size) s) := by
  have hv : c.toNat < 0xD800 ∨ (0xDFFF < c.toNat ∧ c.toNat < 0x110000) := c.valid
  generalize hn : c.toNat = v at hv
  have hval : c.val.toNat = v := hn
  have hsize : c.utf8Size = if v ≤ 0x7F then 1 else if v ≤ 0x7FF then 2 else if v ≤ 0xFFFF then 3 else 4 := by
    subst hn
    simp only [Char.utf8Size, UInt32.le_iff_toNat_le, Char.toNat]
    rfl
  rw [hsize]
  unfold String.utf8EncodeChar
  simp only [hval]
  by_cases h1 : v ≤ 0x7F
  · rw [if_pos h1, if_pos h1, List.cons_append, List.nil_append, decodeFrom.eq_def]
    simp only []
    rw [
      toNat_ofNat_of_lt (by omega), if_pos (by omega)]
  rw [if_neg h1, if_neg h1]
  by_cases h2 : v ≤ 0x7FF
  · rw [if_pos h2, if_pos h2]
    simp only [List.cons_append, List.nil_append]
    rw [decodeFrom.eq_def]
    simp only []
    rw [toNat_ofNat_of_lt (by omega), if_neg (by omega), lead_two (by omega) h2]
    simp only [toNat_ofNat_of_lt (show v % 64 + 128 < 256 by omega), if_true]
    rw [if_neg (by omega)]
    congr 1
    omega
  rw [if_neg h2, if_neg h2]
  by_cases h3 : v ≤ 0xFFFF
  · rw [if_pos h3, if_pos h3]
    simp only [List.cons_append, List.nil_append]
    obtain ⟨l, hl, hm, hlow, hhigh⟩ := lead_three (v := v) (by omega) h3 (by omega)
    rw [decodeFrom.eq_def]
    simp only []
    rw [toNat_ofNat_of_lt (by omega), if_neg (by omega), hl]
    simp only [toNat_ofNat_of_lt (show v / 64 % 64 + 128 < 256 by omega),
      toNat_ofNat_of_lt (show v % 64 + 128 < 256 by omega), isTail_low, hm]
    rw [if_neg (by omega), if_neg (by omega), if_neg (by decide), if_pos trivial]
    congr 1
    omega
  rw [if_neg h3, if_neg h3]
  obtain ⟨l, hl, hm, hlow, hhigh⟩ := lead_four (v := v) (by omega) (by omega)
  simp only [List.cons_append, List.nil_append]
  rw [decodeFrom.eq_def]
  simp only []
  rw [toNat_ofNat_of_lt (by omega), if_neg (by omega), hl]
  simp only [toNat_ofNat_of_lt (show v / 4096 % 64 + 128 < 256 by omega),
    toNat_ofNat_of_lt (show v / 64 % 64 + 128 < 256 by omega),
    toNat_ofNat_of_lt (show v % 64 + 128 < 256 by omega), isTail_low, hm]
  rw [if_neg (by omega), if_neg (by omega), if_neg (by decide), if_neg (by decide), if_neg (by decide)]
  congr 1
  omega

theorem push_toNat (c : Char) (r : Except Fault (List Char)) : push c.toNat r = r.map (c :: ·) := by
  unfold push
  rw [Char.ofNat_toNat]

theorem decodeFrom_encode (cs : List Char) (start : Nat) : decodeFrom start (encode cs) = .ok cs := by
  induction cs generalizing start with
  | nil => rfl
  | cons c cs ih =>
    rw [encode_cons, decodeFrom_encodeChar, push_toNat, ih]
    rfl

/-- What is written as bytes is read back. -/
theorem decode_encode (cs : List Char) : decode (encode cs) = .ok cs := decodeFrom_encode cs 0

theorem toString?_ofString (s : String) : toString? (ofString s) = some s := by
  rw [toString?, ofString, decode_encode]
  exact congrArg some String.ofList_toList

theorem encodeChar_ofNat {v : Nat} (h : v < 0xD800 ∨ 0xDFFF < v ∧ v < 0x110000) : String.utf8EncodeChar (Char.ofNat v) =
    if v ≤ 0x7F then [UInt8.ofNat v]
    else if v ≤ 0x7FF then [UInt8.ofNat (v / 64 % 32 + 192), UInt8.ofNat (v % 64 + 128)]
    else if v ≤ 0xFFFF then
      [UInt8.ofNat (v / 4096 % 16 + 224), UInt8.ofNat (v / 64 % 64 + 128), UInt8.ofNat (v % 64 + 128)]
    else [UInt8.ofNat (v / 262144 % 8 + 240), UInt8.ofNat (v / 4096 % 64 + 128), UInt8.ofNat (v / 64 % 64 + 128),
      UInt8.ofNat (v % 64 + 128)] := by
  have value : (Char.ofNat v).val.toNat = v := by
    rw [Char.ofNat, dif_pos h]
    rfl
  simp only [String.utf8EncodeChar, value]

theorem ofNat_eq {n : Nat} {a : UInt8} (h : n = a.toNat) : UInt8.ofNat n = a := by
  rw [h, UInt8.ofNat_toNat]

theorem lead_range {a b : Nat} {l : Lead} (h : lead a = some l) (hb : ¬(b < l.low ∨ l.high < b)) :
    (0x80 ≤ b ∧ b ≤ 0xBF) ∧ ((l.more = 1 ∧ 0xC2 ≤ a ∧ a ≤ 0xDF) ∨
      (l.more = 2 ∧ 0xE0 ≤ a ∧ a ≤ 0xEF ∧ (a = 0xE0 → 0xA0 ≤ b) ∧ (a = 0xED → b ≤ 0x9F)) ∨
      (l.more = 3 ∧ 0xF0 ≤ a ∧ a ≤ 0xF4 ∧ (a = 0xF0 → 0x90 ≤ b) ∧ (a = 0xF4 → b ≤ 0x8F))) := by
  unfold lead at h
  repeat' split at h
  all_goals cases h
  all_goals dsimp only at hb ⊢
  all_goals omega

theorem isTail_range {c : Nat} (h : isTail c = true) : 0x80 ≤ c ∧ c ≤ 0xBF := by
  simpa [isTail] using h

theorem encode_push {v : Nat} {rest : Bytes} {r : Except Fault (List Char)} {cs : List Char}
    (bytes : Bytes) (h : push v r = .ok cs) (ih : ∀ {ds}, r = .ok ds → encode ds = rest)
    (first : String.utf8EncodeChar (Char.ofNat v) = bytes) : encode cs = bytes ++ rest := by
  cases r with
  | error fault => cases h
  | ok ds =>
    cases h
    rw [encode_cons, first, ih rfl]

theorem encode_decodeFrom {start : Nat} {bytes : Bytes} {cs : List Char} (h : decodeFrom start bytes = .ok cs) :
    encode cs = bytes := by
  fun_induction decodeFrom start bytes generalizing cs with
  | case1 start =>
    cases h
    rfl
  | case2 start a s small ih =>
    refine encode_push [a] h ih ?_
    rw [encodeChar_ofNat (by omega), if_pos (by omega), ofNat_eq rfl]
  | case6 start a large l b s known inside one ih =>
    obtain ⟨tail, range⟩ := lead_range known inside
    refine encode_push [a, b] h ih ?_
    rw [encodeChar_ofNat (by omega), if_neg (by omega), if_pos (by omega), ofNat_eq (a := a) (by omega),
      ofNat_eq (a := b) (by omega)]
  | case9 start a large l b known inside more c s follows two ih =>
    obtain ⟨tail, range⟩ := lead_range known inside
    have tail' := isTail_range (c := c.toNat) (by simpa using follows)
    refine encode_push [a, b, c] h ih ?_
    rw [encodeChar_ofNat (by omega), if_neg (by omega), if_neg (by omega), if_pos (by omega),
      ofNat_eq (a := a) (by omega), ofNat_eq (a := b) (by omega), ofNat_eq (a := c) (by omega)]
  | case12 start a large l b known inside more c follows most d s last ih =>
    obtain ⟨tail, range⟩ := lead_range known inside
    have tail' := isTail_range (c := c.toNat) (by simpa using follows)
    have tail'' := isTail_range (c := d.toNat) (by simpa using last)
    refine encode_push [a, b, c, d] h ih ?_
    rw [encodeChar_ofNat (by omega), if_neg (by omega), if_neg (by omega), if_neg (by omega),
      ofNat_eq (a := a) (by omega), ofNat_eq (a := b) (by omega), ofNat_eq (a := c) (by omega),
      ofNat_eq (a := d) (by omega)]
  | _ => cases h

/-- What was read as characters is written as the same bytes. -/
theorem encode_decode {bytes : Bytes} {cs : List Char} (h : decode bytes = .ok cs) : encode cs = bytes :=
  encode_decodeFrom h

end TextGrammar.Utf8
