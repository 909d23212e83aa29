import Subsurface.Archive.Utf8
import Mathlib.Algebra.Group.Nat.Defs
import Mathlib.Tactic.SplitIfs
/-!
Decoding reads back what encoding wrote.

The bytes of a text are the UTF-8 encodings of its characters one after the
other (`encode_eq`). The decoder reads each of them back
(`decodeFrom_encodeChar`): the lead byte of an encoding gives its width, the
bytes after it are continuation bytes, and a character of the standard is
never an overlong form, a surrogate or above U+10FFFF, so the checks on the
second byte of three- and four-byte forms pass. Hence
`decode (encode s) = .ok s` for every text.
-/

namespace Subsurface.Utf8

/-! ## Bytes as numbers -/

theorem isContinuation_iff {b : UInt8} : isContinuation b = true ↔ b.toNat / 64 = 2 := by
  have hb := b.toNat_lt
  -- the mask keeps the two high bits of a byte
  have key : ∀ n < 256, (n &&& 192 = 128 ↔ n / 64 = 2) := by decide +kernel
  simp only [isContinuation, beq_iff_eq, ← UInt8.toNat_inj, UInt8.toNat_and]
  exact key _ hb

theorem low_eq (b : UInt8) : low b = b.toNat % 64 := by
  simp only [low, UInt8.toNat_and]
  exact Nat.and_two_pow_sub_one_eq_mod b.toNat 6

theorem toNat_and_low {b m : UInt8} {k : Nat} (hm : m.toNat = 2 ^ k - 1) :
    (b &&& m).toNat = b.toNat % 2 ^ k := by
  rw [UInt8.toNat_and, hm, Nat.and_two_pow_sub_one_eq_mod]

theorem toNat_ofNat_of_lt {n : Nat} (h : n < 256) : (UInt8.ofNat n).toNat = n := by
  simp [Nat.mod_eq_of_lt h]

theorem width_eq (b : UInt8) : width b =
    if b.toNat < 0x80 then 1 else if b.toNat < 0xC2 then 0 else if b.toNat < 0xE0 then 2
    else if b.toNat < 0xF0 then 3 else if b.toNat < 0xF5 then 4 else 0 := by
  simp only [width, UInt8.lt_iff_toNat_lt]
  rfl

/-- A continuation byte passes the check on the second byte when it keeps
to the narrower ranges the four special lead bytes ask for. -/
theorem secondAllowed_of {lead b : UInt8} (hb : b.toNat / 64 = 2)
    (hE0 : lead.toNat = 0xE0 → 0xA0 ≤ b.toNat) (hED : lead.toNat = 0xED → b.toNat ≤ 0x9F)
    (hF0 : lead.toNat = 0xF0 → 0x90 ≤ b.toNat) (hF4 : lead.toNat = 0xF4 → b.toNat ≤ 0x8F) :
    secondAllowed lead b = true := by
  unfold secondAllowed
  simp only [beq_iff_eq, ← UInt8.toNat_inj, UInt8.le_iff_toNat_le, UInt8.reduceToNat]
  split_ifs with h1 h2 h3 h4
  · simp only [Bool.and_eq_true, decide_eq_true_eq]
    exact ⟨hE0 h1, by omega⟩
  · simp only [Bool.and_eq_true, decide_eq_true_eq]
    exact ⟨by omega, hED h2⟩
  · simp only [Bool.and_eq_true, decide_eq_true_eq]
    exact ⟨hF0 h3, by omega⟩
  · simp only [Bool.and_eq_true, decide_eq_true_eq]
    exact ⟨by omega, hF4 h4⟩
  · exact isContinuation_iff.2 hb

/-! ## One character -/

section Char

variable (c : Char) (offset : Nat) (acc : Array Char) (rest : List UInt8)

theorem decodeFrom_one (hv : c.toNat ≤ 0x7f) :
    decodeFrom offset acc (UInt8.ofNat c.toNat :: rest) =
      decodeFrom (offset + 1) (acc.push c) rest := by
  have hb : (UInt8.ofNat c.toNat).toNat = c.toNat := toNat_ofNat_of_lt (by omega)
  have hw : width (UInt8.ofNat c.toNat) = 1 := by rw [width_eq, hb, if_pos (by omega)]
  rw [decodeFrom.eq_def]
  simp only [hw, if_pos, hb, Char.ofNat_toNat]

theorem decodeFrom_two (h1 : 0x7f < c.toNat) (h2 : c.toNat ≤ 0x7ff) :
    decodeFrom offset acc (UInt8.ofNat (c.toNat / 64 % 0x20 + 0xc0) ::
      UInt8.ofNat (c.toNat % 0x40 + 0x80) :: rest) = decodeFrom (offset + 2) (acc.push c) rest := by
  have hb : (UInt8.ofNat (c.toNat / 64 % 0x20 + 0xc0)).toNat = c.toNat / 64 % 0x20 + 0xc0 :=
    toNat_ofNat_of_lt (by omega)
  have hc : (UInt8.ofNat (c.toNat % 0x40 + 0x80)).toNat = c.toNat % 0x40 + 0x80 :=
    toNat_ofNat_of_lt (by omega)
  have hw : width (UInt8.ofNat (c.toNat / 64 % 0x20 + 0xc0)) = 2 := by
    rw [width_eq, hb, if_neg (by omega), if_neg (by omega), if_pos (by omega)]
  have hcont : isContinuation (UInt8.ofNat (c.toNat % 0x40 + 0x80)) = true :=
    isContinuation_iff.2 (by rw [hc]; omega)
  have hv : (UInt8.ofNat (c.toNat / 64 % 0x20 + 0xc0) &&& 31).toNat * 64 +
      low (UInt8.ofNat (c.toNat % 0x40 + 0x80)) = c.toNat := by
    rw [low_eq, hc, toNat_and_low (k := 5) rfl, hb]
    omega
  rw [decodeFrom.eq_def]
  simp only [hw, hcont, hv, Char.ofNat_toNat]
  rfl

theorem decodeFrom_three (h1 : 0x7ff < c.toNat) (h2 : c.toNat ≤ 0xffff) :
    decodeFrom offset acc (UInt8.ofNat (c.toNat / 4096 % 0x10 + 0xe0) ::
      UInt8.ofNat (c.toNat / 64 % 0x40 + 0x80) :: UInt8.ofNat (c.toNat % 0x40 + 0x80) :: rest) =
      decodeFrom (offset + 3) (acc.push c) rest := by
  -- a character is no surrogate
  have hs : c.toNat < 0xd800 ∨ 0xdfff < c.toNat := by
    have := c.valid
    simp only [UInt32.isValidChar, Nat.isValidChar] at this
    unfold Char.toNat
    omega
  have hb : (UInt8.ofNat (c.toNat / 4096 % 0x10 + 0xe0)).toNat = c.toNat / 4096 % 0x10 + 0xe0 :=
    toNat_ofNat_of_lt (by omega)
  have hc : (UInt8.ofNat (c.toNat / 64 % 0x40 + 0x80)).toNat = c.toNat / 64 % 0x40 + 0x80 :=
    toNat_ofNat_of_lt (by omega)
  have hd : (UInt8.ofNat (c.toNat % 0x40 + 0x80)).toNat = c.toNat % 0x40 + 0x80 :=
    toNat_ofNat_of_lt (by omega)
  have hw : width (UInt8.ofNat (c.toNat / 4096 % 0x10 + 0xe0)) = 3 := by
    rw [width_eq, hb, if_neg (by omega), if_neg (by omega), if_neg (by omega), if_pos (by omega)]
  have hsecond : secondAllowed (UInt8.ofNat (c.toNat / 4096 % 0x10 + 0xe0))
      (UInt8.ofNat (c.toNat / 64 % 0x40 + 0x80)) = true := by
    refine secondAllowed_of ?_ ?_ ?_ ?_ ?_ <;> rw [hc] <;> (try rw [hb]) <;> omega
  have hcont : isContinuation (UInt8.ofNat (c.toNat % 0x40 + 0x80)) = true :=
    isContinuation_iff.2 (by rw [hd]; omega)
  have hv : (UInt8.ofNat (c.toNat / 4096 % 0x10 + 0xe0) &&& 15).toNat * 4096 +
      low (UInt8.ofNat (c.toNat / 64 % 0x40 + 0x80)) * 64 +
      low (UInt8.ofNat (c.toNat % 0x40 + 0x80)) = c.toNat := by
    rw [low_eq, low_eq, hc, hd, toNat_and_low (k := 4) rfl, hb]
    omega
  rw [decodeFrom.eq_def]
  simp only [hw, hsecond, hcont, hv, Char.ofNat_toNat]
  rfl

theorem decodeFrom_four (h1 : 0xffff < c.toNat) :
    decodeFrom offset acc (UInt8.ofNat (c.toNat / 262144 % 0x08 + 0xf0) ::
      UInt8.ofNat (c.toNat / 4096 % 0x40 + 0x80) :: UInt8.ofNat (c.toNat / 64 % 0x40 + 0x80) ::
      UInt8.ofNat (c.toNat % 0x40 + 0x80) :: rest) =
      decodeFrom (offset + 4) (acc.push c) rest := by
  -- a character is at most U+10FFFF
  have hmax : c.toNat < 0x110000 := by
    have := c.valid
    simp only [UInt32.isValidChar, Nat.isValidChar] at this
    unfold Char.toNat
    omega
  have hb : (UInt8.ofNat (c.toNat / 262144 % 0x08 + 0xf0)).toNat =
      c.toNat / 262144 % 0x08 + 0xf0 := toNat_ofNat_of_lt (by omega)
  have hc : (UInt8.ofNat (c.toNat / 4096 % 0x40 + 0x80)).toNat = c.toNat / 4096 % 0x40 + 0x80 :=
    toNat_ofNat_of_lt (by omega)
  have hd : (UInt8.ofNat (c.toNat / 64 % 0x40 + 0x80)).toNat = c.toNat / 64 % 0x40 + 0x80 :=
    toNat_ofNat_of_lt (by omega)
  have he : (UInt8.ofNat (c.toNat % 0x40 + 0x80)).toNat = c.toNat % 0x40 + 0x80 :=
    toNat_ofNat_of_lt (by omega)
  have hw : width (UInt8.ofNat (c.toNat / 262144 % 0x08 + 0xf0)) = 4 := by
    rw [width_eq, hb, if_neg (by omega), if_neg (by omega), if_neg (by omega), if_neg (by omega),
      if_pos (by omega)]
  have hsecond : secondAllowed (UInt8.ofNat (c.toNat / 262144 % 0x08 + 0xf0))
      (UInt8.ofNat (c.toNat / 4096 % 0x40 + 0x80)) = true := by
    refine secondAllowed_of ?_ ?_ ?_ ?_ ?_ <;> rw [hc] <;> (try rw [hb]) <;> omega
  have hcont : isContinuation (UInt8.ofNat (c.toNat / 64 % 0x40 + 0x80)) = true :=
    isContinuation_iff.2 (by rw [hd]; omega)
  have hcont' : isContinuation (UInt8.ofNat (c.toNat % 0x40 + 0x80)) = true :=
    isContinuation_iff.2 (by rw [he]; omega)
  have hv : (UInt8.ofNat (c.toNat / 262144 % 0x08 + 0xf0) &&& 7).toNat * 262144 +
      low (UInt8.ofNat (c.toNat / 4096 % 0x40 + 0x80)) * 4096 +
      low (UInt8.ofNat (c.toNat / 64 % 0x40 + 0x80)) * 64 +
      low (UInt8.ofNat (c.toNat % 0x40 + 0x80)) = c.toNat := by
    rw [low_eq, low_eq, low_eq, hc, hd, he, toNat_and_low (k := 3) rfl, hb]
    omega
  rw [decodeFrom.eq_def]
  simp only [hw, hsecond, hcont, hcont', hv, Char.ofNat_toNat]
  rfl

/-- The decoder reads a character back from its encoding. -/
theorem decodeFrom_encodeChar :
    decodeFrom offset acc (String.utf8EncodeChar c ++ rest) =
      decodeFrom (offset + (String.utf8EncodeChar c).length) (acc.push c) rest := by
  -- the four widths of the standard, in the order the encoder tries them
  unfold String.utf8EncodeChar
  dsimp only
  split_ifs with h1 h2 h3
  · exact decodeFrom_one c offset acc rest h1
  · exact decodeFrom_two c offset acc rest (by unfold Char.toNat; omega) h2
  · exact decodeFrom_three c offset acc rest (by unfold Char.toNat; omega) h3
  · exact decodeFrom_four c offset acc rest (by unfold Char.toNat; omega)

end Char

/-! ## Texts -/

theorem toList_loop (bs : ByteArray) (i : Nat) (r : List UInt8) :
    ByteArray.toList.loop bs i r = r.reverse ++ bs.data.toList.drop i := by
  induction i, r using ByteArray.toList.loop.induct bs with
  | case1 i r hi ih =>
    rw [ByteArray.toList.loop, if_pos hi, ih]
    have hi' : i < bs.data.toList.length := by simpa using hi
    rw [List.drop_eq_getElem_cons hi']
    simp [ByteArray.get!, hi]
  | case2 i r hi =>
    rw [ByteArray.toList.loop, if_neg hi,
      List.drop_eq_nil_of_le (by simpa using Nat.le_of_not_lt hi), List.append_nil]

/-- The bytes of a text are the encodings of its characters. -/
theorem encode_eq (s : String) : encode s = s.toList.flatMap String.utf8EncodeChar := by
  rw [encode, String.toUTF8_eq_toByteArray, ← String.utf8Encode_toList, List.utf8Encode,
    ByteArray.toList, toList_loop, List.toList_data_toByteArray]
  rfl

theorem decodeFrom_flatMap (cs : List Char) (offset : Nat) (acc : Array Char) :
    ∃ n, decodeFrom offset acc (cs.flatMap String.utf8EncodeChar) = decodeFrom n (acc ++ cs.toArray) [] := by
  induction cs generalizing offset acc with
  | nil => exact ⟨offset, by simp⟩
  | cons c cs ih =>
    obtain ⟨n, hn⟩ := ih (offset + (String.utf8EncodeChar c).length) (acc.push c)
    refine ⟨n, ?_⟩
    rw [List.flatMap_cons, decodeFrom_encodeChar, hn]
    simp

theorem decode_encode (s : String) : decode (encode s) = .ok s := by
  obtain ⟨n, hn⟩ := decodeFrom_flatMap s.toList 0 #[]
  rw [decode, encode_eq, hn, decodeFrom.eq_def]
  simp [Except.map, String.ofList_toList]

end Subsurface.Utf8
