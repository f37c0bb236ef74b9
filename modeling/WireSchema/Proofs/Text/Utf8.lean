import WireSchema.Text.Utf8

/-!
# Text comes back from its bytes

The bytes of a character begin with one that tells how many follow. So characters are read back one
by one from the bytes of a text.

## Main results

* `decodeUtf8_encodeUtf8`: the bytes of a text hold that text.
-/

namespace WireSchema.Text

theorem toNat_byte {n : Nat} (small : n < 256) : (UInt8.ofNat n).toNat = n := by
  rw [UInt8.toNat_ofNat', Nat.mod_eq_of_lt small]

theorem continuation_byte {x : Nat} (small : x < 64) :
    continuation (UInt8.ofNat (x + 128)) = some x := by
  unfold continuation
  rw [toNat_byte (by omega), if_pos (by omega)]
  simp

/-- A second byte within the bounds of its leader carries six bits as well. -/
theorem secondByte_byte {lead x : Nat} (small : x < 64) (low : (secondBounds lead).1 ≤ x + 128)
    (high : x + 128 ≤ (secondBounds lead).2) :
    secondByte lead (UInt8.ofNat (x + 128)) = some x := by
  unfold secondByte
  rw [toNat_byte (by omega), if_pos ⟨low, high⟩]
  simp

/-- The leader of three bytes leaves out short characters and surrogates. -/
theorem secondBounds_three {n : Nat} (long : 2048 ≤ n) (short : n < 65536)
    (plain : n < 0xd800 ∨ 0xdfff < n) :
    (secondBounds (n / 4096 % 16 + 224)).1 ≤ n / 64 % 64 + 128 ∧
      n / 64 % 64 + 128 ≤ (secondBounds (n / 4096 % 16 + 224)).2 := by
  unfold secondBounds
  split
  · simp only
    omega
  split
  · simp only
    omega
  rw [if_neg (by omega), if_neg (by omega)]
  simp only
  omega

/-- The leader of four bytes leaves out shorter characters and what is above the last one. -/
theorem secondBounds_four {n : Nat} (long : 65536 ≤ n) (last : n < 0x110000) :
    (secondBounds (n / 262144 % 8 + 240)).1 ≤ n / 4096 % 64 + 128 ∧
      n / 4096 % 64 + 128 ≤ (secondBounds (n / 262144 % 8 + 240)).2 := by
  unfold secondBounds
  rw [if_neg (by omega), if_neg (by omega)]
  split
  · simp only
    omega
  split
  · simp only
    omega
  · simp only
    omega

/-- A character is read back from the front of any bytes that begin with its own. -/
theorem decodeChar_encodeChar (c : Char) (index : Nat) (tail : List UInt8) :
    ∃ lead more, String.utf8EncodeChar c = lead :: more ∧
      decodeChar index lead (more ++ tail) = .ok (c, tail, more.length + 1) := by
  have whole : Char.ofNat c.val.toNat = c := Char.ofNat_toNat c
  have plain : c.val.toNat < 0xd800 ∨ 0xdfff < c.val.toNat ∧ c.val.toNat < 0x110000 := c.valid
  rw [String.utf8EncodeChar]
  generalize c.val.toNat = n at whole plain
  -- The four lengths of a character, by its number.
  by_cases one : n ≤ 127
  · refine ⟨_, _, if_pos one, ?_⟩
    simp only [decodeChar, toNat_byte (show n < 256 by omega), if_pos (show n < 0x80 by omega), whole,
      List.nil_append, List.length_nil]
  rw [if_neg one]
  by_cases two : n ≤ 2047
  · refine ⟨_, _, if_pos two, ?_⟩
    have number : (n / 64 % 32 + 192 - 0xc0) * 64 + n % 64 = n := by omega
    simp only [decodeChar, toNat_byte (show n / 64 % 32 + 192 < 256 by omega), List.cons_append,
      List.nil_append, continuation_byte (show n % 64 < 64 by omega), number, whole]
    rw [if_neg (by omega), if_pos (by omega)]
    rfl
  rw [if_neg two]
  by_cases three : n ≤ 65535
  · refine ⟨_, _, if_pos three, ?_⟩
    obtain ⟨low, high⟩ := secondBounds_three (n := n) (by omega) (by omega) (by omega)
    have number : ((n / 4096 % 16 + 224 - 0xe0) * 64 + n / 64 % 64) * 64 + n % 64 = n := by omega
    simp only [decodeChar, toNat_byte (show n / 4096 % 16 + 224 < 256 by omega), List.cons_append,
      List.nil_append, secondByte_byte (show n / 64 % 64 < 64 by omega) low high,
      continuation_byte (show n % 64 < 64 by omega), number, whole]
    rw [if_neg (by omega), if_neg (by omega), if_pos (by omega)]
    rfl
  rw [if_neg three]
  refine ⟨_, _, rfl, ?_⟩
  obtain ⟨low, high⟩ := secondBounds_four (n := n) (by omega) (by omega)
  have number : (((n / 262144 % 8 + 240 - 0xf0) * 64 + n / 4096 % 64) * 64 + n / 64 % 64) * 64 +
      n % 64 = n := by omega
  simp only [decodeChar, toNat_byte (show n / 262144 % 8 + 240 < 256 by omega), List.cons_append,
    List.nil_append, secondByte_byte (show n / 4096 % 64 < 64 by omega) low high,
    continuation_byte (show n / 64 % 64 < 64 by omega),
    continuation_byte (show n % 64 < 64 by omega), number, whole]
  rw [if_neg (by omega), if_neg (by omega), if_neg (by omega), if_pos (by omega)]
  rfl

/-- With a step for each byte all characters are read back. -/
theorem decodeFrom_encode (cs : List Char) {fuel : Nat}
    (enough : (cs.flatMap String.utf8EncodeChar).length ≤ fuel) (index : Nat) :
    decodeFrom fuel index (cs.flatMap String.utf8EncodeChar) = .ok cs := by
  induction cs generalizing fuel index with
  | nil => cases fuel <;> rfl
  | cons c cs ih =>
    obtain ⟨lead, more, bytes, read⟩ :=
      decodeChar_encodeChar c index (cs.flatMap String.utf8EncodeChar)
    rw [List.flatMap_cons, bytes] at enough ⊢
    rw [List.cons_append] at enough ⊢
    cases fuel with
    | zero => cases enough
    | succ fuel =>
      have others : (cs.flatMap String.utf8EncodeChar).length ≤ fuel := by
        rw [List.length_cons, List.length_append] at enough
        omega
      simp only [decodeFrom, read, bind, Except.bind, ih others]
      rfl

/-- The bytes of a text hold that text. -/
theorem decodeUtf8_encodeUtf8 (text : String) : decodeUtf8 (encodeUtf8 text) = .ok text := by
  unfold decodeUtf8 encodeUtf8
  rw [decodeFrom_encode text.toList (Nat.le_refl _)]
  simp [Except.map]

end WireSchema.Text
