import Mathlib.Algebra.Group.Nat.Defs
import WireSchema.Proofs.Wire.Locality
import WireSchema.Wire.Writer

/-!
# Integers on the wire

Reading takes from the front exactly the bytes that were written for an integer and yields that
integer, in either byte order and in groups of seven bits.
-/

namespace WireSchema.Wire

/-! ### Bytes -/

@[simp]
theorem length_split (width n : Nat) : (split width n).length = width := by
  induction width generalizing n with
  | zero => rfl
  | succ width ih => simp [split, ih]

/-- The low bytes of a number hold it, if there are enough of them. -/
theorem combine_split {width n : Nat} (fits : n < 256 ^ width) : combine (split width n) = n := by
  induction width generalizing n with
  | zero =>
    have : n = 0 := by simpa using fits
    simp [split, combine, this]
  | succ width ih =>
    have high : n / 256 < 256 ^ width := by
      rw [Nat.div_lt_iff_lt_mul (by decide)]
      rwa [Nat.pow_succ] at fits
    simp only [split, combine, ih high, UInt8.toNat_ofNat']
    omega

@[simp]
theorem ByteOrder.length_split (order : ByteOrder) (width n : Nat) :
    (order.split width n).length = width := by
  cases order <;> simp [ByteOrder.split]

theorem ByteOrder.combine_split (order : ByteOrder) {width n : Nat} (fits : n < 256 ^ width) :
    order.combine (order.split width n) = n := by
  cases order with
  | big => simp [ByteOrder.combine, ByteOrder.split, Wire.combine_split fits]
  | little => exact Wire.combine_split fits

/-! ### Reading what was written -/

variable {α β : Type} {act : Read α} {used : List UInt8} {a : α}

/-- What is yielded may be turned into something else. -/
theorem Takes.andThen (takes : Takes act used a) (f : α → β) :
    Takes (act >>= fun a => pure (f a)) used (f a) := by
  have both : Takes (act >>= fun a => pure (f a)) (used ++ []) (f a) := takes.bind (takes_pure (f a))
  rwa [List.append_nil] at both

theorem takes_take (bytes : List UInt8) : Takes (take bytes.length) bytes bytes := by
  have ran : (take bytes.length).run ⟨bytes, 0⟩ = (.ok bytes, ⟨[], 0 + bytes.length⟩) := by
    simp [take_run]
  obtain ⟨used, whole, takes⟩ := local_take bytes.length _ _ _ ran
  rw [List.append_nil] at whole
  cases whole
  exact takes

theorem takes_takeNumber (order : ByteOrder) {width n : Nat} (fits : n < 256 ^ width) :
    Takes (takeNumber order width) (order.split width n) n := by
  have bytes := takes_take (order.split width n)
  rw [ByteOrder.length_split] at bytes
  have number := bytes.andThen order.combine
  rwa [order.combine_split fits] at number

theorem takes_takeInt (order : ByteOrder) (kind : IntKind) (b : BitVec kind.bits) :
    Takes (takeInt order kind) (order.split (kind.bits / 8) b.toNat) (.int kind b) := by
  have whole : 2 ^ kind.bits = 256 ^ (kind.bits / 8) := by cases kind <;> rfl
  have fits : b.toNat < 256 ^ (kind.bits / 8) := whole ▸ b.isLt
  have read := (takes_takeNumber order fits).andThen fun n => Value.int kind (.ofNat kind.bits n)
  rwa [BitVec.ofNat_toNat, BitVec.setWidth_eq] at read

theorem takes_lastGroup (limit fuel : Nat) {n : Nat} (small : n < 128) :
    Takes (takeGroups limit (fuel + 1)) [UInt8.ofNat n] n := by
  have byte : Takes (takeNumber .little 1) [UInt8.ofNat n] n :=
    takes_takeNumber .little (by omega)
  have whole : Takes (takeGroups limit (fuel + 1)) ([UInt8.ofNat n] ++ []) n := by
    refine byte.bind ?_
    rw [if_pos small]
    exact takes_pure n
  rwa [List.append_nil] at whole

/-- The number is taken group by group; a group below 128 is the last. -/
theorem takes_takeGroups (limit fuel : Nat) {n : Nat} (fits : n < 128 ^ (fuel + 1)) :
    Takes (takeGroups limit (fuel + 1)) (groups (fuel + 1) n) n := by
  induction fuel generalizing n with
  | zero =>
    have small : n < 128 := by simpa using fits
    rw [groups, if_pos small]
    exact takes_lastGroup limit 0 small
  | succ fuel ih =>
    have whole : groups (fuel + 1 + 1) n = if n < 128 then [UInt8.ofNat n]
      else UInt8.ofNat (n % 128 + 128) :: groups (fuel + 1) (n / 128) := rfl
    rw [whole]
    by_cases small : n < 128
    · rw [if_pos small]
      exact takes_lastGroup limit (fuel + 1) small
    · have high : n / 128 < 128 ^ (fuel + 1) := by
        rw [Nat.div_lt_iff_lt_mul (by decide)]
        rwa [Nat.pow_succ] at fits
      have byte : Takes (takeNumber .little 1) [UInt8.ofNat (n % 128 + 128)] (n % 128 + 128) :=
        takes_takeNumber .little (by omega)
      rw [if_neg small]
      refine byte.bind ?_
      rw [if_neg (by omega)]
      have rest := (ih high).andThen fun high => n % 128 + 128 - 128 + 128 * high
      rwa [show n % 128 + 128 - 128 + 128 * (n / 128) = n by omega] at rest

/-- A number in groups of seven bits, as the bits of an integer. -/
theorem takes_groups {width count : Nat} (fits : 2 ^ width ≤ 128 ^ (count + 1)) (x : BitVec width) :
    Takes (takeGroups (count + 1) (count + 1) >>= fun n => pure (BitVec.ofNat width n))
      (groups (count + 1) x.toNat) x := by
  have number := takes_takeGroups (count + 1) count (Nat.lt_of_lt_of_le x.isLt fits)
  have bits := number.andThen (BitVec.ofNat width)
  rwa [BitVec.ofNat_toNat, BitVec.setWidth_eq] at bits

/-- What is written for an integer is read as that integer. -/
theorem takes_read_int (order : ByteOrder) {p : Primitive} {kind : IntKind}
    (known : p.intKind? = some kind) (b : BitVec kind.bits) :
    Takes (read order p) (intBytes order p kind b.toNat) (.int kind b) := by
  cases p with
  | i8 | u8 | i16 | u16 | i32 | u32 | i64 | u64 | u128 =>
    cases known
    exact takes_takeInt order _ b
  | varint =>
    cases known
    have fits : 2 ^ 32 ≤ 128 ^ varintGroups := by decide
    exact (takes_groups fits b).andThen (Value.int .i32)
  | varlong =>
    cases known
    have fits : 2 ^ 64 ≤ 128 ^ varlongGroups := by decide
    exact (takes_groups fits b).andThen (Value.int .i64)
  | bool | f32 | f64 | string | bytes | rest | fixedBytes _ => cases known

end WireSchema.Wire
