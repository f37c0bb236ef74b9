import WireSchema.Proofs.Text.Utf8
import WireSchema.Proofs.Wire.Forms
import WireSchema.Proofs.Wire.Groups

/-!
# Primitives on the wire

A value of a primitive is read back from the bytes that are written for it, whatever follows them.
Integers in groups of seven bits are written as short as possible, and what their reading does on
any bytes is told by the numeral in front of them.

## Main results

* `takes_read_write`: reading takes what was written and yields the value.
* `primitives_are_exact`: both byte orders, all primitives but the one that takes all that is left.
-/

namespace WireSchema

/-- The largest length that a signed 32-bit integer holds. -/
def maxLength : Nat := 2147483647

/-- The values of the type of a primitive. A text or counted bytes have a length that its prefix can
hold. -/
def Primitive.Holds (p : Primitive) (v : Value) : Prop :=
  match p with
  | .bool => ∃ b, v = .bool b
  | .f32 => ∃ bits, v = .f32 bits
  | .f64 => ∃ bits, v = .f64 bits
  | .string => ∃ text, v = .str text ∧ (Text.encodeUtf8 text).length ≤ maxLength
  | .bytes => ∃ bytes, v = .bytes bytes ∧ bytes.length ≤ maxLength
  | .rest => ∃ bytes, v = .bytes bytes
  | .fixedBytes count => ∃ bytes, v = .bytes bytes ∧ bytes.length = count
  | p => ∃ kind, p.intKind? = some kind ∧ Wire.IsOf kind v

/-- How many groups of seven bits an integer has at most, if the primitive is written in groups. -/
def Primitive.groupLimit? : Primitive → Option Nat
  | .varint => some 5
  | .varlong => some 10
  | _ => none

namespace Wire

variable {order : ByteOrder} {p : Primitive} {kind : IntKind} {limit : Nat}

/-! ### Reading what was written -/

theorem takes_takeVarint (x : BitVec 32) : Takes takeVarint (groups varintGroups x.toNat) x :=
  takes_groups (by decide) x

theorem takes_takeCounted {bytes : List UInt8} (short : bytes.length ≤ maxLength) :
    Takes takeCounted (groups varintGroups bytes.length ++ bytes) bytes := by
  have below : bytes.length < 2 ^ 31 := Nat.lt_of_le_of_lt short (by decide)
  have number : (BitVec.ofNat 32 bytes.length).toNat = bytes.length := by
    rw [BitVec.toNat_ofNat, Nat.mod_eq_of_lt (by omega)]
  have positive : ¬ (BitVec.ofNat 32 bytes.length).toInt < 0 := by
    rw [BitVec.toInt_eq_toNat_of_lt (by omega), number]
    omega
  have counted := takes_takeVarint (BitVec.ofNat 32 bytes.length)
  rw [number] at counted
  refine counted.bind ?_
  rw [if_neg positive, number]
  exact takes_take bytes

theorem takes_string {text : String} (short : (Text.encodeUtf8 text).length ≤ maxLength) :
    Takes (read order .string)
      (groups varintGroups (Text.encodeUtf8 text).length ++ Text.encodeUtf8 text) (.str text) := by
  have whole : Takes (read order .string)
      (groups varintGroups (Text.encodeUtf8 text).length ++ Text.encodeUtf8 text ++ [])
      (.str text) := by
    refine (takes_takeCounted short).bind ?_
    rw [Text.decodeUtf8_encodeUtf8]
    exact takes_pure _
  rwa [List.append_nil] at whole

theorem takes_bool (b : Bool) : Takes (read order .bool) [if b then 1 else 0] (.bool b) := by
  have byte : Takes (takeNumber order 1) (order.split 1 b.toNat) b.toNat :=
    takes_takeNumber order (by cases b <;> decide)
  have value := byte.andThen fun n => Value.bool (n != 0)
  cases b <;> cases order <;> exact value

theorem takes_float {width count : Nat} (whole : 2 ^ width = 256 ^ count) (bits : BitVec width)
    (f : BitVec width → Value) :
    Takes (takeNumber order count >>= fun n => pure (f (BitVec.ofNat width n)))
      (order.split count bits.toNat) (f bits) := by
  have number : Takes (takeNumber order count) (order.split count bits.toNat) bits.toNat :=
    takes_takeNumber order (whole ▸ bits.isLt)
  have value := number.andThen fun n => f (BitVec.ofNat width n)
  rwa [BitVec.ofNat_toNat, BitVec.setWidth_eq] at value

theorem countedBytes_ok {bytes : List UInt8} (short : bytes.length ≤ maxLength) :
    countedBytes bytes = .ok (groups varintGroups bytes.length ++ bytes) := by
  unfold countedBytes
  exact if_pos (Nat.lt_of_le_of_lt short (by decide))

/-- An integer of the type is written with its own bits. -/
theorem write_int (order : ByteOrder) (known : p.intKind? = some kind) (x : BitVec kind.bits) :
    write order p (.int kind x) = .ok (intBytes order p kind x.toNat) := by
  have same : BitVec.ofInt kind.bits (kind.view x) = x := by
    unfold IntKind.view
    split
    · exact BitVec.ofInt_toInt
    · rw [BitVec.ofInt_natCast, BitVec.ofNat_toNat, BitVec.setWidth_eq]
  unfold write
  rw [known]
  simp only [Value.asInt?, same]

/-- Reading takes from the front what was written, and yields the value. -/
theorem takes_read_write (order : ByteOrder) {v : Value} (bounded : p ≠ .rest) (holds : p.Holds v) :
    ∃ bytes, write order p v = .ok bytes ∧ Takes (read order p) bytes v := by
  have int (kind : IntKind) (known : p.intKind? = some kind) (is : IsOf kind v) :
      ∃ bytes, write order p v = .ok bytes ∧ Takes (read order p) bytes v := by
    obtain ⟨x, rfl⟩ := is
    exact ⟨_, write_int order known x, takes_read_int order known x⟩
  cases p with
  | rest => exact absurd rfl bounded
  | bool =>
    obtain ⟨b, rfl⟩ := holds
    exact ⟨_, rfl, takes_bool b⟩
  | f32 =>
    obtain ⟨bits, rfl⟩ := holds
    exact ⟨_, rfl, takes_float (by decide) bits .f32⟩
  | f64 =>
    obtain ⟨bits, rfl⟩ := holds
    exact ⟨_, rfl, takes_float (by decide) bits .f64⟩
  | string =>
    obtain ⟨text, rfl, short⟩ := holds
    exact ⟨_, countedBytes_ok short, takes_string short⟩
  | bytes =>
    obtain ⟨bytes, rfl, short⟩ := holds
    exact ⟨_, countedBytes_ok short, (takes_takeCounted short).andThen Value.bytes⟩
  | fixedBytes count =>
    obtain ⟨bytes, rfl, rfl⟩ := holds
    exact ⟨bytes, if_pos rfl, (takes_take bytes).andThen Value.bytes⟩
  | i8 | u8 | i16 | u16 | i32 | u32 | i64 | u64 | u128 | varint | varlong =>
    obtain ⟨kind, known, is⟩ := holds
    exact int kind known is

/-! ### Integers in groups -/

/-- How an integer in at most `limit` groups of seven bits is written and read. -/
structure InGroups (order : ByteOrder) (p : Primitive) (limit : Nat) (kind : IntKind) : Prop where
  /-- It is written as the shortest of the numerals that stand for it. -/
  shortest : ∀ x : BitVec kind.bits, ∃ bytes, write order p (.int kind x) = .ok bytes ∧
    1 ≤ bytes.length ∧ bytes.length ≤ limit ∧ IsNumeral bytes ∧ septets bytes = x.toNat ∧
    ∀ other, IsNumeral other → septets other % 2 ^ kind.bits = x.toNat →
      bytes.length ≤ other.length
  /-- The numeral in front is taken, and its number is seen as a signed integer. -/
  value : ∀ input position v reader,
    (read order p).run ⟨input, position⟩ = (.ok v, reader) ↔
      ∃ numeral, IsNumeral numeral ∧ numeral.length ≤ limit ∧ input = numeral ++ reader.rest ∧
        reader.position = position + numeral.length ∧
        v = .int kind (.ofNat kind.bits (septets numeral)) ∧
        v.asInt? = some ((septets numeral : Int).bmod (2 ^ kind.bits))
  malformed : ∀ input position,
    (∃ reader, (read order p).run ⟨input, position⟩ = (.error (.malformedVarint limit), reader)) ↔
      limit ≤ input.length ∧ ∀ b ∈ input.take limit, Continues b
  ended : ∀ input position,
    (∃ reader, (read order p).run ⟨input, position⟩ = (.error .unexpectedEnd, reader)) ↔
      input.length < limit ∧ ∀ b ∈ input, Continues b

/-- What is read in groups is seen as a signed integer. -/
theorem asInt?_of_groupLimit (limited : p.groupLimit? = some limit) (known : p.intKind? = some kind)
    (n : Nat) : (Value.int kind (.ofNat kind.bits n)).asInt? =
      some ((n : Int).bmod (2 ^ kind.bits)) := by
  cases p <;> cases limited <;> cases known <;>
    exact congrArg some (BitVec.toInt_ofNat' _)

/-- Reading an integer in groups is reading groups and keeping as many bits as its type has. -/
theorem read_eq_takeGroups (limited : p.groupLimit? = some limit) (known : p.intKind? = some kind)
    (reader : Reader) : (read order p).run reader =
      (((takeGroups limit limit).run reader).1.map
        (fun n => .int kind (.ofNat kind.bits n)), ((takeGroups limit limit).run reader).2) := by
  cases p <;> cases limited <;> cases known <;>
  · simp only [read, takeVarint, takeVarlong, varintGroups, varlongGroups, bind_assoc, pure_bind,
      bind_run]
    split <;> rename_i ran <;> rw [ran] <;> rfl

/-- The numeral in front of the input decides, whatever the limit leaves. -/
theorem run_of_numeral (limited : p.groupLimit? = some limit) (known : p.intKind? = some kind)
    {numeral rest : List UInt8} (is : IsNumeral numeral) (short : numeral.length ≤ limit)
    (position : Nat) : (read order p).run ⟨numeral ++ rest, position⟩ =
      (.ok (.int kind (.ofNat kind.bits (septets numeral))),
        ⟨rest, position + numeral.length⟩) := by
  rw [read_eq_takeGroups limited known]
  have ran := takeGroups_run limit limit (numeral ++ rest) position
  generalize (takeGroups limit limit).run ⟨numeral ++ rest, position⟩ = read at ran
  cases ran with
  | number whole is' _ =>
    obtain ⟨rfl, rfl⟩ := is.unique is' whole
    rfl
  | tooMany _ continues =>
    refine absurd (fun b member => continues b ?_) is.not_forall
    rw [List.take_append]
    exact List.mem_append_left _ (by rwa [List.take_of_length_le short])
  | ended _ continues =>
    exact absurd (fun b member => continues b (List.mem_append_left _ member)) is.not_forall

theorem inGroups (order : ByteOrder) (limited : p.groupLimit? = some limit)
    (known : p.intKind? = some kind) : InGroups order p limit kind := by
  have outcome (input : List UInt8) (position : Nat) :
      GroupsRead limit input position limit ((takeGroups limit limit).run ⟨input, position⟩) :=
    takeGroups_run limit limit input position
  -- Outcomes exclude each other, as the bytes they are met on do.
  have noNumeral {input numeral rest : List UInt8} (is : IsNumeral numeral)
      (whole : input = numeral ++ rest) (short : numeral.length ≤ limit) :
      ¬ ∀ b ∈ input.take limit, Continues b := by
    intro continues
    refine is.not_forall fun b member => continues b ?_
    rw [whole, List.take_append]
    exact List.mem_append_left _ (by rwa [List.take_of_length_le short])
  constructor
  case shortest =>
    intro x
    refine ⟨_, write_int order known x, ?_⟩
    obtain ⟨fewer, rfl, room, fits⟩ : ∃ fewer, limit = fewer + 1 ∧ 128 ^ fewer ≤ 2 ^ kind.bits ∧
        2 ^ kind.bits ≤ 128 ^ (fewer + 1) := by
      cases p <;> cases limited <;> cases known
      · exact ⟨4, rfl, by decide, by decide⟩
      · exact ⟨9, rfl, by decide, by decide⟩
    have bytes : intBytes order p kind x.toNat = groups (fewer + 1) x.toNat := by
      cases p <;> cases limited <;> cases known <;> rfl
    have below : x.toNat < 128 ^ (fewer + 1) := Nat.lt_of_lt_of_le x.isLt fits
    obtain ⟨numeral, number, length⟩ := groups_spec fewer below
    rw [bytes]
    refine ⟨?_, length, numeral, number, fun other is same => groups_shortest room below is same⟩
    refine Nat.pos_of_ne_zero fun empty => not_isNumeral_nil ?_
    rwa [List.length_eq_zero_iff.mp empty] at numeral
  case value =>
    intro input position v reader
    constructor
    · intro ran
      rw [read_eq_takeGroups limited known] at ran
      have read := outcome input position
      generalize (takeGroups limit limit).run ⟨input, position⟩ = result at ran read
      cases read with
      | number whole is short =>
        cases ran
        exact ⟨_, is, short, whole, rfl, rfl, asInt?_of_groupLimit limited known _⟩
      | tooMany => cases ran
      | ended => cases ran
    · obtain ⟨rest, position'⟩ := reader
      rintro ⟨numeral, is, short, rfl, rfl, rfl, -⟩
      exact run_of_numeral limited known is short position
  case malformed =>
    intro input position
    rw [read_eq_takeGroups limited known]
    have read := outcome input position
    generalize (takeGroups limit limit).run ⟨input, position⟩ = result at read
    cases read with
    | number whole is short =>
      exact iff_of_false nofun fun ⟨_, continues⟩ => noNumeral is whole short continues
    | tooMany long continues => exact iff_of_true ⟨_, rfl⟩ ⟨long, continues⟩
    | ended short => exact iff_of_false nofun fun ⟨long, _⟩ => Nat.not_le_of_lt short long
  case ended =>
    intro input position
    rw [read_eq_takeGroups limited known]
    have read := outcome input position
    generalize (takeGroups limit limit).run ⟨input, position⟩ = result at read
    cases read with
    | number whole is short =>
      refine iff_of_false nofun fun ⟨_, continues⟩ => noNumeral is whole short fun b member => ?_
      exact continues b (List.mem_of_mem_take member)
    | tooMany long => exact iff_of_false nofun fun ⟨short, _⟩ => Nat.not_le_of_lt short long
    | ended short continues => exact iff_of_true ⟨_, rfl⟩ ⟨short, continues⟩

/-- Every primitive is read back from what was written for a value of its type, with any bytes
behind it left as they are; integers in groups of seven bits are written as short as possible, and
read by the numeral that the bytes begin with. -/
theorem primitives_are_exact (order : ByteOrder) (p : Primitive) :
    (p ≠ .rest → ∀ v, p.Holds v → ∃ bytes, write order p v = .ok bytes ∧
      ∀ suffix position, (read order p).run ⟨bytes ++ suffix, position⟩ =
        (.ok v, ⟨suffix, position + bytes.length⟩)) ∧
    (p = .varint → InGroups order p 5 .i32) ∧ (p = .varlong → InGroups order p 10 .i64) := by
  refine ⟨fun bounded v holds => ?_, ?_, ?_⟩
  · obtain ⟨bytes, written, takes⟩ := takes_read_write order bounded holds
    exact ⟨bytes, written, takes.whole⟩
  · rintro rfl
    exact inGroups order rfl rfl
  · rintro rfl
    exact inGroups order rfl rfl

/-- Minus one takes all five groups, and both kinds of integers in groups are met. -/
theorem primitives_are_exact_negative :
    Primitive.varint ≠ .rest ∧ Primitive.varint.Holds (.int .i32 (-1)) ∧
      write .little .varint (.int .i32 (-1)) = .ok [0xff, 0xff, 0xff, 0xff, 0x0f] ∧
      (∃ bytes, write .little .varint (.int .i32 (-1)) = .ok bytes ∧ ∀ suffix position,
        (read .little .varint).run ⟨bytes ++ suffix, position⟩ =
          (.ok (.int .i32 (-1)), ⟨suffix, position + bytes.length⟩)) ∧
      InGroups .little .varint 5 .i32 ∧ InGroups .big .varlong 10 .i64 := by
  have holds : Primitive.varint.Holds (.int .i32 (-1)) := ⟨.i32, rfl, _, rfl⟩
  refine ⟨by decide, holds, by rfl, ?_, ?_, ?_⟩
  · exact (primitives_are_exact .little .varint).1 (by decide) _ holds
  · exact (primitives_are_exact .little .varint).2.1 rfl
  · exact (primitives_are_exact .big .varlong).2.2 rfl

end Wire

end WireSchema
