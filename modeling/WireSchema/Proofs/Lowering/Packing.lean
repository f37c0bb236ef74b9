import Mathlib.Algebra.Group.Int.Defs
import WireSchema.Proofs.Layout.Reading
import WireSchema.Proofs.Lowering.BitGroups

/-!
# Packed structs keep the bits of their fields

The integer of a packed struct has the low bits of every field at the place of its slot, and zeros
elsewhere; a decoder extends the bits of each slot to the type of the integer. So every number that
fits its slot comes back, in whatever order the fields stand.
-/

namespace WireSchema

open Ir Gen Lowering

/-! ### Bits of an integer -/

namespace IntKind

variable {kind : IntKind}

/-- Some bits of an integer, extended like its type. -/
def part (kind : IntKind) (shift width : Nat) (b : BitVec kind.bits) : BitVec kind.bits :=
  if kind.signed then (b.extractLsb' shift width).signExtend kind.bits
  else (b.extractLsb' shift width).setWidth kind.bits

theorem getLsbD_part {shift width : Nat} (positive : 0 < width) (b : BitVec kind.bits) {i : Nat}
    (below : i < kind.bits) : (kind.part shift width b).getLsbD i =
      if i < width then b.getLsbD (shift + i) else kind.signed && b.getLsbD (shift + width - 1) := by
  unfold part
  cases kind.signed with
  | true =>
    rw [if_pos rfl, BitVec.getLsbD_signExtend, decide_eq_true below, Bool.true_and, Bool.true_and]
    split
    case isTrue inside => simp [inside]
    -- Past the slot every bit is its last one.
    case isFalse =>
      have last : width - 1 < width := by omega
      rw [BitVec.msb_eq_getLsbD_last, BitVec.getLsbD_extractLsb', decide_eq_true last,
        Bool.true_and, Nat.add_sub_assoc positive]
  | false =>
    by_cases inside : i < width
    · simp [below, inside]
    · simp [inside]

/-- The low bits of an integer, moved to the left. -/
def placed (kind : IntKind) (shift width : Nat) (v : BitVec kind.bits) : BitVec kind.bits :=
  (v.setWidth width).setWidth kind.bits <<< shift

theorem getLsbD_placed (shift width : Nat) (v : BitVec kind.bits) {i : Nat} (below : i < kind.bits) :
    (kind.placed shift width v).getLsbD i =
      (decide (shift ≤ i ∧ i < shift + width) && v.getLsbD (i - shift)) := by
  rw [placed, BitVec.getLsbD_shiftLeft, BitVec.getLsbD_setWidth, BitVec.getLsbD_setWidth,
    decide_eq_true below, Bool.true_and]
  by_cases early : i < shift
  · simp [early, Nat.not_le.mpr early]
  · have late : shift ≤ i := Nat.le_of_not_lt early
    have same : i - shift < width ↔ i < shift + width := by omega
    simp [early, late, same, show i - shift < kind.bits by omega]

/-- The integer is one that `width` bits of its type hold. -/
def Holds (kind : IntKind) (width : Nat) (v : BitVec kind.bits) : Prop :=
  if kind.signed then -2 ^ (width - 1) ≤ v.toInt ∧ v.toInt < 2 ^ (width - 1)
  else v.toNat < 2 ^ width

instance (kind : IntKind) (width : Nat) (v : BitVec kind.bits) : Decidable (kind.Holds width v) :=
  inferInstanceAs (Decidable (ite ..))

/-- All bits above repeat the sign. -/
theorem Holds.getLsbD {width : Nat} {v : BitVec kind.bits} (holds : kind.Holds width v)
    (positive : 0 < width) {i : Nat} (low : width ≤ i) (below : i < kind.bits) :
    v.getLsbD i = (kind.signed && v.getLsbD (width - 1)) := by
  unfold Holds at holds
  cases signed : kind.signed with
  | true =>
    rw [signed, if_pos rfl] at holds
    have power : ((2 ^ width : Nat) : Int) = 2 ^ (width - 1) * 2 := by
      rw [Int.natCast_pow, ← Int.pow_succ, show (width - 1).succ = width by omega]
      rfl
    -- The number is within the range of `width` bits, so it is what its low bits extend to.
    have whole : (v.setWidth width).signExtend kind.bits = v := by
      apply BitVec.eq_of_toInt_eq
      rw [BitVec.toInt_signExtend_of_le (by omega), BitVec.toInt_setWidth,
        ← Int.bmod_bmod_of_dvd (Nat.pow_dvd_pow 2 (Nat.le_trans low (Nat.le_of_lt below))),
        ← BitVec.toInt_eq_toNat_bmod]
      refine Int.bmod_eq_of_le_mul_two ?_ ?_ <;> rw [power] <;> omega
    have last : width - 1 < width := by omega
    rw [← whole, BitVec.getLsbD_signExtend, BitVec.getLsbD_signExtend, BitVec.msb_eq_getLsbD_last]
    simp only [below, Nat.not_lt.mpr low, last, show width - 1 < kind.bits by omega, decide_true,
      if_true, if_false, Bool.true_and]
  | false =>
    rw [signed, if_neg Bool.false_ne_true] at holds
    rw [Bool.false_and, BitVec.getLsbD]
    exact Nat.testBit_lt_two_pow (Nat.lt_of_lt_of_le holds (Nat.pow_le_pow_right (by decide) low))

/-- The bits of a number that fits are the number. -/
theorem part_eq_of_holds {shift width : Nat} (positive : 0 < width) {v b : BitVec kind.bits}
    (holds : kind.Holds width v) (same : ∀ j < width, b.getLsbD (shift + j) = v.getLsbD j) :
    kind.part shift width b = v := by
  apply BitVec.eq_of_getLsbD_eq
  intro i below
  rw [getLsbD_part positive b below]
  split
  case isTrue inside => exact same i inside
  case isFalse outside =>
    rw [holds.getLsbD positive (Nat.le_of_not_lt outside) below, ← same (width - 1) (by omega),
      Nat.add_sub_assoc positive]

/-- The number with `width` ones, as an integer. -/
theorem getLsbD_mask {width : Nat} (narrow : kind ≠ .u128) (inside : width ≤ kind.bits) {i : Nat}
    (below : i < kind.bits) :
    (BitVec.ofInt kind.bits (IntKind.mask width)).getLsbD i = decide (i < width) := by
  have small : kind.bits ≤ 64 := by
    cases kind <;> first | decide | exact absurd rfl narrow
  have ones : IntKind.mask width = ((2 ^ width - 1 : Nat) : Int) := by
    have positive : 0 < 2 ^ width := Nat.two_pow_pos width
    rw [IntKind.mask, Nat.min_eq_left (by omega)]
    change ((2 ^ width : Nat) : Int) - 1 = _
    omega
  rw [ones, BitVec.ofInt_natCast, BitVec.getLsbD_ofNat, Nat.testBit_two_pow_sub_one]
  simp [below]

theorem getLsbD_shiftRight (b : BitVec kind.bits) {shift i : Nat} (below : i < kind.bits) :
    (kind.shiftRight b shift).getLsbD i =
      if shift + i < kind.bits then b.getLsbD (shift + i) else kind.signed && b.msb := by
  unfold IntKind.shiftRight
  cases kind.signed with
  | true =>
    rw [if_pos rfl, BitVec.getLsbD_sshiftRight, decide_eq_false (Nat.not_le.mpr below),
      Bool.not_false, Bool.true_and, Bool.true_and]
  | false =>
    rw [if_neg Bool.false_ne_true, BitVec.getLsbD_ushiftRight, Bool.false_and]
    split
    case isTrue => rfl
    case isFalse outside => exact BitVec.getLsbD_of_ge b _ (Nat.le_of_not_lt outside)

/-- The topmost bits are all that is left after a move. -/
theorem shiftRight_top {shift width : Nat} (positive : 0 < width) (b : BitVec kind.bits)
    (top : shift + width = kind.bits) : kind.shiftRight b shift = kind.part shift width b := by
  apply BitVec.eq_of_getLsbD_eq
  intro i below
  rw [getLsbD_shiftRight b below, getLsbD_part positive b below]
  by_cases low : i < width
  · rw [if_pos (by omega), if_pos low]
  · rw [if_neg (by omega), if_neg low, top, BitVec.msb_eq_getLsbD_last]

/-- Signed bits are extended by moving them to the top and back. -/
theorem shiftRight_shiftLeft {shift width : Nat} (positive : 0 < width) (b : BitVec kind.bits)
    (inside : shift + width ≤ kind.bits) (signed : kind.signed = true) :
    kind.shiftRight (kind.shiftRight b shift <<< (kind.bits - width)) (kind.bits - width) =
      kind.part shift width b := by
  apply BitVec.eq_of_getLsbD_eq
  intro i below
  rw [getLsbD_shiftRight _ below, getLsbD_part positive b below, BitVec.msb_eq_getLsbD_last,
    BitVec.getLsbD_shiftLeft, BitVec.getLsbD_shiftLeft, getLsbD_shiftRight b (by omega),
    getLsbD_shiftRight b (by omega)]
  -- A low bit has only gone up and down; a high one is the last of the slot, which was on top.
  by_cases low : i < width
  · simp [low, show kind.bits - width + i < kind.bits by omega,
      show shift + i < kind.bits by omega]
  · have last : kind.bits - 1 - (kind.bits - width) = width - 1 := by omega
    simp [low, signed, show ¬ kind.bits - width + i < kind.bits by omega,
      show kind.bits - 1 < kind.bits by omega, last,
      show shift + (width - 1) < kind.bits by omega, Nat.add_sub_assoc positive]
    omega

/-- Unsigned bits are cut out by a mask. -/
theorem shiftRight_and_mask {shift width : Nat} (narrow : kind ≠ .u128) (positive : 0 < width)
    (b : BitVec kind.bits) (inside : shift + width ≤ kind.bits) (unsigned : kind.signed = false) :
    kind.shiftRight b shift &&& BitVec.ofInt kind.bits (mask width) = kind.part shift width b := by
  apply BitVec.eq_of_getLsbD_eq
  intro i below
  rw [BitVec.getLsbD_and, getLsbD_mask narrow (by omega) below, getLsbD_shiftRight b below,
    getLsbD_part positive b below, unsigned]
  by_cases low : i < width
  · rw [if_pos low, if_pos (by omega), decide_eq_true low, Bool.and_true]
  · rw [if_neg low, decide_eq_false low, Bool.and_false, Bool.false_and]

end IntKind

/-! ### Slots and terms -/

variable {p : Program} {low : Nat} {env : Env} {kind : IntKind} {backing : Primitive}

/-- A slot denotes its bits, extended. -/
theorem denotes_bitSlot {raw e : Expr} {b : BitVec kind.bits} {shift width : Nat}
    (known : backing.intKind? = some kind) (narrow : kind ≠ .u128) (positive : 0 < width)
    (inside : shift + width ≤ kind.bits) (denotes : raw.Denotes p low env (.int kind b))
    (made : slotExpr raw (.bits shift width backing) = .ok e) :
    e.Denotes p low env (.int kind (kind.part shift width b)) := by
  have start : (if shift = 0 then raw else .binary .shr raw (.int shift .u32)).Denotes p low env
      (.int kind (kind.shiftRight b shift)) := by
    split
    case isTrue none =>
      subst none
      simpa [IntKind.shiftRight] using denotes
    case isFalse => exact denotes.shr narrow (by omega)
  simp only [slotExpr, backingKind_of_known known] at made
  change (if kind.signed = true then _ else _) = Except.ok e at made
  -- A slot at the top is ready after the first move. Others have bits of higher slots left over,
  -- which are pushed out where the type is signed, and masked where it is not.
  split at made
  case isTrue signed =>
    split at made
    case isTrue =>
      cases made
      rwa [IntKind.shiftRight_top positive b (by omega)] at start
    case isFalse =>
      cases made
      have pad : kind.bits - width < kind.bits := by omega
      have extended := (start.shl pad).shr narrow pad
      rwa [IntKind.shiftRight_shiftLeft positive b inside signed] at extended
  case isFalse unsigned =>
    split at made
    case isTrue =>
      cases made
      rwa [IntKind.shiftRight_top positive b (by omega)] at start
    case isFalse =>
      cases made
      have cut := start.bitAnd (IntKind.mask width)
      rwa [IntKind.shiftRight_and_mask narrow positive b inside (by simpa using unsigned)] at cut

/-- The term of a field denotes its low bits, at their place. -/
theorem denotes_packedTerm {owner : String} {src e : Expr} {f : Field} {group index : Nat}
    {v : BitVec kind.bits} {shift width : Nat}
    (shape : f.shape = .slot group index (.bits shift width backing)) (narrow : kind ≠ .u128)
    (positive : 0 < width) (inside : shift + width ≤ kind.bits)
    (denotes : (Expr.field src f.name).Denotes p low env (.int kind v))
    (made : packedTerm owner kind src f = .ok e) :
    e.Denotes p low env (.int kind (kind.placed shift width v)) := by
  have masked : (if width = kind.bits then Expr.field src f.name
      else Expr.binary .bitAnd (.field src f.name) (.int (IntKind.mask width) kind)).Denotes p low env
        (.int kind ((v.setWidth width).setWidth kind.bits)) := by
    split
    case isTrue whole =>
      subst whole
      simpa using denotes
    case isFalse =>
      -- Bits that do not fit are cut, so that no other slot is touched.
      have bits : v &&& BitVec.ofInt kind.bits (IntKind.mask width) =
          (v.setWidth width).setWidth kind.bits := by
        apply BitVec.eq_of_getLsbD_eq
        intro i below
        rw [BitVec.getLsbD_and, IntKind.getLsbD_mask narrow (by omega) below]
        simp [below, Bool.and_comm]
      have final := denotes.bitAnd (IntKind.mask width)
      rwa [bits] at final
  simp only [packedTerm, shape, Except.ok.injEq] at made
  subst made
  split
  case isTrue none =>
    subst none
    simpa [IntKind.placed] using masked
  case isFalse => exact masked.shl (by omega)

/-! ### The places of slots -/

namespace Shape

/-- The lowest bit of a slot: the widths of the slots after it stand below. -/
def offset (widths : List Nat) (index : Nat) : Nat := total (widths.drop (index + 1))

variable {widths : List Nat}

theorem total_drop {index width : Nat} (here : widths[index]? = some width) :
    total (widths.drop index) = width + offset widths index := by
  obtain ⟨inside, rfl⟩ := List.getElem?_eq_some_iff.mp here
  rw [List.drop_eq_getElem_cons inside]
  rfl

theorem total_drop_le (widths : List Nat) {i j : Nat} (le : i ≤ j) :
    total (widths.drop j) ≤ total (widths.drop i) := by
  induction le with
  | refl => exact Nat.le_refl _
  | @step j _ ih =>
    refine Nat.le_trans ?_ ih
    cases here : widths[j]? with
    | none =>
      have short : widths.length ≤ j := List.getElem?_eq_none_iff.mp here
      rw [List.drop_eq_nil_of_le (Nat.le_succ_of_le short)]
      exact Nat.zero_le _
    | some width =>
      rw [total_drop here]
      exact Nat.le_add_left _ _

/-- Slots end where the slot before them begins, or lower. -/
theorem offset_apart {i j width : Nat} (later : i < j) (here : widths[j]? = some width) :
    offset widths j + width ≤ offset widths i := by
  have le : total (widths.drop j) ≤ total (widths.drop (i + 1)) := total_drop_le widths later
  rw [total_drop here] at le
  unfold offset at le ⊢
  omega

theorem offset_inside {index width : Nat} (here : widths[index]? = some width) :
    offset widths index + width ≤ total widths := by
  have le := total_drop_le widths (Nat.zero_le index)
  rw [total_drop here, List.drop_zero] at le
  omega

/-- The slot with a number, of a group of packed fields. -/
abbrev bitSlot (group : Nat) (backing : Primitive) (widths : List Nat) (index width : Nat) : Shape :=
  .slot group index (.bits (offset widths index) width backing)

/-- The widths are accepted, and there is a slot for each. -/
theorem packedSlots_eq {group : Nat} (known : backing.intKind? = some kind)
    (positive : ∀ width ∈ widths, 0 < width) (fits : total widths ≤ kind.bits) :
    packedSlots group backing widths =
      .ok (widths.zipIdx.map fun (width, index) => bitSlot group backing widths index width) := by
  have accepted : ¬ (kind.bits < total widths ∨ widths.contains 0) := by
    rintro (wide | zero)
    · omega
    · exact absurd (positive 0 (List.contains_iff_mem.mp zero)) (Nat.lt_irrefl 0)
  simp only [packedSlots, backingKind_of_known known, sumOfWidths_of_fits fits]
  change (if kind.bits < total widths ∨ widths.contains 0 then _ else _) = _
  rw [if_neg accepted]
  rfl

/-- The number of a slot. -/
def slotIndex : Shape → Nat
  | .slot _ index _ => index
  | _ => 0

end Shape

/-! ### Packed structs -/

/-- The bits that a field puts into the integer. -/
def fieldBits (kind : IntKind) (v : Nat → BitVec kind.bits) (f : Field) : BitVec kind.bits :=
  match f.shape with
  | .slot _ index (.bits shift width _) => kind.placed shift width (v index)
  | _ => 0

/-- The integer of a packed struct whose slots have the given values. -/
def packedWord (kind : IntKind) (v : Nat → BitVec kind.bits) (fields : List Field) :
    BitVec kind.bits := (fields.map (fieldBits kind v)).foldl (· ||| ·) 0

/-- The struct whose slots have the given values. -/
def packedValue (kind : IntKind) (v : Nat → BitVec kind.bits) (fields : List Field) : Value :=
  .ofFields (fields.map fun f => (f.name, .int kind (v f.shape.slotIndex)))

/-- A packed struct: positive widths that the integer holds, and a field for each slot, in any
order. -/
structure Packed (backing : Primitive) (kind : IntKind) (widths : List Nat) (group : Nat)
    (fields : List Field) : Prop where
  known : backing.intKind? = some kind
  narrow : kind ≠ .u128
  positive : ∀ width ∈ widths, 0 < width
  fits : total widths ≤ kind.bits
  slots : (fields.map (·.shape)).Perm
    (widths.zipIdx.map fun (width, index) => Shape.bitSlot group backing widths index width)
  distinct : (fields.map (·.name)).Nodup

namespace Packed

variable {widths : List Nat} {group : Nat} {fields : List Field}

/-- Every field is a slot. -/
theorem slot_of_field (packed : Packed backing kind widths group fields) {f : Field}
    (member : f ∈ fields) : ∃ index width, widths[index]? = some width ∧ 0 < width ∧
      Shape.offset widths index + width ≤ kind.bits ∧
      f.shape = Shape.bitSlot group backing widths index width := by
  have among := packed.slots.subset (List.mem_map_of_mem member)
  obtain ⟨⟨width, index⟩, here, shape⟩ := List.mem_map.mp among
  have here : widths[index]? = some width := List.mem_zipIdx_iff_getElem?.mp here
  exact ⟨index, width, here, packed.positive width (List.mem_of_getElem? here),
    Nat.le_trans (Shape.offset_inside here) packed.fits, shape.symm⟩

/-- Every slot is a field. -/
theorem field_of_slot (packed : Packed backing kind widths group fields) {index width : Nat}
    (here : widths[index]? = some width) :
    ∃ f ∈ fields, f.shape = Shape.bitSlot group backing widths index width := by
  have member : Shape.bitSlot group backing widths index width ∈ fields.map (·.shape) :=
    packed.slots.symm.subset
      (List.mem_map.mpr ⟨(width, index), List.mem_zipIdx_iff_getElem?.mpr here, rfl⟩)
  obtain ⟨f, member, shape⟩ := List.mem_map.mp member
  exact ⟨f, member, shape⟩

/-- A bit of the integer is the bit of some field that stands there. -/
theorem getLsbD_packedWord (packed : Packed backing kind widths group fields)
    (v : Nat → BitVec kind.bits) {i : Nat} (below : i < kind.bits) :
    (packedWord kind v fields).getLsbD i = true ↔ ∃ index width, widths[index]? = some width ∧
      Shape.offset widths index ≤ i ∧ i < Shape.offset widths index + width ∧
      (v index).getLsbD (i - Shape.offset widths index) = true := by
  have zero : (0 : BitVec kind.bits).getLsbD i = false := BitVec.getLsbD_zero
  rw [packedWord, getLsbD_foldl_or, zero, Bool.false_or, List.any_map, List.any_eq_true]
  simp only [Function.comp]
  constructor
  · rintro ⟨f, member, set⟩
    obtain ⟨index, width, here, _, _, shape⟩ := packed.slot_of_field member
    rw [fieldBits, shape] at set
    simp only [IntKind.getLsbD_placed _ _ _ below, Bool.and_eq_true, decide_eq_true_eq] at set
    exact ⟨index, width, here, set.1.1, set.1.2, set.2⟩
  · rintro ⟨index, width, here, above, under, set⟩
    obtain ⟨f, member, shape⟩ := packed.field_of_slot here
    refine ⟨f, member, ?_⟩
    rw [fieldBits, shape]
    simp only [IntKind.getLsbD_placed _ _ _ below, Bool.and_eq_true, decide_eq_true_eq]
    exact ⟨⟨above, under⟩, set⟩

/-- At the place of a slot stand the low bits of its value. -/
theorem word_at_slot (packed : Packed backing kind widths group fields)
    (v : Nat → BitVec kind.bits) {index width : Nat} (here : widths[index]? = some width) {j : Nat}
    (inside : j < width) :
    (packedWord kind v fields).getLsbD (Shape.offset widths index + j) = (v index).getLsbD j := by
  have room := Nat.le_trans (Shape.offset_inside here) packed.fits
  rw [Bool.eq_iff_iff, packed.getLsbD_packedWord v (by omega)]
  constructor
  · rintro ⟨other, width', there, low, high, set⟩
    -- No other slot has the bit.
    rcases Nat.lt_trichotomy other index with before | rfl | after
    · have apart := Shape.offset_apart before here
      omega
    · rwa [Nat.add_sub_cancel_left] at set
    · have apart := Shape.offset_apart after there
      omega
  · intro set
    refine ⟨index, width, here, by omega, by omega, ?_⟩
    rwa [Nat.add_sub_cancel_left]

/-- Bits that no slot has are zero. -/
theorem word_elsewhere (packed : Packed backing kind widths group fields)
    (v : Nat → BitVec kind.bits) {i : Nat} (free : ∀ index width, widths[index]? = some width →
      ¬ (Shape.offset widths index ≤ i ∧ i < Shape.offset widths index + width)) :
    (packedWord kind v fields).getLsbD i = false := by
  by_cases below : i < kind.bits
  · rw [Bool.eq_false_iff]
    intro set
    obtain ⟨index, width, here, low, high, _⟩ := (packed.getLsbD_packedWord v below).mp set
    exact free index width here ⟨low, high⟩
  · exact BitVec.getLsbD_of_ge _ _ (Nat.le_of_not_lt below)

/-- The slots of the integer have the values that were put there, if they fit. -/
theorem members_of_word (packed : Packed backing kind widths group fields)
    {v : Nat → BitVec kind.bits}
    (holds : ∀ index width, widths[index]? = some width → kind.Holds width (v index)) :
    Layout.slotMembers (.int kind (packedWord kind v fields)) fields =
      fields.map fun f => (f.name, .int kind (v f.shape.slotIndex)) := by
  rw [Layout.slotMembers, ← List.filterMap_eq_map]
  refine List.filterMap_congr fun f member => ?_
  obtain ⟨index, width, here, positive, _, shape⟩ := packed.slot_of_field member
  have value : kind.part (Shape.offset widths index) width (packedWord kind v fields) = v index :=
    IntKind.part_eq_of_holds positive (holds index width here) fun j inside =>
      packed.word_at_slot v here inside
  simp only [shape, Shape.slotIndex, Layout.slotValue, Function.comp]
  exact congrArg (fun b => some (f.name, Value.int kind b)) value

/-- A struct value has the value of each slot under the name of its field. -/
theorem exists_fields (packed : Packed backing kind widths group fields)
    (v : Nat → BitVec kind.bits) : ∃ entries, packedValue kind v fields = .struct entries ∧
      ∀ f ∈ fields, Value.getField? f.name entries = some (.int kind (v f.shape.slotIndex)) := by
  obtain ⟨entries, same, found, _⟩ := Value.ofFields_map packed.distinct
    fun f => .int kind (v f.shape.slotIndex)
  exact ⟨entries, same, found⟩

theorem hookFree (packed : Packed backing kind widths group fields) {types : Refs} {f : Field}
    (member : f ∈ fields) : f.shape.HookFree types := by
  obtain ⟨_, _, _, _, _, shape⟩ := packed.slot_of_field member
  rw [shape]
  exact Shape.hookFree_slot _ _ _

end Packed

namespace Setting

variable {s : Setting} {widths : List Nat} {group : Nat} {fields : List Field}

/-- Decoders give every field the bits of its slot, extended. -/
theorem reads_packed (packed : Packed backing kind widths group fields) {raw : BitVec kind.bits}
    {used : List UInt8} (takes : Wire.Takes (Wire.read s.reader.order backing) used (.int kind raw)) :
    s.Reads (.packed backing widths fields group) used
      (.ofFields (Layout.slotMembers (.int kind raw) fields)) := by
  -- The value of a field, as far as it is a slot.
  let got (f : Field) : Value :=
    match f.shape with
    | .slot _ _ slot => Layout.slotValue (.int kind raw) slot
    | _ => .null
  have reads : ∀ f ∈ fields, s.ReadsUnder group (.int kind raw) f.shape [] (got f) := by
    intro f member
    obtain ⟨index, width, here, positive, inside, shape⟩ := packed.slot_of_field member
    have value : got f = .int kind (kind.part (Shape.offset widths index) width raw) := by
      simp only [got, shape]
      rfl
    rw [value, shape]
    refine reads_slot fun x e m made known => ?_
    have bound : (Expr.var x).Denotes s.reader (x.id + 1) m.env (.int kind raw) :=
      Expr.denotes_var known (Nat.lt_succ_self _)
    exact denotes_bitSlot packed.known packed.narrow positive inside bound made m (.refl _ _)
  have whole := reads_grouped (t := .packed backing widths fields group) rfl
    (fun f member => (packed.hookFree member).clean) takes reads
  have none : fields.flatMap (fun _ => ([] : List UInt8)) = [] := by simp
  have members : (fields.filter (·.shape.isStored)).map (fun f => (f.name, got f)) =
      Layout.slotMembers (.int kind raw) fields := by
    rw [Layout.slotMembers, ← List.filterMap_eq_map, ← List.filterMap_eq_filter,
      List.filterMap_filterMap]
    refine List.filterMap_congr fun f member => ?_
    obtain ⟨_, _, _, _, _, shape⟩ := packed.slot_of_field member
    simp [got, shape, Shape.isStored, Option.guard]
  rwa [none, List.append_nil, members] at whole

/-- Encoders write one integer. -/
theorem writes_packed (packed : Packed backing kind widths group fields)
    (v : Nat → BitVec kind.bits) :
    s.Writes (.packed backing widths fields group) (packedValue kind v fields)
      (Wire.intBytes s.writer.order backing kind (packedWord kind v fields).toNat) := by
  rintro src σ stmts ⟨ready, _, depth, τ, ran, emits, _⟩ m latest denotes stream
  obtain ⟨depth, type, σ₁, named, ran⟩ := runs_encodeGrouped rfl ran
  have quiet : σ₁.draft = σ.draft := quiet_structName _ _ _ _ _ named
  simp only [encodeFields, runs_bind, runs_ofExcept, runs_canonicalName, runs_emit,
    backingKind_of_known packed.known, Except.ok.injEq] at ran
  obtain ⟨_, σ₁, ⟨rfl, rfl⟩, owner, σ₁, ⟨rfl, rfl⟩, terms, σ₁, ⟨made, rfl⟩, rfl⟩ := ran
  obtain ⟨_, grows⟩ := emits.grows
  rw [← quiet] at grows
  cases grows.unique (σ₁.draft.grows_emit _) (quiet ▸ ready.opened)
  obtain ⟨entries, same, found⟩ := packed.exists_fields v
  rw [same] at denotes
  have each : List.Forall₂ (fun e b => e.Denotes s.writer σ.draft.nextLocal m.env (.int kind b))
      terms (fields.map (fieldBits kind v)) := by
    refine forall₂_of_mapM made fun f member e term => ?_
    obtain ⟨index, width, here, positive, inside, shape⟩ := packed.slot_of_field member
    have field := denotes.field f.name
    rw [found f member, Option.getD_some, shape] at field
    rw [fieldBits, shape]
    exact denotes_packedTerm shape packed.narrow positive inside field term
  obtain ⟨m', ran, _, stream'⟩ := Run.exec_write_int packed.known
    (Expr.denotes_orTerms each m (.refl _ _)) stream
  exact ⟨m', by rwa [Run.execBlock_single], stream'⟩

end Setting

/-! ### Generation succeeds -/

namespace Packed

variable {widths : List Nat} {group : Nat} {fields : List Field}

/-- Every slot is used by one field. -/
theorem slotsValid (packed : Packed backing kind widths group fields) (types : Refs)
    (owner : String) :
    (Shape.packed backing widths fields group).slotsValid types owner = .ok () := by
  have used : fields.mapM (Shape.packedFieldSlot owner group) =
      .ok (fields.map (·.shape.slotIndex)) := by
    refine mapM_of_forall fun f member => ?_
    obtain ⟨index, width, _, _, _, shape⟩ := packed.slot_of_field member
    simp [Shape.packedFieldSlot, shape, Shape.slotOf?, Shape.slotIndex]
  -- The fields are the slots in another order, so they use the numbers of the slots, each once.
  have numbers : (fields.map (·.shape.slotIndex)).Perm (List.range widths.length) := by
    have perm := packed.slots.map Shape.slotIndex
    rw [List.map_map, List.map_map] at perm
    have same : widths.zipIdx.map (Shape.slotIndex ∘ fun (width, index) =>
        Shape.bitSlot group backing widths index width) = widths.zipIdx.map (·.2) := rfl
    rwa [same, List.zipIdx_map_snd, ← List.range_eq_range'] at perm
  have valid : Shape.checkUses owner (fields.map (·.shape.slotIndex)) widths.length 0 = .ok () := by
    refine Shape.checkUses_of_once fun i _ below => ?_
    rw [numbers.count_eq, List.count_eq_one_of_mem List.nodup_range]
    exact List.mem_range.mpr (by omega)
  unfold Shape.slotsValid
  cases types.length <;>
    simp only [Shape.following, Shape.slotsValidWith, used] <;> exact valid

theorem clean (packed : Packed backing kind widths group fields) (hooks : Hooks) (types : Refs) :
    (Shape.packed backing widths fields group).Clean hooks types := by
  refine Shape.HookFree.clean (Shape.hookFree_of_parts nofun fun part member => ?_)
  obtain ⟨f, among, rfl⟩ := List.mem_map.mp member
  exact packed.hookFree among

/-- A packed struct can be generated. -/
theorem generates (packed : Packed backing kind widths group fields) (s : Setting) (depth : Nat) :
    s.Generates (depth + 3) (.packed backing widths fields group) := by
  refine Setting.generates_grouped rfl (packed.slotsValid s.types)
    (fun f member => (packed.hookFree member).clean) (packed.clean _ _) ?_ ?_ ?_
  · intro f member σ _
    obtain ⟨index, width, _, _, _, shape⟩ := packed.slot_of_field member
    rw [shape]
    exact succeeds_slotType index _ σ
  · intro f member raw groups
    obtain ⟨index, width, _, _, _, shape⟩ := packed.slot_of_field member
    rw [shape]
    obtain ⟨e, made⟩ : ∃ e, slotExpr (.var raw) (.bits (Shape.offset widths index) width backing) =
        .ok e := by
      simp only [slotExpr, backingKind_of_known packed.known]
      change ∃ e, (if kind.signed = true then _ else _) = Except.ok e
      split <;> split <;> exact ⟨_, rfl⟩
    exact proceeds_decodeSlot made
  · intro σ src _ _
    obtain ⟨terms, made⟩ : ∃ terms, fields.mapM (packedTerm
        ((Shape.packed backing widths fields group).canonicalName σ.refs) kind src) = .ok terms := by
      refine exists_mapM fun f member => ?_
      obtain ⟨index, width, _, _, _, shape⟩ := packed.slot_of_field member
      simp only [packedTerm, shape, Except.ok.injEq, exists_eq']
    exact ⟨_, runs_bind.mpr ⟨kind, σ, runs_ofExcept.mpr ⟨backingKind_of_known packed.known, rfl⟩,
      runs_bind.mpr ⟨_, σ, runs_canonicalName.mpr ⟨rfl, rfl⟩, runs_bind.mpr ⟨terms, σ,
        runs_ofExcept.mpr ⟨made, rfl⟩, runs_emit.mpr rfl⟩⟩⟩⟩

end Packed

/-! ### Fidelity -/

/-- Packed structs keep the bits of their fields, in whatever order the fields stand. The integer has
the low bits of every value at the place of its slot, above the slots that come later, and zeros
elsewhere. A decoder extends the bits of each slot, whatever the integer is, so values that fit come
back. -/
theorem Setting.packed_struct_keeps_bits (s : Setting) {backing : Primitive} {kind : IntKind}
    (known : backing.intKind? = some kind) (narrow : backing ≠ .u128) {widths : List Nat}
    (positive : ∀ width ∈ widths, 0 < width) (fits : total widths ≤ kind.bits) (group : Nat) :
    ∃ slots, Shape.packedSlots group backing widths = .ok slots ∧
      slots.length = widths.length ∧
      (∀ index width, widths[index]? = some width → slots[index]? = some
        (Shape.slot group index (.bits (total (widths.drop (index + 1))) width backing))) ∧
      ∀ fields : List Field, (fields.map (·.shape)).Perm slots → (fields.map (·.name)).Nodup →
        (∀ depth ≥ 3, s.Generates depth (.packed backing widths fields group)) ∧
        (∀ v : Nat → BitVec kind.bits, ∃ word : BitVec kind.bits,
          (∀ index width, widths[index]? = some width → ∀ j < width,
            word.getLsbD (total (widths.drop (index + 1)) + j) = (v index).getLsbD j) ∧
          (∀ i, (∀ index width, widths[index]? = some width →
              ¬ (total (widths.drop (index + 1)) ≤ i ∧
                i < total (widths.drop (index + 1)) + width)) → word.getLsbD i = false) ∧
          s.Writes (.packed backing widths fields group) (packedValue kind v fields)
            (Wire.intBytes s.writer.order backing kind word.toNat) ∧
          ((∀ index width, widths[index]? = some width → kind.Holds width (v index)) →
            s.Decodes (.packed backing widths fields group)
              (Wire.intBytes s.writer.order backing kind word.toNat)
              (packedValue kind v fields))) ∧
        ∀ (raw : BitVec kind.bits) used,
          Wire.Takes (Wire.read s.reader.order backing) used (.int kind raw) →
          s.Decodes (.packed backing widths fields group) used
            (.ofFields (Layout.slotMembers (.int kind raw) fields)) := by
  -- Only one primitive has the widest unsigned type.
  have small : kind ≠ .u128 := by
    rintro rfl
    cases backing <;> first | exact narrow rfl | cases known
  refine ⟨_, Shape.packedSlots_eq known positive fits, by simp, fun index width here => ?_,
    fun fields slots distinct => ?_⟩
  · rw [List.getElem?_map, List.getElem?_zipIdx, here, Option.map_some, Option.map_some,
      Nat.zero_add]
    rfl
  have packed : Packed backing kind widths group fields :=
    ⟨known, small, positive, fits, slots, distinct⟩
  refine ⟨fun depth deep => ?_, fun v => ?_, fun raw used takes => (s.reads_packed packed takes).decodes⟩
  · obtain ⟨depth, rfl⟩ := Nat.exists_eq_add_of_le' deep
    exact packed.generates s depth
  · refine ⟨packedWord kind v fields, fun index width here j inside => packed.word_at_slot v here inside,
      fun i free => packed.word_elsewhere v free, s.writes_packed packed v, fun holds => ?_⟩
    have takes := Wire.takes_read_int s.writer.order known (packedWord kind v fields)
    rw [s.order] at takes ⊢
    have reads := s.reads_packed packed takes
    rw [packed.members_of_word holds] at reads
    exact reads.decodes

/-- A signed byte with a slot of three bits and one of five, whose fields stand the other way
round. -/
theorem Setting.packed_struct_keeps_bits_swapped :
    let slot := Shape.bitSlot 0 .i8 [3, 5]
    let t : Shape := .packed .i8 [3, 5] [{ name := "low", shape := slot 1 5 },
      { name := "high", shape := slot 0 3 }] 0
    let v : Value := .ofFields [("low", .int .i8 13#8), ("high", .int .i8 253#8)]
    (Setting.plain .little).Generates 3 t ∧ (Setting.plain .little).Writes t v [0xad] ∧
      (Setting.plain .little).Decodes t [0xad] v := by
  have positive : ∀ width ∈ [3, 5], 0 < width := by decide
  obtain ⟨slots, made, _, _, all⟩ :=
    (Setting.plain .little).packed_struct_keeps_bits (show Primitive.i8.intKind? = some .i8 from rfl)
      (by decide) positive (by decide) 0
  cases made
  obtain ⟨generates, carried, _⟩ := all [{ name := "low", shape := Shape.bitSlot 0 .i8 [3, 5] 1 5 },
    { name := "high", shape := Shape.bitSlot 0 .i8 [3, 5] 0 3 }] (List.Perm.swap _ _ _) (by decide)
  obtain ⟨word, here, _, writes, decodes⟩ := carried fun index => if index = 0 then 253#8 else 13#8
  -- What is known of the integer are the bits of each slot.
  have whole : word = 0xad#8 := by
    have low (i : Nat) (below : i < 5) : word.getLsbD i = (0xad#8).getLsbD i := by
      have bit : word.getLsbD (0 + i) = (13#8).getLsbD i := here 1 5 rfl i below
      rw [Nat.zero_add] at bit
      rw [bit]
      clear bit
      revert i
      decide
    have high (i : Nat) (below : i < 3) : word.getLsbD (5 + i) = (0xad#8).getLsbD (5 + i) := by
      rw [show word.getLsbD (5 + i) = (253#8).getLsbD i from here 0 3 rfl i below]
      revert i
      decide
    apply BitVec.eq_of_getLsbD_eq
    intro i below
    by_cases first : i < 5
    · exact low i first
    · have later := high (i - 5) (by change i < 8 at below; omega)
      rwa [Nat.add_sub_cancel' (Nat.le_of_not_lt first)] at later
  subst whole
  refine ⟨generates 3 (Nat.le_refl 3), writes, decodes fun index width found => ?_⟩
  match index, found with
  | 0, rfl => decide
  | 1, rfl => decide

end WireSchema
