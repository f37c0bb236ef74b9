import WireSchema.Machine.Eval

/-!
# Calculations on integers

Calculations take place in 128-bit two's complement and are cut to the type of the left operand. For
every type the low bits come out as integers of that type have them, so masks, unions, comparisons
and moves to the left are exact. A move to the right brings in what stands above the type: copies of
the sign, or zeros. Only the widest unsigned integers have nothing above them, and come out as if
their highest bit were a sign.
-/

namespace WireSchema

open Ir

namespace IntKind

variable (kind : IntKind)

theorem bits_le : kind.bits ≤ 128 := by cases kind <;> decide

/-- The number that calculations see in an integer has its bits. -/
@[simp]
theorem ofInt_view (b : BitVec kind.bits) : BitVec.ofInt kind.bits (kind.view b) = b := by
  unfold view
  split
  · exact BitVec.ofInt_toInt
  · rw [BitVec.ofInt_natCast, BitVec.ofNat_toNat, BitVec.setWidth_eq]

/-- The bits of an integer in a calculation. -/
abbrev wide (b : BitVec kind.bits) : BitVec 128 := BitVec.ofInt 128 (kind.view b)

/-- A result is cut to its low bits. -/
theorem ofInt_toInt (x : BitVec 128) : BitVec.ofInt kind.bits x.toInt = x.setWidth kind.bits :=
  BitVec.signExtend_eq_setWidth_of_le x kind.bits_le

theorem getLsbD_wide (b : BitVec kind.bits) {i : Nat} (inside : i < kind.bits) :
    (kind.wide b).getLsbD i = b.getLsbD i := by
  have low := kind.bits_le
  unfold wide view
  split
  · change (b.signExtend 128).getLsbD i = _
    rw [BitVec.getLsbD_signExtend, if_pos inside]
    simp
    omega
  · rw [BitVec.ofInt_natCast, BitVec.getLsbD_ofNat, BitVec.getLsbD]
    simp
    omega

/-- An integer of the type moved right: copies of the sign come in, or zeros. -/
def shiftRight (a : BitVec kind.bits) (n : Nat) : BitVec kind.bits :=
  if kind.signed then a.sshiftRight n else a >>> n

end IntKind

namespace Run

variable (kind : IntKind) (a b : BitVec kind.bits)

/-- A calculation on integers. -/
theorem binary_int {op : BinOp} (calculates : op ≠ .eq ∧ op ≠ .ne) (count : IntKind)
    (n : BitVec count.bits) : binary op (.int kind a) (.int count n) =
      pure (.int kind (BitVec.ofInt kind.bits (combine op (kind.view a) (count.view n)))) := by
  cases op with
  | eq => exact absurd rfl calculates.1
  | ne => exact absurd rfl calculates.2
  | shl | shr | bitAnd | bitOr => rfl

theorem binary_bitAnd : binary .bitAnd (.int kind a) (.int kind b) = pure (.int kind (a &&& b)) := by
  have bits : BitVec.ofInt kind.bits (kind.wide a &&& kind.wide b).toInt = a &&& b := by
    rw [kind.ofInt_toInt]
    apply BitVec.eq_of_getLsbD_eq
    intro i inside
    simp [inside, kind.getLsbD_wide]
  rw [binary_int kind a (by decide), combine, bits]

theorem binary_bitOr : binary .bitOr (.int kind a) (.int kind b) = pure (.int kind (a ||| b)) := by
  have bits : BitVec.ofInt kind.bits (kind.wide a ||| kind.wide b).toInt = a ||| b := by
    rw [kind.ofInt_toInt]
    apply BitVec.eq_of_getLsbD_eq
    intro i inside
    simp [inside, kind.getLsbD_wide]
  rw [binary_int kind a (by decide), combine, bits]

theorem shiftAmount_natCast {n : Nat} (small : n < 128) : shiftAmount n = n := by
  rw [shiftAmount, BitVec.ofInt_natCast, BitVec.toNat_ofNat]
  exact Nat.mod_eq_of_lt (by omega)

/-- Bits that are moved out on the left are lost. -/
theorem binary_shl {count : IntKind} {amount : BitVec count.bits} {n : Nat}
    (same : count.view amount = n) (inside : n < kind.bits) :
    binary .shl (.int kind a) (.int count amount) = pure (.int kind (a <<< n)) := by
  have low := kind.bits_le
  have small : n < 128 := by omega
  have bits : BitVec.ofInt kind.bits (shiftLeft (kind.wide a) (shiftAmount n)).toInt = a <<< n := by
    rw [kind.ofInt_toInt, shiftAmount_natCast small, shiftLeft, if_pos small]
    apply BitVec.eq_of_getLsbD_eq
    intro i below
    have earlier : i - n < kind.bits := by omega
    have below' : i < 128 := by omega
    rw [BitVec.getLsbD_setWidth, BitVec.getLsbD_shiftLeft, BitVec.getLsbD_shiftLeft,
      kind.getLsbD_wide a earlier]
    simp [below, below']
  rw [binary_int kind a (by decide), same, combine, bits]

/-- What comes in on the left is what calculations see above the type. -/
theorem binary_shr {count : IntKind} {amount : BitVec count.bits} {n : Nat}
    (same : count.view amount = n) (inside : n < kind.bits) :
    binary .shr (.int kind a) (.int count amount) = pure (.int kind
      (if kind.signed || kind.bits == 128 then a.sshiftRight n else a >>> n)) := by
  have low := kind.bits_le
  have small : n < 128 := by omega
  have bits : BitVec.ofInt kind.bits (kind.view a >>> min (shiftAmount n) 127) =
      if kind.signed || kind.bits == 128 then a.sshiftRight n else a >>> n := by
    rw [shiftAmount_natCast small, Nat.min_eq_left (by omega)]
    unfold IntKind.view
    split
    · rw [← BitVec.toInt_sshiftRight, BitVec.ofInt_toInt]
    · apply BitVec.eq_of_toNat_eq
      rw [← Int.natCast_shiftRight, BitVec.ofInt_natCast, BitVec.toNat_ofNat,
        BitVec.toNat_ushiftRight]
      exact Nat.mod_eq_of_lt (Nat.lt_of_le_of_lt (Nat.shiftRight_le _ _) a.isLt)
  rw [binary_int kind a (by decide), same, combine, bits]

/-- Integers of one type are the same number exactly when they have the same bits. -/
theorem sameValue_int : sameValue (.int kind a) (.int kind b) = (a == b) := by
  change (kind.view a == kind.view b) = (a == b)
  rw [Bool.eq_iff_iff, beq_iff_eq, beq_iff_eq]
  constructor
  · intro same
    rw [← kind.ofInt_view a, same, kind.ofInt_view]
  · rintro rfl
    rfl

theorem binary_eq : binary .eq (.int kind a) (.int kind b) = pure (.bool (a == b)) :=
  congrArg (fun same => pure (Value.bool same)) (sameValue_int kind a b)

theorem binary_ne : binary .ne (.int kind a) (.int kind b) = pure (.bool (a != b)) :=
  congrArg (fun same => pure (Value.bool !same)) (sameValue_int kind a b)

/-- Only copies of a sign that is set tell the two ways to move right apart. -/
theorem sshiftRight_eq_ushiftRight_iff {w : Nat} (a : BitVec w) {n : Nat} (inside : n < w) :
    a.sshiftRight n = a >>> n ↔ ¬ (a.msb = true ∧ 0 < n) := by
  constructor
  · rintro same ⟨negative, moved⟩
    -- The highest bit is the sign on one side, and comes from beyond the bits on the other.
    have top := congrArg (·.getLsbD (w - 1)) same
    have beyond : ¬ n + (w - 1) < w := by omega
    simp only [BitVec.getLsbD_sshiftRight, if_neg beyond, negative, BitVec.getLsbD_ushiftRight,
      BitVec.getLsbD_of_ge a _ (Nat.le_of_not_lt beyond)] at top
    simp at top
    omega
  · intro plain
    by_cases moved : n = 0
    · subst moved
      simp
    · have positive : a.msb = false :=
        Bool.eq_false_iff.mpr fun negative => plain ⟨negative, Nat.pos_of_ne_zero moved⟩
      exact BitVec.sshiftRight_eq_of_msb_false positive

theorem pure_injective {v w : Value} (same : (pure v : Run Value) = pure w) : v = w := by
  have outcome := congrFun same { env := [], stream := .output [] }
  cases outcome
  rfl

/-- Operations on integers of one type give what integers of that type give, except for one: an
unsigned 128-bit integer whose highest bit is set, moved to the right. -/
theorem binary_as_typed_integers :
    binary .bitAnd (.int kind a) (.int kind b) = pure (.int kind (a &&& b)) ∧
    binary .bitOr (.int kind a) (.int kind b) = pure (.int kind (a ||| b)) ∧
    binary .eq (.int kind a) (.int kind b) = pure (.bool (a == b)) ∧
    binary .ne (.int kind a) (.int kind b) = pure (.bool (a != b)) ∧
    ∀ (count : IntKind) (amount : BitVec count.bits) (n : Nat), count.view amount = n →
      n < kind.bits →
      binary .shl (.int kind a) (.int count amount) = pure (.int kind (a <<< n)) ∧
      (binary .shr (.int kind a) (.int count amount) = pure (.int kind (kind.shiftRight a n)) ↔
        ¬ (kind = .u128 ∧ a.msb = true ∧ 0 < n)) := by
  refine ⟨binary_bitAnd kind a b, binary_bitOr kind a b, binary_eq kind a b, binary_ne kind a b, ?_⟩
  intro count amount n same inside
  refine ⟨binary_shl kind a same inside, ?_⟩
  rw [binary_shr kind a same inside]
  have injective (x y : BitVec kind.bits) :
      (pure (.int kind x) : Run Value) = pure (.int kind y) ↔ x = y := by
    constructor
    · intro alike
      cases pure_injective alike
      rfl
    · rintro rfl
      rfl
  rw [injective, IntKind.shiftRight]
  by_cases widest : kind = .u128
  · subst widest
    have facts := sshiftRight_eq_ushiftRight_iff a inside
    simpa [IntKind.signed, IntKind.bits] using facts
  · have narrow : (kind.bits == 128) = false := by
      cases kind <;> first | rfl | exact absurd rfl widest
    simp [narrow, widest]

-- The highest bit of 128 alone, moved by one place: the sign would be copied, a zero should come in.
example : (BitVec.twoPow 128 127).sshiftRight 1 ≠ BitVec.twoPow 128 127 >>> 1 := by decide

end Run

end WireSchema
