import WireSchema.Proofs.Wire.Integers

/-!
# Integers in groups of seven bits

A numeral is a piece of bytes of which all but the last say that another group follows. Any bytes
begin with a numeral that is short enough, or with too many groups, or end before either; reading
yields the number of the numeral, or says which of the others it met. What is written for a number is
a numeral of it, and no other one is shorter.

## Main results

* `takeGroups_run`: what reading does on any bytes.
* `groups_shortest`: no numeral of the number is shorter than the one that is written.
-/

namespace WireSchema.Wire

/-- The high bit of the byte is set: another group follows. -/
def Continues (b : UInt8) : Prop := 128 ≤ b.toNat

instance (b : UInt8) : Decidable (Continues b) := inferInstanceAs (Decidable (128 ≤ b.toNat))

/-- The number whose groups of seven bits, least significant first, are in the bytes. -/
def septets : List UInt8 → Nat
  | [] => 0
  | b :: rest => b.toNat % 128 + 128 * septets rest

/-- A group follows each of the bytes but the last. -/
def IsNumeral (bytes : List UInt8) : Prop :=
  ∃ marked last, bytes = marked ++ [last] ∧ (∀ b ∈ marked, Continues b) ∧ ¬ Continues last

theorem isNumeral_single {b : UInt8} (last : ¬ Continues b) : IsNumeral [b] :=
  ⟨[], b, rfl, nofun, last⟩

theorem IsNumeral.cons {b : UInt8} {bytes : List UInt8} (more : Continues b)
    (numeral : IsNumeral bytes) : IsNumeral (b :: bytes) := by
  obtain ⟨marked, last, rfl, continues, ends⟩ := numeral
  exact ⟨b :: marked, last, rfl, List.forall_mem_cons.mpr ⟨more, continues⟩, ends⟩

theorem not_isNumeral_nil : ¬ IsNumeral [] := by
  rintro ⟨marked, last, same, -⟩
  simp at same

/-- A numeral is one byte that no group follows, or a byte with a numeral behind it. -/
theorem isNumeral_cons_iff {b : UInt8} {bytes : List UInt8} :
    IsNumeral (b :: bytes) ↔
      (¬ Continues b ∧ bytes = []) ∨ (Continues b ∧ IsNumeral bytes) := by
  constructor
  · rintro ⟨marked, last, same, continues, ends⟩
    cases marked with
    | nil =>
      cases same
      exact .inl ⟨ends, rfl⟩
    | cons first marked =>
      cases same
      obtain ⟨more, continues⟩ := List.forall_mem_cons.mp continues
      exact .inr ⟨more, marked, last, rfl, continues, ends⟩
  · rintro (⟨ends, rfl⟩ | ⟨more, numeral⟩)
    · exact isNumeral_single ends
    · exact numeral.cons more

/-- The numeral in front of some bytes is the only one. -/
theorem IsNumeral.unique {numeral numeral' rest rest' : List UInt8} (is : IsNumeral numeral)
    (is' : IsNumeral numeral') (same : numeral ++ rest = numeral' ++ rest') :
    numeral = numeral' ∧ rest = rest' := by
  induction numeral generalizing numeral' with
  | nil => exact absurd is not_isNumeral_nil
  | cons b more ih =>
    cases numeral' with
    | nil => exact absurd is' not_isNumeral_nil
    | cons b' more' =>
      obtain ⟨rfl, behind⟩ := List.cons.inj same
      rcases isNumeral_cons_iff.mp is with ⟨ends, rfl⟩ | ⟨continues, is⟩ <;>
        rcases isNumeral_cons_iff.mp is' with ⟨ends', rfl⟩ | ⟨continues', is'⟩
      · exact ⟨rfl, behind⟩
      · exact absurd continues' ends
      · exact absurd continues ends'
      · obtain ⟨rfl, rfl⟩ := ih is is' behind
        exact ⟨rfl, rfl⟩

/-- Some byte of a numeral has no group behind it. -/
theorem IsNumeral.not_forall {numeral : List UInt8} (is : IsNumeral numeral) :
    ¬ ∀ b ∈ numeral, Continues b := by
  obtain ⟨marked, last, rfl, -, ends⟩ := is
  exact fun all => ends (all last (by simp))

theorem septets_lt (bytes : List UInt8) : septets bytes < 128 ^ bytes.length := by
  induction bytes with
  | nil => simp [septets]
  | cons b rest ih =>
    rw [septets, List.length_cons, Nat.pow_succ]
    omega

/-! ### Writing -/

/-- What is written for a number that fits is a numeral of it. -/
theorem groups_spec (limit : Nat) {n : Nat} (fits : n < 128 ^ (limit + 1)) :
    IsNumeral (groups (limit + 1) n) ∧ septets (groups (limit + 1) n) = n ∧
      (groups (limit + 1) n).length ≤ limit + 1 := by
  induction limit generalizing n with
  | zero =>
    have small : n < 128 := by simpa using fits
    have byte : (UInt8.ofNat n).toNat = n := by
      rw [UInt8.toNat_ofNat', Nat.mod_eq_of_lt (by omega)]
    rw [groups, if_pos small]
    refine ⟨isNumeral_single ?_, ?_, by simp⟩
    · rw [Continues, byte]
      omega
    · simp only [septets, byte]
      omega
  | succ limit ih =>
    rw [groups]
    by_cases small : n < 128
    · have byte : (UInt8.ofNat n).toNat = n := by
        rw [UInt8.toNat_ofNat', Nat.mod_eq_of_lt (by omega)]
      rw [if_pos small]
      refine ⟨isNumeral_single ?_, ?_, by simp⟩
      · rw [Continues, byte]
        omega
      · simp only [septets, byte]
        omega
    · have byte : (UInt8.ofNat (n % 128 + 128)).toNat = n % 128 + 128 := by
        rw [UInt8.toNat_ofNat', Nat.mod_eq_of_lt (by omega)]
      have high : n / 128 < 128 ^ (limit + 1) := by
        rw [Nat.div_lt_iff_lt_mul (by decide)]
        rwa [Nat.pow_succ] at fits
      obtain ⟨numeral, number, length⟩ := ih high
      rw [if_neg small]
      refine ⟨numeral.cons ?_, ?_, by rw [List.length_cons]; omega⟩
      · rw [Continues, byte]
        omega
      · rw [septets, byte, number]
        omega

/-- A number below a power of 128 takes no more groups than the exponent says. -/
theorem length_groups_le (limit : Nat) {n k : Nat} (fits : n < 128 ^ (k + 1)) :
    (groups limit n).length ≤ k + 1 := by
  induction limit generalizing n k with
  | zero => simp [groups]
  | succ limit ih =>
    rw [groups]
    by_cases small : n < 128
    · rw [if_pos small]
      simp
    · rw [if_neg small, List.length_cons]
      cases k with
      | zero => exact absurd (by simpa using fits) small
      | succ k =>
        have high : n / 128 < 128 ^ (k + 1) := by
          rw [Nat.div_lt_iff_lt_mul (by decide)]
          rwa [Nat.pow_succ] at fits
        have := ih high
        omega

/-- No numeral of a number is shorter than the one that is written, also if numbers count up to a
multiple of `modulus` only, as long as that many do not fit into one group less than `limit`. -/
theorem groups_shortest {limit modulus n : Nat} (room : 128 ^ limit ≤ modulus)
    (fits : n < 128 ^ (limit + 1)) {other : List UInt8} (numeral : IsNumeral other)
    (same : septets other % modulus = n) : (groups (limit + 1) n).length ≤ other.length := by
  have written := (groups_spec limit fits).2.2
  by_cases long : limit < other.length
  · omega
  · have bounded : septets other < modulus :=
      calc septets other < 128 ^ other.length := septets_lt other
        _ ≤ 128 ^ limit := Nat.pow_le_pow_right (by decide) (by omega)
        _ ≤ modulus := room
    rw [Nat.mod_eq_of_lt bounded] at same
    cases length : other.length with
    | zero =>
      rw [List.length_eq_zero_iff.mp length] at numeral
      exact absurd numeral not_isNumeral_nil
    | succ k =>
      refine length_groups_le _ ?_
      rw [← same, ← length]
      exact septets_lt other

/-! ### Reading -/

theorem takeByte_cons (b : UInt8) (rest : List UInt8) (position : Nat) :
    (takeNumber .little 1).run ⟨b :: rest, position⟩ = (.ok b.toNat, ⟨rest, position + 1⟩) := by
  rw [takeNumber, bind_run, take_run, if_pos (by simp)]
  rfl

theorem takeByte_nil (position : Nat) :
    (takeNumber .little 1).run ⟨[], position⟩ = (.error .unexpectedEnd, ⟨[], position⟩) := by
  rw [takeNumber, bind_run, take_run, if_neg (by simp)]
  rfl

/-- What reading at most `fuel` groups does on some bytes. -/
inductive GroupsRead (limit : Nat) (input : List UInt8) (position fuel : Nat) :
    Except DecodeError Nat × Reader → Prop
  | number {numeral rest : List UInt8} (whole : input = numeral ++ rest) (is : IsNumeral numeral)
      (short : numeral.length ≤ fuel) :
      GroupsRead limit input position fuel
        (.ok (septets numeral), ⟨rest, position + numeral.length⟩)
  | tooMany (long : fuel ≤ input.length) (continues : ∀ b ∈ input.take fuel, Continues b) :
      GroupsRead limit input position fuel
        (.error (.malformedVarint limit), ⟨input.drop fuel, position + fuel⟩)
  | ended (short : input.length < fuel) (continues : ∀ b ∈ input, Continues b) :
      GroupsRead limit input position fuel
        (.error .unexpectedEnd, ⟨[], position + input.length⟩)

/-- A byte that another follows is put in front of what is read behind it. -/
theorem GroupsRead.cons {limit : Nat} {b : UInt8} {rest : List UInt8} {position fuel : Nat}
    {read : Except DecodeError Nat × Reader} (more : Continues b)
    (behind : GroupsRead limit rest (position + 1) fuel read) :
    GroupsRead limit (b :: rest) position (fuel + 1)
      (read.1.map (fun high => b.toNat - 128 + 128 * high), read.2) := by
  have byte : b.toNat < 256 := b.toNat_lt
  have shift (n : Nat) : position + 1 + n = position + (n + 1) := by omega
  cases behind with
  | number whole is short =>
    rename_i numeral tail
    have low : b.toNat % 128 = b.toNat - 128 := by
      rw [Continues] at more
      omega
    have longer : GroupsRead limit (b :: rest) position (fuel + 1)
        (.ok (septets (b :: numeral)), ⟨tail, position + (b :: numeral).length⟩) :=
      .number (by rw [whole]; rfl) (is.cons more) (by rw [List.length_cons]; omega)
    rw [septets, low, List.length_cons, ← shift] at longer
    exact longer
  | tooMany long continues =>
    rw [shift]
    exact .tooMany (by rw [List.length_cons]; omega) (List.forall_mem_cons.mpr ⟨more, continues⟩)
  | ended short continues =>
    rw [shift]
    exact .ended (by rw [List.length_cons]; omega) (List.forall_mem_cons.mpr ⟨more, continues⟩)

theorem takeGroups_run (limit fuel : Nat) (input : List UInt8) (position : Nat) :
    GroupsRead limit input position fuel ((takeGroups limit fuel).run ⟨input, position⟩) := by
  induction fuel generalizing input position with
  | zero => exact .tooMany (Nat.zero_le _) nofun
  | succ fuel ih =>
    rw [takeGroups, bind_run]
    cases input with
    | nil =>
      rw [takeByte_nil]
      exact .ended (Nat.succ_pos fuel) nofun
    | cons b rest =>
      rw [takeByte_cons]
      simp only
      by_cases small : b.toNat < 128
      · rw [if_pos small]
        have ends : ¬ Continues b := by rw [Continues]; omega
        have number : GroupsRead limit (b :: rest) position (fuel + 1)
            (.ok (septets [b]), ⟨rest, position + [b].length⟩) :=
          .number rfl (isNumeral_single ends) (by simp)
        rw [septets, septets, Nat.mod_eq_of_lt small] at number
        exact number
      · rw [if_neg small, bind_run]
        have more : Continues b := by rw [Continues]; omega
        have whole := (ih rest (position + 1)).cons more
        generalize (takeGroups limit fuel).run ⟨rest, position + 1⟩ = read at whole
        obtain ⟨result, reader⟩ := read
        cases result <;> exact whole

end WireSchema.Wire
