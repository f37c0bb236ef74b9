import WireSchema.Proofs.Session.Signatures
import WireSchema.Session.Gen
import Mathlib.Data.List.Nodup
import Mathlib.Data.List.Perm.Subperm
import Mathlib.Tactic.ByContra

/-!
# Names of declarations

Names that come from hints have no underscores, so they never clash with the functions of codecs.
A name that is taken gets a number, and the numbers suffice.
-/

namespace WireSchema

namespace Text

/-- Whether no character of a run is moved to the underscore. -/
def sparesUnderscore : Nat × Nat × Nat × Int → Bool
  | (first, last, _, distance) => 95 < first + distance || last + distance < 95

theorem char_ofNat_ne_underscore {n : Nat} (other : n ≠ 95) : Char.ofNat n ≠ '_' := by
  intro same
  by_cases valid : n.isValidChar
  · have code : (Char.ofNat n).toNat = n := by
      rw [Char.ofNat, dif_pos valid]
      rfl
    rw [same] at code
    exact other code.symm
  · rw [Char.ofNat, dif_neg valid] at same
    exact absurd same (by decide)

theorem underscore_mapCase {runs : List (Nat × Nat × Nat × Int)} {expansions : List (Nat × List Nat)}
    (moved : runs.all sparesUnderscore = true)
    (listed : expansions.all (fun entry => !entry.2.contains 95) = true) {c : Char}
    (other : c ≠ '_') : '_' ∉ mapCase runs expansions c := by
  unfold mapCase
  split
  case h_1 source image found =>
    have listed := List.all_eq_true.mp listed _ (List.mem_of_find?_eq_some found)
    intro member
    obtain ⟨n, inside, same⟩ := List.mem_map.mp member
    refine char_ofNat_ne_underscore (fun code => ?_) same
    rw [code] at inside
    simp [inside] at listed
  case h_2 =>
    have away : (c.toNat + shiftOf runs c.toNat).toNat ≠ 95 := by
      unfold shiftOf
      split
      case h_1 first last step distance found =>
        have spared := List.all_eq_true.mp moved _ (List.mem_of_find?_eq_some found)
        have inside := List.find?_some found
        simp only [Bool.and_eq_true, decide_eq_true_eq] at inside
        simp only [sparesUnderscore, Bool.or_eq_true, decide_eq_true_eq] at spared
        omega
      case h_2 =>
        intro code
        have code : c.toNat = '_'.toNat := by
          simpa using code
        exact other (Char.toNat_inj.mp code)
    intro member
    exact char_ofNat_ne_underscore away (List.mem_singleton.mp member).symm

theorem char_toUpper_ne_underscore {c : Char} (other : c ≠ '_') : c.toUpper ≠ '_' := by
  unfold Char.toUpper
  split
  case isTrue lower =>
    intro same
    have code := congrArg (fun c => c.val.toNat) same
    have low : 97 ≤ c.val.toNat := lower.1
    have high : c.val.toNat ≤ 122 := lower.2
    have distance : ('A'.val - 'a'.val).toNat = 4294967264 := by decide
    have underscore : '_'.val.toNat = 95 := by decide
    simp only [UInt32.toNat_add, distance, underscore] at code
    omega
  case isFalse => exact other

theorem char_toLower_ne_underscore {c : Char} (other : c ≠ '_') : c.toLower ≠ '_' := by
  unfold Char.toLower
  split
  case isTrue upper =>
    intro same
    have code := congrArg (fun c => c.val.toNat) same
    have low : 65 ≤ c.val.toNat := upper.1
    have high : c.val.toNat ≤ 90 := upper.2
    have distance : ('a'.val - 'A'.val).toNat = 32 := by decide
    have underscore : '_'.val.toNat = 95 := by decide
    simp only [UInt32.toNat_add, distance, underscore] at code
    omega
  case isFalse => exact other

theorem underscore_toUpper {c : Char} (other : c ≠ '_') : '_' ∉ toUpper c := by
  unfold toUpper
  split
  · rw [List.mem_singleton]
    exact (char_toUpper_ne_underscore other).symm
  · exact underscore_mapCase (by decide) (by decide) other

theorem underscore_toLower {c : Char} (other : c ≠ '_') : '_' ∉ toLower c := by
  unfold toLower
  split
  · rw [List.mem_singleton]
    exact (char_toLower_ne_underscore other).symm
  · exact underscore_mapCase (by decide) (by decide) other

theorem mem_humps (mode : CaseMode) (read text : List Char) {word : List Char} {c : Char}
    (found : word ∈ humps mode read text) (inside : c ∈ word) : c ∈ read ∨ c ∈ text := by
  induction mode, read, text using humps.induct with
  | case1 mode read => cases found
  | case2 mode read first =>
    cases List.mem_singleton.mp found
    simpa using inside
  | case3 mode read first next rest ends ih =>
    rw [humps, if_pos ends] at found
    rcases List.mem_cons.mp found with rfl | later
    · have here : c ∈ first :: read := by simpa [or_comm] using inside
      rcases List.mem_cons.mp here with rfl | early
      · exact .inr (by simp)
      · exact .inl early
    · rcases ih later with none | after
      · cases none
      · exact .inr (List.mem_cons_of_mem _ after)
  | case4 mode read first next rest goes ends ih =>
    rw [humps, if_neg goes, if_pos ends] at found
    rcases List.mem_cons.mp found with rfl | later
    · exact .inl (by simpa using inside)
    · rcases ih later with one | after
      · exact .inr (by simp [List.mem_singleton.mp one])
      · exact .inr (List.mem_cons_of_mem _ after)
  | case5 mode read first next rest goes stays ih =>
    rw [humps, if_neg goes, if_neg stays] at found
    rcases ih found with early | after
    · rcases List.mem_cons.mp early with rfl | early
      · exact .inr (by simp)
      · exact .inl early
    · exact .inr (List.mem_cons_of_mem _ after)

theorem mem_runs (read text : List Char) {run : List Char} {c : Char} (found : run ∈ runs read text)
    (inside : c ∈ run) : c ∈ read ∨ isAlphanumeric c = true := by
  induction text generalizing read with
  | nil =>
    cases List.mem_singleton.mp found
    exact .inl (by simpa using inside)
  | cons first rest ih =>
    rw [runs] at found
    split at found
    case isTrue letter =>
      rcases ih _ found with early | letter'
      · rcases List.mem_cons.mp early with rfl | early
        · exact .inr letter
        · exact .inl early
      · exact .inr letter'
    case isFalse =>
      rcases List.mem_cons.mp found with rfl | later
      · exact .inl (by simpa using inside)
      · rcases ih _ later with none | letter
        · cases none
        · exact .inr letter

/-- No word has an underscore. -/
theorem underscore_words {text word : List Char} (found : word ∈ words text) : '_' ∉ word := by
  obtain ⟨run, among, hump⟩ := List.mem_flatMap.mp found
  intro inside
  rcases mem_humps _ _ _ hump inside with none | inside
  · cases none
  · rcases mem_runs _ _ among inside with none | letter
    · cases none
    · exact absurd letter (by decide)

theorem underscore_lowerWord {word : List Char} (plain : '_' ∉ word) : '_' ∉ lowerWord word := by
  induction word using lowerWord.induct with
  | case1 => exact plain
  | case2 => simp [lowerWord]
  | case3 c other =>
    rw [lowerWord, if_neg other]
    exact underscore_toLower fun same => plain (by simp [same])
  | case4 c next rest ih =>
    rw [lowerWord, List.mem_append, not_or]
    exact ⟨underscore_toLower fun same => plain (by simp [same]),
      ih fun later => plain (List.mem_cons_of_mem _ later)⟩

theorem underscore_capitalWord {word : List Char} (plain : '_' ∉ word) : '_' ∉ capitalWord word := by
  cases word with
  | nil => exact plain
  | cons c rest =>
    rw [capitalWord, List.mem_append, not_or]
    exact ⟨underscore_toUpper fun same => plain (by simp [same]),
      underscore_lowerWord fun later => plain (List.mem_cons_of_mem _ later)⟩

theorem underscore_upperCamel (text : String) : '_' ∉ (upperCamel text).toList := by
  rw [upperCamel, String.toList_ofList]
  intro found
  obtain ⟨word, among, inside⟩ := List.mem_flatMap.mp found
  exact underscore_capitalWord (underscore_words among) inside

end Text

/-- The name of a type has no underscore, whatever it is made from. -/
theorem Naming.underscore_typeName (raw : String) : '_' ∉ (typeName raw).toList := by
  have plain := Text.underscore_upperCamel raw
  unfold typeName
  dsimp only
  split
  · decide
  · split
    · rw [String.toList_append, List.mem_append, not_or]
      exact ⟨by decide, plain⟩
    · exact plain

/-- Names that hints give have no underscore. -/
theorem Draft.underscore_hintName (d : Draft) (fallback : String) :
    '_' ∉ (d.hintName fallback).toList := by
  unfold hintName
  split
  · exact Naming.underscore_typeName fallback
  · intro found
    have whole (names : List String) : (String.join names).toList = names.flatMap String.toList := by
      induction names with
      | nil => rfl
      | cons first rest ih => rw [String.join_cons, String.toList_append, ih, List.flatMap_cons]
    rw [whole] at found
    obtain ⟨name, among, inside⟩ := List.mem_flatMap.mp found
    obtain ⟨hint, _, rfl⟩ := List.mem_map.mp among
    exact Naming.underscore_typeName hint inside

/-! ### Free names -/

/-- The search ends at a candidate that is free, or has tried as many as it may. -/
theorem firstFree_spec (taken : String → Bool) (candidate : Nat → String) (fuel n : Nat) :
    ∃ k, n ≤ k ∧ k ≤ n + fuel ∧ firstFree taken candidate fuel n = candidate k ∧
      (∀ i, n ≤ i → i < k → taken (candidate i) = true) ∧
      (taken (candidate k) = true → k = n + fuel) := by
  induction fuel generalizing n with
  | zero => exact ⟨n, by omega, by omega, rfl, fun i low high => by omega, fun _ => rfl⟩
  | succ fuel ih =>
    unfold firstFree
    split
    case isTrue here =>
      obtain ⟨k, low, high, found, before, full⟩ := ih (n + 1)
      refine ⟨k, by omega, by omega, found, fun i above below => ?_, fun still => ?_⟩
      · by_cases same : i = n
        · rw [same]
          exact here
        · exact before i (by omega) below
      · have := full still
        omega
    case isFalse free =>
      refine ⟨n, by omega, by omega, rfl, fun i low high => by omega, fun here => ?_⟩
      exact absurd here free

namespace Registry

/-- The candidates for the name of a declaration. -/
abbrev candidate (desired : String) (n : Nat) : String :=
  if n = 0 then desired else desired ++ toString (n + 1)

theorem candidate_unique {desired : String} {m n : Nat}
    (same : candidate desired m = candidate desired n) : m = n := by
  have apart (n : Nat) (equal : desired = desired ++ toString (n + 1)) : False := by
    have lengths := congrArg (fun s => s.toList.length) equal
    have digits : 0 < (toString (n + 1)).toList.length := by
      rw [Nat.toString_eq_repr, Nat.toList_repr]
      exact List.length_pos_of_ne_nil Nat.toDigits_ne_nil
    simp only [String.toList_append, List.length_append] at lengths
    omega
  unfold candidate at same
  split at same
  case isTrue zero =>
    split at same
    case isTrue zero' => rw [zero, zero']
    case isFalse => exact (apart n same).elim
  case isFalse =>
    split at same
    case isTrue => exact (apart m same.symm).elim
    case isFalse =>
      have equal := Nat.repr_unique (String.append_right_inj _ |>.mp same)
      omega

theorem isDeclared_iff {r : Registry} {name : String} :
    r.isDeclared name = true ↔ name ∈ r.slots.map (·.1) := by
  simp [isDeclared]

/-- The numbers suffice: the name that is given is free. -/
theorem freeName_free (r : Registry) (desired : String) : r.isDeclared (r.freeName desired) = false := by
  obtain ⟨k, _, high, found, before, full⟩ :=
    firstFree_spec r.isDeclared (candidate desired) r.slots.length 0
  change r.isDeclared (firstFree r.isDeclared (candidate desired) r.slots.length 0) = false
  rw [found]
  by_contra taken
  have taken : r.isDeclared (candidate desired k) = true := by simpa using taken
  have last : k = r.slots.length := by simpa using full taken
  -- One name more than there are slots would be taken, and they are all different.
  have distinct : ((List.range (k + 1)).map (candidate desired)).Nodup :=
    List.nodup_range.map_on fun _ _ _ _ same => candidate_unique same
  have among : ((List.range (k + 1)).map (candidate desired)) ⊆ r.slots.map (·.1) := by
    intro name member
    obtain ⟨i, below, rfl⟩ := List.mem_map.mp member
    have below := List.mem_range.mp below
    rw [← isDeclared_iff]
    by_cases same : i = k
    · rw [same]
      exact taken
    · exact before i (by omega) (by omega)
  have short := (distinct.subperm among).length_le
  simp at short
  omega

/-- A name that is free is given as it is. -/
theorem freeName_of_free {r : Registry} {desired : String} (free : r.isDeclared desired = false) :
    r.freeName desired = desired := by
  unfold freeName
  cases r.slots.length with
  | zero => rfl
  | succ n => simp [firstFree, free]

/-- Numbers bring no underscores. -/
theorem underscore_freeName {r : Registry} {desired : String} (plain : '_' ∉ desired.toList) :
    '_' ∉ (r.freeName desired).toList := by
  obtain ⟨k, _, _, found, _⟩ := firstFree_spec r.isDeclared (candidate desired) r.slots.length 0
  change '_' ∉ (firstFree r.isDeclared (candidate desired) r.slots.length 0).toList
  rw [found, candidate]
  split
  · exact plain
  · rw [String.toList_append, List.mem_append, not_or]
    refine ⟨plain, fun digit => ?_⟩
    exact absurd (digits_repr _ _ digit) (by decide)

end Registry

end WireSchema
