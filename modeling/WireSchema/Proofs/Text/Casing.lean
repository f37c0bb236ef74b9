import Mathlib
import WireSchema.Naming
import WireSchema.Proofs.Session.Names

/-!
# Names that keep their style

The name of a type is put into upper camel case. Doing so twice is not the same as doing it once:
`a_b` becomes `AB`, and `AB` is one word and becomes `Ab`. For names of ASCII characters, this
module says which names of types stay as they are. Words begin at uppercase letters, so such a
letter has to begin a word of its own: it does if the letter before it is lowercase, or if a
lowercase letter follows. Otherwise it is crowded, and becomes lowercase.

## Main results

* `humps_camel_iff`: the words of a text, capitalised, are the text itself unless a letter is crowded.
* `typeName_fixed_iff`: the names of types that stay as they are.
-/

namespace WireSchema

namespace Text

/-! ### ASCII -/

/-- The character is below U+0080. -/
def IsAscii (c : Char) : Prop := c.toNat < 0x80

instance (c : Char) : Decidable (IsAscii c) := inferInstanceAs (Decidable (_ < _))

section Ascii

variable {c : Char} (ascii : IsAscii c)
include ascii

theorem isUppercase_ascii : isUppercase c = c.isUpper := if_pos ascii

theorem isLowercase_ascii : isLowercase c = c.isLower := if_pos ascii

theorem toUpper_ascii : toUpper c = [c.toUpper] := if_pos ascii

theorem toLower_ascii : toLower c = [c.toLower] := if_pos ascii

end Ascii

theorem toUpper_eq_iff {c : Char} : c.toUpper = c ↔ c.isLower = false := by
  constructor
  · intro same
    rw [← same]
    exact Char.isLower_toUpper_eq_false c
  · intro other
    exact Char.toUpper_eq_of_not_isLower (by simp [other])

theorem toLower_eq_iff {c : Char} : c.toLower = c ↔ c.isUpper = false := by
  constructor
  · intro same
    rw [← same]
    exact Char.isUpper_toLower_eq_false c
  · intro other
    exact Char.toLower_eq_of_not_isUpper (by simp [other])

theorem lowerWord_ascii {word : List Char} (ascii : ∀ c ∈ word, IsAscii c) :
    lowerWord word = word.map Char.toLower := by
  induction word using lowerWord.induct with
  | case1 => rfl
  | case2 => exact absurd (ascii 'Σ' (List.mem_singleton_self _)) (by decide)
  | case3 c other =>
    rw [lowerWord, if_neg other, toLower_ascii (ascii c (List.mem_singleton_self _))]
    rfl
  | case4 c next rest ih =>
    rw [lowerWord, toLower_ascii (ascii c (List.mem_cons_self ..)),
      ih fun d member => ascii d (List.mem_cons_of_mem _ member)]
    rfl

theorem capitalWord_ascii {c : Char} {rest : List Char} (ascii : ∀ d ∈ c :: rest, IsAscii d) :
    capitalWord (c :: rest) = c.toUpper :: rest.map Char.toLower := by
  rw [capitalWord, toUpper_ascii (ascii c (List.mem_cons_self ..)),
    lowerWord_ascii fun d member => ascii d (List.mem_cons_of_mem _ member)]
  rfl

theorem length_capitalWord {word : List Char} (ascii : ∀ c ∈ word, IsAscii c) :
    (capitalWord word).length = word.length := by
  cases word with
  | nil => rfl
  | cons c rest => simp [capitalWord_ascii ascii]

/-- A word that is capitalised already. -/
def IsCapital (word : List Char) : Prop := capitalWord word = word

theorem isCapital_cons {c : Char} {rest : List Char} (ascii : ∀ d ∈ c :: rest, IsAscii d) :
    IsCapital (c :: rest) ↔ c.isLower = false ∧ ∀ d ∈ rest, d.isUpper = false := by
  have lowered : rest.map Char.toLower = rest ↔ ∀ d ∈ rest, d.isUpper = false := by
    rw [← List.map_id rest, List.map_map, List.map_inj_left, List.map_id]
    exact forall₂_congr fun _ _ => toLower_eq_iff
  rw [IsCapital, capitalWord_ascii ascii, List.cons.injEq, toUpper_eq_iff, lowered]

/-- One more character in a word. -/
theorem isCapital_snoc {word : List Char} {c : Char} (nonempty : word ≠ [])
    (ascii : ∀ d ∈ word ++ [c], IsAscii d) :
    IsCapital (word ++ [c]) ↔ IsCapital word ∧ c.isUpper = false := by
  cases word with
  | nil => exact absurd rfl nonempty
  | cons d rest =>
    rw [List.cons_append] at ascii ⊢
    rw [isCapital_cons ascii, isCapital_cons fun e member => ascii e (by grind), and_assoc,
      List.forall_mem_append, List.forall_mem_singleton]

/-! ### Crowded letters -/

/-- The first character is a lowercase letter. -/
def startsLower (text : List Char) : Bool := text.head?.any Char.isLower

/-- Some uppercase letter has no lowercase letter after it, and the last letter before it is
uppercase too. The flag says whether the last letter before the text is. -/
def crowded (upper : Bool) : List Char → Bool
  | [] => false
  | c :: rest =>
    upper && c.isUpper && !startsLower rest ||
      crowded (if c.isAlpha then c.isUpper else upper) rest

/-- What is known while words are told apart: a word is begun at an uppercase letter, and an
uppercase letter after a lowercase one is not part of its word. -/
inductive Telling : CaseMode → List Char → List Char → Prop where
  | start {c : Char} {rest : List Char} : c.isUpper = true → Telling .boundary [] (c :: rest)
  | upper {read text : List Char} : read ≠ [] → Telling .upper read text
  | lower {read : List Char} {c : Char} {rest : List Char} : read ≠ [] → c.isUpper = false →
      Telling .lower read (c :: rest)
  | begun {read : List Char} {c : Char} {rest : List Char} : read ≠ [] → c.isLower = true →
      Telling .boundary read (c :: rest)

theorem next_ascii {mode : CaseMode} {c : Char} (ascii : IsAscii c) :
    mode.next c = if c.isLower then .lower else if c.isUpper then .upper else mode := by
  rw [CaseMode.next, isLowercase_ascii ascii, isUppercase_ascii ascii]

/-- The last letter before the rest is uppercase in the same cases. -/
theorem next_upper {mode : CaseMode} {c : Char} (ascii : IsAscii c) :
    (mode.next c == .upper) = if c.isAlpha then c.isUpper else mode == .upper := by
  rw [next_ascii ascii, Char.isAlpha]
  cases lower : c.isLower with
  | true =>
    have other : c.isUpper = false := by simpa using Char.not_isUpper_of_isLower lower
    simp [other]
  | false => cases c.isUpper <;> simp

/-- What is known after a character that joins the word under way. -/
theorem Telling.next {mode : CaseMode} {read rest : List Char} {c next : Char} (ascii : IsAscii c)
    (telling : Telling mode read (c :: next :: rest))
    (goes : ¬(mode.next c = .lower ∧ next.isUpper = true)) :
    Telling (mode.next c) (c :: read) (next :: rest) := by
  rw [next_ascii ascii] at goes ⊢
  have nonempty : c :: read ≠ [] := List.cons_ne_nil c read
  cases low : c.isLower with
  | true =>
    rw [low] at goes
    exact .lower nonempty (by simpa using goes)
  | false =>
    cases up : c.isUpper with
    | true => exact .upper nonempty
    | false =>
      -- A character without a case leaves the mode as it is, and does not stand at the start.
      rw [low, up] at goes
      cases telling with
      | start upper => exact absurd upper (by simp [up])
      | upper _ => exact .upper nonempty
      | lower _ _ => exact .lower nonempty (by simpa using goes)
      | begun _ lower => exact absurd lower (by simp [low])

/-- The character joins the word under way. -/
theorem joins_iff {mode : CaseMode} {read rest : List Char} {c : Char}
    (ascii : ∀ d ∈ read ++ c :: rest, IsAscii d) (telling : Telling mode read (c :: rest))
    (joins : ¬(mode = .upper ∧ c.isUpper = true ∧ startsLower rest = true)) :
    IsCapital (c :: read).reverse ↔
      IsCapital read.reverse ∧ (mode == .upper && c.isUpper && !startsLower rest) = false := by
  rw [List.reverse_cons]
  have ascii' : ∀ d ∈ read.reverse ++ [c], IsAscii d := fun d member => ascii d (by grind)
  cases telling with
  | start upper =>
    have other : c.isLower = false := by simpa using Char.not_isLower_of_isUpper upper
    have empty : IsCapital [] := rfl
    simpa [empty] using (isCapital_cons ascii').mpr ⟨other, by simp⟩
  | upper nonempty =>
    rw [isCapital_snoc (by simpa using nonempty) ascii']
    refine and_congr_right fun _ => ?_
    cases upper : c.isUpper with
    | false => simp
    | true =>
      have alone : startsLower rest = false := by simpa [upper] using joins
      simp [alone]
  | lower nonempty other =>
    rw [isCapital_snoc (by simpa using nonempty) ascii']
    simp [other]
  | begun nonempty lower =>
    have other : c.isUpper = false := by simpa using Char.not_isUpper_of_isLower lower
    rw [isCapital_snoc (by simpa using nonempty) ascii']
    simp [other]

theorem capitalWord_append_iff {word text others : List Char} (ascii : ∀ c ∈ word, IsAscii c) :
    capitalWord word ++ others = word ++ text ↔ IsCapital word ∧ others = text :=
  ⟨fun same => List.append_inj same (length_capitalWord ascii),
    fun ⟨capital, same⟩ => by rw [capital, same]⟩

theorem crowded_cons {mode : CaseMode} {c : Char} (ascii : IsAscii c) (rest : List Char) :
    crowded (mode == .upper) (c :: rest) = false ↔
      (mode == .upper && c.isUpper && !startsLower rest) = false ∧
        crowded (mode.next c == .upper) rest = false := by
  rw [crowded, next_upper ascii, Bool.or_eq_false_iff]

/-- The flag does not matter in front of a lowercase letter. -/
theorem crowded_lower {c : Char} (lower : c.isLower = true) (flag : Bool) (rest : List Char) :
    crowded flag (c :: rest) = crowded false (c :: rest) := by
  have other : c.isUpper = false := by simpa using Char.not_isUpper_of_isLower lower
  simp [crowded, Char.isAlpha, lower, other]

/-- The words of a text, capitalised, are the text unless a letter is crowded. -/
theorem humps_camel_iff (mode : CaseMode) (read text : List Char)
    (ascii : ∀ c ∈ read ++ text, IsAscii c) (telling : Telling mode read text)
    (nonempty : text ≠ []) :
    (humps mode read text).flatMap capitalWord = read.reverse ++ text ↔
      IsCapital read.reverse ∧ crowded (mode == .upper) text = false := by
  have empty : IsCapital [] := rfl
  induction mode, read, text using humps.induct with
  | case1 mode read => exact absurd rfl nonempty
  | case2 mode read c =>
    have joined := joins_iff ascii telling (by simp [startsLower])
    have whole : read.reverse ++ [c] = (c :: read).reverse := List.reverse_cons.symm
    rw [humps, List.flatMap_singleton, whole, ← IsCapital, joined,
      crowded_cons (ascii c (by simp))]
    simp [crowded]
  | case3 mode read c next rest ends ih =>
    obtain ⟨lower, upper⟩ := ends
    have here : IsAscii c := ascii c (by simp)
    have after : IsAscii next := ascii next (by simp)
    have upper' : next.isUpper = true := isUppercase_ascii after ▸ upper
    have plain : startsLower (next :: rest) = false := by
      simpa [startsLower] using Char.not_isLower_of_isUpper upper'
    have joined := joins_iff ascii telling (by simp [plain])
    have others := ih (fun d member => ascii d (by grind)) (.start upper') (by simp)
    have whole : read.reverse ++ c :: next :: rest = (c :: read).reverse ++ next :: rest := by simp
    rw [humps, if_pos ⟨lower, upper⟩, List.flatMap_cons, whole,
      capitalWord_append_iff fun d member => ascii d (by grind), joined,
      crowded_cons here, lower, and_assoc, and_congr_right_iff, and_congr_right_iff]
    exact fun _ _ => others.trans (and_iff_right empty)
  | case4 mode read c next rest goes ends ih =>
    obtain ⟨rfl, upper, lower⟩ := ends
    have here : IsAscii c := ascii c (by simp)
    have after : IsAscii next := ascii next (by simp)
    have upper' : c.isUpper = true := isUppercase_ascii here ▸ upper
    have lower' : next.isLower = true := isLowercase_ascii after ▸ lower
    have single : IsCapital [c] :=
      (isCapital_cons (by simpa using here)).mpr
        ⟨by simpa using Char.not_isLower_of_isUpper upper', by simp⟩
    have others := ih (fun d member => ascii d (by grind)) (.begun (by simp) lower') (by simp)
    rw [humps, if_neg goes, if_pos ⟨rfl, upper, lower⟩, List.flatMap_cons,
      capitalWord_append_iff fun d member => ascii d (by grind), crowded_cons here,
      crowded_lower lower', and_congr_right_iff]
    intro _
    have idle : (CaseMode.upper == .upper && c.isUpper && !startsLower (next :: rest)) = false := by
      simp [startsLower, lower']
    exact others.trans ((and_iff_right single).trans (and_iff_right idle).symm)
  | case5 mode read c next rest goes stays ih =>
    have here : IsAscii c := ascii c (by simp)
    have after : IsAscii next := ascii next (by simp)
    have goes' := goes
    have stays' := stays
    rw [isUppercase_ascii after] at goes'
    rw [isUppercase_ascii here, isLowercase_ascii after] at stays'
    have joined := joins_iff ascii telling (by simpa [startsLower] using stays')
    have others := ih (fun d member => ascii d (by grind)) (telling.next here goes') (by simp)
    have whole : read.reverse ++ c :: next :: rest = (c :: read).reverse ++ next :: rest := by simp
    rw [humps, if_neg goes, if_neg stays, whole, crowded_cons here, ← and_assoc, ← joined]
    exact others

/-! ### Characters of a name -/

theorem flatten_humps (mode : CaseMode) (read text : List Char) (nonempty : text ≠ []) :
    (humps mode read text).flatten = read.reverse ++ text := by
  induction mode, read, text using humps.induct with
  | case1 mode read => exact absurd rfl nonempty
  | case2 mode read c => simp [humps]
  | case3 mode read c next rest ends ih => simp [humps, ends, ih (by simp)]
  | case4 mode read c next rest goes ends ih =>
    rw [humps, if_neg goes, if_pos ends, List.flatten_cons, ih (by simp)]
    simp
  | case5 mode read c next rest goes stays ih =>
    rw [humps, if_neg goes, if_neg stays, ih (by simp)]
    simp

theorem length_flatMap_capitalWord {words : List (List Char)}
    (ascii : ∀ word ∈ words, ∀ c ∈ word, IsAscii c) :
    (words.flatMap capitalWord).length = words.flatten.length := by
  induction words with
  | nil => rfl
  | cons word words ih =>
    rw [List.flatMap_cons, List.flatten_cons, List.length_append, List.length_append,
      length_capitalWord (ascii word (List.mem_cons_self ..)),
      ih fun other member => ascii other (List.mem_cons_of_mem _ member)]

theorem ascii_of_isAlphanum {c : Char} (letter : c.isAlphanum = true) : IsAscii c := by
  simp only [Char.isAlphanum, Char.isAlpha, Char.isUpper, Char.isLower, Char.isDigit,
    Bool.or_eq_true, Bool.and_eq_true, decide_eq_true_eq, ge_iff_le, UInt32.le_iff_toNat_le] at letter
  have code : c.val.toNat = c.toNat := rfl
  simp only [code] at letter
  rw [IsAscii]
  grind

theorem isAlphanumeric_ascii {c : Char} (ascii : IsAscii c) : isAlphanumeric c = c.isAlphanum :=
  if_pos ascii

/-- A text of letters and digits is one run. -/
theorem runs_solid (read : List Char) {text : List Char}
    (solid : ∀ c ∈ text, isAlphanumeric c = true) : runs read text = [read.reverse ++ text] := by
  induction text generalizing read with
  | nil => simp [runs]
  | cons c rest ih =>
    rw [runs, if_pos (solid c (List.mem_cons_self ..)),
      ih (c :: read) fun d member => solid d (List.mem_cons_of_mem _ member)]
    simp

theorem mem_text_of_mem_runs (read text : List Char) {run : List Char} {c : Char}
    (found : run ∈ runs read text) (inside : c ∈ run) : c ∈ read ∨ c ∈ text := by
  induction text generalizing read with
  | nil => simp_all [runs]
  | cons first rest ih =>
    rw [runs] at found
    split at found
    case isTrue => 
      have := ih _ found
      grind
    case isFalse => 
      rcases List.mem_cons.mp found with rfl | later
      · exact .inl (by simpa using inside)
      · have := ih _ later
        grind

/-- The words of an ASCII text have letters and digits only. -/
theorem isAlphanum_of_word {text word : List Char} (ascii : ∀ c ∈ text, IsAscii c)
    (found : word ∈ words text) {c : Char} (inside : c ∈ word) : c.isAlphanum = true := by
  obtain ⟨run, among, hump⟩ := List.mem_flatMap.mp found
  rcases mem_humps _ _ _ hump inside with none | inside
  · cases none
  rcases mem_text_of_mem_runs _ _ among inside with none | member
  · cases none
  rcases mem_runs _ _ among inside with none | letter
  · cases none
  · rwa [isAlphanumeric_ascii (ascii c member)] at letter

theorem isAlphanum_toUpper {c : Char} (letter : c.isAlphanum = true) :
    c.toUpper.isAlphanum = true := by
  by_cases lower : c.isLower = true
  · have alpha : c.isAlpha = true := by simp [Char.isAlpha, lower]
    simp [Char.isAlphanum, alpha]
  · rwa [Char.toUpper_eq_of_not_isLower lower]

theorem isAlphanum_toLower {c : Char} (letter : c.isAlphanum = true) :
    c.toLower.isAlphanum = true := by
  by_cases upper : c.isUpper = true
  · have alpha : c.isAlpha = true := by simp [Char.isAlpha, upper]
    simp [Char.isAlphanum, alpha]
  · rwa [Char.toLower_eq_of_not_isUpper upper]

/-- A name in the style of types: letters and digits, of which the first is no lowercase letter. -/
structure IsStyled (name : List Char) : Prop where
  solid : ∀ c ∈ name, c.isAlphanum = true
  head : ∀ c ∈ name.head?, c.isLower = false

theorem isStyled_capitalWord {word : List Char} (solid : ∀ c ∈ word, c.isAlphanum = true) :
    IsStyled (capitalWord word) := by
  cases word with
  | nil => exact ⟨by simp [capitalWord], by simp [capitalWord]⟩
  | cons c rest =>
    rw [capitalWord_ascii fun d member => ascii_of_isAlphanum (solid d member)]
    refine ⟨?_, by simp⟩
    rw [List.forall_mem_cons, List.forall_mem_map]
    exact ⟨isAlphanum_toUpper (solid c (List.mem_cons_self ..)), fun d member =>
      isAlphanum_toLower (solid d (List.mem_cons_of_mem _ member))⟩

theorem IsStyled.append {front back : List Char} (first : IsStyled front) (later : IsStyled back) :
    IsStyled (front ++ back) where
  solid := List.forall_mem_append.mpr ⟨first.solid, later.solid⟩
  head := by
    cases front with
    | nil => exact later.head
    | cons c rest => exact first.head

theorem isStyled_upperCamel {raw : String} (ascii : ∀ c ∈ raw.toList, IsAscii c) :
    IsStyled (upperCamel raw).toList := by
  have solid : ∀ word ∈ words raw.toList, ∀ c ∈ word, c.isAlphanum = true :=
    fun word found c inside => isAlphanum_of_word ascii found inside
  rw [upperCamel, String.toList_ofList]
  generalize words raw.toList = words at solid
  induction words with
  | nil => exact ⟨by simp, by simp⟩
  | cons word words ih =>
    rw [List.flatMap_cons]
    exact (isStyled_capitalWord (solid word (List.mem_cons_self ..))).append
      (ih fun other member => solid other (List.mem_cons_of_mem _ member))

/-- A styled name that is put into the style again stays as it is unless a letter is crowded. -/
theorem upperCamel_fixed_iff {c : Char} {rest : List Char} (styled : IsStyled (c :: rest))
    (begins : c.isUpper = true) :
    upperCamel (String.ofList (c :: rest)) = String.ofList (c :: rest) ↔
      crowded false (c :: rest) = false := by
  have ascii : ∀ d ∈ c :: rest, IsAscii d := fun d member =>
    ascii_of_isAlphanum (styled.solid d member)
  have solid : ∀ d ∈ c :: rest, isAlphanumeric d = true := fun d member =>
    (isAlphanumeric_ascii (ascii d member)).trans (styled.solid d member)
  have whole := humps_camel_iff .boundary [] (c :: rest) (by simpa using ascii) (.start begins)
    (List.cons_ne_nil c rest)
  rw [upperCamel, String.toList_ofList, words, runs_solid [] solid, List.flatMap_singleton,
    String.ofList_inj]
  exact whole.trans (and_iff_right rfl)

theorem length_upperCamel {name : List Char} (solid : ∀ c ∈ name, c.isAlphanum = true) :
    (upperCamel (String.ofList name)).length = name.length := by
  have ascii : ∀ d ∈ name, IsAscii d := fun d member => ascii_of_isAlphanum (solid d member)
  have solid : ∀ d ∈ name, isAlphanumeric d = true := fun d member =>
    (isAlphanumeric_ascii (ascii d member)).trans (solid d member)
  rw [upperCamel, String.length_ofList, String.toList_ofList, words, runs_solid [] solid,
    List.flatMap_singleton, length_flatMap_capitalWord]
  · cases name with
    | nil => rfl
    | cons c rest => rw [List.reverse_nil, List.nil_append, flatten_humps _ _ _ (by simp)]; rfl
  · intro word found d inside
    rcases mem_humps _ _ _ found inside with none | member
    · cases none
    · exact ascii d member

end Text

namespace Naming

open Text

theorem startsWithDigit_cons (c : Char) (rest : List Char) :
    startsWithDigit (String.ofList (c :: rest)) = c.isDigit := by
  simp [startsWithDigit]

theorem typeName_cons {raw : String} {c : Char} {rest : List Char}
    (camel : upperCamel raw = String.ofList (c :: rest)) :
    typeName raw = String.ofList (if c.isDigit then 'T' :: c :: rest else c :: rest) := by
  have nonempty : String.ofList (c :: rest) ≠ "" := by simp
  simp only [typeName, camel, if_neg nonempty, startsWithDigit_cons]
  split
  · exact String.toList_inj.mp (by simp)
  · rfl

/-- The name of a type begins with an uppercase letter and goes on with letters and digits. -/
theorem styled_typeName {raw : String} (ascii : ∀ c ∈ raw.toList, IsAscii c) :
    ∃ c rest, typeName raw = String.ofList (c :: rest) ∧ IsStyled (c :: rest) ∧
      c.isUpper = true := by
  have styled := isStyled_upperCamel ascii
  cases name : (upperCamel raw).toList with
  | nil =>
    have empty : upperCamel raw = "" := by simpa using name
    refine ⟨'U', "nnamed".toList, by simp [typeName, empty], ⟨?_, ?_⟩, by decide⟩
    · simp [Char.isAlphanum, Char.isAlpha, Char.isUpper, Char.isLower]
    · simp [Char.isLower]
  | cons c rest =>
    have camel : upperCamel raw = String.ofList (c :: rest) := by rw [← name]; simp
    rw [name] at styled
    have letter := styled.solid c (List.mem_cons_self ..)
    have other : c.isLower = false := styled.head c rfl
    rw [typeName_cons camel]
    cases digit : c.isDigit with
    | true =>
      refine ⟨'T', c :: rest, rfl, ⟨?_, by simp [Char.isLower]⟩, by decide⟩
      exact List.forall_mem_cons.mpr ⟨by decide, styled.solid⟩
    | false =>
      refine ⟨c, rest, rfl, styled, ?_⟩
      simpa [Char.isAlphanum, Char.isAlpha, other, digit] using letter

/-- The name of a type is its own name unless a letter of it is crowded. -/
theorem typeName_fixed_iff (raw : String) (ascii : ∀ c ∈ raw.toList, IsAscii c) :
    typeName (typeName raw) = typeName raw ↔ crowded false (typeName raw).toList = false := by
  obtain ⟨c, rest, named, styled, begins⟩ := styled_typeName ascii
  rw [named, String.toList_ofList, ← upperCamel_fixed_iff styled begins]
  have noDigit : c.isDigit = false := by
    simp only [Char.isUpper, Char.isDigit] at begins ⊢
    grind
  constructor
  · intro same
    have size := length_upperCamel styled.solid
    cases camel : (upperCamel (String.ofList (c :: rest))).toList with
    | nil =>
      rw [← String.length_toList, camel] at size
      cases size
    | cons d others =>
      have camel : upperCamel (String.ofList (c :: rest)) = String.ofList (d :: others) := by
        rw [← camel]
        simp
      rw [typeName_cons camel] at same
      split at same
      case isTrue =>
        -- Nothing is put in front, or the name would have grown.
        have longer := congrArg String.length same
        rw [camel] at size
        simp only [String.length_ofList, List.length_cons] at size longer
        omega
      case isFalse => rw [camel, same]
  · intro same
    rw [typeName_cons same, noDigit]
    rfl

example : typeName "a_b" = "AB" ∧ typeName "AB" = "Ab" := by decide +kernel

end Naming

end WireSchema
