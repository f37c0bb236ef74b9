import WireSchema.Text.Quoted
import WireSchema.Shape.Reference

/-!
# Texts with brackets

A text whose brackets and quotes are closed is read over as a whole: no comma and no closing bracket
of it is met outside of its own brackets. So such a text is told from what comes after it, and a list
of them from the list that is written with commas.

## Main results

* `cut_unique`: where a text ends that is read over.
* `joined_unique`: texts written with commas, up to a closing bracket, are what they were.
-/

namespace WireSchema.Text

/-- What is being read. -/
inductive Reading where
  | plain
  /-- After an equals sign, which makes an arrow of a closing angle. -/
  | equals
  | quoted
  /-- After a backslash between quotes. -/
  | escaped
  deriving DecidableEq

def isOpening (c : Char) : Bool := ['<', '[', '(', '\x7b'].contains c

def isClosing (c : Char) : Bool := ['>', ']', ')', '\x7d'].contains c

/-- A character that ends a text which stands outside of brackets. -/
def isStop (c : Char) : Bool := isClosing c || c == ','

/-- A character that is nothing but itself. -/
def isSimple (c : Char) : Bool := !isOpening c && !isStop c && c != '=' && c != '"'

/-- Reads a character that stands outside of quotes, inside as many brackets as `depth` says; none if
the text ends before it. -/
def readPlain (depth : Nat) (c : Char) : Option (Reading × Nat) :=
  if isOpening c then some (.plain, depth + 1)
  else if isStop c then
    match depth with
    | 0 => none
    | outer + 1 => some (.plain, if isClosing c then outer else depth)
  else if c = '=' then some (.equals, depth)
  else if c = '"' then some (.quoted, depth)
  else some (.plain, depth)

/-- Reads a character. -/
def read : Reading × Nat → Char → Option (Reading × Nat)
  | (.plain, depth), c => readPlain depth c
  | (.equals, depth), c => if c = '>' then some (.plain, depth) else readPlain depth c
  | (.quoted, depth), c =>
    some (if c = '"' then .plain else if c = '\\' then .escaped else .quoted, depth)
  | (.escaped, depth), _ => some (.quoted, depth)

/-- Reads over a text. -/
def scan (state : Reading × Nat) (text : List Char) : Option (Reading × Nat) :=
  text.foldlM read state

/-- The text is read over wherever it stands. -/
def Skips (text : List Char) : Prop := ∀ depth, scan (.plain, depth) text = some (.plain, depth)

/-- The text is read over inside of brackets. -/
def Fills (text : List Char) : Prop :=
  ∀ depth, scan (.plain, depth + 1) text = some (.plain, depth + 1)

variable {text text' : List Char} {c c' : Char}

theorem scan_append (state : Reading × Nat) (text text' : List Char) :
    scan state (text ++ text') = (scan state text).bind (scan · text') := List.foldlM_append ..

theorem scan_cons (state : Reading × Nat) (c : Char) (text : List Char) :
    scan state (c :: text) = (read state c).bind (scan · text) := List.foldlM_cons ..

theorem skips_nil : Skips [] := fun _ => rfl

theorem Skips.append (first : Skips text) (second : Skips text') : Skips (text ++ text') := by
  intro depth
  rw [scan_append, first, Option.bind_some, second]

theorem Skips.fills (skips : Skips text) : Fills text := fun depth => skips (depth + 1)

theorem Fills.append (first : Fills text) (second : Fills text') : Fills (text ++ text') := by
  intro depth
  rw [scan_append, first, Option.bind_some, second]

theorem readPlain_simple (depth : Nat) (simple : isSimple c = true) :
    readPlain depth c = some (.plain, depth) := by
  simp only [isSimple, Bool.and_eq_true, Bool.not_eq_true', bne_iff_ne] at simple
  simp [readPlain, simple]

theorem skips_simple (simple : ∀ c ∈ text, isSimple c = true) : Skips text := by
  intro depth
  induction text with
  | nil => rfl
  | cons c rest ih =>
    obtain ⟨first, others⟩ := List.forall_mem_cons.mp simple
    rw [scan_cons, read, readPlain_simple depth first, Option.bind_some, ih others]

theorem skips_word (simple : text.all isSimple = true) : Skips text :=
  skips_simple (List.all_eq_true.mp simple)

theorem Skips.cons (simple : isSimple c = true) (skips : Skips text) : Skips (c :: text) := by
  have first : Skips [c] := skips_simple (List.forall_mem_singleton.mpr simple)
  exact first.append skips

theorem fills_comma : Fills [','] := by
  intro depth
  rfl

/-- What stands in brackets is read over. -/
theorem Fills.bracketed (fills : Fills text) (opening : isOpening c = true)
    (closing : isClosing c' = true) : Skips (c :: (text ++ [c'])) := by
  intro depth
  have closed : isOpening c' = false := by
    simp only [isClosing, List.contains_iff_mem, List.mem_cons, List.not_mem_nil, or_false] at closing
    rcases closing with rfl | rfl | rfl | rfl <;> decide
  have enter : readPlain depth c = some (.plain, depth + 1) := if_pos opening
  have leave : readPlain (depth + 1) c' = some (.plain, depth) := by
    simp [readPlain, closed, isStop, closing]
  rw [scan_cons, read, enter, Option.bind_some, scan_append, fills, Option.bind_some, scan_cons,
    read, leave]
  rfl

/-- An equals sign before a text that is not the angle of an arrow. -/
theorem Skips.equals (skips : Skips (c :: text)) (other : c ≠ '>') : Skips ('=' :: c :: text) := by
  intro depth
  have same : read (.equals, depth) c = read (.plain, depth) c := if_neg other
  have opened : read (.plain, depth) '=' = some (.equals, depth) := rfl
  rw [scan_cons, opened, Option.bind_some, scan_cons, same, ← scan_cons, skips]

theorem skips_arrow : Skips ['=', '>'] := fun _ => rfl

/-! ### Quoted texts -/

/-- The text is read over between quotes. -/
def Stays (text : List Char) : Prop := ∀ depth, scan (.quoted, depth) text = some (.quoted, depth)

theorem Stays.append (first : Stays text) (second : Stays text') : Stays (text ++ text') := by
  intro depth
  rw [scan_append, first, Option.bind_some, second]

theorem stays_single (noQuote : c ≠ '"') (noBackslash : c ≠ '\\') : Stays [c] := by
  intro depth
  simp [read, noQuote, noBackslash, scan]

theorem stays_escape (c : Char) : Stays ['\\', c] := fun _ => rfl

theorem stays_of_isAlphanum : ∀ {text : List Char}, (∀ c ∈ text, c.isAlphanum = true) → Stays text
  | [], _ => fun _ => rfl
  | c :: rest, letters => by
    obtain ⟨first, others⟩ := List.forall_mem_cons.mp letters
    have here : Stays [c] := stays_single (fun same => by simp [same] at first)
      (fun same => by simp [same] at first)
    exact here.append (stays_of_isAlphanum others)

theorem isAlphanum_hexDigits (n : Nat) : ∀ c ∈ hexDigits n, c.isAlphanum = true := by
  have digit : ∀ k, k < 16 → (Nat.digitChar k).isAlphanum = true := by decide
  unfold hexDigits
  induction n using Nat.strongRecOn with
  | ind n ih =>
    by_cases small : n < 16
    · rw [Nat.toDigits_of_lt_base small]
      simpa using digit n small
    · rw [Nat.toDigits_of_base_le (by decide) (by omega)]
      intro c member
      rcases List.mem_append.mp member with early | last
      · exact ih _ (by omega) c early
      · rw [List.mem_singleton.mp last]
        exact digit _ (by omega)

theorem stays_quotedChar (c : Char) : Stays (quotedChar c) := by
  unfold quotedChar
  split
  · exact stays_escape _
  split
  · exact stays_escape _
  split
  · exact stays_escape _
  split
  · exact stays_escape _
  split
  · exact stays_escape _
  split
  · exact stays_escape _
  case isFalse noQuote noBackslash _ _ _ _ =>
    split
    · have opening : Stays ['\x7b'] := stays_single (by decide) (by decide)
      have closing : Stays ['\x7d'] := stays_single (by decide) (by decide)
      have digits := stays_of_isAlphanum (isAlphanum_hexDigits c.toNat)
      exact (((stays_escape 'u').append opening).append digits).append closing
    · exact stays_single noQuote noBackslash

theorem skips_quoted (text : String) : Skips (quoted text).toList := by
  have inner : Stays (text.toList.flatMap quotedChar) := by
    induction text.toList with
    | nil => exact fun _ => rfl
    | cons c rest ih => exact (stays_quotedChar c).append ih
  intro depth
  rw [quoted, String.toList_ofList, List.cons_append, scan_cons]
  change (scan (.quoted, depth) _) = _
  rw [scan_append, inner depth]
  rfl

/-! ### Where a text ends -/

theorem readPlain_stop (stop : isStop c = true) : readPlain 0 c = none := by
  have closed : isOpening c = false := by
    simp only [isStop, isClosing, Bool.or_eq_true, beq_iff_eq, List.contains_iff_mem, List.mem_cons,
      List.not_mem_nil, or_false] at stop
    rcases stop with (rfl | rfl | rfl | rfl) | rfl <;> decide
  simp [readPlain, closed, stop]

/-- A text that is read over up to a stop goes no further than the stop. -/
theorem Skips.shortest {more rest rest' : List Char} (skips : Skips text)
    (skips' : Skips (text ++ more)) (stop : isStop c = true) (same : c :: rest = more ++ rest') :
    more = [] := by
  cases more with
  | nil => rfl
  | cons d more =>
    obtain ⟨rfl, _⟩ := List.cons.inj same
    have whole := skips' 0
    rw [scan_append, skips, Option.bind_some, scan_cons, read, readPlain_stop stop] at whole
    cases whole

/-- A text that is read over ends at the first stop after it. -/
theorem Skips.cut_unique {rest rest' : List Char} (skips : Skips text) (skips' : Skips text')
    (stop : isStop c = true) (stop' : isStop c' = true)
    (same : text ++ c :: rest = text' ++ c' :: rest') : text = text' ∧ c = c' ∧ rest = rest' := by
  have equal : text = text' := by
    rcases List.append_eq_append_iff.mp same with ⟨more, rfl, later⟩ | ⟨more, rfl, later⟩
    · rw [skips.shortest skips' stop later, List.append_nil]
    · rw [skips'.shortest skips stop' later, List.append_nil]
  subst equal
  obtain ⟨rfl, rfl⟩ := List.cons.inj (List.append_cancel_left same)
  exact ⟨rfl, rfl, rfl⟩

/-! ### Texts with commas between them -/

theorem toList_joined_cons (first : String) (rest : List String) :
    (Shape.joined (first :: rest)).toList =
      first.toList ++ rest.flatMap fun t => ',' :: ' ' :: t.toList := by
  induction rest generalizing first with
  | nil => simp [Shape.joined]
  | cons second rest ih =>
    have more := ih second
    simp only [Shape.joined, String.intercalate_cons_cons, String.toList_append] at more ⊢
    rw [more]
    simp

theorem fills_joined {texts : List String} (skips : ∀ t ∈ texts, Skips t.toList) :
    Fills (Shape.joined texts).toList := by
  cases texts with
  | nil => exact fun _ => rfl
  | cons first rest =>
    obtain ⟨here, others⟩ := List.forall_mem_cons.mp skips
    have later : Fills (rest.flatMap fun t => ',' :: ' ' :: t.toList) := by
      clear here skips
      induction rest with
      | nil => exact fun _ => rfl
      | cons second rest ih =>
        obtain ⟨next, others⟩ := List.forall_mem_cons.mp others
        exact fills_comma.append ((Skips.cons (by decide) next).fills.append (ih others))
    rw [toList_joined_cons]
    exact here.fills.append later

/-- What comes after a text in a list begins with a stop. -/
theorem stop_after (texts : List String) (rest : List Char) (closing : isClosing c = true) :
    ∃ d more, isStop d = true ∧
      (texts.flatMap fun t => ',' :: ' ' :: t.toList) ++ c :: rest = d :: more := by
  cases texts with
  | nil => exact ⟨c, rest, by simp [isStop, closing], rfl⟩
  | cons first others => exact ⟨',', _, by decide, rfl⟩

/-- Texts with commas before them are what they were. -/
theorem commas_unique {rest rest' : List Char} {texts texts' : List String}
    (skips : ∀ t ∈ texts, Skips t.toList) (skips' : ∀ t ∈ texts', Skips t.toList)
    (closing : isClosing c = true)
    (same : (texts.flatMap fun t => ',' :: ' ' :: t.toList) ++ c :: rest =
      (texts'.flatMap fun t => ',' :: ' ' :: t.toList) ++ c :: rest') :
    texts = texts' ∧ rest = rest' := by
  have noComma : c ≠ ',' := by
    rintro rfl
    exact absurd closing (by decide)
  induction texts generalizing texts' with
  | nil =>
    cases texts' with
    | nil => exact ⟨rfl, (List.cons.inj same).2⟩
    | cons => exact absurd (List.cons.inj same).1 noComma
  | cons first texts ih =>
    cases texts' with
    | nil => exact absurd (List.cons.inj same).1.symm noComma
    | cons first' texts' =>
      obtain ⟨here, others⟩ := List.forall_mem_cons.mp skips
      obtain ⟨here', others'⟩ := List.forall_mem_cons.mp skips'
      obtain ⟨d, more, stop, after⟩ := stop_after texts rest closing
      obtain ⟨d', more', stop', after'⟩ := stop_after texts' rest' closing
      simp only [List.flatMap_cons, List.cons_append, List.append_assoc, List.cons.injEq, true_and,
        after, after'] at same
      obtain ⟨text, rfl, rfl⟩ := here.cut_unique here' stop stop' same
      obtain ⟨rfl, rfl⟩ := ih others others' (after.trans after'.symm)
      exact ⟨by rw [String.toList_inj.mp text], rfl⟩

/-- Texts that are written with commas, up to a closing bracket, are what they were, if there is one
of them. -/
theorem joined_cons_unique {first first' : String} {texts texts' : List String}
    {rest rest' : List Char} (skips : ∀ t ∈ first :: texts, Skips t.toList)
    (skips' : ∀ t ∈ first' :: texts', Skips t.toList) (closing : isClosing c = true)
    (same : (Shape.joined (first :: texts)).toList ++ c :: rest =
      (Shape.joined (first' :: texts')).toList ++ c :: rest') :
    first :: texts = first' :: texts' ∧ rest = rest' := by
  -- The first text gets a comma like the others.
  rw [toList_joined_cons, toList_joined_cons] at same
  refine commas_unique skips skips' closing ?_
  simpa using same

/-- Texts that are not empty, written with commas, up to a closing bracket, are what they were. -/
theorem joined_unique {texts texts' : List String} {rest rest' : List Char}
    (skips : ∀ t ∈ texts, Skips t.toList ∧ t ≠ "") (skips' : ∀ t ∈ texts', Skips t.toList ∧ t ≠ "")
    (closing : isClosing c = true)
    (same : (Shape.joined texts).toList ++ c :: rest =
      (Shape.joined texts').toList ++ c :: rest') :
    texts = texts' ∧ rest = rest' := by
  have stop : isStop c = true := by simp [isStop, closing]
  -- A list with a text in it does not begin with the closing bracket.
  have apart {first : String} {texts : List String} {rest rest' : List Char}
      (skips : Skips first.toList ∧ first ≠ "")
      (same : c :: rest = (Shape.joined (first :: texts)).toList ++ c :: rest') : False := by
    obtain ⟨d, more, stop', after⟩ := stop_after texts rest' closing
    rw [toList_joined_cons, List.append_assoc, after] at same
    have nothing := (skips_nil.cut_unique skips.1 stop stop' same).1
    exact skips.2 (String.toList_inj.mp nothing.symm)
  cases texts with
  | nil =>
    cases texts' with
    | nil => exact ⟨rfl, (List.cons.inj same).2⟩
    | cons first' texts' => exact (apart (skips' first' List.mem_cons_self) same).elim
  | cons first texts =>
    cases texts' with
    | nil => exact (apart (skips first List.mem_cons_self) same.symm).elim
    | cons first' texts' =>
      exact joined_cons_unique (fun t member => (skips t member).1)
        (fun t member => (skips' t member).1) closing same

end WireSchema.Text
