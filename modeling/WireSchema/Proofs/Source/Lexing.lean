import WireSchema.Proofs.Source.Spelling

/-!
# Reading tokens off their spellings

What a parser of a token does on a spelled text depends on the first token only: it takes that token
off and leaves a spelling of the others, or it refuses.
-/

namespace WireSchema.Source

open WireSchema.Source.Parser

/-! ### Gaps are skipped -/

attribute [local simp] skipFrom

theorem skip_line (body rest : List Char) (stop : Char) (plain : ∀ c ∈ body, isLineEnd c = false)
    (ends : isLineEnd stop = true) :
    skipFrom .lineComment (body ++ stop :: rest) = skipFrom .blank rest := by
  induction body with
  | nil => simp [ends]
  | cons c body ih =>
    have here : isLineEnd c = false := plain c (List.mem_cons_self ..)
    simpa [here] using ih fun d member => plain d (List.mem_cons_of_mem _ member)

theorem skip_openLine (body : List Char) (plain : ∀ c ∈ body, isLineEnd c = false) :
    skipFrom .lineComment body = some [] := by
  induction body with
  | nil => rfl
  | cons c body ih =>
    have here : isLineEnd c = false := plain c (List.mem_cons_self ..)
    simpa [here] using ih fun d member => plain d (List.mem_cons_of_mem _ member)

theorem skip_block (body rest : List Char) (unclosed : ¬['*', '/'] <:+: body) :
    skipFrom .blockComment (body ++ '*' :: '/' :: rest) = skipFrom .blank rest := by
  induction body with
  | nil => rw [List.nil_append, skipFrom]
  | cons c body ih =>
    have later : ¬['*', '/'] <:+: body := fun inside =>
      unclosed (inside.trans (List.suffix_cons c body).isInfix)
    rw [List.cons_append, skipFrom]
    · exact ih later
    · -- The comment does not end here, for then it would end before its end.
      rintro rest' rfl same
      cases body with
      | nil => cases same
      | cons d body =>
        cases same
        exact unclosed ⟨[], body, rfl⟩

/-- A line comment is told from documentation by what follows its two slashes. -/
theorem skip_slashes (rest : List Char) (noDoc : rest.head? ≠ some '/') :
    skipFrom .blank ('/' :: '/' :: rest) = skipFrom .lineComment rest := by
  rw [skipFrom]
  rintro rest' rfl
  exact noDoc rfl

theorem skip_blank {c : Char} (blank : isBlank c = true) (rest : List Char) :
    skipFrom .blank (c :: rest) = skipFrom .blank rest := by
  have other : c ≠ '/' := by
    rintro rfl
    exact absurd blank (by decide)
  rw [skipFrom, if_pos blank]
  · exact fun _ same => absurd same other
  · exact fun _ same => absurd same other
  · exact fun _ same => absurd same other

theorem skip_gap {gap : List Char} (isGap : Gap gap) (rest : List Char) :
    skipFrom .blank (gap ++ rest) = skipFrom .blank rest := by
  induction isGap with
  | none => rfl
  | blank blank _ ih => rw [List.cons_append, skip_blank blank, ih]
  | @line body later stop plain noDoc ends _ ih =>
    have noDoc' : (body ++ stop :: (later ++ rest)).head? ≠ some '/' := by
      cases body with
      | nil =>
        rintro same
        cases same
        exact absurd ends (by decide)
      | cons c body => exact noDoc
    simp only [List.cons_append, List.append_assoc]
    rw [skip_slashes _ noDoc', skip_line body _ stop plain ends, ih]
  | @block body later unclosed _ ih =>
    simp only [List.cons_append, List.append_assoc]
    rw [skipFrom, skip_block body _ unclosed, ih]

theorem skip_lastGap {cs : List Char} (gap : LastGap cs) : skipFrom .blank cs = some [] := by
  cases gap with
  | closed gap =>
    rw [← List.append_nil cs, skip_gap gap]
    rfl
  | comment before plain noDoc =>
    rw [skip_gap before, skip_slashes _ noDoc, skip_openLine _ plain]

/-! ### Tokens stand out -/

/-- Nothing is skipped in front of the character. -/
def Solid (c : Char) : Prop := isBlank c = false ∧ c ≠ '/'

theorem skip_solid {c : Char} (solid : Solid c) (rest : List Char) :
    skipFrom .blank (c :: rest) = some (c :: rest) := by
  obtain ⟨plain, other⟩ := solid
  rw [skipFrom, plain, if_neg Bool.false_ne_true]
  · exact fun _ same => absurd same other
  · exact fun _ same => absurd same other
  · exact fun _ same => absurd same other

theorem isIdentRest_of_start {c : Char} (start : isIdentStart c = true) : isIdentRest c = true := by
  simp only [isIdentStart, isIdentRest, Char.isAlphanum, Bool.or_eq_true] at start ⊢
  rcases start with alpha | underscore
  · exact .inl (.inl alpha)
  · exact .inr underscore

theorem solid_of_ident {c : Char} (ident : isIdentRest c = true) : Solid c := by
  constructor
  · cases blank : isBlank c with
    | false => rfl
    | true =>
      simp only [isBlank, Bool.or_eq_true, beq_iff_eq] at blank
      rcases blank with ((rfl | rfl) | rfl) | rfl <;> exact absurd ident (by decide)
  · rintro rfl
    exact absurd ident (by decide)

theorem isIdentRest_of_digit {c : Char} (digit : c.isDigit = true) : isIdentRest c = true := by
  simp [isIdentRest, Char.isAlphanum, digit]

/-- The first characters of a mark. -/
theorem mark_first {s : String} (isMark : s ∈ marks) : ∃ c rest, s.toList = c :: rest ∧ Solid c ∧
    isIdentRest c = false := by
  have all : ∀ s ∈ marks, ∃ c rest, s.toList = c :: rest ∧ Solid c ∧ isIdentRest c = false := by
    simp only [marks, List.mem_cons, List.not_mem_nil, or_false]
    rintro s (rfl | rfl | rfl | rfl | rfl | rfl | rfl | rfl | rfl | rfl | rfl | rfl | rfl) <;>
      exact ⟨_, _, rfl, ⟨by decide, by decide⟩, by decide⟩
  exact all s isMark

/-- What stands in front of the digits of a number. -/
def markText : Option Char → List Char
  | some c => ['0', c]
  | none => []

theorem text_chars (negative : Bool) (hexMark : Option Char) (digits : List Char) :
    (Numeral.text ⟨negative, hexMark, digits⟩).toList =
      (if negative then ['-'] else []) ++ markText hexMark ++ digits := by
  simp only [Numeral.text, String.toList_ofList]
  cases hexMark <;> rfl

/-- The characters of a number: a sign, or a digit. -/
theorem number_first {n : Numeral} (written : n.IsWritten) :
    ∃ c rest, n.text.toList = c :: rest ∧ (c = '-' ∨ c.isDigit = true) := by
  obtain ⟨negative, hexMark, digits⟩ := n
  obtain ⟨some, digits_ok⟩ := written
  rw [text_chars]
  cases negative with
  | true => exact ⟨_, _, rfl, .inl rfl⟩
  | false =>
    cases hexMark with
    | some mark => exact ⟨_, _, rfl, .inr (by decide)⟩
    | none =>
      cases digits with
      | nil => exact absurd rfl some
      | cons d rest => exact ⟨d, rest, rfl, .inr (digits_ok d (List.mem_cons_self ..))⟩

/-- The spelling of a token is what is left after the gap in front of it. -/
theorem skip_token {t : Token} {cs : List Char} (spells : t.Spells cs) (rest : List Char) :
    skipFrom .blank (cs ++ rest) = some (cs ++ rest) := by
  cases t with
  | name s =>
    obtain ⟨rfl, c, more, same, start, _⟩ := spells
    rw [same]
    exact skip_solid (solid_of_ident (isIdentRest_of_start start)) _
  | number n =>
    obtain ⟨rfl, written⟩ := spells
    obtain ⟨c, more, same, rfl | digit⟩ := number_first written
    · rw [same]
      exact skip_solid ⟨by decide, by decide⟩ _
    · rw [same]
      exact skip_solid (solid_of_ident (isIdentRest_of_digit digit)) _
  | text body =>
    obtain ⟨rfl, _⟩ := spells
    exact skip_solid ⟨by decide, by decide⟩ _
  | mark s =>
    obtain ⟨rfl, isMark⟩ := spells
    obtain ⟨c, more, same, solid, _⟩ := mark_first isMark
    rw [same]
    exact skip_solid solid _
  | doc line =>
    obtain ⟨pad, trail, rfl, _⟩ := spells
    simp only [List.cons_append]
    rw [skipFrom]

/-- What a parser of a token sees of a spelled text. -/
theorem Spelled.open {t : Token} {ts : List Token} {text : List Char}
    (spelled : Spelled (t :: ts) text) : ∃ cs rest, t.Spells cs ∧ t.Parts rest ∧ Spelled ts rest ∧
      ∀ {α : Type} (take : List Char → Option (α × List Char)),
        Parser.token take text = take (cs ++ rest) := by
  cases spelled with
  | token before spells parts after =>
    refine ⟨_, _, spells, parts, after, fun take => ?_⟩
    rw [Parser.token, skip_gap before, skip_token spells]
    rfl

theorem Spelled.token_end {text : List Char} (spelled : Spelled [] text) {α : Type}
    (take : List Char → Option (α × List Char)) : Parser.token take text = take [] := by
  cases spelled with
  | done gap =>
    rw [Parser.token, skip_lastGap gap]
    rfl

/-- A parser of a token takes nothing away in front of a solid character. -/
theorem token_solid {c : Char} (solid : Solid c) (rest : List Char) {α : Type}
    (take : List Char → Option (α × List Char)) :
    Parser.token take (c :: rest) = take (c :: rest) := by
  rw [Parser.token, skip_solid solid]
  rfl

/-! ### Words and marks -/

theorem prefix_cons {α : Type} [BEq α] (a b : α) (front back : List α) :
    (a :: front).isPrefixOf? (b :: back) = if a == b then front.isPrefixOf? back else none := rfl

theorem prefix_append {α : Type} [BEq α] [LawfulBEq α] (front back : List α) :
    front.isPrefixOf? (front ++ back) = some back := by
  induction front with
  | nil => rfl
  | cons a front ih => simp [prefix_cons, ih]

theorem prefix_split {α : Type} [BEq α] [LawfulBEq α] {front whole back : List α}
    (found : front.isPrefixOf? whole = some back) : front ++ back = whole := by
  induction front generalizing whole with
  | nil =>
    cases found
    rfl
  | cons a front ih =>
    cases whole with
    | nil => cases found
    | cons b whole =>
      rw [prefix_cons] at found
      split at found
      · next same =>
        rw [List.cons_append, eq_of_beq same, ih found]
      · cases found

theorem prefix_first {α : Type} [BEq α] [LawfulBEq α] {a b : α} (different : a ≠ b)
    (front back : List α) : (a :: front).isPrefixOf? (b :: back) = none := by
  simp [prefix_cons, different]

theorem Token.Spells.nonempty {t : Token} {cs : List Char} (spells : t.Spells cs) :
    ∃ c rest, cs = c :: rest := by
  cases t with
  | name s =>
    obtain ⟨rfl, c, more, same, _⟩ := spells
    exact ⟨c, more, same⟩
  | number n =>
    obtain ⟨rfl, written⟩ := spells
    obtain ⟨c, more, same, _⟩ := number_first written
    exact ⟨c, more, same⟩
  | text body =>
    obtain ⟨rfl, _⟩ := spells
    exact ⟨_, _, rfl⟩
  | mark s =>
    obtain ⟨rfl, isMark⟩ := spells
    obtain ⟨c, more, same, _⟩ := mark_first isMark
    exact ⟨c, more, same⟩
  | doc line =>
    obtain ⟨pad, trail, rfl, _⟩ := spells
    exact ⟨_, _, rfl⟩

/-- A fixed text takes off the token that it spells. -/
theorem word_take {t : Token} {ts : List Token} {text : List Char} {w : String}
    (spelled : Spelled (t :: ts) text) (own : ∀ cs, t.Spells cs → cs = w.toList) :
    ∃ rest, word w text = some ((), rest) ∧ Spelled ts rest := by
  obtain ⟨cs, rest, spells, _, after, opened⟩ := spelled.open
  refine ⟨rest, ?_, after⟩
  rw [word, opened, own cs spells, prefix_append]
  rfl

theorem word_mark {s : String} {ts : List Token} {text : List Char}
    (spelled : Spelled (.mark s :: ts) text) :
    ∃ rest, word s text = some ((), rest) ∧ Spelled ts rest :=
  word_take spelled fun _ spells => spells.1

theorem word_name {s : String} {ts : List Token} {text : List Char}
    (spelled : Spelled (.name s :: ts) text) :
    ∃ rest, word s text = some ((), rest) ∧ Spelled ts rest :=
  word_take spelled fun _ spells => spells.1

/-- A fixed text refuses a token that starts otherwise. -/
theorem word_refuses {t : Token} {ts : List Token} {text : List Char} {w : String} {c : Char}
    {more : List Char} (spelled : Spelled (t :: ts) text) (same : w.toList = c :: more)
    (other : ∀ cs, t.Spells cs → cs.head? ≠ some c) : word w text = none := by
  obtain ⟨cs, rest, spells, _, _, opened⟩ := spelled.open
  obtain ⟨d, front, rfl⟩ := spells.nonempty
  have different : c ≠ d := by
    rintro rfl
    exact other _ spells rfl
  rw [word, opened, same, List.cons_append, prefix_first different]
  rfl

/-- A mark refuses what goes on with a word. -/
theorem mark_refuses_ident {s : String} (isMark : s ∈ marks) {c : Char} (ident : isIdentRest c = true)
    (rest : List Char) : word s (c :: rest) = none := by
  obtain ⟨d, more, same, _, plain⟩ := mark_first isMark
  have different : d ≠ c := by
    rintro rfl
    rw [ident] at plain
    cases plain
  rw [word, token_solid (solid_of_ident ident), same, prefix_first different]
  rfl

theorem word_refuses_end {w : String} (some_ : w.toList ≠ []) {text : List Char}
    (spelled : Spelled [] text) : word w text = none := by
  rw [word, spelled.token_end]
  cases same : w.toList with
  | nil => exact absurd same some_
  | cons => rfl

/-! ### Identifiers -/

theorem takeWhile_stop {α : Type} (p : α → Bool) (front back : List α)
    (all : ∀ a ∈ front, p a = true) (stop : ∀ a ∈ back.head?, p a = false) :
    (front ++ back).takeWhile p = front ∧ (front ++ back).dropWhile p = back := by
  induction front with
  | nil =>
    cases back with
    | nil => exact ⟨rfl, rfl⟩
    | cons a back =>
      have here : p a = false := stop a rfl
      exact ⟨List.takeWhile_cons_of_neg (by simp [here]), List.dropWhile_cons_of_neg (by simp [here])⟩
  | cons a front ih =>
    have here : p a = true := all a (List.mem_cons_self ..)
    obtain ⟨taken, left⟩ := ih fun b member => all b (List.mem_cons_of_mem _ member)
    rw [List.cons_append]
    exact ⟨by rw [List.takeWhile_cons_of_pos here, taken], by rw [List.dropWhile_cons_of_pos here, left]⟩

theorem takeIdent_name {s : String} (isName : IsName s) {rest : List Char}
    (parts : ∀ c ∈ rest.head?, isIdentRest c = false) :
    takeIdent (s.toList ++ rest) = some (s, rest) := by
  obtain ⟨c, more, same, start, others⟩ := isName
  obtain ⟨taken, left⟩ := takeWhile_stop isIdentRest more rest others parts
  rw [same, List.cons_append, takeIdent, if_pos start, taken, left, ← same, String.ofList_toList]

theorem ident_take {s : String} {ts : List Token} {text : List Char}
    (spelled : Spelled (.name s :: ts) text) :
    ∃ rest, ident text = some (s, rest) ∧ Spelled ts rest := by
  obtain ⟨cs, rest, ⟨rfl, isName⟩, parts, after, opened⟩ := spelled.open
  exact ⟨rest, by rw [ident, opened, takeIdent_name isName parts], after⟩

theorem ident_refuses_mark {s : String} {ts : List Token} {text : List Char}
    (spelled : Spelled (.mark s :: ts) text) : ident text = none := by
  obtain ⟨cs, rest, ⟨rfl, isMark⟩, _, _, opened⟩ := spelled.open
  obtain ⟨c, more, same, _, plain⟩ := mark_first isMark
  rw [ident, opened, same, List.cons_append, takeIdent, if_neg]
  intro start
  rw [isIdentRest_of_start start] at plain
  cases plain

/-! ### Keywords -/

/-- A keyword takes its token off a text, or refuses it, or takes the front of a longer name. -/
theorem keyword_cases {w s : String} {ts : List Token} {text : List Char}
    (letters : ∀ c ∈ w.toList, isIdentRest c = true) (spelled : Spelled (.name s :: ts) text) :
    word w text = none ∨ ∃ rest, word w text = some ((), rest) ∧ w.toList <+: s.toList ∧
      (Spelled ts rest ∨ ∃ c more, rest = c :: more ∧ isIdentRest c = true) := by
  obtain ⟨cs, rest, ⟨rfl, isName⟩, parts, after, opened⟩ := spelled.open
  rw [word, opened]
  cases found : w.toList.isPrefixOf? (s.toList ++ rest) with
  | none => exact .inl rfl
  | some left =>
    refine .inr ⟨left, rfl, ?_⟩
    have whole : w.toList ++ left = s.toList ++ rest := prefix_split found
    rcases List.append_eq_append_iff.mp whole with ⟨front, same, rfl⟩ | ⟨back, same, rfl⟩
    · refine ⟨⟨front, same.symm⟩, ?_⟩
      cases front with
      | nil => exact .inl after
      | cons c front =>
        -- What is left of the name goes on with it.
        refine .inr ⟨c, front ++ rest, rfl, ?_⟩
        obtain ⟨d, more, form, start, others⟩ := isName
        have member : c ∈ s.toList := by simp [same]
        rw [form] at member
        rcases List.mem_cons.mp member with rfl | later
        · exact isIdentRest_of_start start
        · exact others c later
    · -- The keyword cannot reach beyond the name.
      cases back with
      | nil =>
        rw [List.append_nil] at same
        exact ⟨same ▸ List.prefix_rfl, .inl after⟩
      | cons c back =>
        have plain := parts c rfl
        rw [letters c (by simp [same])] at plain
        cases plain

/-- A keyword refuses names that do not begin with it. -/
theorem keyword_refuses {w s : String} {ts : List Token} {text : List Char}
    (letters : ∀ c ∈ w.toList, isIdentRest c = true) (spelled : Spelled (.name s :: ts) text)
    (other : ¬w.toList <+: s.toList) : word w text = none := by
  rcases keyword_cases letters spelled with refused | ⟨_, _, isPrefix, _⟩
  · exact refused
  · exact absurd isPrefix other

/-! ### Numbers -/

theorem digit_bounds {c : Char} (digit : c.isDigit = true) : 48 ≤ c.toNat ∧ c.toNat ≤ 57 := by
  simp only [Char.isDigit, Bool.and_eq_true, decide_eq_true_eq] at digit
  exact ⟨UInt32.le_iff_toNat_le.mp digit.1, UInt32.le_iff_toNat_le.mp digit.2⟩

theorem isAlpha_iff {c : Char} :
    c.isAlpha = true ↔ 'A' ≤ c ∧ c ≤ 'Z' ∨ 'a' ≤ c ∧ c ≤ 'z' := by
  change (decide ('A' ≤ c ∧ c ≤ 'Z') || (decide ('a' ≤ c) && decide (c ≤ 'z'))) = true ↔ _
  simp only [Bool.or_eq_true, Bool.and_eq_true, decide_eq_true_eq]

theorem isIdentRest_of_hex {c : Char} (hex : isHexDigit c = true) : isIdentRest c = true := by
  simp only [isHexDigit, isIdentRest, Char.isAlphanum, isAlpha_iff, Bool.or_eq_true,
    Bool.and_eq_true, decide_eq_true_eq] at hex ⊢
  rcases hex with (digit | ⟨low, high⟩) | ⟨low, high⟩
  · exact .inl (.inr digit)
  · exact .inl (.inl (.inr ⟨low, Char.le_trans high (by decide)⟩))
  · exact .inl (.inl (.inl ⟨low, Char.le_trans high (by decide)⟩))

theorem takeSome_stop {cls : Char → Bool} {front back : List Char} (some_ : front ≠ [])
    (all : ∀ c ∈ front, cls c = true) (stop : ∀ c ∈ back.head?, cls c = false) :
    takeSome cls (front ++ back) = some (front, back) := by
  obtain ⟨taken, left⟩ := takeWhile_stop cls front back all stop
  rw [takeSome, taken, left, if_neg]
  cases front with
  | nil => exact absurd rfl some_
  | cons => simp

/-- The digits of a number are read as far as they go. -/
theorem takeUnsigned_written {negative : Bool} {hexMark : Option Char} {digits rest : List Char}
    (written : Numeral.IsWritten ⟨negative, hexMark, digits⟩)
    (parts : ∀ c ∈ rest.head?, isIdentRest c = false) :
    takeUnsigned negative (markText hexMark ++ digits ++ rest) =
      some (⟨negative, hexMark, digits⟩, rest) := by
  obtain ⟨nonempty, all⟩ := written
  have noHex : ∀ c ∈ rest.head?, isHexDigit c = false := by
    intro c first
    cases hex : isHexDigit c with
    | false => rfl
    | true =>
      have := parts c first
      rw [isIdentRest_of_hex hex] at this
      cases this
  have noDigit : ∀ c ∈ rest.head?, c.isDigit = false := by
    intro c first
    cases digit : c.isDigit with
    | false => rfl
    | true =>
      have := parts c first
      rw [isIdentRest_of_digit digit] at this
      cases this
  cases hexMark with
  | some mark =>
    obtain ⟨isMark, all⟩ := all
    have marked : (mark == 'x' || mark == 'X') = true := by
      rcases isMark with rfl | rfl <;> decide
    simp only [takeUnsigned, markText, List.cons_append, List.nil_append, marked, if_true,
      takeSome_stop nonempty all noHex]
    rfl
  | none =>
    have decimal : takeDecimal negative (digits ++ rest) =
        some (⟨negative, none, digits⟩, rest) := by
      simp only [takeDecimal, takeSome_stop nonempty all noDigit]
      rfl
    simp only [markText, List.nil_append, takeUnsigned, decimal]
    split
    case h_1 mark more found =>
      -- A zero and a mark would go on with a word.
      rw [if_neg]
      · rfl
      intro marked
      have isMark : mark = 'x' ∨ mark = 'X' := by simpa using marked
      cases digits with
      | nil => exact nonempty rfl
      | cons d digits =>
        cases digits with
        | nil =>
          have second : rest.head? = some mark := by
            rw [List.cons_append, List.nil_append] at found
            cases found
            rfl
          have := parts mark second
          rcases isMark with rfl | rfl <;> exact absurd this (by decide)
        | cons e digits =>
          rw [List.cons_append, List.cons_append] at found
          cases found
          have := all mark (by simp)
          rcases isMark with rfl | rfl <;> exact absurd this (by decide)
    case h_2 => rfl

theorem takeNumeral_written {n : Numeral} (written : n.IsWritten) {rest : List Char}
    (parts : ∀ c ∈ rest.head?, isIdentRest c = false) :
    takeNumeral (n.text.toList ++ rest) = some (n, rest) := by
  obtain ⟨negative, hexMark, digits⟩ := n
  have unsigned := takeUnsigned_written written parts
  rw [text_chars]
  cases negative with
  | true =>
    simp only [if_true, List.append_assoc, List.cons_append, List.nil_append] at unsigned ⊢
    rw [takeNumeral]
    exact unsigned
  | false =>
    obtain ⟨c, more, same, first⟩ := number_first written
    rw [text_chars] at same
    simp only [Bool.false_eq_true, if_false, List.nil_append] at same ⊢
    have digit : c ≠ '-' := by
      rcases first with rfl | digit
      · -- Only a negative number has a sign.
        cases hexMark with
        | some mark => cases same
        | none =>
          have := written.2 '-' (by rw [markText, List.nil_append] at same; simp [same])
          exact absurd this (by decide)
      · rintro rfl
        exact absurd digit (by decide)
    rw [same, List.cons_append] at unsigned ⊢
    rw [takeNumeral]
    · exact unsigned
    · rintro other form
      cases form
      exact digit rfl

theorem numeral_take {n : Numeral} {ts : List Token} {text : List Char}
    (spelled : Spelled (.number n :: ts) text) :
    ∃ rest, numeral text = some (n, rest) ∧ Spelled ts rest := by
  obtain ⟨cs, rest, ⟨rfl, written⟩, parts, after, opened⟩ := spelled.open
  exact ⟨rest, by rw [numeral, opened, takeNumeral_written written parts], after⟩

/-! ### Literals -/

theorem takeBody_plain (body rest : List Char) (plain : ∀ c ∈ body, c ≠ '\\' ∧ c ≠ '"') :
    takeBody (body ++ '"' :: rest) = some (body, rest) := by
  induction body with
  | nil => rw [List.nil_append, takeBody]
  | cons c body ih =>
    obtain ⟨noEscape, noQuote⟩ := plain c (List.mem_cons_self ..)
    rw [List.cons_append, takeBody, ih fun d member => plain d (List.mem_cons_of_mem _ member)]
    · rfl
    · exact fun _ _ same => absurd same noEscape
    · exact noQuote

theorem takeNumeral_refuses {c : Char} (rest : List Char) (other : c ≠ '-')
    (noDigit : c.isDigit = false) : takeNumeral (c :: rest) = none := by
  have zero : c ≠ '0' := by
    rintro rfl
    exact absurd noDigit (by decide)
  have stop : takeDecimal false (c :: rest) = none := by
    simp [takeDecimal, takeSome, noDigit]
  rw [takeNumeral]
  · rw [takeUnsigned]
    · rw [stop]
      rfl
    · rintro mark more same
      cases same
      exact zero rfl
  · rintro more same
    cases same
    exact other rfl

theorem digit_not_start {c : Char} (start : isIdentStart c = true) : c.isDigit = false := by
  cases digit : c.isDigit with
  | false => rfl
  | true =>
    have := digit_bounds digit
    simp only [isIdentStart, isAlpha_iff, Bool.or_eq_true, beq_iff_eq] at start
    rcases start with (⟨low, _⟩ | ⟨low, _⟩) | rfl
    · have : 65 ≤ c.toNat := low
      omega
    · have : 97 ≤ c.toNat := low
      omega
    · exact absurd digit (by decide)

theorem takeBool_name {s : String} {b : Bool} (isName : IsName s) {rest : List Char}
    (parts : ∀ c ∈ rest.head?, isIdentRest c = false)
    (same : s = "true" ∧ b = true ∨ s = "false" ∧ b = false) :
    takeLiteral (s.toList ++ rest) = some (.bool b, rest) := by
  have taken := takeIdent_name isName parts
  have bool : takeBool (s.toList ++ rest) = some (b, rest) := by
    rw [takeBool, taken]
    rcases same with ⟨rfl, rfl⟩ | ⟨rfl, rfl⟩ <;> rfl
  obtain ⟨c, more, form, start, _⟩ := isName
  have noNumber : takeNumeral (s.toList ++ rest) = none := by
    rw [form, List.cons_append]
    refine takeNumeral_refuses _ ?_ (digit_not_start start)
    rintro rfl
    exact absurd start (by decide)
  rw [takeLiteral]
  · rw [noNumber, bool]
    rfl
  · rintro other quoted
    rw [form, List.cons_append] at quoted
    cases quoted
    exact absurd start (by decide)

theorem literal_take {l : LiteralSpec} {ts : List Token} {text : List Char}
    (spelled : Spelled (literalToken l :: ts) text) :
    ∃ rest, literal text = some (l, rest) ∧ Spelled ts rest := by
  cases l with
  | int n =>
    obtain ⟨cs, rest, ⟨rfl, written⟩, parts, after, opened⟩ := spelled.open
    refine ⟨rest, ?_, after⟩
    obtain ⟨c, more, same, first⟩ := number_first written
    rw [literal, opened, takeLiteral]
    · rw [takeNumeral_written written parts]
      rfl
    · rintro other quoted
      rw [same, List.cons_append] at quoted
      cases quoted
      rcases first with sign | digit
      · exact absurd sign (by decide)
      · exact absurd digit (by decide)
  | bool b =>
    cases b with
    | true =>
      obtain ⟨cs, rest, ⟨rfl, isName⟩, parts, after, opened⟩ := spelled.open
      refine ⟨rest, ?_, after⟩
      rw [literal, opened, takeBool_name isName parts (.inl ⟨rfl, rfl⟩)]
    | false =>
      obtain ⟨cs, rest, ⟨rfl, isName⟩, parts, after, opened⟩ := spelled.open
      refine ⟨rest, ?_, after⟩
      rw [literal, opened, takeBool_name isName parts (.inr ⟨rfl, rfl⟩)]
  | str body =>
    obtain ⟨cs, rest, ⟨rfl, plain⟩, _, after, opened⟩ := spelled.open
    refine ⟨rest, ?_, after⟩
    have whole : '"' :: (body ++ ['"']) ++ rest = '"' :: (body ++ '"' :: rest) := by simp
    rw [literal, opened, whole, takeLiteral, takeBody_plain body rest plain]
    rfl

/-- Nothing that starts with an angle is a literal. -/
theorem literal_refuses_angle (rest : List Char) : literal ('>' :: rest) = none := by
  have solid : Solid '>' := ⟨by decide, by decide⟩
  rw [literal, token_solid solid, takeLiteral]
  · rw [takeNumeral_refuses rest (by decide) (by decide)]
    simp [takeBool, takeIdent, isIdentStart]
  · rintro other same
    cases same

/-! ### Documentation -/

theorem trimEnd_line (line : List Char) {trail : List Char} (trimmed : IsTrimmed line)
    (blank : ∀ c ∈ trail, Text.isBlank c = true) : Text.trimEnd (line ++ trail) = line := by
  have dropped : (trail.reverse ++ []).dropWhile Text.isBlank = [] :=
    (takeWhile_stop Text.isBlank trail.reverse []
      (fun c member => blank c (List.mem_reverse.mp member)) (fun c none => by cases none)).2
  rw [List.append_nil] at dropped
  rw [Text.trimEnd, List.reverse_append, List.dropWhile_append, dropped]
  simp only [List.isEmpty_nil, if_true]
  cases last : line.reverse with
  | nil =>
    rw [List.reverse_eq_nil_iff.mp last]
    rfl
  | cons c rest =>
    have stays : Text.isBlank c = false := by
      refine trimmed c ?_
      rw [← List.head?_reverse, last]
      rfl
    rw [List.dropWhile_cons_of_neg (by simp [stays]), ← last, List.reverse_reverse]

theorem docText_spelling {line pad trail : List Char}
    (padded : pad = [' '] ∨ pad = [] ∧ ∀ c ∈ line.head?, c ≠ ' ' ∧ c ≠ '/')
    (trimmed : IsTrimmed line) (blank : ∀ c ∈ trail, isLineEnd c = false ∧ Text.isBlank c = true) :
    docText (pad ++ (line ++ trail)) = String.ofList line := by
  have cut := trimEnd_line line trimmed fun c member => (blank c member).2
  rcases padded with rfl | ⟨rfl, first⟩
  · have kept : dropSlashes ([' '] ++ (line ++ trail)) = ' ' :: (line ++ trail) := by
      simp [dropSlashes]
    simp only [docText, kept, cut]
  · cases line with
    | nil =>
      cases trail with
      | nil => rfl
      | cons c trail =>
        have isBlank := (blank c (List.mem_cons_self ..)).2
        have noSlash : c ≠ '/' := by
          rintro rfl
          exact absurd isBlank (by decide)
        have kept : dropSlashes (c :: trail) = c :: trail := by
          rw [dropSlashes]
          rintro rest same
          cases same
          exact noSlash rfl
        have later := trimEnd_line [] trimmed fun d member =>
          (blank d (List.mem_cons_of_mem c member)).2
        simp only [List.nil_append] at cut later ⊢
        simp only [docText, kept]
        split
        case h_1 rest same =>
          cases same
          rw [later]
        case h_2 => rw [cut]
    | cons c line =>
      obtain ⟨noBlank, noSlash⟩ := first c rfl
      have kept : dropSlashes (c :: (line ++ trail)) = c :: (line ++ trail) := by
        rw [dropSlashes]
        exact fun rest same => noSlash (List.cons.inj same).1
      simp only [List.nil_append, List.cons_append] at cut ⊢
      simp only [docText, kept]
      split
      case h_1 rest same =>
        cases same
        exact absurd rfl noBlank
      case h_2 => rw [cut]

theorem doc_take {line : String} {ts : List Token} {text : List Char}
    (spelled : Spelled (.doc line :: ts) text) :
    ∃ rest, doc text = some (line, rest) ∧ Spelled ts rest := by
  obtain ⟨cs, rest, ⟨pad, trail, rfl, padded, plain, trimmed, blank⟩, parts, after, opened⟩ :=
    spelled.open
  refine ⟨rest, ?_, after⟩
  have inLine : ∀ c ∈ pad ++ (line.toList ++ trail), (!isLineEnd c) = true := by
    intro c member
    simp only [List.mem_append] at member
    rcases member with inPad | inBody | inTrail
    · rcases padded with rfl | ⟨rfl, _⟩
      · cases List.mem_singleton.mp inPad
        decide
      · cases inPad
    · simp [plain c inBody]
    · simp [(blank c inTrail).1]
  have stop : ∀ c ∈ rest.head?, (!isLineEnd c) = false := fun c first => by simp [parts c first]
  obtain ⟨taken, left⟩ := takeWhile_stop _ _ _ inLine stop
  rw [doc, opened]
  simp only [List.cons_append, takeDoc, taken, left, docText_spelling padded trimmed blank,
    String.ofList_toList]

/-- A token other than documentation is none. -/
theorem doc_refuses {t : Token} {ts : List Token} {text : List Char} (spelled : Spelled (t :: ts) text)
    (other : ∀ line, t ≠ .doc line) : doc text = none := by
  obtain ⟨cs, rest, spells, _, _, opened⟩ := spelled.open
  have noSlash : cs.head? ≠ some '/' := by
    cases t with
    | name s =>
      obtain ⟨rfl, c, more, same, start, _⟩ := spells
      rw [same]
      rintro first
      cases first
      exact absurd start (by decide)
    | number n =>
      obtain ⟨rfl, written⟩ := spells
      obtain ⟨c, more, same, sign⟩ := number_first written
      rw [same]
      rintro first
      cases first
      rcases sign with sign | digit
      · exact absurd sign (by decide)
      · exact absurd digit (by decide)
    | text body =>
      obtain ⟨rfl, _⟩ := spells
      rintro first
      cases first
    | mark s =>
      obtain ⟨rfl, isMark⟩ := spells
      obtain ⟨c, more, same, solid, _⟩ := mark_first isMark
      rw [same]
      rintro first
      cases first
      exact solid.2 rfl
    | doc line => exact absurd rfl (other line)
  obtain ⟨c, more, rfl⟩ := spells.nonempty
  rw [doc, opened, List.cons_append, takeDoc]
  exact fun rest' same => noSlash (congrArg some (List.cons.inj same).1)

theorem doc_refuses_end {text : List Char} (spelled : Spelled [] text) : doc text = none := by
  rw [doc, spelled.token_end]
  rfl

end WireSchema.Source
