import WireSchema.Source.Number
import WireSchema.Source.Token

/-!
# Quoted texts

A text is quoted by escaping its backslashes, quotes, line feeds and tabs. The quoted text is read
as one literal. Its escapes are then undone one kind after the other, over the whole body, so a run
of backslashes and the character after it decide together what comes back: every character does,
except that an `n` or a `t` right after a backslash comes back as a line feed or a tab.

## Main results

* `unescape_run`: what becomes of a run of backslashes and the character after it, in any body.
* `takeLiteral_escape`: the quoted text is one literal.
* `unescape_escape`: what comes back of a text that was escaped.
* `literal_escape_iff`: the texts that come back.
-/

namespace WireSchema.Source

open WireSchema.Source.Parser

/-! ### Replacing an escape -/

theorem replaceFrom_enough {pattern image : List Char} (nonempty : pattern ≠ []) :
    ∀ {fuel : Nat} {cs : List Char}, cs.length ≤ fuel →
      Text.replaceFrom pattern image fuel cs = Text.replace pattern image cs
  | 0, [], _ => rfl
  | fuel + 1, [], _ => rfl
  | fuel + 1, c :: rest, enough => by
    have shorter : ((c :: rest).drop pattern.length).length ≤ rest.length := by
      have := List.length_pos_iff.mpr nonempty
      simp only [List.length_drop, List.length_cons]
      omega
    have enough' : rest.length ≤ fuel := Nat.le_of_succ_le_succ enough
    rw [Text.replace, List.length_cons, Text.replaceFrom, Text.replaceFrom,
      replaceFrom_enough nonempty (Nat.le_trans shorter enough'),
      replaceFrom_enough nonempty shorter, replaceFrom_enough nonempty enough',
      replaceFrom_enough nonempty (Nat.le_refl rest.length)]

section Escape

variable {letter image : Char}

theorem replace_escape (rest : List Char) :
    Text.replace ['\\', letter] [image] ('\\' :: letter :: rest) =
      image :: Text.replace ['\\', letter] [image] rest := by
  rw [Text.replace, List.length_cons, Text.replaceFrom, if_pos (by simp [List.isPrefixOf])]
  exact congrArg (image :: ·)
    (replaceFrom_enough (List.cons_ne_nil _ _) (Nat.le_succ rest.length))

theorem replace_other {c : Char} {rest : List Char}
    (other : ['\\', letter].isPrefixOf (c :: rest) = false) :
    Text.replace ['\\', letter] [image] (c :: rest) =
      c :: Text.replace ['\\', letter] [image] rest := by
  rw [Text.replace, List.length_cons, Text.replaceFrom, other, if_neg Bool.false_ne_true,
    ← Text.replace]

theorem replace_single {c : Char} (other : c ≠ '\\') (rest : List Char) :
    Text.replace ['\\', letter] [image] (c :: rest) =
      c :: Text.replace ['\\', letter] [image] rest :=
  replace_other (by simp [List.isPrefixOf, other.symm])

/-- Of a run of backslashes in front of the escaped letter, the last one is part of the escape. -/
theorem replace_run_escape (plain : letter ≠ '\\') (n : Nat) (rest : List Char) :
    Text.replace ['\\', letter] [image] (List.replicate (n + 1) '\\' ++ letter :: rest) =
      List.replicate n '\\' ++ image :: Text.replace ['\\', letter] [image] rest := by
  induction n with
  | zero => exact replace_escape rest
  | succ n ih =>
    rw [List.replicate_succ, List.cons_append, replace_other, ih, List.replicate_succ,
      List.cons_append]
    simp [List.replicate_succ, List.isPrefixOf, plain]

theorem replace_run_other {c : Char} (plain : letter ≠ '\\') (other : c ≠ letter)
    (solid : c ≠ '\\') (n : Nat) (rest : List Char) :
    Text.replace ['\\', letter] [image] (List.replicate n '\\' ++ c :: rest) =
      List.replicate n '\\' ++ c :: Text.replace ['\\', letter] [image] rest := by
  induction n with
  | zero => exact replace_single solid rest
  | succ n ih =>
    rw [List.replicate_succ, List.cons_append, replace_other, ih, List.cons_append]
    cases n with
    | zero => simp [List.isPrefixOf, other.symm]
    | succ n => simp [List.replicate_succ, List.isPrefixOf, plain]

theorem replace_backslashes (plain : letter ≠ '\\') (n : Nat) :
    Text.replace ['\\', letter] [image] (List.replicate n '\\') = List.replicate n '\\' := by
  induction n with
  | zero => rfl
  | succ n ih =>
    rw [List.replicate_succ, replace_other, ih]
    cases n with
    | zero => simp [List.isPrefixOf]
    | succ n => simp [List.replicate_succ, List.isPrefixOf, plain]

end Escape

/-- Two backslashes become one; of an odd run the last one stays. -/
theorem replace_pairs {tail : List Char} (solid : tail.head? ≠ some '\\') : ∀ n : Nat,
    Text.replace ['\\', '\\'] ['\\'] (List.replicate n '\\' ++ tail) =
      List.replicate ((n + 1) / 2) '\\' ++ Text.replace ['\\', '\\'] ['\\'] tail
  | 0 => rfl
  | 1 => by
    refine replace_other ?_
    cases tail with
    | nil => rfl
    | cons c rest =>
      have other : c ≠ '\\' := fun same => solid (congrArg some same)
      simp [List.isPrefixOf, other.symm]
  | n + 2 => by
    have half : (n + 2 + 1) / 2 = (n + 1) / 2 + 1 := by omega
    rw [half, List.replicate_succ, List.replicate_succ, List.cons_append, List.cons_append,
      replace_escape, replace_pairs solid n, List.replicate_succ, List.cons_append]

/-! ### Undoing all of them -/

/-- A text is a sequence of runs of backslashes, each but the last with a character after it. -/
theorem runs_induction {motive : List Char → Prop}
    (last : ∀ n, motive (List.replicate n '\\'))
    (run : ∀ n c rest, c ≠ '\\' → motive rest → motive (List.replicate n '\\' ++ c :: rest))
    (cs : List Char) : motive cs := by
  have after : ∀ cs n, motive (List.replicate n '\\' ++ cs) := by
    intro cs
    induction cs with
    | nil => exact fun n => (List.append_nil (List.replicate n '\\')).symm ▸ last n
    | cons c rest ih =>
      intro n
      by_cases backslash : c = '\\'
      · have longer : List.replicate n '\\' ++ '\\' :: rest =
            List.replicate (n + 1) '\\' ++ rest := by
          rw [List.replicate_succ', List.append_assoc, List.singleton_append]
        rw [backslash, longer]
        exact ih (n + 1)
      · exact run n c rest backslash (ih 0)
  exact after cs 0

/-- What an escaped letter stands for. -/
def imageOf : Char → Option Char
  | '"' => some '"'
  | 'n' => some '\n'
  | 't' => some '\t'
  | _ => none

/-- What becomes of a run of `n` backslashes and the character `c` after it. -/
def undoRun : Nat → Char → List Char
  | 0, c => [c]
  | n + 1, c =>
    match imageOf c with
    | some image => List.replicate ((n + 1) / 2) '\\' ++ [image]
    | none => List.replicate ((n + 2) / 2) '\\' ++ [c]

theorem unescape_run {c : Char} (solid : c ≠ '\\') (n : Nat) (rest : List Char) :
    unescape (List.replicate n '\\' ++ c :: rest) = undoRun n c ++ unescape rest := by
  have pairs (n : Nat) {c : Char} (solid : c ≠ '\\') (rest : List Char) :
      Text.replace ['\\', '\\'] ['\\'] (List.replicate n '\\' ++ c :: rest) =
        List.replicate ((n + 1) / 2) '\\' ++ c :: Text.replace ['\\', '\\'] ['\\'] rest := by
    rw [replace_pairs (by simpa using solid), replace_single solid]
  cases n with
  | zero =>
    simp only [unescape, List.replicate_zero, List.nil_append, replace_single solid, undoRun,
      List.singleton_append]
  | succ n =>
    by_cases quote : c = '"'
    · subst quote
      simp [unescape, undoRun, imageOf, replace_run_escape, replace_run_other, pairs]
    by_cases feed : c = 'n'
    · subst feed
      simp [unescape, undoRun, imageOf, replace_run_escape, replace_run_other, pairs]
    by_cases tab : c = 't'
    · subst tab
      simp [unescape, undoRun, imageOf, replace_run_escape, replace_run_other, pairs]
    · have noImage : imageOf c = none := by simp [imageOf]
      have half : (n + 1 + 1) / 2 = n / 2 + 1 := by omega
      simp [unescape, undoRun, noImage, replace_run_other, pairs, solid, quote, feed, tab, half]

theorem unescape_backslashes (n : Nat) :
    unescape (List.replicate n '\\') = List.replicate ((n + 1) / 2) '\\' := by
  have nothing : ([] : List Char).head? ≠ some '\\' := by simp
  have pairs := replace_pairs nothing n
  rw [List.append_nil] at pairs
  simp only [unescape]
  rw [replace_backslashes (by decide), replace_backslashes (by decide),
    replace_backslashes (by decide), pairs]
  exact List.append_nil _

/-! ### Escaping -/

/-- A character as it is written between quotes. -/
def escapeChar : Char → List Char
  | '\\' => ['\\', '\\']
  | '"' => ['\\', '"']
  | '\n' => ['\\', 'n']
  | '\t' => ['\\', 't']
  | c => [c]

/-- A text as it is written between quotes. -/
def escape (text : List Char) : List Char := text.flatMap escapeChar

theorem takeBody_escapeChar (c : Char) (cs : List Char) :
    takeBody (escapeChar c ++ cs) =
      (takeBody cs).map fun (body, rest) => (escapeChar c ++ body, rest) := by
  by_cases backslash : c = '\\'
  · subst backslash; simp [escapeChar, takeBody]
  by_cases quote : c = '"'
  · subst quote; simp [escapeChar, takeBody]
  by_cases feed : c = '\n'
  · subst feed; simp [escapeChar, takeBody]
  by_cases tab : c = '\t'
  · subst tab; simp [escapeChar, takeBody]
  · have same : escapeChar c = [c] := by simp [escapeChar]
    rw [same, List.singleton_append, takeBody]
    · rfl
    · exact fun _ _ same => absurd same backslash
    · exact quote

theorem takeBody_escape (text rest : List Char) :
    takeBody (escape text ++ '"' :: rest) = some (escape text, rest) := by
  induction text with
  | nil => rw [escape, List.flatMap_nil, List.nil_append, takeBody]
  | cons c text ih =>
    rw [escape, List.flatMap_cons, List.append_assoc, takeBody_escapeChar, ← escape, ih]
    rfl

/-- An escaped text in quotes is one literal, whatever follows. -/
theorem takeLiteral_escape (text rest : List Char) :
    takeLiteral ('"' :: (escape text ++ '"' :: rest)) = some (.str (escape text), rest) := by
  rw [takeLiteral, takeBody_escape]
  rfl

/-- The control character that a letter after a backslash is taken for. -/
def control : Char → Char
  | 'n' => '\n'
  | 't' => '\t'
  | c => c

/-- The text with the letters of the two control characters replaced where they follow a backslash;
the flag says that one stands in front. -/
def misreadAfter : Bool → List Char → List Char
  | _, [] => []
  | backslash, c :: rest => (if backslash then control c else c) :: misreadAfter (c == '\\') rest

/-- What comes back of a text that was escaped. -/
def misread (text : List Char) : List Char := misreadAfter false text

theorem misreadAfter_backslashes (n : Nat) (cs : List Char) :
    misreadAfter true (List.replicate n '\\' ++ cs) =
      List.replicate n '\\' ++ misreadAfter true cs := by
  induction n with
  | zero => rfl
  | succ n ih =>
    rw [List.replicate_succ, List.cons_append, List.cons_append, ← ih]
    rfl

theorem misread_run {c : Char} (solid : c ≠ '\\') (n : Nat) (rest : List Char) :
    misread (List.replicate n '\\' ++ c :: rest) =
      List.replicate n '\\' ++ (if n = 0 then c else control c) :: misread rest := by
  have stop : (c == '\\') = false := beq_false_of_ne solid
  cases n with
  | zero =>
    rw [misread, List.replicate_zero, List.nil_append, misreadAfter, stop]
    rfl
  | succ n =>
    have first : misread (List.replicate (n + 1) '\\' ++ c :: rest) =
        '\\' :: misreadAfter true (List.replicate n '\\' ++ c :: rest) := rfl
    rw [first, misreadAfter_backslashes, misreadAfter, stop, if_pos rfl, if_neg (Nat.succ_ne_zero n),
      List.replicate_succ, List.cons_append, ← misread]

theorem misread_backslashes (n : Nat) : misread (List.replicate n '\\') = List.replicate n '\\' := by
  cases n with
  | zero => rfl
  | succ n =>
    have rest := misreadAfter_backslashes n []
    rw [List.append_nil] at rest
    exact congrArg ('\\' :: ·) (rest.trans (List.append_nil _))

theorem escape_append (text rest : List Char) : escape (text ++ rest) = escape text ++ escape rest :=
  List.flatMap_append

theorem escape_backslashes (n : Nat) :
    escape (List.replicate n '\\') = List.replicate (2 * n) '\\' := by
  induction n with
  | zero => rfl
  | succ n ih =>
    rw [List.replicate_succ, escape, List.flatMap_cons, ← escape, ih]
    rfl

/-- A doubled run comes back as it was, and takes a letter after it for a control character. -/
theorem undoRun_double {c : Char} (quote : c ≠ '"') (n : Nat) :
    undoRun (2 * n) c = List.replicate n '\\' ++ [if n = 0 then c else control c] := by
  cases n with
  | zero => rfl
  | succ n =>
    have double : 2 * (n + 1) = 2 * n + 1 + 1 := by omega
    have down : (2 * n + 1 + 1) / 2 = n + 1 := by omega
    have up : (2 * n + 1 + 2) / 2 = n + 1 := by omega
    rw [double, undoRun, down, up, if_neg (Nat.succ_ne_zero n)]
    by_cases feed : c = 'n'
    · subst feed; rfl
    by_cases tab : c = 't'
    · subst tab; rfl
    · have noImage : imageOf c = none := by simp [imageOf]
      have same : control c = c := by simp [control]
      rw [noImage, same]

/-- What comes back of an escaped text: backslashes, quotes, line feeds and tabs do, and so does
every other character, unless it is an `n` or a `t` right after a backslash. -/
theorem unescape_escape (text : List Char) : unescape (escape text) = misread text := by
  induction text using runs_induction with
  | last n =>
    have half : (2 * n + 1) / 2 = n := by omega
    rw [escape_backslashes, unescape_backslashes, misread_backslashes, half]
  | run n c rest solid ih =>
    -- An escape adds its own backslash to the doubled run.
    have escaped {letter image : Char} (written : escapeChar c = ['\\', letter])
        (stands : imageOf letter = some image) (plain : letter ≠ '\\') :
        unescape (escape (List.replicate n '\\' ++ c :: rest)) =
          List.replicate n '\\' ++ image :: misread rest := by
      have whole : escape (List.replicate n '\\' ++ c :: rest) =
          List.replicate (2 * n + 1) '\\' ++ letter :: escape rest := by
        rw [escape_append, escape_backslashes, List.replicate_succ', List.append_assoc, escape,
          List.flatMap_cons, written, ← escape]
        rfl
      have half : (2 * n + 1) / 2 = n := by omega
      rw [whole, unescape_run plain, undoRun, stands, half, ih, List.append_assoc,
        List.singleton_append]
    rw [misread_run solid]
    by_cases quote : c = '"'
    · subst quote
      rw [escaped rfl rfl (by decide)]
      split <;> rfl
    by_cases feed : c = '\n'
    · subst feed
      rw [escaped rfl rfl (by decide)]
      split <;> rfl
    by_cases tab : c = '\t'
    · subst tab
      rw [escaped rfl rfl (by decide)]
      split <;> rfl
    -- A character that is written as it is stands right behind the doubled run.
    have written : escapeChar c = [c] := by simp [escapeChar]
    have whole : escape (List.replicate n '\\' ++ c :: rest) =
        List.replicate (2 * n) '\\' ++ c :: escape rest := by
      rw [escape_append, escape_backslashes, escape, List.flatMap_cons, written, ← escape]
      rfl
    rw [whole, unescape_run solid, ih, undoRun_double quote, List.append_assoc,
      List.singleton_append]

/-- A letter of a control character. -/
def IsControlLetter (c : Char) : Prop := c = 'n' ∨ c = 't'

theorem control_eq_iff (c : Char) : control c = c ↔ ¬IsControlLetter c := by
  by_cases feed : c = 'n'
  · subst feed; simp [control, IsControlLetter]
  by_cases tab : c = 't'
  · subst tab; simp [control, IsControlLetter]
  · simp [control, IsControlLetter, feed, tab]

theorem misreadAfter_eq_iff (flag : Bool) (text : List Char) :
    misreadAfter flag text = text ↔
      (flag = true → ∀ c, IsControlLetter c → text.head? ≠ some c) ∧
        ∀ c, IsControlLetter c → ¬['\\', c] <:+: text := by
  induction text generalizing flag with
  | nil => simp [misreadAfter]
  | cons d rest ih =>
    have first : (if flag then control d else d) = d ↔
        (flag = true → ∀ c, IsControlLetter c → (d :: rest).head? ≠ some c) := by
      cases flag with
      | false => simp
      | true =>
        simp only [if_true, control_eq_iff, List.head?_cons, ne_eq, Option.some.injEq, true_imp_iff]
        exact ⟨fun plain c letter same => plain (same ▸ letter), fun all letter => all d letter rfl⟩
    have pair (c : Char) : ['\\', c] <:+: d :: rest ↔
        (d = '\\' ∧ rest.head? = some c) ∨ ['\\', c] <:+: rest := by
      rw [List.infix_cons_iff, List.cons_prefix_cons, eq_comm]
      cases rest with
      | nil => simp
      | cons e rest =>
        simp only [List.cons_prefix_cons, List.nil_prefix, and_true, List.head?_cons,
          Option.some.injEq, eq_comm]
    rw [misreadAfter, List.cons.injEq, first, ih]
    simp only [pair, not_or, not_and, beq_iff_eq, ne_eq]
    constructor
    · rintro ⟨here, after, later⟩
      exact ⟨here, fun c letter => ⟨fun backslash => after backslash c letter, later c letter⟩⟩
    · rintro ⟨here, both⟩
      exact ⟨here, fun backslash c letter => (both c letter).1 backslash,
        fun c letter => (both c letter).2⟩

/-- The texts that come back from their quoted form: no `n` or `t` stands right after a
backslash. -/
theorem literal_escape_iff (kind : IntKind) (text : List Char) :
    (LiteralSpec.str (escape text)).literal kind = .ok (.str (String.ofList text)) ↔
      ∀ c, IsControlLetter c → ¬['\\', c] <:+: text := by
  rw [LiteralSpec.literal, unescape_escape]
  have same : (Except.ok (Literal.str (String.ofList (misread text))) : Except SchemaError Literal) =
      .ok (.str (String.ofList text)) ↔ misread text = text := by
    simp [String.ofList_inj]
  refine same.trans ((misreadAfter_eq_iff false text).trans ?_)
  simp

example : unescape (escape ['\\', 'n']) = ['\\', '\n'] := by decide

end WireSchema.Source
