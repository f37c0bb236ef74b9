import WireSchema.Text.CharClass
import WireSchema.Text.CaseMap

/-!
# Words of an identifier

An identifier falls into words at every character that is neither letter nor number, before an
uppercase letter that follows a lowercase one, and before the last uppercase letter of a run that a
lowercase letter follows (`HTTPServer` is `HTTP`, `Server`). `upperCamel` and `snake` write the
words of a text in the two usual styles.
-/

namespace WireSchema.Text

/-- What the letters of the word read so far say about its case. -/
inductive CaseMode where
  /-- No letter with a case yet. -/
  | boundary
  | lower
  | upper
  deriving DecidableEq, Repr

/-- The mode after `c`, when `c` does not end a word. -/
def CaseMode.next (mode : CaseMode) (c : Char) : CaseMode :=
  if isLowercase c then .lower else if isUppercase c then .upper else mode

/-- The words of a run of letters and numbers; `read` is the word under way, last character
first. -/
def humps (mode : CaseMode) (read : List Char) : List Char → List (List Char)
  | [] => []
  | [c] => [(c :: read).reverse]
  | c :: next :: rest =>
    if mode.next c = .lower ∧ isUppercase next then
      (c :: read).reverse :: humps .boundary [] (next :: rest)
    else if mode = .upper ∧ isUppercase c ∧ isLowercase next then
      read.reverse :: humps .boundary [c] (next :: rest)
    else humps (mode.next c) (c :: read) (next :: rest)

/-- The maximal runs of letters and numbers of a text; `read` is the run under way, last character
first. -/
def runs (read : List Char) : List Char → List (List Char)
  | [] => [read.reverse]
  | c :: rest => if isAlphanumeric c then runs (c :: read) rest else read.reverse :: runs [] rest

/-- The words of a text, in order. -/
def words (text : List Char) : List (List Char) :=
  (runs [] text).flatMap (humps .boundary [])

/-- A word in lower case. A capital sigma that ends the word takes its final form. -/
def lowerWord : List Char → List Char
  | [] => []
  | [c] => if c = 'Σ' then ['ς'] else toLower c
  | c :: next :: rest => toLower c ++ lowerWord (next :: rest)

/-- A word with its first character in upper case and the rest in lower case. -/
def capitalWord : List Char → List Char
  | [] => []
  | c :: rest => toUpper c ++ lowerWord rest

/-- The words of `text`, capitalised and run together. -/
def upperCamel (text : String) : String :=
  String.ofList ((words text.toList).flatMap capitalWord)

/-- The words of `text` in lower case, joined by underscores. -/
def snake (text : String) : String :=
  String.ofList (List.intercalate ['_'] ((words text.toList).map lowerWord))

end WireSchema.Text
