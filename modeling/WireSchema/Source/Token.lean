import WireSchema.Source.Spec
import WireSchema.Text.CharClass

/-!
# Tokens of a schema text

Blanks and comments may stand in front of every token. A comment runs from `//` to the end of its
line, unless a third slash makes it documentation, or from a slash and an asterisk to the first
asterisk and slash. Words need nothing between them and the next token.
-/

namespace WireSchema.Source

/-- A parser takes its part off the front of a text, or refuses. -/
abbrev Parser := StateT (List Char) Option

namespace Parser

/-- What the text being skipped belongs to. -/
inductive Trivia where
  | blank
  | lineComment
  | blockComment

def isBlank (c : Char) : Bool := c == ' ' || c == '\t' || c == '\r' || c == '\n'

def isLineEnd (c : Char) : Bool := c == '\n' || c == '\r'

/-- The text after the blanks and comments in front; none if a comment is not closed. -/
def skipFrom : Trivia → List Char → Option (List Char)
  | .blank, '/' :: '/' :: '/' :: rest => some ('/' :: '/' :: '/' :: rest)
  | .blank, '/' :: '/' :: rest => skipFrom .lineComment rest
  | .blank, '/' :: '*' :: rest => skipFrom .blockComment rest
  | .blank, c :: rest => if isBlank c then skipFrom .blank rest else some (c :: rest)
  | .lineComment, c :: rest => skipFrom (if isLineEnd c then .blank else .lineComment) rest
  | .blockComment, '*' :: '/' :: rest => skipFrom .blank rest
  | .blockComment, _ :: rest => skipFrom .blockComment rest
  | .blank, [] | .lineComment, [] => some []
  | .blockComment, [] => none

/-- Takes what `take` takes off the text, after blanks and comments. -/
def token {α : Type} (take : List Char → Option (α × List Char)) : Parser α := fun cs => do
  take (← skipFrom .blank cs)

/-- A fixed word or mark. -/
def word (w : String) : Parser Unit :=
  token fun cs => (w.toList.isPrefixOf? cs).map fun rest => ((), rest)

/-- The end of the text. -/
def endOfText : Parser Unit :=
  token fun cs => if cs.isEmpty then some ((), []) else none

def isIdentStart (c : Char) : Bool := c.isAlpha || c == '_'

def isIdentRest (c : Char) : Bool := c.isAlphanum || c == '_'

def takeIdent : List Char → Option (String × List Char)
  | [] => none
  | c :: rest =>
    if isIdentStart c then
      some (String.ofList (c :: rest.takeWhile isIdentRest), rest.dropWhile isIdentRest)
    else none

def ident : Parser String := token takeIdent

def isHexDigit (c : Char) : Bool :=
  c.isDigit || ('a' ≤ c && c ≤ 'f') || ('A' ≤ c && c ≤ 'F')

/-- One or more characters of a class. -/
def takeSome (cls : Char → Bool) (cs : List Char) : Option (List Char × List Char) :=
  if (cs.takeWhile cls).isEmpty then none else some (cs.takeWhile cls, cs.dropWhile cls)

def takeDecimal (negative : Bool) (cs : List Char) : Option (Numeral × List Char) :=
  (takeSome Char.isDigit cs).map fun (digits, rest) => (⟨negative, none, digits⟩, rest)

/-- A number without its sign: hexadecimal digits after `0x` or `0X`, or decimal digits. -/
def takeUnsigned (negative : Bool) (cs : List Char) : Option (Numeral × List Char) :=
  let hex : Option (Numeral × List Char) :=
    match cs with
    | '0' :: mark :: rest =>
      if mark == 'x' || mark == 'X' then
        (takeSome isHexDigit rest).map fun (digits, rest) => (⟨negative, some mark, digits⟩, rest)
      else none
    | _ => none
  hex <|> takeDecimal negative cs

def takeNumeral : List Char → Option (Numeral × List Char)
  | '-' :: rest => takeUnsigned true rest
  | cs => takeUnsigned false cs

def numeral : Parser Numeral := token takeNumeral

/-- The body of a text up to its closing quote. A backslash protects the next character. -/
def takeBody : List Char → Option (List Char × List Char)
  | [] => none
  | '\\' :: c :: rest => (takeBody rest).map fun (body, rest) => ('\\' :: c :: body, rest)
  | '"' :: rest => some ([], rest)
  | c :: rest => (takeBody rest).map fun (body, rest) => (c :: body, rest)

def takeBool (cs : List Char) : Option (Bool × List Char) := do
  let (name, rest) ← takeIdent cs
  if name = "true" then return (true, rest)
  else if name = "false" then return (false, rest)
  else none

def takeLiteral : List Char → Option (LiteralSpec × List Char)
  | '"' :: rest => (takeBody rest).map fun (body, rest) => (.str body, rest)
  | cs =>
    ((takeNumeral cs).map fun (n, rest) => (.int n, rest)) <|>
      (takeBool cs).map fun (b, rest) => (.bool b, rest)

def literal : Parser LiteralSpec := token takeLiteral

/-- The text without the groups of three slashes in front. -/
def dropSlashes : List Char → List Char
  | '/' :: '/' :: '/' :: rest => dropSlashes rest
  | cs => cs

/-- A line of documentation without its slashes, one blank after them, and the blanks at its end. -/
def docText (line : List Char) : String :=
  let text := match dropSlashes line with
    | ' ' :: rest => rest
    | cs => cs
  String.ofList (Text.trimEnd text)

def takeDoc : List Char → Option (String × List Char)
  | '/' :: '/' :: '/' :: rest =>
    some (docText (rest.takeWhile fun c => !isLineEnd c), rest.dropWhile fun c => !isLineEnd c)
  | _ => none

/-- A line of documentation: three slashes and the rest of the line. -/
def doc : Parser String := token takeDoc

/-- As many items as there are, but at most `bound`. -/
def many {α : Type} (item : Parser α) : Nat → Parser (List α)
  | 0 => return []
  | bound + 1 => fun cs =>
    match item cs with
    | none => some ([], cs)
    | some (a, rest) => (many item bound rest).map fun (as, rest) => (a :: as, rest)

/-- An item that may be missing. -/
def opt {α : Type} (item : Parser α) : Parser (Option α) := fun cs =>
  match item cs with
  | none => some (none, cs)
  | some (a, rest) => some (some a, rest)

/-- One or more items with commas between them. -/
def commaSeparated {α : Type} (bound : Nat) (item : Parser α) : Parser (List α) := do
  let first ← item
  let others ← many (do word ","; item) bound
  return first :: others

/-- One or more items with commas between them, and perhaps one after the last. -/
def commaEnded {α : Type} (bound : Nat) (item : Parser α) : Parser (List α) := do
  let items ← commaSeparated bound item
  let _ ← opt (word ",")
  return items

end Parser

end WireSchema.Source
