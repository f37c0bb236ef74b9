import WireSchema.Text.CharClass

/-!
# Lines and pieces of a text
-/

namespace WireSchema.Text

/-- The pieces of `cs` between the characters that satisfy `isMark`; `read` is the piece under way,
last character first. -/
def splitAtMarks (isMark : Char → Bool) (read : List Char) : List Char → List (List Char)
  | [] => [read.reverse]
  | c :: rest =>
    if isMark c then read.reverse :: splitAtMarks isMark [] rest
    else splitAtMarks isMark (c :: read) rest

/-- The lines of `cs`: each ends with a line feed, or a carriage return and a line feed; the last
may end with the text. -/
def linesFrom (read : List Char) : List Char → List (List Char)
  | [] => if read.isEmpty then [] else [read.reverse]
  | '\n' :: rest =>
    match read with
    | '\r' :: line => line.reverse :: linesFrom [] rest
    | line => line.reverse :: linesFrom [] rest
  | c :: rest => linesFrom (c :: read) rest

/-- The lines of a text. -/
def lines (text : String) : List String :=
  (linesFrom [] text.toList).map String.ofList

/-- `cs` without the characters `mark` at either end. -/
def trimMarks (mark : Char) (cs : List Char) : List Char :=
  ((cs.dropWhile (· == mark)).reverse.dropWhile (· == mark)).reverse

/-- `text` after each first match of `pattern`, scanned from the left, became `image`. -/
def replaceFrom (pattern image : List Char) : Nat → List Char → List Char
  | 0, text => text
  | _ + 1, [] => []
  | fuel + 1, c :: rest =>
    if pattern.isPrefixOf (c :: rest) then
      image ++ replaceFrom pattern image fuel ((c :: rest).drop pattern.length)
    else c :: replaceFrom pattern image fuel rest

/-- Every match of the nonempty `pattern`, taken from the left without overlap, replaced by
`image`. -/
def replace (pattern image text : List Char) : List Char :=
  replaceFrom pattern image text.length text

end WireSchema.Text
