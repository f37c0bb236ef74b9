/-!
# Lines of source text

Generated source is made line by line; a line knows how deep it is nested.
-/

namespace WireSchema.Print

structure Line where
  depth : Nat
  text : String
  deriving DecidableEq, Repr

/-- A line that is not nested. -/
def line (text : String) : Line := ⟨0, text⟩

/-- An empty line. -/
def blank : Line := line ""

/-- Lines one level deeper. -/
def nest (lines : List Line) : List Line := lines.map fun l => { l with depth := l.depth + 1 }

/-- Lines between a head that opens a brace and a line that closes it. -/
def braces (head : String) (body : List Line) : List Line :=
  line (head ++ " \x7b") :: nest body ++ [line "\x7d"]

/-- Parts with an empty line between each two. -/
def spaced (parts : List (List Line)) : List Line := (parts.intersperse [blank]).flatten

/-- A line with its indentation and its end; an empty line is not indented. -/
def Line.render (l : Line) : String :=
  if l.text.isEmpty then "\n"
  else String.join (List.replicate l.depth "    ") ++ l.text ++ "\n"

/-- The text of lines. -/
def renderLines (lines : List Line) : String := String.join (lines.map Line.render)

/-- Texts with commas between them. -/
def commas (parts : List String) : String := String.intercalate ", " parts

end WireSchema.Print
