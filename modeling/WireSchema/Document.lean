/-!
# Documents

Plain nested data, in which values, code and errors are exchanged with other programs. Code is
written as rows, each headed by a word that says what it is. Large numbers are written as words.
-/

namespace WireSchema

inductive Document where
  | null
  | flag (b : Bool)
  | number (n : Int)
  | word (s : String)
  | row (items : List Document)
  | record (fields : List (String × Document))
  deriving Repr, Inhabited

namespace Document

/-- A row headed by a word. -/
def tagged (tag : String) (items : List Document) : Document := .row (.word tag :: items)

/-- A number as a word. -/
def decimal (n : Int) : Document := .word (toString n)

def words (items : List String) : Document := .row (items.map .word)

/-- A part that may be missing. -/
def optional {α : Type} (write : α → Document) : Option α → Document
  | some a => write a
  | none => .null

/-- A list, written item by item. -/
def rowOf {α : Type} (write : α → Document) (items : List α) : Document := .row (items.map write)

def word? : Document → Option String
  | .word s => some s
  | _ => none

def flag? : Document → Option Bool
  | .flag b => some b
  | _ => none

def row? : Document → Option (List Document)
  | .row items => some items
  | _ => none

/-- A number, written as a number or a word. -/
def int? : Document → Option Int
  | .number n => some n
  | .word s => s.toInt?
  | _ => none

def nat? (d : Document) : Option Nat := d.int?.map Int.toNat

/-- The part of a record with a name. -/
def part (name : String) : Document → Document
  | .record fields => (fields.lookup name).getD .null
  | _ => .null

/-- A part that may be null, read unless it is. -/
def optional? {α : Type} (read : Document → Option α) : Document → Option (Option α)
  | .null => some none
  | d => (read d).map some

/-- A row, read item by item. -/
def rowOf? {α : Type} (read : Document → Option α) (d : Document) : Option (List α) := do
  (← d.row?).mapM read

end Document

end WireSchema
