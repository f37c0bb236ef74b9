import WireSchema.Text.CaseTable

/-!
# Case mappings

The upper and lower case of a character, each a nonempty list of characters because a few letters
expand (`ß` to `SS`).
-/

namespace WireSchema.Text

/-- The distance that the first run holding the code point `n` moves it by. -/
def shiftOf (table : List (Nat × Nat × Nat × Int)) (n : Nat) : Int :=
  match table.find? fun (first, last, step, _) =>
      first ≤ n && n ≤ last && (n - first) % step == 0 with
  | some (_, _, _, distance) => distance
  | none => 0

/-- The image of a character from U+0080 on under a pair of mapping tables. -/
def mapCase (runs : List (Nat × Nat × Nat × Int)) (expansions : List (Nat × List Nat))
    (c : Char) : List Char :=
  match expansions.find? fun (source, _) => source == c.toNat with
  | some (_, image) => image.map Char.ofNat
  | none => [Char.ofNat (Int.toNat (c.toNat + shiftOf runs c.toNat))]

/-- The upper case of `c`. -/
def toUpper (c : Char) : List Char :=
  if c.toNat < 0x80 then [c.toUpper] else mapCase upperRuns upperExpansions c

/-- The lower case of `c`. -/
def toLower (c : Char) : List Char :=
  if c.toNat < 0x80 then [c.toLower] else mapCase lowerRuns lowerExpansions c

end WireSchema.Text
