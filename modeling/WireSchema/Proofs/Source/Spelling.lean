import WireSchema.Source.Grammar
import WireSchema.Source.Number

/-!
# Spellings of schema texts

A schema is written token by token. Between tokens there may be blanks and comments, as many as one
likes; after a word there has to be something that does not go on with it, and after a line of
documentation the line ends. The tokens of a declaration are fixed, but for a comma after the last
entry of a list and for documentation that nobody keeps.
-/

namespace WireSchema.Source

open WireSchema.Source.Parser

/-! ### Tokens -/

inductive Token where
  /-- A keyword or an identifier. -/
  | name (s : String)
  | number (n : Numeral)
  /-- A quoted text. -/
  | text (body : List Char)
  | mark (s : String)
  /-- A line of documentation. -/
  | doc (line : String)

/-- The marks of the grammar. -/
def marks : List String :=
  ["<", ">", "(", ")", "[", "]", "\x7b", "\x7d", ",", ":", ";", "=", "=>"]

/-- The text is an identifier. -/
def IsName (s : String) : Prop :=
  ∃ c rest, s.toList = c :: rest ∧ isIdentStart c = true ∧ ∀ d ∈ rest, isIdentRest d = true

/-- The number has digits, decimal ones or hexadecimal ones after its mark. -/
def Numeral.IsWritten (n : Numeral) : Prop :=
  n.digits ≠ [] ∧ match n.hexMark with
    | none => ∀ d ∈ n.digits, d.isDigit = true
    | some mark => (mark = 'x' ∨ mark = 'X') ∧ ∀ d ∈ n.digits, isHexDigit d = true

/-- The line has no white space at its end. -/
def IsTrimmed (line : List Char) : Prop := ∀ c ∈ line.getLast?, Text.isBlank c = false

/-- A line of documentation: three slashes, a blank that may be left out where the line could not be
mistaken, the line, and white space. -/
def SpellsDoc (line cs : List Char) : Prop :=
  ∃ pad trail, cs = '/' :: '/' :: '/' :: (pad ++ (line ++ trail)) ∧
    (pad = [' '] ∨ pad = [] ∧ ∀ c ∈ line.head?, c ≠ ' ' ∧ c ≠ '/') ∧
    (∀ c ∈ line, isLineEnd c = false) ∧ IsTrimmed line ∧
    ∀ c ∈ trail, isLineEnd c = false ∧ Text.isBlank c = true

/-- The characters spell the token. -/
def Token.Spells : Token → List Char → Prop
  | .name s, cs => cs = s.toList ∧ IsName s
  | .number n, cs => cs = n.text.toList ∧ n.IsWritten
  | .text body, cs => cs = '"' :: (body ++ ['"']) ∧ ∀ c ∈ body, c ≠ '\\' ∧ c ≠ '"'
  | .mark s, cs => cs = s.toList ∧ s ∈ marks
  | .doc line, cs => SpellsDoc line.toList cs

/-- The text may come right after the token. -/
def Token.Parts : Token → List Char → Prop
  | .name _, rest | .number _, rest => ∀ c ∈ rest.head?, isIdentRest c = false
  | .doc _, rest => ∀ c ∈ rest.head?, isLineEnd c = true
  | .text _, _ | .mark _, _ => True

/-! ### Gaps -/

/-- Blanks and comments between tokens. -/
inductive Gap : List Char → Prop where
  | none : Gap []
  | blank {c : Char} {rest : List Char} (isBlank : isBlank c = true) (gap : Gap rest) :
      Gap (c :: rest)
  | line {body rest : List Char} {stop : Char} (plain : ∀ c ∈ body, isLineEnd c = false)
      (noDoc : body.head? ≠ some '/') (ends : isLineEnd stop = true) (gap : Gap rest) :
      Gap ('/' :: '/' :: (body ++ stop :: rest))
  | block {body rest : List Char} (unclosed : ¬['*', '/'] <:+: body) (gap : Gap rest) :
      Gap ('/' :: '*' :: (body ++ '*' :: '/' :: rest))

/-- What may stand at the end of a text: the last comment need not end its line. -/
inductive LastGap : List Char → Prop where
  | closed {cs : List Char} (gap : Gap cs) : LastGap cs
  | comment {gap body : List Char} (before : Gap gap) (plain : ∀ c ∈ body, isLineEnd c = false)
      (noDoc : body.head? ≠ some '/') : LastGap (gap ++ '/' :: '/' :: body)

/-- The text spells the tokens one after another. -/
inductive Spelled : List Token → List Char → Prop where
  | done {cs : List Char} (gap : LastGap cs) : Spelled [] cs
  | token {t : Token} {ts : List Token} {gap cs rest : List Char} (before : Gap gap)
      (spells : t.Spells cs) (parts : t.Parts rest) (after : Spelled ts rest) :
      Spelled (t :: ts) (gap ++ (cs ++ rest))

/-! ### Tokens of declarations -/

/-- Lists of tokens with commas between them. -/
def separated : List (List Token) → List Token
  | [] => []
  | first :: rest => first ++ rest.flatMap (.mark "," :: ·)

/-- Items with commas between them, and perhaps one after the last. -/
def Listed (items : List (List Token)) (ts : List Token) : Prop :=
  ts = separated items ∨ items ≠ [] ∧ ts = separated items ++ [.mark ","]

def bracketTokens (name : String) : List Token := [.mark "<", .name name, .mark ">"]

/-- The tokens `inner` between braces. -/
def bracedTokens (inner : List Token) : List Token := .mark "\x7b" :: (inner ++ [.mark "\x7d"])

def lengthTokens : Option String → List Token
  | none => []
  | some name => [.mark ",", .name name]

def entryTokens : String × Option Numeral → List Token
  | (name, none) => [.name name]
  | (name, some id) => [.name name, .mark "=", .number id]

def slotTokens (slot : String × Numeral) : List Token :=
  [.name slot.1, .mark ":", .number slot.2]

def flagTokens (entry : String × Numeral) : List Token :=
  [.name entry.1, .mark "=", .number entry.2]

def orderTokens : Option (List String) → List Token
  | none => []
  | some names => bracedTokens (separated (names.map fun n => [.name n]))

def literalToken : LiteralSpec → Token
  | .int n => .number n
  | .bool true => .name "true"
  | .bool false => .name "false"
  | .str body => .text body

def tagTokens : Option LiteralSpec → List Token
  | none => []
  | some l => [.mark "=", literalToken l]

mutual

/-- The tokens write the type. -/
def TypeSpec.Writes : TypeSpec → List Token → Prop
  | .optional value, ts => ∃ inner, value.Writes inner ∧
    ts = .name "optional" :: .mark "<" :: (inner ++ [.mark ">"])
  | .list item length, ts => ∃ inner, item.Writes inner ∧
    ts = .name "list" :: .mark "<" :: (inner ++ (lengthTokens length ++ [.mark ">"]))
  | .map key value length, ts => ∃ first second, key.Writes first ∧ value.Writes second ∧
    ts = .name "map" :: .mark "<" ::
      (first ++ .mark "," :: (second ++ (lengthTokens length ++ [.mark ">"])))
  | .enum backing entries, ts => ∃ inner, Listed (entries.map entryTokens) inner ∧
    ts = .name "enum" :: (bracketTokens backing ++ bracedTokens inner)
  | .union tagField tag arms, ts => ∃ first items inner, tag.Writes first ∧
    WritesArms arms items ∧ Listed items inner ∧
    ts = .name "union" :: .mark "<" :: .name tagField :: .mark ":" ::
      (first ++ .mark ">" :: bracedTokens inner)
  | .struct fields, ts => ∃ inner, WritesFields fields inner ∧
    ts = .name "struct" :: bracedTokens inner
  | .merge parts, ts => ∃ items, parts ≠ [] ∧ WritesParts parts items ∧
    ts = .name "merge" :: .mark "(" :: (separated items ++ [.mark ")"])
  | .packed backing slots order, ts => slots ≠ [] ∧ order ≠ some [] ∧
    ts = .name "packed" :: (bracketTokens backing ++
      .mark "[" :: (separated (slots.map slotTokens) ++ .mark "]" :: orderTokens order))
  | .flags backing entries, ts => ∃ inner, entries ≠ [] ∧ Listed (entries.map flagTokens) inner ∧
    ts = .name "flags" :: (bracketTokens backing ++ bracedTokens inner)
  | .literal backing value, ts =>
    ts = .name "literal" :: ((backing.map bracketTokens).getD [] ++
      [.mark "(", literalToken value, .mark ")"])
  | .bytes length, ts => ts = [.name "bytes", .mark "[", .number length, .mark "]"]
  | .named name, ts => ts = [.name name]

/-- The tokens write the fields one after another. -/
def WritesFields : List (FieldSpec TypeSpec) → List Token → Prop
  | [], ts => ts = []
  | ⟨docs, name, type⟩ :: rest, ts => ∃ inner others, type.Writes inner ∧ WritesFields rest others ∧
    ts = docs.map .doc ++ .name name :: .mark ":" :: (inner ++ .mark ";" :: others)

/-- The lists of tokens write the parts of a merged struct. -/
def WritesParts : List TypeSpec → List (List Token) → Prop
  | [], items => items = []
  | part :: rest, items => ∃ inner others, part.Writes inner ∧ WritesParts rest others ∧
    items = inner :: others

/-- The lists of tokens write the variants of a union, which may have documentation. -/
def WritesArms : List (ArmSpec TypeSpec) → List (List Token) → Prop
  | [], items => items = []
  | ⟨name, tag, fields⟩ :: rest, items => ∃ (docs : List String) (inner : List Token)
      (others : List (List Token)), WritesFields fields inner ∧ WritesArms rest others ∧
    items = (docs.map .doc ++ .name name :: (tagTokens tag ++ .mark "=>" :: bracedTokens inner))
      :: others

end

/-- The tokens write the packets one after another. -/
def WritesPackets : List PacketSpec → List Token → Prop
  | [], ts => ts = []
  | p :: rest, ts => ∃ inner others, WritesFields p.fields inner ∧ WritesPackets rest others ∧
    ts = p.docs.map .doc ++ .name "packet" :: .name p.name :: (bracedTokens inner ++ others)

/-- The tokens write the blocks of flows one after another. -/
def WritesFlows : List FlowSpec → List Token → Prop
  | [], ts => ts = []
  | f :: rest, ts => ∃ inner others, WritesPackets f.packets inner ∧ WritesFlows rest others ∧
    ts = .name f.flow.name :: (bracedTokens inner ++ others)

/-- The tokens write the declaration, which may have documentation. -/
def Item.Writes : Item → List Token → Prop
  | .type d, ts => ∃ (docs : List String) (inner : List Token), d.type.Writes inner ∧
    ts = docs.map .doc ++ .name (if d.exported then "export" else "type") :: .name d.name ::
      .mark "=" :: (inner ++ [.mark ";"])
  | .protocol d, ts => ∃ (docs : List String) (inner : List Token), WritesFlows d.flows inner ∧
    ts = docs.map .doc ++ .name "protocol" :: .name d.name :: bracedTokens inner

/-- The tokens write the declarations one after another. -/
def WritesItems : List Item → List Token → Prop
  | [], ts => ts = []
  | item :: rest, ts => ∃ first others, item.Writes first ∧ WritesItems rest others ∧
    ts = first ++ others

/-- The text is a spelling of the declarations. -/
def Spells (items : List Item) (text : String) : Prop :=
  ∃ ts, WritesItems items ts ∧ Spelled ts text.toList

end WireSchema.Source
