import WireSchema.Proofs.Layout.WellFormed
import WireSchema.Proofs.Lowering.Collections
import WireSchema.Proofs.Lowering.Flags
import WireSchema.Proofs.Lowering.Packing
import WireSchema.Proofs.Wire.Primitives

/-!
# Writing a layout directly

What bytes are written for the values of a shape, as rules on shapes and without any generated code.
A value is written if it is one of the shape: integers are of the type of their primitive, lengths
are counted by their type, a packed field fits its slot, the members of a struct have distinct names,
what stands for an absent value is not present, and there is a tag that selects the variant.
-/

namespace WireSchema

namespace Layout

open Wire

section

variable (order : ByteOrder) (refs : Refs)

mutual

/-- The value is one of the shape, and is written as the bytes. -/
inductive Written : Shape → Value → List UInt8 → Prop where
  | prim {p : Primitive} {v : Value} {bytes : List UInt8} (holds : p.Holds v)
      (made : write order p v = .ok bytes) : Written (.prim p) v bytes
  | absent {value : Shape} : Written (.optional value (.prim .bool)) .null [0]
  | present {value : Shape} {v : Value} {bytes : List UInt8} (some : v.isNull = false)
      (inner : Written value v bytes) : Written (.optional value (.prim .bool)) v (1 :: bytes)
  | list {item : Shape} {length : Primitive} {kind : IntKind} {items : List Value}
      {each : Value → List UInt8} (known : length.intKind? = some kind)
      (counts : kind.Counts items.length) (inner : ∀ v ∈ items, Written item v (each v)) :
      Written (.list item length) (.list items)
        (intBytes order length kind items.length ++ items.flatMap each)
  | map {key value : Shape} {length : Primitive} {kind : IntKind} {entries : List (Value × Value)}
      {first second : Value → List UInt8} (known : length.intKind? = some kind)
      (counts : kind.Counts entries.length) (keys : ∀ e ∈ entries, Written key e.1 (first e.1))
      (values : ∀ e ∈ entries, Written value e.2 (second e.2)) :
      Written (.map key value length) (.map entries)
        (intBytes order length kind entries.length ++
          entries.flatMap fun e => first e.1 ++ second e.2)
  | struct {s : Shape} {members : List (String × Value)} {bytes : List UInt8}
      (like : s.isStructLike = true) (distinct : (members.map (·.1)).Nodup)
      (inner : WrittenMembers s members bytes) : Written s (.ofFields members) bytes
  | enum {backing : Primitive} {entries : List (String × Int)} {kind : IntKind} {name : String}
      {id : Int} (known : backing.intKind? = some kind) (member : (name, id) ∈ entries)
      (fits : kind.wrap id = id) : Written (.enum backing entries) (.enum name)
        (intBytes order backing kind (BitVec.ofInt kind.bits id).toNat)
  | union {tagField : String} {tag : Shape} {variants : List (String × Shape)}
      {tags : List (String × Literal)} {index : Nat} {key : String} {payload : Shape}
      {found : Value} {members : List (String × Value)} {front back : List UInt8}
      (variant : variants[index]? = some (key, payload)) (tagged : Written tag found front)
      (selected : selects found (tags.lookup key) index key = true)
      (distinct : (members.map (·.1)).Nodup) (inner : WrittenMembers payload members back) :
      Written (.union tagField tag variants tags)
        (.variant key (if members.isEmpty then none else some (.ofFields members))) (front ++ back)
  | alias {name : String} {inner : Shape} {v : Value} {bytes : List UInt8}
      (inside : Written inner v bytes) : Written (.alias name inner) v bytes
  | exported {name : String} {inner : Shape} {v : Value} {bytes : List UInt8}
      (inside : Written inner v bytes) : Written (.exported name inner) v bytes
  | ref {label : String} {target : Shape} {v : Value} {bytes : List UInt8}
      (found : refs.lookup label = some target) (inside : Written target v bytes) :
      Written (.ref label) v bytes
  | literal {l : Literal} {p : Primitive} {bytes : List UInt8} (holds : p.Holds (.ofLiteral l))
      (made : write order p (.ofLiteral l) = .ok bytes) :
      Written (.literal l (some p)) (.ofLiteral l) bytes
  | bare {l : Literal} : Written (.literal l none) (.ofLiteral l) []

/-- The members are those that the struct stores, and are written as the bytes. -/
inductive WrittenMembers : Shape → List (String × Value) → List UInt8 → Prop where
  | nil : WrittenMembers (.struct []) [] []
  | cons {f : Field} {fields : List Field} {v : Value} {members : List (String × Value)}
      {front back : List UInt8} (first : Written f.shape v front)
      (others : WrittenMembers (.struct fields) members back) :
      WrittenMembers (.struct (f :: fields))
        (if f.shape.isStored then (f.name, v) :: members else members) (front ++ back)
  | noParts : WrittenMembers (.merged []) [] []
  | part {s : Shape} {parts : List Shape} {members others : List (String × Value)}
      {front back : List UInt8} (first : WrittenMembers s members front)
      (later : WrittenMembers (.merged parts) others back) :
      WrittenMembers (.merged (s :: parts)) (members ++ others) (front ++ back)
  /-- The numbers of slots go to values; a field has the value of its slot. -/
  | packed {backing : Primitive} {widths : List Nat} {fields : List Field} {group : Nat}
      {kind : IntKind} {v : Nat → BitVec kind.bits} (known : backing.intKind? = some kind)
      (holds : ∀ f ∈ fields, ∀ index shift width own,
        f.shape = .slot group index (.bits shift width own) → kind.Holds width (v index)) :
      WrittenMembers (.packed backing widths fields group)
        (fields.map fun f => (f.name, .int kind (v f.shape.slotIndex)))
        (intBytes order backing kind (packedWord kind v fields).toNat)
  | flags {backing : Primitive} {masks : List (String × Int)} {fields : List Field} {group : Nat}
      {kind : IntKind} {on : Field → Bool} (known : backing.intKind? = some kind) :
      WrittenMembers (.flags backing masks fields group)
        (fields.map fun f => (f.name, .bool (on f)))
        (intBytes order backing kind (flagWord kind group (fun f => .bool (on f)) fields).toNat)
  | alias {name : String} {inner : Shape} {members : List (String × Value)} {bytes : List UInt8}
      (inside : WrittenMembers inner members bytes) :
      WrittenMembers (.alias name inner) members bytes
  | exported {name : String} {inner : Shape} {members : List (String × Value)}
      {bytes : List UInt8} (inside : WrittenMembers inner members bytes) :
      WrittenMembers (.exported name inner) members bytes
  | ref {label : String} {target : Shape} {members : List (String × Value)} {bytes : List UInt8}
      (found : refs.lookup label = some target) (inside : WrittenMembers target members bytes) :
      WrittenMembers (.ref label) members bytes

end

end

example : Written .big [] (.optional (.prim .u16) (.prim .bool)) (.int .u16 258) [1, 1, 2] :=
  .present rfl (.prim ⟨.u16, rfl, 258, rfl⟩ rfl)

variable {order : ByteOrder} {refs : Refs} {s t : Shape}

/-- A shape is written like the one it stands for. -/
theorem written_resolves (resolves : Shape.Resolves refs s t) {v : Value} {bytes : List UInt8} :
    Written order refs s v bytes ↔ Written order refs t v bytes := by
  induction resolves with
  | direct => exact .rfl
  | «alias» _ ih =>
    refine ⟨fun written => ?_, fun written => .alias (ih.mpr written)⟩
    cases written with
    | «alias» inside => exact ih.mp inside
    | struct like => cases like
  | exported _ ih =>
    refine ⟨fun written => ?_, fun written => .exported (ih.mpr written)⟩
    cases written with
    | exported inside => exact ih.mp inside
    | struct like => cases like
  | ref found _ ih =>
    refine ⟨fun written => ?_, fun written => .ref found (ih.mpr written)⟩
    cases written with
    | ref found' inside =>
      cases found.symm.trans found'
      exact ih.mp inside
    | struct like => cases like

/-- The members of a struct are written like those of the struct it stands for. -/
theorem writtenMembers_resolves (resolves : Shape.Resolves refs s t)
    {members : List (String × Value)} {bytes : List UInt8} :
    WrittenMembers order refs s members bytes ↔ WrittenMembers order refs t members bytes := by
  induction resolves with
  | direct => exact .rfl
  | «alias» _ ih =>
    refine ⟨fun written => ?_, fun written => .alias (ih.mpr written)⟩
    cases written with
    | «alias» inside => exact ih.mp inside
  | exported _ ih =>
    refine ⟨fun written => ?_, fun written => .exported (ih.mpr written)⟩
    cases written with
    | exported inside => exact ih.mp inside
  | ref found _ ih =>
    refine ⟨fun written => ?_, fun written => .ref found (ih.mpr written)⟩
    cases written with
    | ref found' inside =>
      cases found.symm.trans found'
      exact ih.mp inside

end Layout

end WireSchema
