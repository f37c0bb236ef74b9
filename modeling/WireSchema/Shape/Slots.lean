import WireSchema.Shape.Reference

/-!
# Rules for bit slots

Every slot of a packed or flag struct is used exactly once, by a field of that struct: as the type
of the field or, in a flag struct, as the presence of an optional field. All fields of a packed
struct are slots.
-/

namespace WireSchema.Shape

mutual

/-- The slots of a group that occur in a shape, outermost first. References are not followed. -/
def slotUses (group : Nat) : Shape → List Nat
  | .slot g index _ => if g = group then [index] else []
  | .optional value presence => slotUses group value ++ slotUses group presence
  | .list item _ => slotUses group item
  | .map key value _ => slotUses group key ++ slotUses group value
  | .struct fields | .packed _ _ fields _ | .flags _ _ fields _ => slotUsesOfFields group fields
  | .merged parts => slotUsesOfParts group parts
  | .union _ tag variants _ => slotUses group tag ++ slotUsesOfVariants group variants
  | .alias _ inner | .exported _ inner => slotUses group inner
  | .transformed _ backing _ _ _ _ => slotUses group backing
  | .prim _ | .enum _ _ | .custom _ _ _ | .ref _ | .literal _ _ => []

def slotUsesOfFields (group : Nat) : List (Member Shape) → List Nat
  | [] => []
  | f :: rest => slotUses group f.shape ++ slotUsesOfFields group rest

def slotUsesOfParts (group : Nat) : List Shape → List Nat
  | [] => []
  | s :: rest => slotUses group s ++ slotUsesOfParts group rest

def slotUsesOfVariants (group : Nat) : List (String × Shape) → List Nat
  | [] => []
  | (_, s) :: rest => slotUses group s ++ slotUsesOfVariants group rest

end

/-- The slot of the group that a shape is. -/
def slotOf? (group : Nat) : Shape → Option (Nat × SlotKind)
  | .slot g index kind => if g = group then some (index, kind) else none
  | _ => none

/-- Fails if a slot of the group occurs in a shape. -/
def refuseSlots (owner : String) (group : Nat) (s : Shape) : Except SchemaError Unit :=
  match slotUses group s with
  | index :: _ => .error (.bitSlotNested owner index)
  | [] => .ok ()

/-- The slot that a field of a packed struct is. -/
def packedFieldSlot (owner : String) (group : Nat) (f : Field) : Except SchemaError Nat :=
  match slotOf? group f.shape with
  | some (index, _) => .ok index
  | none => .error (.notABitSlot owner f.name)

/-- The slot that a field of a flag struct uses, if it uses one. -/
def flagFieldSlot (owner : String) (group : Nat) (f : Field) :
    Except SchemaError (Option Nat) := do
  match slotOf? group f.shape with
  | some (index, _) => return some index
  | none =>
    match f.shape with
    | .optional value presence =>
      match slotOf? group presence with
      | some (index, _) =>
        refuseSlots owner group value
        return some index
      | none =>
        refuseSlots owner group f.shape
        return none
    | s =>
      refuseSlots owner group s
      return none

/-- Fails at the first of the slots from `index` on, `left` of them, that is not used exactly once.
-/
def checkUses (owner : String) (used : List Nat) : Nat → Nat → Except SchemaError Unit
  | 0, _ => .ok ()
  | left + 1, index =>
    match used.count index with
    | 0 => .error (.bitSlotMissing owner index)
    | 1 => checkUses owner used left (index + 1)
    | _ => .error (.bitSlotRepeated owner index)

mutual

/-- The rules for bit slots, given the answers for labels. -/
def slotsValidWith (owner : String) (validOf : String → Except SchemaError Unit) :
    Shape → Except SchemaError Unit
  | .packed _ widths fields group => do
    let used ← fields.mapM (packedFieldSlot owner group)
    checkUses owner used widths.length 0
  | .flags _ masks fields group => do
    let used ← fields.mapM (flagFieldSlot owner group)
    checkUses owner (used.filterMap id) masks.length 0
  | .merged parts => slotsValidOfParts owner validOf parts
  | .alias _ inner | .exported _ inner => slotsValidWith owner validOf inner
  | .ref label => validOf label
  | _ => .ok ()

def slotsValidOfParts (owner : String) (validOf : String → Except SchemaError Unit) :
    List Shape → Except SchemaError Unit
  | [] => .ok ()
  | s :: rest => do
    slotsValidWith owner validOf s
    slotsValidOfParts owner validOf rest

end

/-- The rules for bit slots of a struct called `owner` and of the parts merged into it. -/
def slotsValid (refs : Refs) (owner : String) : Shape → Except SchemaError Unit :=
  following refs (slotsValidWith owner) (.error <| .unresolvedReference ·) refs.length

end WireSchema.Shape
