import WireSchema.Proofs.Elision.Retention
import WireSchema.Proofs.Lowering.Guards

/-!
# Flag structs

A flag struct starts with one integer, in which the mask of each flag that is set stands. A field of
the struct is a flag, an optional value that a flag tells of, or neither. The fields of a struct that
is generated use each flag once, so the masks of different fields share no bit if the masks of the
struct do not.
-/

namespace WireSchema

open Ir Gen Lowering

/-! ### Masks -/

namespace IntKind

variable {kind : IntKind}

/-- The bits of a mask. -/
def maskBits (kind : IntKind) (mask : Int) : BitVec kind.bits := BitVec.ofInt kind.bits mask

/-- A mask that fits the type keeps its bits. -/
theorem toNat_maskBits {mask : Int} (positive : 0 < mask) (fits : mask ≤ IntKind.mask kind.bits) :
    (kind.maskBits mask).toNat = mask.toNat := by
  -- The bound is below the number of values, also where it lacks the top bit.
  have small : mask < ((2 ^ kind.bits : Nat) : Int) := by
    refine Int.lt_of_le_of_lt fits ?_
    cases kind <;> decide
  rw [maskBits, BitVec.toNat_ofInt, Int.emod_eq_of_lt (by omega) small]

/-- A mask that fits the type has a bit. -/
theorem maskBits_ne_zero {mask : Int} (positive : 0 < mask) (fits : mask ≤ IntKind.mask kind.bits) :
    kind.maskBits mask ≠ 0 := by
  intro zero
  have value := toNat_maskBits positive fits
  rw [zero, show (0 : BitVec kind.bits).toNat = 0 from rfl] at value
  omega

end IntKind

variable {p : Program} {low : Nat} {env : Env} {kind : IntKind} {backing : Primitive}

theorem Ir.Expr.denotes_bool_cond {set : Expr} {on : Bool} (mask : Int)
    (denotes : set.Denotes p low env (.bool on)) :
    (Expr.cond set (.int mask kind) (.int 0 kind)).Denotes p low env
      (.int kind (if on then kind.maskBits mask else 0)) := by
  have either := denotes.cond (Expr.denotes_int mask kind) (Expr.denotes_int 0 kind)
  cases on <;> exact either

/-- A flag is set if a bit of its mask is. -/
theorem denotes_flagSlot {raw e : Expr} {b : BitVec kind.bits} {mask : Int}
    (known : backing.intKind? = some kind) (denotes : raw.Denotes p low env (.int kind b))
    (made : slotExpr raw (.flag mask backing) = .ok e) :
    e.Denotes p low env (.bool (b &&& kind.maskBits mask != 0)) := by
  simp only [slotExpr, backingKind_of_known known] at made
  cases made
  exact (denotes.bitAnd mask).binary (Expr.denotes_int 0 kind) (Run.binary_ne kind _ _)

/-! ### Roles of fields -/

namespace Shape

/-- What a field of a flag struct has to do with the flags: it is a flag, it is an optional value
whose presence is a flag, or it stands by itself. -/
inductive FlagRole where
  | flag (index : Nat) (mask : Int)
  | guarded (index : Nat) (mask : Int) (payload : Shape)
  | plain

def flagRole (group : Nat) : Shape → FlagRole
  | .slot g index (.flag mask _) => if g = group then .flag index mask else .plain
  | .optional payload (.slot g index (.flag mask _)) =>
    if g = group then .guarded index mask payload else .plain
  | _ => .plain

namespace FlagRole

/-- The number and the mask of the flag that a field uses. -/
def use? : FlagRole → Option (Nat × Int)
  | .flag index mask | .guarded index mask _ => some (index, mask)
  | .plain => none

/-- Whether a value sets the flag that its field uses. -/
def isSet : FlagRole → Value → Bool
  | .flag _ _, v => v.asBool?.getD false
  | .guarded _ _ _, v => !v.isNull
  | .plain, _ => false

end FlagRole

variable {group index : Nat} {mask : Int} {t payload : Shape}

theorem eq_of_flagRole_flag (role : t.flagRole group = .flag index mask) :
    ∃ backing, t = .slot group index (.flag mask backing) := by
  unfold flagRole at role
  split at role
  · split at role
    case isTrue same =>
      cases role
      cases same
      exact ⟨_, rfl⟩
    case isFalse => cases role
  · split at role <;> cases role
  · cases role

theorem eq_of_flagRole_guarded (role : t.flagRole group = .guarded index mask payload) :
    ∃ backing, t = .optional payload (.slot group index (.flag mask backing)) := by
  unfold flagRole at role
  split at role
  · split at role <;> cases role
  · split at role
    case isTrue same =>
      cases role
      cases same
      exact ⟨_, rfl⟩
    case isFalse => cases role
  · cases role

/-- A shape without slots of the group is none of them. -/
theorem slotOf?_of_free (free : t.slotUses group = []) : t.slotOf? group = none := by
  unfold slotOf?
  split
  case h_1 g index kind =>
    refine if_neg fun same => ?_
    rw [slotUses, if_pos same] at free
    cases free
  case h_2 => rfl

/-- The slots of a group that `flagSlots` hands out. -/
theorem mem_flagSlots (known : backing.intKind? = some kind) {masks : List (String × Int)}
    {slots : List Shape} (made : flagSlots group backing masks = .ok slots) (member : t ∈ slots) :
    ∃ index name mask, masks[index]? = some (name, mask) ∧ 0 < mask ∧
      mask ≤ IntKind.mask kind.bits ∧ t = .slot group index (.flag mask backing) := by
  simp only [flagSlots, backingKind_of_known known, bind, Except.bind] at made
  split at made
  · cases made
  case h_2 accepted =>
    cases made
    obtain ⟨⟨⟨name, mask⟩, index⟩, here, rfl⟩ := List.mem_map.mp member
    have here : masks[index]? = some (name, mask) := List.mem_zipIdx_iff_getElem?.mp here
    have fits := List.find?_eq_none.mp accepted (name, mask) (List.mem_of_getElem? here)
    simp only [Bool.or_eq_true, decide_eq_true_eq, not_or, Int.not_le, Int.not_lt] at fits
    exact ⟨index, name, mask, here, fits.1, fits.2, rfl⟩

end Shape

/-! ### Flag structs -/

/-- The fields that a flag struct may have: slots that were handed out for it, optional values whose
presence is such a slot, and other shapes that hold no slot of it. -/
def Setting.FlagField (s : Setting) (typed : Shape → Value → Prop) (slots : List Shape)
    (group : Nat) (t : Shape) : Prop :=
  match t.flagRole group with
  | .flag _ _ => t ∈ slots
  | .guarded _ _ payload =>
    (∃ presence ∈ slots, t = .optional payload presence) ∧ s.RoundTrips payload (typed payload)
  | .plain => (∀ g index kind, t ≠ .slot g index kind) ∧ t.slotUses group = [] ∧
    if t.isStored then s.RoundTrips t (typed t)
    else s.Served t ∧ ∃ bytes w, s.Carries t .null bytes w

/-- A flag struct that was accepted, with distinct names. -/
structure Setting.FlagStruct (s : Setting) (typed : Shape → Value → Prop) (backing : Primitive)
    (kind : IntKind) (masks : List (String × Int)) (fields : List Field) (group : Nat) : Prop where
  known : backing.intKind? = some kind
  accepted : ∃ slots, Shape.flagSlots group backing masks = .ok slots ∧
    ∀ f ∈ fields, s.FlagField typed slots group f.shape
  valid : ∀ owner, (Shape.flags backing masks fields group).slotsValid s.types owner = .ok ()
  distinct : (fields.map (·.name)).Nodup

/-- The value is one of the type of a field: a truth value for a flag, nothing or a value of the
payload for an optional one. What is not stored has no value. -/
def Shape.FlagTyped (typed : Shape → Value → Prop) (group : Nat) (t : Shape) (v : Value) : Prop :=
  match t.flagRole group with
  | .flag _ _ => ∃ on, v = .bool on
  | .guarded _ _ payload => v = .null ∨ typed payload v
  | .plain => t.isStored = true → typed t v

/-- What follows the integer for a field: nothing for a flag or an absent value, and no more than
the value itself otherwise. -/
def Setting.FlagBytes (s : Setting) (group : Nat) (t : Shape) (v : Value) (bytes : List UInt8) :
    Prop :=
  match t.flagRole group with
  | .flag _ _ => bytes = []
  | .guarded _ _ payload => if v.isNull then bytes = [] else s.Writes payload v bytes
  | .plain => s.Writes t (if t.isStored then v else .null) bytes

/-- A field is written as the bytes that follow the integer for it. Under an integer that agrees about
its flag `w` is read from them, which is the value if it is stored. -/
structure Setting.FlagCarried (s : Setting) (kind : IntKind) (group : Nat) (t : Shape) (v : Value)
    (bytes : List UInt8) (w : Value) : Prop where
  sent : s.FlagBytes group t v bytes
  writes : s.Writes t (if t.isStored then v else .null) bytes
  same : t.isStored = true → w = v
  reads : ∀ word : BitVec kind.bits, (∀ index mask, (t.flagRole group).use? = some (index, mask) →
      (word &&& kind.maskBits mask != 0) = (t.flagRole group).isSet v) →
    s.ReadsUnder group (.int kind word) t bytes w

/-- The struct with the given values of its stored fields. -/
def flagValue (v : Field → Value) (fields : List Field) : Value :=
  .ofFields ((fields.filter (·.shape.isStored)).map fun f => (f.name, v f))

/-- The bits that a field puts into the integer, if it uses a flag. -/
def flagBits? (kind : IntKind) (group : Nat) (v : Field → Value) (f : Field) :
    Option (BitVec kind.bits) :=
  (f.shape.flagRole group).use?.map fun use =>
    if (f.shape.flagRole group).isSet (v f) then kind.maskBits use.2 else 0

/-- The integer of a flag struct. -/
def flagWord (kind : IntKind) (group : Nat) (v : Field → Value) (fields : List Field) :
    BitVec kind.bits := (fields.filterMap (flagBits? kind group v)).foldl (· ||| ·) 0

/-- A bit of the integer is a bit of some flag that is set. -/
theorem getLsbD_flagWord {group : Nat} {v : Field → Value} {fields : List Field} {i : Nat} :
    (flagWord kind group v fields).getLsbD i = true ↔ ∃ f ∈ fields, ∃ index mask,
      (f.shape.flagRole group).use? = some (index, mask) ∧
      (f.shape.flagRole group).isSet (v f) = true ∧ (kind.maskBits mask).getLsbD i = true := by
  have zero : (0 : BitVec kind.bits).getLsbD i = false := BitVec.getLsbD_zero
  rw [flagWord, getLsbD_foldl_or, zero, Bool.false_or, List.any_eq_true]
  constructor
  · rintro ⟨b, member, bit⟩
    obtain ⟨f, among, made⟩ := List.mem_filterMap.mp member
    obtain ⟨⟨index, mask⟩, use, rfl⟩ := Option.map_eq_some_iff.mp made
    split at bit
    case isTrue on => exact ⟨f, among, index, mask, use, on, bit⟩
    case isFalse =>
      rw [zero] at bit
      cases bit
  · rintro ⟨f, among, index, mask, use, on, bit⟩
    refine ⟨kind.maskBits mask, List.mem_filterMap.mpr ⟨f, among, ?_⟩, bit⟩
    rw [flagBits?, use, Option.map_some, if_pos on]

theorem Shape.slotsValid_flags (refs : Refs) (owner : String) (masks : List (String × Int))
    (fields : List Field) (group : Nat) :
    (Shape.flags backing masks fields group).slotsValid refs owner = (do
      let used ← fields.mapM (flagFieldSlot owner group)
      checkUses owner (used.filterMap id) masks.length 0) := by
  unfold slotsValid
  cases refs.length <;> simp only [following, slotsValidWith]

theorem once_of_checkUses {owner : String} {used : List Nat} {left start : Nat}
    (checked : Shape.checkUses owner used left start = .ok ()) {i : Nat} (above : start ≤ i)
    (below : i < start + left) : used.count i = 1 := by
  induction left generalizing start with
  | zero => omega
  | succ left ih =>
    rw [Shape.checkUses] at checked
    split at checked
    · cases checked
    case h_2 once =>
      by_cases here : i = start
      · exact here ▸ once
      · exact ih checked (by omega) (by omega)
    · cases checked

namespace Setting.FlagStruct

variable {s : Setting} {typed : Shape → Value → Prop} {masks : List (String × Int)}
variable {fields : List Field} {group : Nat}

/-- A field that uses a flag uses one that was handed out. -/
theorem use_known (struct : s.FlagStruct typed backing kind masks fields group) {f : Field}
    (member : f ∈ fields) {index : Nat} {mask : Int}
    (use : (f.shape.flagRole group).use? = some (index, mask)) :
    ∃ name, masks[index]? = some (name, mask) ∧ kind.maskBits mask ≠ 0 := by
  obtain ⟨slots, made, each⟩ := struct.accepted
  have field := each f member
  unfold FlagField at field
  -- In both cases the slot is one of those that were handed out.
  have handed {t : Shape} (given : t ∈ slots) {backing' : Primitive}
      (same : t = .slot group index (.flag mask backing')) :
      ∃ name, masks[index]? = some (name, mask) ∧ kind.maskBits mask ≠ 0 := by
    obtain ⟨_, name, _, here, positive, fits, rfl⟩ := Shape.mem_flagSlots struct.known made given
    cases same
    exact ⟨name, here, IntKind.maskBits_ne_zero positive fits⟩
  cases role : f.shape.flagRole group with
  | flag i m =>
    rw [role] at use field
    cases use
    obtain ⟨backing', shape⟩ := Shape.eq_of_flagRole_flag role
    exact handed field shape
  | guarded i m payload =>
    rw [role] at use field
    cases use
    obtain ⟨⟨presence, given, shape⟩, _⟩ := field
    obtain ⟨backing', shape'⟩ := Shape.eq_of_flagRole_guarded role
    rw [shape] at shape'
    exact handed given (Shape.optional.inj shape').2
  | plain =>
    rw [role] at use
    cases use

theorem shape_of_flag (struct : s.FlagStruct typed backing kind masks fields group) {f : Field}
    (member : f ∈ fields) {index : Nat} {mask : Int}
    (role : f.shape.flagRole group = .flag index mask) :
    f.shape = .slot group index (.flag mask backing) := by
  obtain ⟨slots, made, each⟩ := struct.accepted
  have field := each f member
  rw [FlagField, role] at field
  obtain ⟨_, _, _, _, _, _, shape⟩ := Shape.mem_flagSlots struct.known made field
  obtain ⟨_, shape'⟩ := Shape.eq_of_flagRole_flag role
  rw [shape] at shape' ⊢
  cases shape'
  rfl

theorem shape_of_guarded (struct : s.FlagStruct typed backing kind masks fields group) {f : Field}
    (member : f ∈ fields) {index : Nat} {mask : Int} {payload : Shape}
    (role : f.shape.flagRole group = .guarded index mask payload) :
    f.shape = .optional payload (.slot group index (.flag mask backing)) ∧
      s.RoundTrips payload (typed payload) := by
  obtain ⟨slots, made, each⟩ := struct.accepted
  have field := each f member
  rw [FlagField, role] at field
  obtain ⟨⟨presence, given, shape⟩, trips⟩ := field
  obtain ⟨_, _, _, _, _, _, rfl⟩ := Shape.mem_flagSlots struct.known made given
  obtain ⟨_, shape'⟩ := Shape.eq_of_flagRole_guarded role
  refine ⟨?_, trips⟩
  rw [shape] at shape' ⊢
  cases shape'
  rfl

theorem of_plain (struct : s.FlagStruct typed backing kind masks fields group) {f : Field}
    (member : f ∈ fields) (role : f.shape.flagRole group = .plain) :
    (∀ g index kind, f.shape ≠ .slot g index kind) ∧ f.shape.slotUses group = [] ∧
      if f.shape.isStored then s.RoundTrips f.shape (typed f.shape)
      else s.Served f.shape ∧ ∃ bytes w, s.Carries f.shape .null bytes w := by
  obtain ⟨slots, _, each⟩ := struct.accepted
  have field := each f member
  rw [FlagField, role] at field
  exact field

/-- The slot that a field of the struct uses, as it is checked. -/
theorem flagFieldSlot_eq (struct : s.FlagStruct typed backing kind masks fields group) {f : Field}
    (member : f ∈ fields) {owner : String} {used : Option Nat}
    (checked : Shape.flagFieldSlot owner group f = .ok used) :
    used = (f.shape.flagRole group).use?.map (·.1) := by
  unfold Shape.flagFieldSlot at checked
  cases role : f.shape.flagRole group with
  | flag index mask =>
    rw [struct.shape_of_flag member role] at checked
    simp only [Shape.slotOf?, if_true] at checked
    cases checked
    rfl
  | guarded index mask payload =>
    rw [(struct.shape_of_guarded member role).1] at checked
    simp only [Shape.slotOf?, if_true, Shape.refuseSlots] at checked
    split at checked
    · cases checked
    · cases checked
      rfl
  | plain =>
    obtain ⟨_, free, _⟩ := struct.of_plain member role
    simp only [Shape.slotOf?_of_free free] at checked
    -- Nothing is asked of such a field but that it holds no slot of the group.
    have refused {t : Shape} (checked : (do Shape.refuseSlots owner group t; return none) =
        Except.ok used) : used = none := by
      unfold Shape.refuseSlots at checked
      split at checked <;> cases checked
      rfl
    split at checked
    case h_1 value presence shape =>
      rw [shape, Shape.slotUses, List.append_eq_nil_iff] at free
      simp only [Shape.slotOf?_of_free free.2] at checked
      exact refused checked
    case h_2 => exact refused checked

/-- No two fields use one slot. -/
theorem index_apart (struct : s.FlagStruct typed backing kind masks fields group) {f g : Field}
    (first : f ∈ fields) (second : g ∈ fields) (differ : f.name ≠ g.name) {i j : Nat} {m n : Int}
    (use : (f.shape.flagRole group).use? = some (i, m))
    (use' : (g.shape.flagRole group).use? = some (j, n)) : i ≠ j := by
  rintro rfl
  obtain ⟨name, here, _⟩ := struct.use_known first use
  obtain ⟨inside, _⟩ := List.getElem?_eq_some_iff.mp here
  have valid := struct.valid ""
  rw [Shape.slotsValid_flags] at valid
  obtain ⟨used, made, checked⟩ : ∃ used, fields.mapM (Shape.flagFieldSlot "" group) = .ok used ∧
      Shape.checkUses "" (used.filterMap id) masks.length 0 = .ok () := by
    cases made : fields.mapM (Shape.flagFieldSlot "" group) with
    | error e =>
      rw [made] at valid
      cases valid
    | ok used =>
      rw [made] at valid
      exact ⟨used, rfl, valid⟩
  have same : used = fields.map fun f => (f.shape.flagRole group).use?.map (·.1) :=
    List.forall₂_eq_eq_eq ▸ forall₂_of_mapM made fun f member b checked =>
      struct.flagFieldSlot_eq member checked
  have once := once_of_checkUses checked (Nat.zero_le i) (by omega)
  -- The slots in use are those of the fields in order, so one that two fields use occurs twice.
  have twice : 2 ≤ (fields.flatMap fun f => ((f.shape.flagRole group).use?.map (·.1)).toList).count i := by
    refine two_le_count_flatMap first second (fun same => differ (congrArg _ same)) ?_ ?_
    · simp [use]
    · simp [use']
  have flat : used.filterMap id =
      fields.flatMap fun f => ((f.shape.flagRole group).use?.map (·.1)).toList := by
    rw [same, List.filterMap_map, ← List.filterMap_eq_flatMap_toList]
    rfl
  rw [flat] at once
  omega

/-- Flags of different fields share no bit, if the masks do not. -/
theorem masks_apart (struct : s.FlagStruct typed backing kind masks fields group)
    (disjoint : masks.Pairwise fun m n => kind.maskBits m.2 &&& kind.maskBits n.2 = 0) {f g : Field}
    (first : f ∈ fields) (second : g ∈ fields) (differ : f.name ≠ g.name) {i j : Nat} {m n : Int}
    (use : (f.shape.flagRole group).use? = some (i, m))
    (use' : (g.shape.flagRole group).use? = some (j, n)) :
    kind.maskBits m &&& kind.maskBits n = 0 := by
  have apart := struct.index_apart first second differ use use'
  obtain ⟨_, here, _⟩ := struct.use_known first use
  obtain ⟨_, there, _⟩ := struct.use_known second use'
  obtain ⟨inside, at_i⟩ := List.getElem?_eq_some_iff.mp here
  obtain ⟨inside', at_j⟩ := List.getElem?_eq_some_iff.mp there
  have pairs := List.pairwise_iff_getElem.mp disjoint
  rcases Nat.lt_or_gt_of_ne apart with before | after
  · have both := pairs i j inside inside' before
    rwa [at_i, at_j] at both
  · have both := pairs j i inside' inside after
    rwa [at_i, at_j, BitVec.and_comm] at both

/-- The mask of a flag that is set stands in the integer. -/
theorem word_of_set {v : Field → Value} {f : Field} (member : f ∈ fields) {index : Nat} {mask : Int}
    (use : (f.shape.flagRole group).use? = some (index, mask))
    (on : (f.shape.flagRole group).isSet (v f) = true) :
    flagWord kind group v fields &&& kind.maskBits mask = kind.maskBits mask := by
  apply BitVec.eq_of_getLsbD_eq
  intro i _
  rw [BitVec.getLsbD_and]
  cases bit : (kind.maskBits mask).getLsbD i with
  | false => rw [Bool.and_false]
  | true => rw [getLsbD_flagWord.mpr ⟨f, member, index, mask, use, on, bit⟩, Bool.and_true]

/-- No bit of another flag stands there, if the masks share none. -/
theorem word_of_unset (struct : s.FlagStruct typed backing kind masks fields group)
    (disjoint : masks.Pairwise fun m n => kind.maskBits m.2 &&& kind.maskBits n.2 = 0)
    {v : Field → Value} {f : Field} (member : f ∈ fields) {index : Nat} {mask : Int}
    (use : (f.shape.flagRole group).use? = some (index, mask))
    (off : (f.shape.flagRole group).isSet (v f) = false) :
    flagWord kind group v fields &&& kind.maskBits mask = 0 := by
  apply BitVec.eq_of_getLsbD_eq
  intro i _
  rw [BitVec.getLsbD_and, show (0 : BitVec kind.bits).getLsbD i = false from BitVec.getLsbD_zero,
    Bool.and_eq_false_iff, or_iff_not_imp_left, Bool.not_eq_false]
  intro set
  obtain ⟨g, among, j, other, use', on, bit⟩ := getLsbD_flagWord.mp set
  -- The bit comes from some flag that is set. That flag is not this one, so the masks are apart.
  have differ : f.name ≠ g.name := by
    intro same
    cases List.inj_on_of_nodup_map struct.distinct member among same
    rw [off] at on
    cases on
  have apart := congrArg (·.getLsbD i) (struct.masks_apart disjoint member among differ use use')
  simp only [BitVec.getLsbD_and, bit, Bool.and_true] at apart
  exact apart.trans BitVec.getLsbD_zero

end Setting.FlagStruct

end WireSchema
