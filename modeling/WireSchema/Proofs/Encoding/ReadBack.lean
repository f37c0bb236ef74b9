import WireSchema.Proofs.Encoding.Pieces
import WireSchema.Proofs.Shape.HookFree

/-!
# What is written is read back

Reading takes exactly the bytes that were written for a value and yields the value, whatever bytes
follow. For that the shapes have to tell their values apart: nothing takes all the rest, ids and tags
are distinct, and flags have no bits in common.
-/

namespace WireSchema

open Wire Lowering Decoding

namespace Shape

/-- No tag selects two variants. -/
def TagsApart (refs : Refs) (tag : Shape) (variants : List (String × Shape))
    (tags : List (String × Literal)) : Prop :=
  ∀ v, (∀ found, tag.resolved refs = .ok found → IsTagOf found v) →
    ∀ (i j : Nat) (a b : String × Shape), variants[i]? = some a → variants[j]? = some b →
      Layout.selects v (tags.lookup a.1) i a.1 = true →
      Layout.selects v (tags.lookup b.1) j b.1 = true → i = j

/-- The bytes of the shape tell which of its names or variants was written, as far as that is up to
the shape itself. -/
def TellsApart (refs : Refs) : Shape → Prop
  | .enum _ entries => (entries.map (·.2)).Nodup
  | .union _ tag variants tags => TagsApart refs tag variants tags
  | _ => True

/-- The shape does not take all the bytes there are, and its flags have no bits in common. -/
def IsSeparable : Shape → Prop
  | .prim p => p ≠ .rest
  | .flags _ masks _ _ => masks.Pairwise fun a b => a.2.toNat &&& b.2.toNat = 0
  | _ => True

instance : DecidablePred IsSeparable
  | .prim p => inferInstanceAs (Decidable (p ≠ .rest))
  | .flags _ masks _ _ =>
    inferInstanceAs (Decidable (masks.Pairwise fun a b => a.2.toNat &&& b.2.toNat = 0))
  | .optional .. | .list .. | .map .. | .struct .. | .merged .. | .enum .. | .union .. | .packed ..
  | .slot .. | .alias .. | .exported .. | .custom .. | .ref .. | .transformed .. | .literal .. =>
    isTrue trivial

/-- The shape is one of a text, and what is written for it can be told apart everywhere in it. -/
structure Reversible (refs : Refs) (rank : String → Nat) (s : Shape) : Prop where
  wf : ∃ bound, s.WellFormed refs rank bound
  apart : ∀ t, Reaches refs s t → t.TellsApart refs
  separable : ∀ t, Reaches refs s t → t.IsSeparable

namespace Reversible

variable {refs : Refs} {rank : String → Nat} {s t : Shape}

theorem own (reversible : s.Reversible refs rank) : s.TellsApart refs ∧ s.IsSeparable :=
  ⟨reversible.apart s .refl, reversible.separable s .refl⟩

theorem part (reversible : s.Reversible refs rank) (member : t ∈ s.subshapes refs) {bound : Nat}
    (wf : t.WellFormed refs rank bound) : t.Reversible refs rank :=
  ⟨⟨bound, wf⟩, fun further reaches => reversible.apart further (.head member reaches),
    fun further reaches => reversible.separable further (.head member reaches)⟩

theorem field {fields : List Field} (reversible : (struct fields).Reversible refs rank) {f : Field}
    (member : f ∈ fields) : f.shape.Reversible refs rank := by
  obtain ⟨bound, wf⟩ := reversible.wf
  exact reversible.part (List.mem_map_of_mem member) (mem_wellFormedFields wf member)

theorem parts {parts : List Shape} (reversible : (merged parts).Reversible refs rank)
    (member : s ∈ parts) : s.Reversible refs rank := by
  obtain ⟨bound, wf⟩ := reversible.wf
  exact reversible.part member (mem_wellFormedParts wf member)

/-- Shapes with fewer parts tell apart what is in them. -/
theorem fewer (reversible : s.Reversible refs rank) (own : t.TellsApart refs ∧ t.IsSeparable)
    {bound : Nat} (wf : t.WellFormed refs rank bound)
    (parts : t.subshapes refs ⊆ s.subshapes refs) : t.Reversible refs rank := by
  refine ⟨⟨bound, wf⟩, fun further reaches => ?_, fun further reaches => ?_⟩
  · rcases reaches.cases_head with rfl | ⟨part, member, later⟩
    · exact own.1
    · exact reversible.apart further (.head (parts member) later)
  · rcases reaches.cases_head with rfl | ⟨part, member, later⟩
    · exact own.2
    · exact reversible.separable further (.head (parts member) later)

theorem variant {tagField : String} {tag : Shape} {variants : List (String × Shape)}
    {tags : List (String × Literal)}
    (reversible : (union tagField tag variants tags).Reversible refs rank) {v : String × Shape}
    (member : v ∈ variants) : v.2.Reversible refs rank := by
  obtain ⟨bound, wf⟩ := reversible.wf
  exact reversible.part (List.mem_cons_of_mem _ (List.mem_map_of_mem member))
    (mem_wellFormedVariants wf.2.2 member).2

theorem inner (ordered : refs.Ordered rank) {name : String}
    (reversible : s.Reversible refs rank) (form : s = .alias name t ∨ s = .exported name t) :
    t.Reversible refs rank := by
  obtain ⟨bound, wf⟩ := reversible.wf
  rcases form with rfl | rfl
  · exact reversible.part List.mem_cons_self (ordered.inner_alias wf.1)
  · exact reversible.part List.mem_cons_self (ordered.inner_exported wf.1)

theorem target (ordered : refs.Ordered rank) {label : String}
    (reversible : (ref label).Reversible refs rank) (found : refs.lookup label = some t) :
    t.Reversible refs rank := by
  refine reversible.part ?_ (ordered.wellFormed_target found)
  rw [subshapes, found]
  exact List.mem_singleton_self t

end Reversible

end Shape

namespace Wire

/-- What comes next takes nothing. -/
theorem Takes.into {α β : Type} {act : Read α} {next : α → Read β} {used : List UInt8} {a : α} {b : β}
    (first : Takes act used a) (second : Takes (next a) [] b) : Takes (act >>= next) used b := by
  have both := first.bind second
  rwa [List.append_nil] at both

end Wire

namespace Layout

variable {order : ByteOrder} {refs : Refs} {rank : String → Nat} {target : String → Part}

/-! ### Collections -/

theorem takes_repeated {α : Type} {item : Read α} {items : List α} {each : α → List UInt8}
    (taken : ∀ a ∈ items, Takes item (each a) a) :
    Takes (repeated item items.length) (items.flatMap each) items := by
  induction items with
  | nil => exact takes_pure []
  | cons a rest ih =>
    obtain ⟨here, later⟩ := List.forall_mem_cons.mp taken
    rw [List.length_cons, repeated, List.flatMap_cons]
    exact here.bind ((ih later).andThen (a :: ·))

theorem itemCount_lengthBits {kind : IntKind} {n : Nat} (counts : kind.Counts n) :
    itemCount (.int kind (kind.lengthBits n)) = n :=
  IntKind.announced_eq_self_iff.mpr counts

/-- The items come after their number. -/
theorem takes_collection {α : Type} (whole : List α → Value) {length : Primitive} {kind : IntKind}
    (known : length.intKind? = some kind) {items : List α} (counts : kind.Counts items.length)
    {item : Read α} {each : α → List UInt8} (taken : ∀ a ∈ items, Takes item (each a) a) :
    Takes (do
        let count ← read order length
        let items ← repeated item (itemCount count)
        return whole items)
      (intBytes order length kind items.length ++ items.flatMap each) (whole items) := by
  have count := takes_read_int order known (kind.lengthBits items.length)
  rw [counts.toNat_lengthBits] at count
  refine count.bind ?_
  rw [itemCount_lengthBits counts]
  exact (takes_repeated taken).andThen whole

/-! ### Bit groups -/

section

variable {backing : Primitive} {kind : IntKind} {widths : List Nat} {group : Nat}
  {fields : List Field} {f : Field}

/-- At the place of a slot stand the low bits of its value. -/
theorem getLsbD_packedWord_slot (v : Nat → BitVec kind.bits)
    (each : ∀ f ∈ fields, Shape.IsPackedField backing widths group f)
    (inside : total widths ≤ kind.bits) (member : f ∈ fields) {index width : Nat}
    (here : widths[index]? = some width)
    (shape : f.shape = Shape.bitSlot group backing widths index width) {j : Nat} (below : j < width) :
    (packedWord kind v fields).getLsbD (Shape.offset widths index + j) = (v index).getLsbD j := by
  have room := Nat.le_trans (Shape.offset_inside here) inside
  have zero (i : Nat) : (0 : BitVec kind.bits).getLsbD i = false := BitVec.getLsbD_zero
  rw [packedWord, getLsbD_foldl_or, zero, Bool.false_or, List.any_map, Bool.eq_iff_iff,
    List.any_eq_true]
  simp only [Function.comp]
  constructor
  · rintro ⟨g, among, set⟩
    obtain ⟨other, width', there, shape'⟩ := each g among
    rw [fieldBits, shape'] at set
    simp only [IntKind.getLsbD_placed _ _ _ (show Shape.offset widths index + j < kind.bits by omega),
      Bool.and_eq_true, decide_eq_true_eq] at set
    change (Shape.offset widths other ≤ _ ∧ _ < Shape.offset widths other + width') ∧
      (v other).getLsbD (_ - Shape.offset widths other) = true at set
    -- No other slot has the bit.
    rcases Nat.lt_trichotomy other index with before | rfl | after
    · have apart := Shape.offset_apart before here
      omega
    · rw [Nat.add_sub_cancel_left] at set
      exact set.2
    · have apart := Shape.offset_apart after there
      omega
  · intro set
    refine ⟨f, member, ?_⟩
    rw [fieldBits, shape]
    simp only [IntKind.getLsbD_placed _ _ _ (show Shape.offset widths index + j < kind.bits by omega),
      Bool.and_eq_true, decide_eq_true_eq, Nat.add_sub_cancel_left]
    exact ⟨⟨by omega, by omega⟩, set⟩

/-- The slots of the integer have the values that were put there. -/
theorem slotMembers_packedWord {v : Nat → BitVec kind.bits}
    (each : ∀ f ∈ fields, Shape.IsPackedField backing widths group f)
    (inside : total widths ≤ kind.bits) (positive : 0 ∉ widths)
    (holds : ∀ f ∈ fields, ∀ index shift width own,
      f.shape = .slot group index (.bits shift width own) → kind.Holds width (v index)) :
    slotMembers (.int kind (packedWord kind v fields)) fields =
      fields.map fun f => (f.name, .int kind (v f.shape.slotIndex)) := by
  rw [slotMembers, ← List.filterMap_eq_map]
  refine List.filterMap_congr fun f member => ?_
  obtain ⟨index, width, here, shape⟩ := each f member
  have more : 0 < width := by
    rcases Nat.eq_zero_or_pos width with rfl | more
    · exact absurd (List.mem_of_getElem? here) positive
    · exact more
  have value : kind.part (Shape.offset widths index) width (packedWord kind v fields) = v index :=
    IntKind.part_eq_of_holds more (holds f member _ _ _ _ shape) fun j below =>
      getLsbD_packedWord_slot v each inside member here shape below
  simp only [shape, Shape.slotIndex, slotValue, Function.comp]
  exact congrArg (fun b => some (f.name, Value.int kind b)) value

theorem masks_apart {masks : List (String × Int)}
    (apart : masks.Pairwise fun a b => a.2.toNat &&& b.2.toNat = 0) {i j : Nat}
    {a b : String × Int} (here : masks[i]? = some a) (there : masks[j]? = some b)
    (differ : i ≠ j) : a.2.toNat &&& b.2.toNat = 0 := by
  obtain ⟨inside, rfl⟩ := List.getElem?_eq_some_iff.mp here
  obtain ⟨inside', rfl⟩ := List.getElem?_eq_some_iff.mp there
  rcases Nat.lt_or_gt_of_ne differ with before | after
  · exact List.pairwise_iff_getElem.mp apart i j inside inside' before
  · rw [Nat.and_comm]
    exact List.pairwise_iff_getElem.mp apart j i inside' inside after

/-- A flag is set in the integer if it was put there. -/
theorem flag_flagWord {masks : List (String × Int)} {on : Field → Bool}
    (each : ∀ f ∈ fields, Shape.IsFlagField backing masks group f)
    (inside : ∀ entry ∈ masks, 0 < entry.2 ∧ entry.2 ≤ IntKind.mask kind.bits)
    (apart : masks.Pairwise fun a b => a.2.toNat &&& b.2.toNat = 0)
    (distinct : (fields.map (·.name)).Nodup) (member : f ∈ fields) {index : Nat} {mask : Int}
    (here : masks[index]? = some (f.name, mask))
    (shape : f.shape = .slot group index (.flag mask backing)) :
    ((flagWord kind group (fun f => .bool (on f)) fields).toNat &&& mask.toNat != 0) = on f := by
  have number (b : BitVec kind.bits) {entry : String × Int} (among : entry ∈ masks) :
      (b &&& kind.maskBits entry.2).toNat = b.toNat &&& entry.2.toNat := by
    rw [BitVec.toNat_and, IntKind.toNat_maskBits (inside entry among).1 (inside entry among).2]
  have among := List.mem_of_getElem? here
  have role : f.shape.flagRole group = .flag index mask := by
    rw [shape, Shape.flagRole, if_pos rfl]
  rw [← number _ among]
  cases set : on f with
  | true =>
    have word : flagWord kind group (fun f => .bool (on f)) fields &&& kind.maskBits mask =
        kind.maskBits mask := by
      apply BitVec.eq_of_getLsbD_eq
      intro i _
      rw [BitVec.getLsbD_and]
      cases bit : (kind.maskBits mask).getLsbD i with
      | false => rw [Bool.and_false]
      | true =>
        have own : (f.shape.flagRole group).isSet (.bool (on f)) = true := by
          rw [role, set]
          rfl
        rw [Bool.and_true]
        exact getLsbD_flagWord.mpr ⟨f, member, index, mask, by rw [role]; rfl, own, bit⟩
    have some := IntKind.maskBits_ne_zero (inside _ among).1 (inside _ among).2
    simpa [word, BitVec.toNat_eq] using some
  | false =>
    have word : flagWord kind group (fun f => .bool (on f)) fields &&& kind.maskBits mask = 0 := by
      apply BitVec.eq_of_getLsbD_eq
      intro i _
      rw [BitVec.getLsbD_and, show (0 : BitVec kind.bits).getLsbD i = false from
        BitVec.getLsbD_zero, Bool.and_eq_false_iff, or_iff_not_imp_left, Bool.not_eq_false]
      intro bit
      obtain ⟨g, there, other, mask', use, set', bit'⟩ := getLsbD_flagWord.mp bit
      obtain ⟨_, _, here', shape'⟩ := each g there
      rw [shape', Shape.flagRole, if_pos rfl] at use set'
      cases use
      -- The bit is one of another flag, which has no bit in common with this one.
      have differ : other ≠ index := by
        rintro rfl
        cases List.inj_on_of_nodup_map distinct there member
          (congrArg Prod.fst (Option.some.inj (here'.symm.trans here)))
        rw [set] at set'
        cases set'
      have zero : kind.maskBits mask' &&& kind.maskBits mask = 0 := by
        apply BitVec.eq_of_toNat_eq
        rw [number _ among, IntKind.toNat_maskBits (inside _ (List.mem_of_getElem? here')).1
          (inside _ (List.mem_of_getElem? here')).2]
        exact masks_apart apart here' here differ
      have none := congrArg (fun b => b.getLsbD i) zero
      rw [BitVec.getLsbD_and, bit', Bool.true_and] at none
      exact none.trans BitVec.getLsbD_zero
    rw [word]
    rfl

/-- The flags of the integer have the values that were put there. -/
theorem slotMembers_flagWord {masks : List (String × Int)} {on : Field → Bool}
    (each : ∀ f ∈ fields, Shape.IsFlagField backing masks group f)
    (inside : ∀ entry ∈ masks, 0 < entry.2 ∧ entry.2 ≤ IntKind.mask kind.bits)
    (apart : masks.Pairwise fun a b => a.2.toNat &&& b.2.toNat = 0)
    (distinct : (fields.map (·.name)).Nodup) :
    slotMembers (.int kind (flagWord kind group (fun f => .bool (on f)) fields)) fields =
      fields.map fun f => (f.name, .bool (on f)) := by
  rw [slotMembers, ← List.filterMap_eq_map]
  refine List.filterMap_congr fun f member => ?_
  obtain ⟨index, mask, here, shape⟩ := each f member
  have value : ((flagWord kind group (fun f => .bool (on f)) fields).toNat &&& mask.toNat != 0) =
      on f := flag_flagWord each inside apart distinct member here shape
  simp only [shape, slotValue, Function.comp, value]

end

/-! ### Unions -/

/-- The variant that the tag selects is read. -/
theorem takes_variantsWith {found : Value} {tags : List (String × Literal)}
    {variants : List (String × Shape)} {start index : Nat} {key : String} {payload : Shape}
    (variant : variants[index]? = some (key, payload))
    (selected : selects found (tags.lookup key) (start + index) key = true)
    (only : ∀ (j : Nat) (v : String × Shape), variants[j]? = some v →
      selects found (tags.lookup v.1) (start + j) v.1 = true → j = index)
    {members : List (String × Value)} {bytes : List UInt8}
    (taken : Takes (membersWith order target payload) bytes members) :
    Takes (variantsWith order target found tags start variants) bytes
      (.variant key (if members.isEmpty then none else some (.ofFields members))) := by
  induction variants generalizing start index with
  | nil => cases variant
  | cons first rest ih =>
    obtain ⟨key', payload'⟩ := first
    rw [variantsWith]
    by_cases first : selects found (tags.lookup key') start key' = true
    · cases only 0 _ rfl first
      cases variant
      rw [if_pos first]
      exact taken.andThen fun members =>
        Value.variant key (if members.isEmpty then none else some (.ofFields members))
    · rw [if_neg first]
      cases index with
      | zero =>
        cases variant
        exact absurd selected first
      | succ index =>
        refine ih variant (by rwa [Nat.add_right_comm, Nat.add_assoc]) fun j v there chosen => ?_
        have := only (j + 1) v there (by rwa [Nat.add_right_comm, Nat.add_assoc] at chosen)
        omega

/-! ### All shapes -/

theorem valueWith_structLike {s : Shape} (like : s.isStructLike = true) :
    valueWith order target s = do
      let members ← membersWith order target s
      return .ofFields members := by
  cases s with
  | struct | merged | packed | flags => rw [valueWith, membersWith]
  | _ => cases like

/-- What a literal stands for is equal to itself, as truth values, texts and integers are. -/
theorem beq_ofLiteral (l : Literal) : (Value.ofLiteral l == Value.ofLiteral l) = true := by
  change Value.equal _ _ = true
  cases l <;> simp [Value.ofLiteral, Value.ofInt, Value.equal]

theorem takes_enum {backing : Primitive} {entries : List (String × Int)} {kind : IntKind}
    {name : String} {id : Int} (known : backing.intKind? = some kind)
    (distinct : (entries.map (·.2)).Nodup) (member : (name, id) ∈ entries)
    (fits : kind.wrap id = id) : Takes (valueWith order target (.enum backing entries))
      (intBytes order backing kind (BitVec.ofInt kind.bits id).toNat) (.enum name) := by
  have found : entries.find? (fun entry =>
      (Value.int kind (BitVec.ofInt kind.bits id)).asInt? == some entry.2) = some (name, id) := by
    have seen : (Value.int kind (BitVec.ofInt kind.bits id)).asInt? = some id := congrArg some fits
    have ids (entry : String × Int) : (some id == some entry.2) = (entry.2 == id) := by
      rw [Bool.eq_iff_iff, beq_iff_eq, beq_iff_eq, Option.some.injEq, eq_comm]
    simp only [seen, ids]
    exact find?_of_distinct distinct member
  rw [valueWith]
  refine (takes_read_int order known _).into ?_
  simp only [found]
  exact takes_pure _

section

variable (ordered : refs.Ordered rank)
  (labels : ∀ label t, refs.lookup label = some t → target label = partWith order target t)

include ordered labels

mutual

/-- What is written for a value is read as the value. -/
theorem takes_of_written : ∀ {s : Shape} {v : Value} {bytes : List UInt8},
    Written order refs s v bytes → s.Reversible refs rank →
    Takes (valueWith order target s) bytes v
  | .prim p, v, bytes, .prim holds made, fit => by
    obtain ⟨bytes', made', takes⟩ := takes_read_write order fit.own.2 holds
    cases made.symm.trans made'
    rw [valueWith]
    exact takes
  | _, _, _, .absent, _ => by
    rw [valueWith, valueWith]
    exact (takes_bool false).into (takes_pure Value.null)
  | _, _, _, .present _ inner, fit => by
    obtain ⟨bound, wf⟩ := fit.wf
    rw [valueWith, valueWith]
    exact (takes_bool true).bind
      (takes_of_written inner (fit.part List.mem_cons_self wf.2))
  | _, _, _, .list known counts inner, fit => by
    obtain ⟨bound, wf⟩ := fit.wf
    rw [valueWith]
    exact takes_collection .list known counts fun v member =>
      takes_of_written (inner v member) (fit.part List.mem_cons_self wf)
  | _, _, _, .map known counts keys values, fit => by
    obtain ⟨bound, wf, wf'⟩ := fit.wf
    rw [valueWith]
    refine takes_collection .map known counts fun e member => ?_
    have key := takes_of_written (keys e member) (fit.part List.mem_cons_self wf)
    have value := takes_of_written (values e member)
      (fit.part (List.mem_cons_of_mem _ List.mem_cons_self) wf')
    exact key.bind (value.andThen fun v => (e.1, v))
  | _, _, _, .struct like distinct inner, fit => by
    rw [valueWith_structLike like]
    exact (takes_of_writtenMembers inner fit distinct).andThen Value.ofFields
  | _, _, _, .enum known member fits, fit => takes_enum known fit.own.1 member fits
  | _, _, _, @Written.union _ _ _ _ _ _ index key _ _ _ _ _ variant tagged selected distinct inner,
      fit => by
    obtain ⟨bound, wf⟩ := fit.wf
    rw [valueWith]
    have is (found : Shape) (behind : Shape.resolved refs _ = .ok found) : IsTagOf found _ :=
      Encoding.isTagOf_of_written ((written_resolves (Shape.resolves_of_resolved behind)).mp tagged)
    refine (takes_of_written tagged (fit.part List.mem_cons_self wf.1)).bind ?_
    refine takes_variantsWith variant (by rwa [Nat.zero_add]) (fun j v there chosen => ?_)
      (takes_of_writtenMembers inner (fit.variant (List.mem_of_getElem? variant)) distinct)
    rw [Nat.zero_add] at chosen
    exact fit.own.1 _ is j index v _ there variant chosen selected
  | _, _, _, .alias inside, fit => by
    rw [valueWith]
    exact takes_of_written inside (fit.inner ordered (.inl rfl))
  | _, _, _, .exported inside, fit => by
    rw [valueWith]
    exact takes_of_written inside (fit.inner ordered (.inr rfl))
  | _, _, _, .ref found inside, fit => by
    rw [valueWith, labels _ _ found]
    exact takes_of_written inside (fit.target ordered found)
  | _, _, _, @Written.literal _ _ l p _ holds made, _ => by
    have bounded : p ≠ .rest := by
      rintro rfl
      obtain ⟨_, same⟩ := holds
      cases l <;> cases same
    obtain ⟨bytes', made', takes⟩ := takes_read_write order bounded holds
    cases made.symm.trans made'
    rw [valueWith]
    refine takes.into ?_
    rw [if_pos (beq_ofLiteral l)]
    exact takes_pure _
  | _, _, _, .bare, _ => by
    rw [valueWith]
    exact takes_pure _

/-- What is written for the members of a struct is read as the members. -/
theorem takes_of_writtenMembers : ∀ {s : Shape} {members : List (String × Value)}
    {bytes : List UInt8}, WrittenMembers order refs s members bytes → s.Reversible refs rank →
    (members.map (·.1)).Nodup → Takes (membersWith order target s) bytes members
  | _, _, _, .nil, _, _ => by
    rw [membersWith, fieldsWith]
    exact takes_pure []
  | _, _, _, @WrittenMembers.cons _ _ f fields v members _ _ first others, fit, distinct => by
    obtain ⟨bound, wf⟩ := fit.wf
    have inside : (Shape.struct fields).WellFormed refs rank bound := wf.2
    have rest : (Shape.struct fields).Reversible refs rank :=
      fit.fewer ⟨trivial, trivial⟩ inside (List.subset_cons_self ..)
    have later : (members.map (·.1)).Nodup := by
      split at distinct
      · exact (List.nodup_cons.mp distinct).2
      · exact distinct
    have taken := takes_of_writtenMembers others rest later
    rw [membersWith] at taken ⊢
    rw [fieldsWith]
    exact (takes_of_written first (fit.field List.mem_cons_self)).bind
      (taken.andThen fun others => if f.shape.isStored then (f.name, v) :: others else others)
  | _, _, _, .noParts, _, _ => by
    rw [membersWith, partsWith]
    exact takes_pure []
  | _, _, _, @WrittenMembers.part _ _ s parts members others _ _ first later, fit, distinct => by
    obtain ⟨bound, wf⟩ := fit.wf
    have inside : (Shape.merged parts).WellFormed refs rank bound := wf.2
    have rest : (Shape.merged parts).Reversible refs rank :=
      fit.fewer ⟨trivial, trivial⟩ inside (List.subset_cons_self ..)
    rw [List.map_append, List.nodup_append] at distinct
    have taken := takes_of_writtenMembers later rest distinct.2.1
    rw [membersWith] at taken ⊢
    rw [partsWith]
    exact (takes_of_writtenMembers first (fit.parts List.mem_cons_self) distinct.1).bind
      (taken.andThen (members ++ ·))
  | _, _, _, .packed known holds, fit, _ => by
    obtain ⟨bound, inside, positive, each⟩ := fit.wf
    rw [membersWith, groupMembers,
      ← slotMembers_packedWord each (inside _ known) positive holds]
    exact (takes_read_int order known _).andThen fun raw => slotMembers raw _
  | _, _, _, .flags known, fit, distinct => by
    obtain ⟨bound, inside, each⟩ := fit.wf
    rw [List.map_map] at distinct
    rw [membersWith, groupMembers, ← slotMembers_flagWord each (inside _ known) fit.own.2 distinct]
    exact (takes_read_int order known _).andThen fun raw => slotMembers raw _
  | _, _, _, .alias inside, fit, distinct => by
    rw [membersWith]
    exact takes_of_writtenMembers inside (fit.inner ordered (.inl rfl)) distinct
  | _, _, _, .exported inside, fit, distinct => by
    rw [membersWith]
    exact takes_of_writtenMembers inside (fit.inner ordered (.inr rfl)) distinct
  | _, _, _, .ref found inside, fit, distinct => by
    rw [membersWith, labels _ _ found]
    exact takes_of_writtenMembers inside (fit.target ordered found) distinct

end

end

end Layout

end WireSchema
