import WireSchema.Proofs.Elision.Retention
import WireSchema.Proofs.Lowering.Collections
import WireSchema.Proofs.Lowering.Flags

/-!
# Flags that overlap

Two fields of a flag struct whose masks share a bit cannot be told apart in the integer: where one is
set, the other is read as set too. A decoder keeps the integer bound for both of them, elided or not,
so it never yields a value that sets just one.
-/

namespace WireSchema

open Ir Gen Lowering

/-! ### Bindings of slots -/

namespace Setting

variable {s : Setting} {σ τ : Session} {depth group : Nat} {x : Local}

/-- A field that is a slot is bound to an expression over the integer. -/
theorem bindField_slot {f : Field} {y : Field × Local} (clean : f.shape.Clean s.hooks s.types)
    (ready : σ.Ready s.types) (inside : σ.draft.Inside group x)
    (ran : Runs (bindField (emitter s.hooks depth) f) σ y τ) :
    y.1 = f ∧ σ.draft.nextLocal ≤ y.2.id ∧ y.2.id < τ.draft.nextLocal ∧
      ∃ stmts, σ.Emits s.types τ stmts ∧ ∀ index kind, f.shape = .slot group index kind →
        ∃ e, slotExpr (.var x) kind = .ok e ∧ .bind y.2 false (some e) ∈ stmts := by
  simp only [bindField, runs_bind, runs_withHint, runs_pure] at ran
  obtain ⟨z, _, ⟨τ', declared, rfl⟩, rfl, rfl⟩ := ran
  obtain ⟨e, σ₁, stmts, inner, emits₁, _, emits, own, next⟩ :=
    emits_declare declared (ready.withHints _) (clean.decodeExpr depth)
  have late : σ.draft.nextLocal ≤ z.id := own ▸ emits₁.owns.le
  refine ⟨rfl, late, Nat.lt_of_lt_of_eq (Nat.lt_succ_self _) next.symm,
    stmts ++ [.bind z false (some e)], ?_, fun index kind shape => ⟨e, ?_, by simp⟩⟩
  · obtain ⟨_, grows⟩ := emits.grows
    exact emits.redraft ⟨rfl, rfl, rfl⟩ ⟨rfl, rfl, rfl⟩ (emits.ready.withHints _) grows.groups
  -- For a slot the decoder asks for the integer of its group, which is the one at hand.
  · rw [shape] at inner
    obtain _ | depth := depth
    · exact (runs_throw.mp inner).elim
    obtain ⟨found, _, active, looked⟩ := runs_bind.mp inner
    have same : found = some ⟨group, some (.var x)⟩ := (runs_activeGroup?.mp active).1.trans inside.1
    rw [same] at looked
    exact (runs_ofExcept.mp looked).1

/-- Fields have bindings of their own, and those that are slots are bound to expressions over the
integer. -/
theorem bindFields_slots {fields : List Field} {ys : List (Field × Local)}
    (clean : ∀ f ∈ fields, f.shape.Clean s.hooks s.types) (ready : σ.Ready s.types)
    (inside : σ.draft.Inside group x)
    (ran : Runs (fields.mapM (bindField (emitter s.hooks depth))) σ ys τ) :
    ys.map (·.1) = fields ∧ (∀ y ∈ ys, σ.draft.nextLocal ≤ y.2.id) ∧ (ys.map (·.2.id)).Nodup ∧
      ∃ stmts, σ.Emits s.types τ stmts ∧ ∀ y ∈ ys, ∀ index kind,
        y.1.shape = .slot group index kind →
        ∃ e, slotExpr (.var x) kind = .ok e ∧ .bind y.2 false (some e) ∈ stmts := by
  obtain ⟨all, emits⟩ := emits_bindFields clean ready ran
  induction fields generalizing σ ys all with
  | nil =>
    obtain ⟨rfl, rfl⟩ := runs_mapM_nil.mp ran
    exact ⟨rfl, nofun, List.nodup_nil, all, emits, nofun⟩
  | cons f rest ih =>
    obtain ⟨y, σ₁, others, here, later, rfl⟩ := runs_mapM_cons.mp ran
    obtain ⟨cleanHere, cleanLater⟩ := List.forall_mem_cons.mp clean
    obtain ⟨named, early, below, front, emits₁, bound⟩ :=
      bindField_slot cleanHere ready inside here
    obtain ⟨_, grows₁⟩ := emits₁.grows
    obtain ⟨_, emits₂⟩ := emits_bindFields cleanLater emits₁.ready later
    obtain ⟨names, above, distinct, back, emits₂, bound'⟩ :=
      ih cleanLater emits₁.ready (inside.grow grows₁) later _ emits₂
    obtain ⟨_, grows₂⟩ := emits₂.grows
    obtain ⟨_, grows⟩ := emits.grows
    -- All that was emitted is the code of the first field and that of the others.
    cases grows.unique (grows₁.trans grows₂) ready.opened
    refine ⟨by rw [List.map_cons, named, names], ?_, ?_, _, emits, ?_⟩
    · refine List.forall_mem_cons.mpr ⟨early, fun z member => ?_⟩
      exact Nat.le_trans grows₁.mono (above z member)
    · refine List.nodup_cons.mpr ⟨fun again => ?_, distinct⟩
      obtain ⟨z, member, same⟩ := List.mem_map.mp again
      have same : z.2.id = y.2.id := same
      have late := above z member
      omega
    · refine List.forall_mem_cons.mpr ⟨fun index kind shape => ?_, fun z member index kind shape => ?_⟩
      · obtain ⟨e, made, among⟩ := bound index kind (named ▸ shape)
        exact ⟨e, made, List.mem_append_left _ among⟩
      · obtain ⟨e, made, among⟩ := bound' z member index kind shape
        exact ⟨e, made, List.mem_append_right _ among⟩

end Setting

/-! ### Both or none -/

variable {kind : IntKind} {backing : Primitive}

theorem from_flagSlot (known : backing.intKind? = some kind) {x : Local} {mask : Int} {e : Expr}
    (made : slotExpr (.var x) (.flag mask backing) = .ok e) : e.From x := by
  simp only [slotExpr, backingKind_of_known known] at made
  cases made
  refine ⟨?_, ?_, fun y used => ?_⟩
  · simp [Expr.int]
  · simp [Expr.int]
  · simpa [Expr.int] using used

namespace Setting.FlagStruct

variable {s : Setting} {typed : Shape → Value → Prop} {masks : List (String × Int)}
variable {fields : List Field} {group : Nat} {a b : Field} {i j : Nat} {m n : Int}

/-- The code of a decoder retains the integer and any two flags. -/
theorem retains (struct : s.FlagStruct typed backing kind masks fields group) (first : a ∈ fields)
    (second : b ∈ fields) (differ : a.name ≠ b.name)
    (roleA : a.shape.flagRole group = .flag i m) (roleB : b.shape.flagRole group = .flag j n)
    {σ : Session} {body : Block} (decoder : s.Decoder (.flags backing masks fields group) σ body) :
    ∃ raw e e', slotExpr (.var raw) (.flag m backing) = .ok e ∧
      slotExpr (.var raw) (.flag n backing) = .ok e' ∧
      body.Retains raw backing ((fields.filter (·.shape.isStored)).map (·.name)) (a.name, e)
        (b.name, e') := by
  obtain ⟨type, raw, ys, rest, σ₁, τ₁, depth, rfl, ready, inside, _, emits, ran⟩ :=
    decoder.grouped rfl fun f member => struct.clean_of_field member
  obtain ⟨named, _, distinct, stmts, emits', bound⟩ :=
    bindFields_slots (fun f member => struct.clean_of_field member) ready inside ran
  obtain ⟨_, grows⟩ := emits.grows
  obtain ⟨_, grows'⟩ := emits'.grows
  cases grows.unique grows' ready.opened
  have binding (f : Field) (member : f ∈ fields) {index : Nat} {mask : Int}
      (role : f.shape.flagRole group = .flag index mask) :
      ∃ y e, (f, y) ∈ ys ∧ f.shape.isStored = true ∧
        slotExpr (.var raw) (.flag mask backing) = .ok e ∧ .bind y false (some e) ∈ rest := by
    rw [← named] at member
    obtain ⟨⟨_, y⟩, among, rfl⟩ := List.mem_map.mp member
    have shape := struct.shape_of_flag (named ▸ member) role
    obtain ⟨e, made, stated⟩ := bound _ among _ _ shape
    exact ⟨y, e, among, by rw [shape]; rfl, made, stated⟩
  obtain ⟨y, e, amongA, storedA, madeA, boundA⟩ := binding a first roleA
  obtain ⟨z, e', amongB, storedB, madeB, boundB⟩ := binding b second roleB
  -- Slots are stored, so both bindings are among the fields of the result.
  have entry {f : Field} {x : Local} (among : (f, x) ∈ ys) (stored : f.shape.isStored = true) :
      (f.name, Expr.var x) ∈ ((ys.filter (·.1.shape.isStored)).map fun y => (y.1.name, y.2)).map
        fun y => (y.1, Expr.var y.2) := by
    rw [List.map_map]
    exact List.mem_map.mpr ⟨(f, x), List.mem_filter.mpr ⟨among, stored⟩, rfl⟩
  refine ⟨raw, e, e', madeA, madeB, ⟨rest, rfl⟩, type, _, .var y, .var z, rfl, ?_,
    entry amongA storedA, entry amongB storedB, .inr ⟨y, rfl, List.mem_cons_of_mem _ boundA⟩,
    .inr ⟨z, rfl, List.mem_cons_of_mem _ boundB⟩, ?_⟩
  · rw [← named, List.filter_map, List.map_map, List.map_map, List.map_map]
    rfl
  · rintro _ _ ⟨⟩ ⟨⟩ same
    have both := List.inj_on_of_nodup_map distinct amongA amongB same
    exact differ (congrArg (·.1.name) both)

/-- No run of a decoder gives just one of two flags, if the integer has a bit of the other. -/
theorem never_alone (struct : s.FlagStruct typed backing kind masks fields group)
    (first : a ∈ fields) (second : b ∈ fields) (differ : a.name ≠ b.name)
    (roleA : a.shape.flagRole group = .flag i m) (roleB : b.shape.flagRole group = .flag j n)
    {word : BitVec kind.bits} (set : word &&& kind.maskBits n ≠ 0) {v : Field → Value}
    (off : v b = .bool false) {σ : Session} {body : Block}
    (decoder : s.Decoder (.flags backing masks fields group) σ body) {start final : Machine}
    {rest : List UInt8} {position : Nat} (stream : start.stream = .input
      ⟨Wire.intBytes s.writer.order backing kind word.toNat ++ rest, position⟩) :
    Run.evalBlock s.reader body start ≠ .ok (flagValue v fields, final) ∧
      Run.evalBlock s.reader body.elide start ≠ .ok (flagValue v fields, final) := by
  obtain ⟨raw, e, e', madeA, madeB, retains⟩ :=
    struct.retains first second differ roleA roleB decoder
  have fromA := from_flagSlot struct.known madeA
  have fromB := from_flagSlot struct.known madeB
  obtain ⟨_, _, _, emits, _⟩ := decoder.made
  have tidy : Stmt.Tidy body.stmts := emits.owns.tidy
  have takes := Wire.takes_read_int s.writer.order struct.known word
  rw [s.order] at takes stream
  obtain ⟨m₁, read, _⟩ := Block.reads_read takes start rest position stream
  have read : Run.eval s.reader (.read backing) start = .ok (.int kind word, m₁) := read
  have value (m : Machine) (found : m.env.get? raw.id = some (.int kind word)) :
      Run.eval s.reader e' m = .ok (.bool true, m) := by
    have evaluated := struct.eval_flagSlot word raw e' m madeB found
    rwa [show (word &&& kind.maskBits n != 0) = true by simpa using set] at evaluated
  -- Such a value has the other field unset, but every run sets it.
  have never {block : Block} (retains : block.Retains raw backing
      ((fields.filter (·.shape.isStored)).map (·.name)) (a.name, e) (b.name, e'))
      (tidy : Stmt.Tidy block.stmts) :
      Run.evalBlock s.reader block start ≠ .ok (flagValue v fields, final) := by
    intro ran
    obtain ⟨values, same, names, member⟩ :=
      retains.value s.readerIsolated tidy fromB read value ran
    obtain ⟨entries, struct', found⟩ := struct.exists_values v
    have distinct : (values.map (·.1)).Nodup := by
      rw [names]
      exact struct.distinct.sublist (List.filter_sublist.map _)
    have stored : b.shape.isStored = true := by
      rw [struct.shape_of_flag second roleB]
      rfl
    have here := found b second
    rw [if_pos stored, off] at here
    cases same.symm.trans struct'
    rw [Value.getField?_foldl distinct, Value.getField?_of_mem distinct member] at here
    cases here
  exact ⟨never retains tidy, never (retains.elide tidy differ fromA fromB)
    (Probe.refines_elide s.readerIsolated body tidy).2⟩

/-! ### Independence -/

/-- Where the masks share no bit, the integer has the mask of a flag exactly if it is set, and the
value comes back. -/
theorem comes_back (struct : s.FlagStruct typed backing kind masks fields group)
    (disjoint : masks.Pairwise fun m n => kind.maskBits m.2 &&& kind.maskBits n.2 = 0)
    {v : Field → Value} (holds : ∀ f ∈ fields, f.shape.FlagTyped typed group (v f)) :
    ∃ (word : BitVec kind.bits) (written : Field → List UInt8),
      (∀ f ∈ fields, ∀ index mask, (f.shape.flagRole group).use? = some (index, mask) →
        (word &&& kind.maskBits mask = kind.maskBits mask ↔
          (f.shape.flagRole group).isSet (v f) = true)) ∧
      (∀ f ∈ fields, s.FlagBytes group f.shape (v f) (written f)) ∧
      s.Writes (.flags backing masks fields group) (flagValue v fields)
        (Wire.intBytes s.writer.order backing kind word.toNat ++ fields.flatMap written) ∧
      s.Decodes (.flags backing masks fields group)
        (Wire.intBytes s.writer.order backing kind word.toNat ++ fields.flatMap written)
        (flagValue v fields) := by
  have inhabited : Nonempty Value := ⟨.null⟩
  choose! written got carried using
    fun f member => struct.field_carried (f := f) member (holds f member)
  -- No other flag reaches into a mask, so it stands there as a whole or not at all.
  have word (f : Field) (member : f ∈ fields) (index : Nat) (mask : Int)
      (use : (f.shape.flagRole group).use? = some (index, mask)) :
      flagWord kind group v fields &&& kind.maskBits mask =
        if (f.shape.flagRole group).isSet (v f) then kind.maskBits mask else 0 := by
    split
    case isTrue on => exact word_of_set member use on
    case isFalse off => exact struct.word_of_unset disjoint member use (by simpa using off)
  have nonzero (f : Field) (member : f ∈ fields) (index : Nat) (mask : Int)
      (use : (f.shape.flagRole group).use? = some (index, mask)) : kind.maskBits mask ≠ 0 :=
    (struct.use_known member use).choose_spec.2
  refine ⟨flagWord kind group v fields, written, fun f member index mask use => ?_,
    fun f member => (carried f member).sent, ?_, ?_⟩
  · rw [word f member index mask use]
    cases (f.shape.flagRole group).isSet (v f) with
    | true => simp
    | false => simpa using (nonzero f member index mask use).symm
  · exact struct.writes holds (fun f member => (carried f member).sent)
      fun f member => (carried f member).writes
  · refine (struct.reads (fun f member => (carried f member).same) fun f member => ?_).decodes
    apply (carried f member).reads
    intro index mask use
    rw [word f member index mask use]
    cases (f.shape.flagRole group).isSet (v f) with
    | true => simpa using nonzero f member index mask use
    | false => simp

/-- The values with one flag set and another unset, and all other fields as they are. -/
def setAlone (a b : Field) (v : Field → Value) (f : Field) : Value :=
  if f.name = a.name then .bool true else if f.name = b.name then .bool false else v f

theorem typed_setAlone (struct : s.FlagStruct typed backing kind masks fields group)
    (first : a ∈ fields) (second : b ∈ fields) (roleA : a.shape.flagRole group = .flag i m)
    (roleB : b.shape.flagRole group = .flag j n) {v : Field → Value}
    (holds : ∀ f ∈ fields, f.shape.FlagTyped typed group (v f)) :
    ∀ f ∈ fields, f.shape.FlagTyped typed group (setAlone a b v f) := by
  intro f member
  unfold setAlone
  by_cases isA : f.name = a.name
  · cases List.inj_on_of_nodup_map struct.distinct member first isA
    rw [if_pos rfl, Shape.FlagTyped, roleA]
    exact ⟨true, rfl⟩
  by_cases isB : f.name = b.name
  · cases List.inj_on_of_nodup_map struct.distinct member second isB
    rw [if_neg isA, if_pos rfl, Shape.FlagTyped, roleB]
    exact ⟨false, rfl⟩
  · rw [if_neg isA, if_neg isB]
    exact holds f member

/-- Where the masks of two flags share a bit, a value that sets one of them alone is written, but
never read. -/
theorem lost_alone (struct : s.FlagStruct typed backing kind masks fields group)
    (first : a ∈ fields) (second : b ∈ fields) (differ : a.name ≠ b.name)
    (roleA : a.shape.flagRole group = .flag i m) (roleB : b.shape.flagRole group = .flag j n)
    (overlap : kind.maskBits m &&& kind.maskBits n ≠ 0) {v : Field → Value}
    (holds : ∀ f ∈ fields, f.shape.FlagTyped typed group (v f)) :
    ∃ bytes, s.Writes (.flags backing masks fields group) (flagValue (setAlone a b v) fields) bytes ∧
      ∀ σ body, s.Decoder (.flags backing masks fields group) σ body →
        ∀ start rest position final, start.stream = .input ⟨bytes ++ rest, position⟩ →
          Run.evalBlock s.reader body start ≠ .ok (flagValue (setAlone a b v) fields, final) ∧
          Run.evalBlock s.reader body.elide start ≠
            .ok (flagValue (setAlone a b v) fields, final) := by
  have inhabited : Nonempty Value := ⟨.null⟩
  have holds' := struct.typed_setAlone first second roleA roleB holds
  have on : setAlone a b v a = .bool true := if_pos rfl
  have off : setAlone a b v b = .bool false := (if_neg differ.symm).trans (if_pos rfl)
  choose! written got carried using
    fun f member => struct.field_carried (f := f) member (holds' f member)
  have set : flagWord kind group (setAlone a b v) fields &&& kind.maskBits n ≠ 0 := by
    intro none
    have whole : flagWord kind group (setAlone a b v) fields &&& kind.maskBits m = kind.maskBits m :=
      word_of_set first (by rw [roleA]; rfl) (by rw [roleA, on]; rfl)
    -- The mask that was set is there as a whole, with the bit that is shared.
    apply overlap
    rw [← whole, BitVec.and_assoc, BitVec.and_comm (kind.maskBits m), ← BitVec.and_assoc, none]
    exact BitVec.zero_and
  refine ⟨_, struct.writes holds' (fun f member => (carried f member).sent)
    fun f member => (carried f member).writes, ?_⟩
  intro σ body decoder start rest position final stream
  rw [List.append_assoc] at stream
  exact struct.never_alone first second differ roleA roleB set off decoder stream

end Setting.FlagStruct

/-- Flags are independent if their masks share no bit: the integer has the mask of a flag exactly if
the flag is set or the optional value is there, what follows are the other fields in order, and the
value comes back. If the masks of two flags share a bit, a value that sets one of them does not come
back without the other. -/
theorem Setting.flags_are_independent (s : Setting) {typed : Shape → Value → Prop}
    {backing : Primitive} {kind : IntKind} {masks : List (String × Int)} {fields : List Field}
    {group : Nat} (struct : s.FlagStruct typed backing kind masks fields group) :
    (∃ least, ∀ depth ≥ least, s.Generates depth (.flags backing masks fields group)) ∧
    (masks.Pairwise (fun m n => kind.maskBits m.2 &&& kind.maskBits n.2 = 0) →
      ∀ v : Field → Value, (∀ f ∈ fields, f.shape.FlagTyped typed group (v f)) →
        ∃ (word : BitVec kind.bits) (written : Field → List UInt8),
          (∀ f ∈ fields, ∀ index mask, (f.shape.flagRole group).use? = some (index, mask) →
            (word &&& kind.maskBits mask = kind.maskBits mask ↔
              (f.shape.flagRole group).isSet (v f) = true)) ∧
          (∀ f ∈ fields, s.FlagBytes group f.shape (v f) (written f)) ∧
          s.Writes (.flags backing masks fields group) (flagValue v fields)
            (Wire.intBytes s.writer.order backing kind word.toNat ++ fields.flatMap written) ∧
          s.Decodes (.flags backing masks fields group)
            (Wire.intBytes s.writer.order backing kind word.toNat ++ fields.flatMap written)
            (flagValue v fields)) ∧
    ∀ a ∈ fields, ∀ b ∈ fields, a.name ≠ b.name → ∀ i j m n,
      a.shape.flagRole group = .flag i m → b.shape.flagRole group = .flag j n →
      kind.maskBits m &&& kind.maskBits n ≠ 0 →
      (∃ v : Field → Value, ∀ f ∈ fields, f.shape.FlagTyped typed group (v f)) →
      ∃ v : Field → Value, (∀ f ∈ fields, f.shape.FlagTyped typed group (v f)) ∧
        v a = .bool true ∧ v b = .bool false ∧
        ∃ bytes, s.Writes (.flags backing masks fields group) (flagValue v fields) bytes ∧
          ∀ σ body, s.Decoder (.flags backing masks fields group) σ body →
            ∀ start rest position final, start.stream = .input ⟨bytes ++ rest, position⟩ →
              Run.evalBlock s.reader body start ≠ .ok (flagValue v fields, final) ∧
              Run.evalBlock s.reader body.elide start ≠ .ok (flagValue v fields, final) := by
  refine ⟨struct.generates, fun disjoint v holds => struct.comes_back disjoint holds, ?_⟩
  rintro a first b second differ i j m n roleA roleB overlap ⟨v, holds⟩
  exact ⟨_, struct.typed_setAlone first second roleA roleB holds, if_pos rfl,
    (if_neg differ.symm).trans (if_pos rfl),
    struct.lost_alone first second differ roleA roleB overlap holds⟩

/-- Integers of a primitive, and lists of such values that their length type can count. -/
def Shape.CountTyped : Shape → Value → Prop
  | .prim p, v =>
    match p.intKind? with
    | some kind => ∃ b : BitVec kind.bits, v = .int kind b
    | none => False
  | .list item length, v =>
    match length.intKind? with
    | some kind => ∃ items, v = .list items ∧ (∀ w ∈ items, CountTyped item w) ∧
      kind.Counts items.length
    | none => False
  | _, _ => False

/-- A flag in the sign bit, a list of bytes that is there if two bits are set, and a number. -/
def guardedFields : List Field :=
  [{ name := "top", shape := .slot 0 0 (.flag 0x80 .i8) },
    { name := "extra", shape := .optional (.list (.prim .u8) .i8) (.slot 0 1 (.flag 3 .i8)) },
    { name := "count", shape := .prim .u16 }]

theorem flagStruct_guarded : (Setting.plain .big).FlagStruct Shape.CountTyped .i8 .i8
    [("top", 0x80), ("extra", 3)] guardedFields 0 where
  known := rfl
  accepted := by
    have bytes : (Setting.plain .big).RoundTrips (.prim .u8) (Shape.CountTyped (.prim .u8)) :=
      (Setting.plain .big).roundTrips_int rfl
    refine ⟨_, rfl, List.forall_mem_cons.mpr ⟨?_, List.forall_mem_cons.mpr ⟨?_,
      List.forall_mem_singleton.mpr ?_⟩⟩⟩
    · exact List.mem_cons_self
    · exact ⟨⟨_, List.mem_cons_of_mem _ List.mem_cons_self, rfl⟩, bytes.list rfl⟩
    · exact ⟨nofun, rfl, (Setting.plain .big).roundTrips_int rfl⟩
  valid _ := rfl
  distinct := by decide

/-- Two flags that share a bit. -/
def sharedFields : List Field :=
  [{ name := "any", shape := .slot 0 0 (.flag 3 .u8) },
    { name := "low", shape := .slot 0 1 (.flag 1 .u8) }]

theorem flagStruct_shared : (Setting.plain .big).FlagStruct Shape.CountTyped .u8 .u8
    [("any", 3), ("low", 1)] sharedFields 0 where
  known := rfl
  accepted := by
    refine ⟨_, rfl, List.forall_mem_cons.mpr ⟨?_, List.forall_mem_singleton.mpr ?_⟩⟩
    · exact List.mem_cons_self
    · exact List.mem_cons_of_mem _ List.mem_cons_self
  valid _ := rfl
  distinct := by decide

/-- With the sign bit set and two bytes in the list the value comes back; of the two flags that share
a bit one cannot be set alone. -/
theorem Setting.flags_are_independent_samples :
    (∃ bytes, (Setting.plain .big).Writes (.flags .i8 [("top", 0x80), ("extra", 3)] guardedFields 0)
        (.ofFields [("top", .bool true), ("extra", .list [.int .u8 1#8, .int .u8 2#8]),
          ("count", .int .u16 5#16)]) bytes ∧
      (Setting.plain .big).Decodes (.flags .i8 [("top", 0x80), ("extra", 3)] guardedFields 0) bytes
        (.ofFields [("top", .bool true), ("extra", .list [.int .u8 1#8, .int .u8 2#8]),
          ("count", .int .u16 5#16)])) ∧
    ∃ v : Field → Value, ∃ bytes,
      (Setting.plain .big).Writes (.flags .u8 [("any", 3), ("low", 1)] sharedFields 0)
        (flagValue v sharedFields) bytes ∧
      ∀ σ body, (Setting.plain .big).Decoder (.flags .u8 [("any", 3), ("low", 1)] sharedFields 0) σ
          body →
        ∀ final, Run.evalBlock (Setting.plain .big).reader body.elide
          { env := [], stream := .input (.ofBytes bytes) } ≠
            .ok (flagValue v sharedFields, final) := by
  constructor
  · let v (f : Field) : Value :=
      if f.name = "top" then .bool true else if f.name = "count" then .int .u16 5#16
      else .list [.int .u8 1#8, .int .u8 2#8]
    have counted : Shape.CountTyped (.list (.prim .u8) .i8) (.list [.int .u8 1#8, .int .u8 2#8]) :=
      ⟨_, rfl, List.forall_mem_cons.mpr ⟨⟨1#8, rfl⟩, List.forall_mem_singleton.mpr ⟨2#8, rfl⟩⟩,
        by decide⟩
    have holds : ∀ f ∈ guardedFields, f.shape.FlagTyped Shape.CountTyped 0 (v f) :=
      List.forall_mem_cons.mpr ⟨⟨true, rfl⟩, List.forall_mem_cons.mpr ⟨.inr counted,
        List.forall_mem_singleton.mpr fun _ => ⟨5#16, rfl⟩⟩⟩
    obtain ⟨_, carried, _⟩ := (Setting.plain .big).flags_are_independent flagStruct_guarded
    obtain ⟨word, written, _, _, writes, decodes⟩ := carried (by decide) v holds
    exact ⟨_, writes, decodes⟩
  · obtain ⟨_, _, alone⟩ := (Setting.plain .big).flags_are_independent flagStruct_shared
    obtain ⟨v, _, _, _, bytes, writes, never⟩ := alone _ List.mem_cons_self _
      (List.mem_cons_of_mem _ List.mem_cons_self) (by decide) 0 1 3 1 rfl rfl (by decide)
      ⟨fun _ => .bool true, List.forall_mem_cons.mpr ⟨⟨true, rfl⟩,
        List.forall_mem_singleton.mpr ⟨true, rfl⟩⟩⟩
    refine ⟨v, bytes, writes, fun σ body decoder final => ?_⟩
    have stream : Stream.input (.ofBytes bytes) = .input ⟨bytes ++ [], 0⟩ := by
      rw [List.append_nil]
      rfl
    exact (never σ body decoder _ [] 0 final stream).2

end WireSchema
