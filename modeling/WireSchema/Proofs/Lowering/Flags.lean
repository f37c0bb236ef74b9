import WireSchema.Proofs.Lowering.FlagStructs

/-!
# Flags are independent

Flags whose masks share no bit can be set or not without regard to each other, whether they are
fields themselves or tell of an optional field: what is written is read again. Two fields whose masks
overlap cannot: setting one of them sets the other as well.
-/

namespace WireSchema

open Ir Gen Lowering

variable {p : Program} {low : Nat} {env : Env} {kind : IntKind} {backing : Primitive}

namespace Setting.FlagStruct

variable {s : Setting} {typed : Shape → Value → Prop} {masks : List (String × Int)}
variable {fields : List Field} {group : Nat}

/-! ### Fields -/

theorem clean_of_field (struct : s.FlagStruct typed backing kind masks fields group) {f : Field}
    (member : f ∈ fields) : f.shape.Clean s.hooks s.types := by
  have slotClean (index : Nat) (kind : SlotKind) :
      (Shape.slot group index kind).Clean s.hooks s.types := (Shape.hookFree_slot _ _ _).clean
  cases role : f.shape.flagRole group with
  | flag index mask =>
    rw [struct.shape_of_flag member role]
    exact slotClean _ _
  | guarded index mask payload =>
    obtain ⟨shape, trips⟩ := struct.shape_of_guarded member role
    rw [shape]
    exact trips.clean.optional (slotClean _ _)
  | plain =>
    obtain ⟨_, _, carried⟩ := struct.of_plain member role
    split at carried
    · exact carried.clean
    · exact carried.1.clean

/-- The expression of a flag tells whether the integer has a bit of the mask. -/
theorem eval_flagSlot (struct : s.FlagStruct typed backing kind masks fields group)
    (word : BitVec kind.bits) {mask : Int} (x : Local) (e : Expr) (m : Machine)
    (made : slotExpr (.var x) (.flag mask backing) = .ok e)
    (found : m.env.get? x.id = some (.int kind word)) :
    Run.eval s.reader e m = .ok (.bool (word &&& kind.maskBits mask != 0), m) := by
  have bound : (Expr.var x).Denotes s.reader (x.id + 1) m.env (.int kind word) :=
    Expr.denotes_var found (Nat.lt_succ_self _)
  exact denotes_flagSlot struct.known bound made m (.refl _ _)

theorem flag_carried (struct : s.FlagStruct typed backing kind masks fields group) {f : Field}
    (member : f ∈ fields) {index : Nat} {mask : Int}
    (role : f.shape.flagRole group = .flag index mask) (on : Bool) :
    s.FlagCarried kind group f.shape (.bool on) [] (.bool on) := by
  have shape := struct.shape_of_flag member role
  refine ⟨by simp [FlagBytes, role], ?_, fun _ => rfl, fun word agrees => ?_⟩
  all_goals rw [shape]
  · exact writes_slot
  · have same : (word &&& kind.maskBits mask != 0) = on := by
      have agreed := agrees index mask (by rw [role]; rfl)
      rw [role] at agreed
      exact agreed
    exact reads_slot fun x e m made found => same ▸ struct.eval_flagSlot word x e m made found

/-- An optional value is carried by its own bytes if it is present, and by none otherwise. -/
theorem guarded_carried (struct : s.FlagStruct typed backing kind masks fields group) {f : Field}
    (member : f ∈ fields) {index : Nat} {mask : Int} {payload : Shape}
    (role : f.shape.flagRole group = .guarded index mask payload) {v : Value}
    (holds : v = .null ∨ typed payload v) : ∃ bytes, s.FlagCarried kind group f.shape v bytes v := by
  obtain ⟨shape, trips⟩ := struct.shape_of_guarded member role
  have stored : f.shape.isStored = true := by
    rw [shape]
    rfl
  have test (word : BitVec kind.bits)
      (agrees : ∀ index mask, (f.shape.flagRole group).use? = some (index, mask) →
        (word &&& kind.maskBits mask != 0) = (f.shape.flagRole group).isSet v) :
      (word &&& kind.maskBits mask != 0) = !v.isNull := by
    have same := agrees index mask (by rw [role]; rfl)
    rwa [role] at same
  -- The payload may hold `null` as well; it is taken for an absent value then, as the encoder does.
  by_cases absent : v = .null
  · subst absent
    refine ⟨[], by simp [FlagBytes, role, Value.isNull], ?_, fun _ => rfl, fun word agrees => ?_⟩
    · rw [if_pos stored, shape]
      exact writes_guarded trips.clean (fun _ => rfl) nofun
    · rw [shape]
      refine reads_guarded trips.clean (struct.eval_flagSlot word) (fun set => ?_) fun _ => ⟨rfl, rfl⟩
      rw [test word agrees] at set
      cases set
  · have present : v.isNull = false := by
      cases v with
      | null => exact absurd rfl absent
      | _ => rfl
    obtain ⟨bytes, carries⟩ := trips.carries v (holds.resolve_left absent)
    refine ⟨bytes, by simpa [FlagBytes, role, present] using carries.writes, ?_, fun _ => rfl,
      fun word agrees => ?_⟩
    · rw [if_pos stored, shape]
      refine writes_guarded trips.clean (fun null => ?_) fun _ => carries.writes
      rw [present] at null
      cases null
    · rw [shape]
      refine reads_guarded trips.clean (struct.eval_flagSlot word) (fun _ => carries.reads)
        fun unset => ?_
      rw [test word agrees, present] at unset
      cases unset

theorem plain_carried (struct : s.FlagStruct typed backing kind masks fields group) {f : Field}
    (member : f ∈ fields) (role : f.shape.flagRole group = .plain) {v : Value}
    (holds : f.shape.isStored = true → typed f.shape v) :
    ∃ bytes w, s.FlagCarried kind group f.shape v bytes w := by
  obtain ⟨_, _, carried⟩ := struct.of_plain member role
  cases stored : f.shape.isStored with
  | true =>
    rw [if_pos stored] at carried
    obtain ⟨bytes, carries⟩ := carried.carries v (holds stored)
    have writes : s.Writes f.shape (if f.shape.isStored then v else .null) bytes := by
      rw [if_pos stored]
      exact carries.writes
    refine ⟨bytes, v, ?_, writes, fun _ => rfl, fun word _ => carries.reads.under _ _⟩
    rwa [FlagBytes, role]
  | false =>
    -- The value does not matter here: constants and the like are written without one.
    rw [stored, if_neg Bool.false_ne_true] at carried
    obtain ⟨_, bytes, w, carries⟩ := carried
    have writes : s.Writes f.shape (if f.shape.isStored then v else .null) bytes := by
      rw [stored]
      exact carries.writes
    refine ⟨bytes, w, ?_, writes, fun kept => ?_, fun word _ => carries.reads.under _ _⟩
    · rwa [FlagBytes, role]
    · rw [stored] at kept
      cases kept

theorem field_carried (struct : s.FlagStruct typed backing kind masks fields group) {f : Field}
    (member : f ∈ fields) {v : Value} (holds : f.shape.FlagTyped typed group v) :
    ∃ bytes w, s.FlagCarried kind group f.shape v bytes w := by
  unfold Shape.FlagTyped at holds
  cases role : f.shape.flagRole group with
  | flag index mask =>
    rw [role] at holds
    obtain ⟨on, rfl⟩ := holds
    exact ⟨[], .bool on, struct.flag_carried member role on⟩
  | guarded index mask payload =>
    rw [role] at holds
    obtain ⟨bytes, carried⟩ := struct.guarded_carried member role holds
    exact ⟨bytes, v, carried⟩
  | plain =>
    rw [role] at holds
    exact struct.plain_carried member role holds

/-- The value of the struct has the values of its stored fields, and nothing else. -/
theorem exists_values (struct : s.FlagStruct typed backing kind masks fields group)
    (v : Field → Value) : ∃ values, flagValue v fields = .struct values ∧ ∀ f ∈ fields,
      (Value.getField? f.name values).getD .null = if f.shape.isStored then v f else .null := by
  have distinct : ((fields.filter (·.shape.isStored)).map (·.name)).Nodup :=
    struct.distinct.sublist (List.filter_sublist.map _)
  obtain ⟨values, same, found, absent⟩ := Value.ofFields_map distinct v
  refine ⟨values, same, fun f member => ?_⟩
  cases stored : f.shape.isStored with
  | true =>
    rw [found f (List.mem_filter.mpr ⟨member, stored⟩)]
    rfl
  | false =>
    rw [absent]
    · rfl
    · intro named
      obtain ⟨g, among, same⟩ := List.mem_map.mp named
      obtain ⟨among, stored'⟩ := List.mem_filter.mp among
      cases List.inj_on_of_nodup_map struct.distinct among member same
      rw [stored] at stored'
      cases stored'

/-- The term of a field denotes the bits that it puts into the integer. -/
theorem denotes_term (struct : s.FlagStruct typed backing kind masks fields group) {f : Field}
    (member : f ∈ fields) {v : Field → Value} (holds : f.shape.FlagTyped typed group (v f))
    {src : Expr} (denotes : (Expr.field src f.name).Denotes p low env
      (if f.shape.isStored then v f else .null)) :
    Option.Rel (fun e b => e.Denotes p low env (.int kind b)) (flagTerm kind group src f)
      (flagBits? kind group v f) := by
  cases role : f.shape.flagRole group with
  | flag index mask =>
    rw [Shape.FlagTyped, role] at holds
    obtain ⟨on, value⟩ := holds
    have shape := struct.shape_of_flag member role
    have bits : flagBits? kind group v f = some (if on then kind.maskBits mask else 0) := by
      simp [flagBits?, role, Shape.FlagRole.use?, Shape.FlagRole.isSet, value, Value.asBool?]
    have term : flagTerm kind group src f =
        some (.cond (.field src f.name) (.int mask kind) (.int 0 kind)) := by
      simp [flagTerm, shape, Shape.slotOf?]
    rw [bits, term]
    rw [shape, value] at denotes
    exact .some (Expr.denotes_bool_cond mask denotes)
  | guarded index mask payload =>
    have shape := (struct.shape_of_guarded member role).1
    have bits : flagBits? kind group v f = some (if !(v f).isNull then kind.maskBits mask else 0) := by
      simp [flagBits?, role, Shape.FlagRole.use?, Shape.FlagRole.isSet]
    have term : flagTerm kind group src f =
        some (.cond (.isPresent (.field src f.name)) (.int mask kind) (.int 0 kind)) := by
      simp [flagTerm, shape, Shape.slotOf?]
    rw [bits, term]
    rw [shape] at denotes
    exact .some (Expr.denotes_bool_cond mask denotes.isPresent)
  | plain =>
    obtain ⟨_, free, _⟩ := struct.of_plain member role
    have bits : flagBits? kind group v f = none := by simp [flagBits?, role, Shape.FlagRole.use?]
    have term : flagTerm kind group src f = none := by
      -- An optional field is plain too if its presence is no slot of the group.
      unfold flagTerm
      split
      case h_1 value presence shape =>
        rw [shape, Shape.slotUses, List.append_eq_nil_iff] at free
        rw [Shape.slotOf?_of_free free.2]
        rfl
      case h_2 =>
        rw [Shape.slotOf?_of_free free]
        rfl
    rw [bits, term]
    exact .none

/-! ### Structs -/

/-- Only flags are left out after the integer, and nothing is written for them. -/
theorem flatMap_followsFlags (struct : s.FlagStruct typed backing kind masks fields group)
    {v : Field → Value} {written : Field → List UInt8}
    (sent : ∀ f ∈ fields, s.FlagBytes group f.shape (v f) (written f)) :
    (fields.filter followsFlags).flatMap written = fields.flatMap written := by
  have none : ∀ f ∈ fields, followsFlags f = false → written f = [] := by
    intro f member slot
    have bytes := sent f member
    unfold FlagBytes at bytes
    cases role : f.shape.flagRole group with
    | flag index mask =>
      rw [role] at bytes
      exact bytes
    | guarded index mask payload =>
      rw [followsFlags, (struct.shape_of_guarded member role).1] at slot
      cases slot
    | plain =>
      unfold followsFlags at slot
      split at slot
      case h_1 g index kind shape => exact absurd shape ((struct.of_plain member role).1 g index kind)
      case h_2 => cases slot
  -- From here on it is a matter of lists; the struct would not stay one in the induction.
  clear sent struct
  induction fields with
  | nil => rfl
  | cons f rest ih =>
    obtain ⟨here, later⟩ := List.forall_mem_cons.mp none
    rw [List.filter_cons, List.flatMap_cons, ← ih later]
    split
    · rw [List.flatMap_cons]
    case isFalse left =>
      rw [here (by simpa using left), List.nil_append]

/-- The terms of the fields put together denote the integer. -/
theorem denotes_word (struct : s.FlagStruct typed backing kind masks fields group)
    {v : Field → Value} (holds : ∀ f ∈ fields, f.shape.FlagTyped typed group (v f)) {src : Expr}
    (denotes : src.Denotes p low env (flagValue v fields)) :
    (orTerms kind (fields.filterMap (flagTerm kind group src))).Denotes p low env
      (.int kind (flagWord kind group v fields)) := by
  obtain ⟨values, struct', values'⟩ := struct.exists_values v
  rw [struct'] at denotes
  apply Expr.denotes_orTerms
  refine List.rel_filterMap (R := fun f g => f = g ∧ f ∈ fields) ?_
    (List.forall₂_same.mpr fun f member => ⟨rfl, member⟩)
  rintro f _ ⟨rfl, member⟩
  refine struct.denotes_term member (holds f member) ?_
  rw [← values' f member]
  exact denotes.field f.name

/-- The code of an encoder: the integer is written, then what follows it for the fields. -/
theorem code_of_encoder (struct : s.FlagStruct typed backing kind masks fields group)
    {v : Field → Value} {written : Field → List UInt8}
    (sent : ∀ f ∈ fields, s.FlagBytes group f.shape (v f) (written f))
    (writes : ∀ f ∈ fields, s.Writes f.shape (if f.shape.isStored then v f else .null) (written f))
    {src : Expr} {σ : Session} {stmts : List Stmt}
    (encoder : s.Encoder (.flags backing masks fields group) src σ stmts) :
    ∃ rest, stmts = .write backing (orTerms kind (fields.filterMap (flagTerm kind group src))) :: rest ∧
      Stmt.Writes s.writer σ.draft.nextLocal src (flagValue v fields) rest
        (fields.flatMap written) := by
  obtain ⟨ready, known, depth, τ, ran, emits, leads⟩ := encoder
  obtain ⟨depth, type, σ₀, named, ran₁⟩ := runs_encodeGrouped rfl ran
  have clean := fun f member => struct.clean_of_field (f := f) member
  have ready₀ : σ₀.Ready s.types := ready.structName rfl clean named
  have quiet : σ₀.draft = σ.draft := quiet_structName _ _ _ _ _ named
  obtain ⟨kind', _, looked, ran₂⟩ := runs_bind.mp ran₁
  obtain ⟨found, rfl⟩ := runs_ofExcept.mp looked
  rw [backingKind_of_known struct.known, Except.ok.injEq] at found
  rw [← found] at ran₂
  obtain ⟨_, σ₁, emitted, ran₃⟩ := runs_bind.mp ran₂
  obtain ⟨ready₁, ⟨_, first⟩, next⟩ := ready_emit emitted ready₀
  obtain ⟨τ₁, within, rfl⟩ := runs_withGroup.mp ran₃
  have none : ∀ e, (none : Option Expr) = some e → ∀ x ∈ e.locals, x < σ₁.draft.nextLocal := nofun
  rw [quiet] at first next
  obtain ⟨values, struct', values'⟩ := struct.exists_values v
  obtain ⟨_, rest, emits₂, others⟩ := writes_inOrder
    (fun f member => clean f (List.mem_filter.mp member).1)
    (fun f member => writes f (List.mem_filter.mp member).1) (ready₁.withGroup none)
    (fun x used => Nat.lt_of_lt_of_eq (known x used) next.symm) (s.redraft leads) within
    fun f member => values' f (List.mem_filter.mp member).1
  obtain ⟨_, grows⟩ := emits.grows
  obtain ⟨_, grows₂⟩ := emits₂.grows
  -- The group is left again; what was emitted inside it stays.
  have second : σ₁.draft.Grows { τ₁.draft with groups := τ₁.draft.groups.tail } rest _ :=
    ⟨⟨grows₂.next, grows₂.ids, grows₂.taken, grows₂.names, grows₂.free⟩, grows₂.scopes,
      congrArg List.tail grows₂.groups⟩
  cases grows.unique (first.trans second) ready.opened
  refine ⟨rest, rfl, ?_⟩
  rw [struct', ← struct.flatMap_followsFlags sent, ← next]
  exact others

/-- Encoders write the integer, then what follows it for the fields. -/
theorem writes (struct : s.FlagStruct typed backing kind masks fields group) {v : Field → Value}
    (holds : ∀ f ∈ fields, f.shape.FlagTyped typed group (v f)) {written : Field → List UInt8}
    (sent : ∀ f ∈ fields, s.FlagBytes group f.shape (v f) (written f))
    (writes : ∀ f ∈ fields, s.Writes f.shape (if f.shape.isStored then v f else .null) (written f)) :
    s.Writes (.flags backing masks fields group) (flagValue v fields)
      (Wire.intBytes s.writer.order backing kind (flagWord kind group v fields).toNat ++
        fields.flatMap written) := by
  intro src σ stmts encoder m latest denotes stream
  obtain ⟨rest, rfl, others⟩ := struct.code_of_encoder sent writes encoder
  obtain ⟨m₁, ran₁, env, stream₁⟩ := Run.exec_write_int struct.known
    (struct.denotes_word holds denotes m (.refl _ _)) stream
  obtain ⟨m₂, ran₂, stream₂⟩ := others m₁ _ (env ▸ denotes) stream₁
  refine ⟨m₂, ?_, ?_⟩
  · rw [Run.execBlock_cons, ran₁]
    exact ran₂
  · rw [stream₂, List.reverse_append, List.append_assoc]

/-- Decoders read the integer, then what follows it for the fields. -/
theorem reads (struct : s.FlagStruct typed backing kind masks fields group) {v : Field → Value}
    {word : BitVec kind.bits} {written : Field → List UInt8} {got : Field → Value}
    (same : ∀ f ∈ fields, f.shape.isStored = true → got f = v f)
    (reads : ∀ f ∈ fields, s.ReadsUnder group (.int kind word) f.shape (written f) (got f)) :
    s.Reads (.flags backing masks fields group)
      (Wire.intBytes s.writer.order backing kind word.toNat ++ fields.flatMap written)
      (flagValue v fields) := by
  have takes := Wire.takes_read_int s.writer.order struct.known word
  rw [s.order] at takes ⊢
  have whole := reads_grouped (t := .flags backing masks fields group) rfl
    (fun f member => struct.clean_of_field member) takes reads
  have stored : (fields.filter (·.shape.isStored)).map (fun f => (f.name, got f)) =
      (fields.filter (·.shape.isStored)).map fun f => (f.name, v f) := by
    refine List.map_congr_left fun f member => ?_
    obtain ⟨among, stored⟩ := List.mem_filter.mp member
    rw [same f among stored]
  rwa [stored] at whole

/-! ### Generation succeeds -/

theorem clean (struct : s.FlagStruct typed backing kind masks fields group) :
    (Shape.flags backing masks fields group).Clean s.hooks s.types := by
  -- The fields need not be free of hooks, only clean, so the struct is taken apart by hand.
  have fieldTypes (depth : Nat) (stored : List Field)
      (found : (Shape.flags backing masks fields group).storedFields s.types = .ok stored) :
      ∀ f ∈ stored, Keeps s.types ((emitter s.hooks depth).typeExpr f.shape) fun _ => True := by
    rw [Shape.storedFields_grouped rfl] at found
    cases found
    exact fun f member => (struct.clean_of_field (List.mem_filter.mp member).1).typeExpr depth
  constructor
  case typeExpr =>
    intro depth
    cases depth with
    | zero => exact keeps_throw
    | succ depth => exact (keeps_structName (fieldTypes depth)).bind fun _ _ => keeps_pure trivial
  case decodeExpr =>
    intro depth visible
    obtain _ | depth := depth
    · exact builds_throw
    have bindings : Builds s.types visible [] ((emitter s.hooks depth).decodeBindings
        (.flags backing masks fields group)) Binds := by
      cases depth with
      | zero => exact builds_throw
      | succ depth =>
        exact builds_decodeGroup fun f member => (struct.clean_of_field member).decodeExpr depth
    refine (keeps_structName (fieldTypes depth)).before (quiet_structName _ _) fun type _ => ?_
    refine bindings.bind ?_
    rintro bindings visible' _ _ ⟨rfl, bound⟩
    exact builds_pure ⟨rfl, scoped_structOf bound⟩
  case encode =>
    intro depth src visible seen
    obtain _ | depth := depth
    · exact builds_throw
    refine (keeps_structName (fieldTypes depth)).discard.before (quiet_structName _ _).discard
      fun _ _ => ?_
    cases depth with
    | zero => exact builds_throw
    | succ depth =>
      apply builds_encodeFlags masks _ seen
      exact fun f member => (struct.clean_of_field member).encode depth

end Setting.FlagStruct

/-- At the depth the shape can be generated as a field of the struct with the group. -/
structure Setting.GeneratesInside (s : Setting) (group depth : Nat) (t : Shape) : Prop where
  typeExpr : ∀ σ : Session, σ.Ready s.types → ∃ x τ, Runs ((emitter s.hooks depth).typeExpr t) σ x τ
  decodeExpr : ∀ raw groups, Proceeds s.types (⟨group, some (.var raw)⟩ :: groups)
    ((emitter s.hooks depth).decodeExpr t) fun _ => True
  encode : ∀ (σ : Session) src groups, σ.Ready s.types →
    σ.draft.groups = ⟨group, none⟩ :: groups → (∀ x ∈ src.locals, x < σ.draft.nextLocal) →
    ∃ τ stmts, Runs ((emitter s.hooks depth).encode t src) σ () τ ∧ σ.Emits s.types τ stmts

/-- What can be generated anywhere can be generated inside. -/
theorem Setting.Generates.inside {s : Setting} {depth : Nat} {t : Shape}
    (generates : s.Generates depth t) (group : Nat) : s.GeneratesInside group depth t where
  typeExpr := generates.typeExpr
  decodeExpr _ _ := generates.proceeds _
  encode σ src _ ready _ known := generates.encode σ src ready known

theorem exists_least {α : Type} {P : Nat → α → Prop} {items : List α}
    (each : ∀ a ∈ items, ∃ least, ∀ n ≥ least, P n a) :
    ∃ least, ∀ n ≥ least, ∀ a ∈ items, P n a := by
  induction items with
  | nil => exact ⟨0, fun _ _ _ => nofun⟩
  | cons a rest ih =>
    obtain ⟨⟨first, here⟩, later⟩ := List.forall_mem_cons.mp each
    obtain ⟨second, there⟩ := ih later
    refine ⟨max first second, fun n deep => List.forall_mem_cons.mpr ⟨?_, ?_⟩⟩
    · exact here n (by omega)
    · exact there n (by omega)

/-- Fields can be written in order inside the group. -/
theorem Setting.succeeds_inOrder {s : Setting} {group depth : Nat} {groups : List ActiveGroup}
    {fields : List Field} (each : ∀ f ∈ fields, s.GeneratesInside group depth f.shape)
    {σ : Session} {src : Expr} (ready : σ.Ready s.types)
    (inside : σ.draft.groups = ⟨group, none⟩ :: groups)
    (known : ∀ x ∈ src.locals, x < σ.draft.nextLocal) :
    ∃ τ, Runs (encodeInOrder (emitter s.hooks depth) src fields) σ () τ := by
  induction fields generalizing σ with
  | nil => exact ⟨σ, runs_pure.mpr ⟨rfl, rfl⟩⟩
  | cons f rest ih =>
    obtain ⟨here, later⟩ := List.forall_mem_cons.mp each
    obtain ⟨σ₁, _, ran, emits⟩ :=
      here.encode _ (.field src f.name) groups (ready.withHints (f.name :: σ.draft.hints)) inside known
    obtain ⟨_, grows⟩ := emits.grows
    obtain ⟨τ, others⟩ := ih later (emits.ready.withHints σ₁.draft.hints.tail)
      (grows.groups.trans inside) fun x used => Nat.lt_of_lt_of_le (known x used) emits.owns.le
    exact ⟨τ, runs_bind.mpr ⟨(), _, runs_withHint.mpr ⟨σ₁, ran, rfl⟩, others⟩⟩

namespace Setting.FlagStruct

variable {s : Setting} {typed : Shape → Value → Prop} {masks : List (String × Int)}
variable {fields : List Field} {group : Nat}

theorem generatesInside (struct : s.FlagStruct typed backing kind masks fields group) {f : Field}
    (member : f ∈ fields) : ∃ least, ∀ depth ≥ least, s.GeneratesInside group depth f.shape := by
  have slot (raw : Local) (mask : Int) : ∃ e, slotExpr (.var raw) (.flag mask backing) = .ok e := by
    simp only [slotExpr, backingKind_of_known struct.known]
    exact ⟨_, rfl⟩
  cases role : f.shape.flagRole group with
  | flag index mask =>
    refine ⟨1, fun depth deep => ?_⟩
    obtain ⟨depth, rfl⟩ := Nat.exists_eq_add_of_le' deep
    have clean := struct.clean_of_field member
    rw [struct.shape_of_flag member role] at clean ⊢
    refine ⟨fun σ _ => succeeds_slotType _ _ σ, fun raw groups => ?_,
      fun σ src groups ready inside known => ?_⟩
    · obtain ⟨e, made⟩ := slot raw mask
      exact proceeds_decodeSlot made
    · have ran : Runs ((emitter s.hooks (depth + 1)).encode
          (.slot group index (.flag mask backing)) src) σ () σ := by
        refine runs_bind.mpr ⟨_, σ, runs_activeGroup?.mpr ⟨rfl, rfl⟩, ?_⟩
        have found : σ.draft.activeGroup? group = some ⟨group, none⟩ := by
          simp [Draft.activeGroup?, inside]
        rw [found]
        exact runs_pure.mpr ⟨rfl, rfl⟩
      obtain ⟨stmts, emits⟩ := emits_of_builds ran ready (List.forall_mem_singleton.mpr known)
        fun visible seen => clean.encode (depth + 1) src visible (seen src List.mem_cons_self)
      exact ⟨σ, stmts, ran, emits⟩
  | guarded index mask payload =>
    obtain ⟨shape, trips⟩ := struct.shape_of_guarded member role
    obtain ⟨least, generates⟩ := trips.generates
    -- One level for the optional value, and one more for the slot that guards it.
    refine ⟨least + 2, fun depth deep => ?_⟩
    obtain ⟨depth, rfl⟩ := Nat.exists_eq_add_of_le' (Nat.le_trans (Nat.le_add_left 2 least) deep)
    have payload := generates (depth + 1) (by omega)
    rw [shape]
    refine ⟨fun σ ready => succeeds_guardedType trips.clean payload.typeExpr ready _,
      fun raw groups => ?_, fun σ src groups ready inside known =>
        succeeds_guarded trips.clean payload ready known inside⟩
    obtain ⟨e, made⟩ := slot raw mask
    exact proceeds_guarded made trips.clean payload
  | plain =>
    have served : s.Served f.shape := by
      obtain ⟨_, _, carried⟩ := struct.of_plain member role
      split at carried
      · exact carried.toServed
      · exact carried.1
    obtain ⟨least, generates⟩ := served.generates
    exact ⟨least, fun depth deep => (generates depth deep).inside group⟩

/-- A flag struct can be generated, if what its fields hold can be. -/
theorem generates (struct : s.FlagStruct typed backing kind masks fields group) :
    ∃ least, ∀ depth ≥ least, s.Generates depth (.flags backing masks fields group) := by
  obtain ⟨least, each⟩ := exists_least fun f member => struct.generatesInside (f := f) member
  refine ⟨least + 2, fun depth deep => ?_⟩
  obtain ⟨depth, rfl⟩ := Nat.exists_eq_add_of_le' (Nat.le_trans (Nat.le_add_left 2 least) deep)
  -- The fields are typed one level above the one where they are decoded and written.
  have here := each depth (by omega)
  refine generates_grouped rfl struct.valid (fun f member => struct.clean_of_field member)
    struct.clean (fun f member => (each (depth + 1) (by omega) f member).typeExpr)
    (fun f member => (here f member).decodeExpr) fun σ src ready known => ?_
  obtain ⟨σ₁, emitted⟩ : ∃ σ₁, Runs (emit (.write backing (orTerms kind
      (fields.filterMap (flagTerm kind group src))))) σ () σ₁ := ⟨_, runs_emit.mpr rfl⟩
  obtain ⟨ready₁, _, next⟩ := ready_emit emitted ready
  have none : ∀ e, (none : Option Expr) = some e → ∀ x ∈ e.locals, x < σ₁.draft.nextLocal := nofun
  obtain ⟨τ, ran⟩ := succeeds_inOrder
    (fun f member => here f (List.mem_filter.mp member).1) (ready₁.withGroup none) rfl
    fun x used => Nat.lt_of_lt_of_eq (known x used) next.symm
  exact ⟨_, runs_bind.mpr ⟨kind, σ, runs_ofExcept.mpr ⟨backingKind_of_known struct.known, rfl⟩,
    runs_bind.mpr ⟨(), σ₁, emitted, runs_withGroup.mpr ⟨τ, ran, rfl⟩⟩⟩⟩

end Setting.FlagStruct

end WireSchema
