import WireSchema.Proofs.Lowering.Carriage
import WireSchema.Proofs.Machine.Arithmetic
import WireSchema.Proofs.Session.Progress

/-!
# Structs with a bit group

A packed or flag struct is decoded in one way: its integer is read and bound, then its fields are
decoded in order, and those that are slots of the struct take their values from the bound integer.
-/

namespace WireSchema

open Ir Gen Lowering

/-- The integer, the fields and the number of the group, of a struct that has one. -/
def Shape.bitGroup? : Shape → Option (Primitive × List Field × Nat)
  | .packed backing _ fields group | .flags backing _ fields group => some (backing, fields, group)
  | _ => none

/-! ### Calculations -/

theorem backingKind_of_known {backing : Primitive} {kind : IntKind}
    (known : backing.intKind? = some kind) :
    Shape.backingKind backing = .ok kind := by
  rw [Shape.backingKind, known]

theorem known_of_backingKind {backing : Primitive} {kind : IntKind}
    (found : Shape.backingKind backing = .ok kind) : backing.intKind? = some kind := by
  unfold Shape.backingKind at found
  split at found
  · cases found
    assumption
  · cases found

theorem mapM_of_forall {α β ε : Type} {f : α → Except ε β} {g : α → β} {items : List α}
    (each : ∀ a ∈ items, f a = .ok (g a)) : items.mapM f = .ok (items.map g) := by
  induction items with
  | nil => rfl
  | cons a rest ih =>
    obtain ⟨here, later⟩ := List.forall_mem_cons.mp each
    rw [List.mapM_cons, here, ih later]
    rfl

theorem exists_mapM {α β ε : Type} {f : α → Except ε β} {items : List α}
    (each : ∀ a ∈ items, ∃ b, f a = .ok b) : ∃ bs, items.mapM f = .ok bs := by
  induction items with
  | nil => exact ⟨[], rfl⟩
  | cons a rest ih =>
    obtain ⟨⟨b, here⟩, later⟩ := List.forall_mem_cons.mp each
    obtain ⟨bs, others⟩ := ih later
    refine ⟨b :: bs, ?_⟩
    rw [List.mapM_cons, here, others]
    rfl

theorem forall₂_of_mapM {α β γ ε : Type} {f : α → Except ε β} {g : α → γ} {R : β → γ → Prop}
    {items : List α} {bs : List β} (made : items.mapM f = .ok bs)
    (each : ∀ a ∈ items, ∀ b, f a = .ok b → R b (g a)) : List.Forall₂ R bs (items.map g) := by
  induction items generalizing bs with
  | nil =>
    cases made
    exact .nil
  | cons a rest ih =>
    obtain ⟨here, later⟩ := List.forall_mem_cons.mp each
    rw [List.mapM_cons] at made
    cases first : f a with
    | error e =>
      rw [first] at made
      cases made
    | ok b =>
      cases others : rest.mapM f with
      | error e =>
        rw [first, others] at made
        cases made
      | ok bs =>
        rw [first, others] at made
        cases made
        exact .cons (here b first) (ih others later)

namespace Ir.Expr

variable {p : Program} {low : Nat} {env : Env} {e : Expr} {kind : IntKind} {a : BitVec kind.bits}

theorem denotes_int (n : Int) (kind : IntKind) :
    (Expr.int n kind).Denotes p low env (.int kind (BitVec.ofInt kind.bits n)) :=
  denotes_lit (.int n kind)

theorem Denotes.bitAnd (denotes : e.Denotes p low env (.int kind a)) (mask : Int) :
    (Expr.binary .bitAnd e (.int mask kind)).Denotes p low env
      (.int kind (a &&& BitVec.ofInt kind.bits mask)) :=
  denotes.binary (denotes_int mask kind) (Run.binary_bitAnd kind a _)

theorem view_shift {n : Nat} (small : n < kind.bits) :
    IntKind.u32.view (BitVec.ofInt IntKind.u32.bits n) = n := by
  have low := kind.bits_le
  change ((BitVec.ofInt 32 n).toNat : Int) = n
  rw [BitVec.ofInt_natCast, BitVec.toNat_ofNat, Nat.mod_eq_of_lt (by omega)]

theorem Denotes.shl (denotes : e.Denotes p low env (.int kind a)) {n : Nat}
    (inside : n < kind.bits) :
    (Expr.binary .shl e (.int n .u32)).Denotes p low env (.int kind (a <<< n)) :=
  denotes.binary (denotes_int n .u32) (Run.binary_shl kind a (view_shift inside) inside)

/-- The widest unsigned integers apart, a move to the right is that of the type. -/
theorem Denotes.shr (denotes : e.Denotes p low env (.int kind a)) (narrow : kind ≠ .u128) {n : Nat}
    (inside : n < kind.bits) :
    (Expr.binary .shr e (.int n .u32)).Denotes p low env (.int kind (kind.shiftRight a n)) := by
  -- The machine moves numbers of 128 bits as signed ones, whatever their type.
  have same : (kind.signed || kind.bits == 128) = kind.signed := by
    cases kind <;> first | rfl | exact absurd rfl narrow
  have moved := Run.binary_shr kind a (view_shift inside) inside
  rw [same] at moved
  exact denotes.binary (denotes_int n .u32) moved

/-- The union of what the terms denote. -/
theorem denotes_orTerms {terms : List Expr} {bs : List (BitVec kind.bits)}
    (each : List.Forall₂ (fun e b => e.Denotes p low env (.int kind b)) terms bs) :
    (orTerms kind terms).Denotes p low env (.int kind (bs.foldl (· ||| ·) 0)) := by
  -- The first term is where the union starts; every other one is added to it.
  have fold (e : Expr) (b : BitVec kind.bits) (start : e.Denotes p low env (.int kind b))
      {terms : List Expr} {bs : List (BitVec kind.bits)}
      (each : List.Forall₂ (fun e b => e.Denotes p low env (.int kind b)) terms bs) :
      (terms.foldl (.binary .bitOr) e).Denotes p low env (.int kind (bs.foldl (· ||| ·) b)) := by
    induction each generalizing e b with
    | nil => exact start
    | cons here _ ih => exact ih _ _ (start.binary here (Run.binary_bitOr kind b _))
  cases each with
  | nil => exact denotes_int 0 kind
  | @cons _ b _ _ here later =>
    rw [List.foldl_cons, show 0 ||| b = b from BitVec.zero_or]
    exact fold _ b here later

end Ir.Expr

theorem getLsbD_foldl_or {width : Nat} (bs : List (BitVec width)) (start : BitVec width) (i : Nat) :
    (bs.foldl (· ||| ·) start).getLsbD i = (start.getLsbD i || bs.any (·.getLsbD i)) := by
  induction bs generalizing start with
  | nil => simp
  | cons b rest ih => rw [List.foldl_cons, ih, BitVec.getLsbD_or, List.any_cons, Bool.or_assoc]

/-! ### Parts of a struct -/

theorem Ir.Block.reads_read {p : Program} {prim : Primitive} {used : List UInt8} {v : Value}
    (takes : Wire.Takes (Wire.read p.order prim) used v) : Block.Reads p ⟨[], .read prim⟩ used v := by
  intro m rest position stream
  refine ⟨{ m with stream := .input ⟨rest, position + used.length⟩, events := .read prim v :: m.events },
    ?_, rfl⟩
  change Run.read p.order prim m = _
  have taken := takes.whole rest position
  simp only [Run.read, Run.bind_apply, get, getThe, MonadStateOf.get, StateT.get, pure, Except.pure,
    Except.bind, stream, taken]
  rfl

/-- A primitive is written. -/
theorem Run.exec_write {p : Program} {m : Machine} {prim : Primitive} {e : Expr} {v : Value}
    {bytes latest : List UInt8} (made : Wire.write p.order prim v = .ok bytes)
    (value : eval p e m = .ok (v, m)) (stream : m.stream = .output latest) :
    ∃ m', exec p (.write prim e) m = .ok ((), m') ∧ m'.env = m.env ∧
      m'.stream = .output (bytes.reverse ++ latest) := by
  refine ⟨{ m with
    stream := .output (bytes.reverseAux latest)
    events := .write prim v :: m.events }, ?_, rfl, by simp [List.reverseAux_eq]⟩
  rw [exec, bind_apply, value]
  simp only [Except.bind, Run.write, bind_apply, get, getThe, MonadStateOf.get, StateT.get, pure,
    Except.pure, stream, made]
  rfl

/-- An integer is written. -/
theorem Run.exec_write_int {p : Program} {m : Machine} {prim : Primitive} {kind : IntKind} {e : Expr}
    {b : BitVec kind.bits} {latest : List UInt8} (known : prim.intKind? = some kind)
    (value : eval p e m = .ok (.int kind b, m)) (stream : m.stream = .output latest) :
    ∃ m', exec p (.write prim e) m = .ok ((), m') ∧ m'.env = m.env ∧
      m'.stream = .output ((Wire.intBytes p.order prim kind b.toNat).reverse ++ latest) := by
  refine exec_write ?_ value stream
  simp [Wire.write, known, Value.asInt?]

/-- Integers come back. -/
theorem Setting.roundTrips_int (s : Setting) {prim : Primitive} {kind : IntKind}
    (known : prim.intKind? = some kind) :
    s.RoundTrips (.prim prim) fun v => ∃ b : BitVec kind.bits, v = .int kind b := by
  have free : (Shape.prim prim).HookFree s.types := Shape.hookFree_of_parts nofun nofun
  have clean : (Shape.prim prim).Clean s.hooks s.types := free.clean
  refine ⟨⟨clean, 1, fun depth deep => ?_⟩, ?_⟩
  · obtain ⟨depth, rfl⟩ := Nat.exists_eq_add_of_le' deep
    exact generates_of_clean clean (fun σ _ => ⟨_, σ, runs_pure.mpr ⟨rfl, rfl⟩⟩)
      (fun σ _ => ⟨_, σ, runs_pure.mpr ⟨rfl, rfl⟩⟩) fun σ src _ _ => ⟨_, runs_emit.mpr rfl⟩
  · rintro _ ⟨b, rfl⟩
    refine ⟨Wire.intBytes s.writer.order prim kind b.toNat, ?_, ?_⟩
    · rintro src σ stmts ⟨ready, _, depth, τ, ran, emits, _⟩ m latest denotes stream
      obtain _ | depth := depth
      · exact (runs_throw.mp ran).elim
      cases runs_emit.mp ran
      obtain ⟨_, grows⟩ := emits.grows
      cases grows.unique (σ.draft.grows_emit _) ready.opened
      obtain ⟨m', written, _, stream'⟩ := Run.exec_write_int known (denotes m (.refl _ _)) stream
      exact ⟨m', by rwa [Run.execBlock_single], stream'⟩
    · rintro σ ⟨stmts, e⟩ ⟨ready, depth, τ, ran, emits, _⟩
      obtain _ | depth := depth
      · exact (runs_throw.mp ran).elim
      obtain ⟨rfl, rfl⟩ := runs_pure.mp ran
      obtain ⟨_, grows⟩ := emits.grows
      cases grows.unique (.refl _) ready.opened
      have takes := Wire.takes_read_int s.writer.order known b
      rw [s.order] at takes ⊢
      exact Block.reads_read takes

/-- A struct over bindings that hold the values of its fields. -/
theorem Run.eval_structOf {p : Program} {m : Machine} {type : String} {ys : List (Field × Local)}
    {got : Field → Value} (known : ∀ y ∈ ys, m.env.get? y.2.id = some (got y.1)) :
    eval p (structOf type (ys.map fun y => (y.1.name, y.2))) m =
      .ok (.ofFields (ys.map fun y => (y.1.name, got y.1)), m) := by
  have fields : evalFields p (ys.map fun y => (y.1.name, .var y.2)) m =
      .ok (ys.map fun y => (y.1.name, got y.1), m) := by
    induction ys with
    | nil => rfl
    | cons y rest ih =>
      obtain ⟨here, later⟩ := List.forall_mem_cons.mp known
      simp only [List.map_cons, evalFields, bind_apply, eval_var here, Except.bind, ih later]
      rfl
  rw [structOf, List.map_map, eval, bind_apply]
  change (evalFields p (ys.map fun y => (y.1.name, .var y.2)) m).bind _ = _
  rw [fields]
  rfl

/-- The fields of a struct with a group are decoded after its integer, inside the group. -/
theorem runs_decodeGrouped {hooks : Hooks} {depth : Nat} {t : Shape} {backing : Primitive}
    {fields : List Field} {group : Nat} (grouped : t.bitGroup? = some (backing, fields, group))
    {σ τ : Session} {e : Expr} (ran : Runs ((emitter hooks depth).decodeExpr t) σ e τ) :
    ∃ depth' type xs σ₁, Runs (structName (emitter hooks (depth' + 1)) t) σ type σ₁ ∧
      Runs (decodeGroup (emitter hooks depth') backing group fields) σ₁ xs τ ∧
      e = structOf type xs := by
  obtain _ | depth := depth
  · exact (runs_throw.mp ran).elim
  -- The bindings are made by the emitter of the next lower depth, which must not be exhausted.
  have made : ∃ type xs σ₁, Runs (structName (emitter hooks depth) t) σ type σ₁ ∧
      Runs ((emitter hooks depth).decodeBindings t) σ₁ xs τ ∧ e = structOf type xs := by
    cases t with
    | packed _ _ _ _ | flags _ _ _ _ =>
      obtain ⟨type, σ₁, named, ran⟩ := runs_bind.mp ran
      obtain ⟨xs, σ₂, bound, ran⟩ := runs_bind.mp ran
      obtain ⟨rfl, rfl⟩ := runs_pure.mp ran
      exact ⟨type, xs, σ₁, named, bound, rfl⟩
    | _ => cases grouped
  obtain ⟨type, xs, σ₁, named, bound, rfl⟩ := made
  obtain _ | depth := depth
  · exact (runs_throw.mp bound).elim
  refine ⟨depth, type, xs, σ₁, named, ?_, rfl⟩
  cases t with
  | packed _ _ _ _ | flags _ _ _ _ =>
    cases grouped
    exact bound
  | _ => cases grouped

/-- The struct is declared, then its fields are written. -/
theorem runs_encodeGrouped {hooks : Hooks} {depth : Nat} {t : Shape} {backing : Primitive}
    {fields : List Field} {group : Nat} (grouped : t.bitGroup? = some (backing, fields, group))
    {σ τ : Session} {src : Expr} {u : Unit}
    (ran : Runs ((emitter hooks depth).encode t src) σ u τ) :
    ∃ depth' type σ₁, Runs (structName (emitter hooks (depth' + 1)) t) σ type σ₁ ∧
      Runs (encodeFields (emitter hooks depth') t src) σ₁ u τ := by
  obtain _ | depth := depth
  · exact (runs_throw.mp ran).elim
  have made : ∃ type σ₁, Runs (structName (emitter hooks depth) t) σ type σ₁ ∧
      Runs ((emitter hooks depth).encodeFields t src) σ₁ u τ := by
    cases t with
    | packed _ _ _ _ | flags _ _ _ _ =>
      obtain ⟨_, σ₁, named, ran⟩ := runs_bind.mp ran
      obtain ⟨type, named⟩ := runs_discard.mp named
      exact ⟨type, σ₁, named, ran⟩
    | _ => cases grouped
  obtain ⟨type, σ₁, named, ran⟩ := made
  obtain _ | depth := depth
  · exact (runs_throw.mp ran).elim
  exact ⟨depth, type, σ₁, named, ran⟩

theorem Shape.storedFields_grouped {types : Refs} {t : Shape} {backing : Primitive}
    {fields : List Field} {group : Nat} (grouped : t.bitGroup? = some (backing, fields, group)) :
    t.storedFields types = .ok (fields.filter (·.shape.isStored)) := by
  cases t with
  | packed _ _ _ _ | flags _ _ _ _ =>
    cases grouped
    unfold storedFields
    cases types.length <;> rfl
  | _ => cases grouped

/-- Declaring the struct leaves the draft as it is. -/
theorem Session.Ready.structName {hooks : Hooks} {types : Refs} {depth : Nat} {t : Shape}
    {backing : Primitive} {fields : List Field} {group : Nat} {σ τ : Session} {type : String}
    (ready : σ.Ready types) (grouped : t.bitGroup? = some (backing, fields, group))
    (clean : ∀ f ∈ fields, f.shape.Clean hooks types)
    (ran : Runs (Lowering.structName (emitter hooks depth) t) σ type τ) : τ.Ready types := by
  have kept : Keeps types (Lowering.structName (emitter hooks depth) t) fun _ => True := by
    refine keeps_structName fun fields' same f member => ?_
    rw [Shape.storedFields_grouped grouped] at same
    cases same
    exact (clean f (List.mem_filter.mp member).1).typeExpr depth
  have quiet : τ.draft = σ.draft := quiet_structName _ _ _ _ _ ran
  refine ⟨(kept _ _ _ ran ready.toFits).1, ?_, ?_⟩
  · rw [quiet]
    exact ready.opened
  · rw [quiet]
    exact ready.groups

namespace Setting

variable {s : Setting} {t : Shape} {σ : Session} {b : Block} {backing : Primitive}
variable {fields : List Field} {group : Nat}

/-- The code of a decoder: the integer is bound first, and the fields are decoded inside the group. -/
theorem Decoder.grouped (decoder : s.Decoder t σ b)
    (grouped : t.bitGroup? = some (backing, fields, group))
    (clean : ∀ f ∈ fields, f.shape.Clean s.hooks s.types) :
    ∃ type raw ys rest σ₁ τ₁ depth,
      b = ⟨.bind raw false (some (.read backing)) :: rest,
        structOf type ((ys.filter (·.1.shape.isStored)).map fun y => (y.1.name, y.2))⟩ ∧
      σ₁.Ready s.types ∧ σ₁.draft.Inside group raw ∧ s.leads τ₁ ∧ σ₁.Emits s.types τ₁ rest ∧
      Runs (fields.mapM (bindField (emitter s.hooks depth))) σ₁ ys τ₁ := by
  obtain ⟨stmts, result⟩ := b
  obtain ⟨ready, _, τ, ran, emits, leads⟩ := decoder
  obtain ⟨depth, type, xs, σ₁, named, bound, rfl⟩ := runs_decodeGrouped grouped ran
  have ready₁ : σ₁.Ready s.types := ready.structName grouped clean named
  have quiet : σ₁.draft = σ.draft := quiet_structName _ _ _ _ _ named
  obtain ⟨hint, _, hinted, bound₁⟩ := runs_bind.mp bound
  cases (runs_lastHint.mp hinted).2
  obtain ⟨raw, σ₂, declared, bound₂⟩ := runs_bind.mp bound₁
  obtain ⟨e, σ₃, front, init, inner, _, emits₂, _, next⟩ :=
    emits_declare declared ready₁ fun visible => builds_pure ⟨rfl, Expr.scoped_read⟩
  obtain ⟨rfl, rfl⟩ := runs_pure.mp init
  obtain ⟨_, growsInner⟩ := inner.grows
  cases growsInner.unique (.refl _) ready₁.pushScope.opened
  obtain ⟨τ₁, within, rfl⟩ := runs_withGroup.mp bound₂
  obtain ⟨ys, _, mapped, picked⟩ := runs_bind.mp within
  obtain ⟨rfl, rfl⟩ := runs_pure.mp picked
  have known : raw.id < σ₂.draft.nextLocal := Nat.lt_of_lt_of_eq (Nat.lt_succ_self _) next.symm
  have ready₃ : Session.Ready s.types
      { σ₂ with draft.groups := ⟨group, some (.var raw)⟩ :: σ₂.draft.groups } := by
    refine emits₂.ready.withGroup ?_
    rintro _ ⟨⟩ x used
    rwa [List.mem_singleton.mp used]
  obtain ⟨rest, emits₃⟩ := emits_bindFields clean ready₃ mapped
  -- All that was emitted is the binding of the integer and the code of the fields.
  obtain ⟨_, grows⟩ := emits.grows
  obtain ⟨_, grows₂⟩ := emits₂.grows
  obtain ⟨_, grows₃⟩ := emits₃.grows
  have tail : σ₂.draft.Grows { τ₁.draft with groups := τ₁.draft.groups.tail } rest _ :=
    ⟨⟨grows₃.next, grows₃.ids, grows₃.taken, grows₃.names, grows₃.free⟩, grows₃.scopes,
      congrArg List.tail grows₃.groups⟩
  rw [quiet] at grows₂
  cases grows.unique (grows₂.trans tail) ready.opened
  have inside : Draft.Inside
      { σ₂.draft with groups := ⟨group, some (.var raw)⟩ :: σ₂.draft.groups } group raw :=
    ⟨by simp [Draft.activeGroup?], known⟩
  exact ⟨type, raw, ys, rest, _, τ₁, depth, rfl, ready₃, inside, s.redraft leads, emits₃, mapped⟩

variable {used : List UInt8} {r : Value} {taken : Field → List UInt8} {got : Field → Value}

/-- The integer is read, then the fields, which may take bytes of their own. -/
theorem reads_grouped (grouped : t.bitGroup? = some (backing, fields, group))
    (clean : ∀ f ∈ fields, f.shape.Clean s.hooks s.types)
    (takes : Wire.Takes (Wire.read s.reader.order backing) used r)
    (reads : ∀ f ∈ fields, s.ReadsUnder group r f.shape (taken f) (got f)) :
    s.Reads t (used ++ fields.flatMap taken)
      (.ofFields ((fields.filter (·.shape.isStored)).map fun f => (f.name, got f))) := by
  intro σ b decoder
  obtain ⟨type, raw, ys, rest, σ₁, τ₁, depth, rfl, ready, inside, leads, emits, ran⟩ :=
    decoder.grouped grouped clean
  obtain ⟨_, named, stmts, emits', fieldwise⟩ := reads_bindFields clean reads ready inside leads ran
  obtain ⟨_, grows⟩ := emits.grows
  obtain ⟨_, grows'⟩ := emits'.grows
  cases grows.unique grows' ready.opened
  -- Reading the integer makes true what the fields are read under.
  have integer : Stmt.Reads s.reader (fun _ => True) [.bind raw false (some (.read backing))] used
      fun env => env.get? raw.id = some r := (Block.reads_read takes).everywhere.declare raw
  have result (m : Machine) (known : ∀ y ∈ ys, m.env.get? y.2.id = some (got y.1)) :
      Run.eval s.reader (structOf type ((ys.filter (·.1.shape.isStored)).map fun y =>
        (y.1.name, y.2))) m = .ok (.ofFields ((ys.filter (·.1.shape.isStored)).map fun y =>
          (y.1.name, got y.1)), m) :=
    Run.eval_structOf fun y member => known y (List.mem_filter.mp member).1
  have whole := (integer.append fieldwise).block result
  have values : (ys.filter (·.1.shape.isStored)).map (fun y => (y.1.name, got y.1)) =
      (fields.filter (·.shape.isStored)).map fun f => (f.name, got f) := by
    rw [← named, List.filter_map, List.map_map]
    rfl
  rw [values] at whole
  exact fun m rest position stream => whole m rest position trivial stream

/-- Nothing is read for a slot: its value comes from the integer that was bound. -/
theorem reads_slot {index : Nat} {kind : SlotKind} {w : Value}
    (value : ∀ x e m, slotExpr (.var x) kind = .ok e → m.env.get? x.id = some r →
      Run.eval s.reader e m = .ok (w, m)) :
    s.ReadsUnder group r (.slot group index kind) [] w := by
  rintro σ ⟨stmts, e⟩ x ⟨ready, depth, τ, ran, emits, _⟩ inside m rest position known stream
  obtain _ | depth := depth
  · exact (runs_throw.mp ran).elim
  obtain ⟨found, _, active, ran⟩ := runs_bind.mp ran
  obtain ⟨rfl, rfl⟩ := runs_activeGroup?.mp active
  rw [inside.1] at ran
  obtain ⟨slot, rfl⟩ := runs_ofExcept.mp ran
  obtain ⟨_, grows⟩ := emits.grows
  cases grows.unique (.refl _) ready.opened
  exact ⟨m, value x e m slot known, stream⟩

/-- Nothing is written for a slot. -/
theorem writes_slot {index : Nat} {kind : SlotKind} {v : Value} :
    s.Writes (.slot group index kind) v [] := by
  rintro src σ stmts ⟨ready, _, depth, τ, ran, emits, _⟩ m latest _ stream
  obtain _ | depth := depth
  · exact (runs_throw.mp ran).elim
  obtain ⟨found, _, active, ran⟩ := runs_bind.mp ran
  obtain ⟨rfl, rfl⟩ := runs_activeGroup?.mp active
  -- Without its group the slot is refused, so there is no code to speak of.
  split at ran
  · exact (runs_throw.mp ran).elim
  · obtain ⟨_, rfl⟩ := runs_pure.mp ran
    obtain ⟨_, grows⟩ := emits.grows
    cases grows.unique (.refl _) ready.opened
    exact ⟨m, rfl, stream⟩

end Setting

/-! ### Generation succeeds -/

section Progress

variable {hooks : Hooks} {types : Refs} {depth : Nat} {t : Shape} {backing : Primitive}
variable {fields : List Field} {group : Nat} {σ : Session}

theorem proceeds_typeExpr {f : Shape} {groups : List ActiveGroup} (clean : f.Clean hooks types)
    (typed : ∀ σ, σ.Ready types → ∃ x τ, Runs ((emitter hooks depth).typeExpr f) σ x τ) :
    Proceeds types groups ((emitter hooks depth).typeExpr f) fun _ => True :=
  proceeds_of_quiet typed (clean.typeExpr depth) (quiet_emitter hooks depth f)

/-- What can be decoded anywhere can be decoded with any bit groups at hand. -/
theorem Setting.Generates.proceeds {s : Setting} (generates : s.Generates depth t)
    (groups : List ActiveGroup) :
    Proceeds s.types groups ((emitter s.hooks depth).decodeExpr t) fun _ => True := by
  intro σ ready same
  obtain ⟨e, τ, stmts, ran, emits⟩ := generates.decodeExpr σ ready
  obtain ⟨_, grows⟩ := emits.grows
  exact ⟨e, τ, ran, emits.ready, grows.groups.trans same, trivial⟩

theorem proceeds_aliasedOr {groups : List ActiveGroup} {build : Gen TypeExpr}
    (proceeds : Proceeds types groups build fun _ => True) (t : Shape) :
    Proceeds types groups (aliasedOr t build) fun _ => True := by
  refine (proceeds_canonicalName t).bind fun _ _ => (proceeds_aliasOf? _).bind fun found _ => ?_
  split
  · exact proceeds_pure trivial
  · exact proceeds

/-- The struct is declared, if its slots are in order and its fields have types. -/
theorem succeeds_structName (grouped : t.bitGroup? = some (backing, fields, group))
    (valid : ∀ owner, t.slotsValid types owner = .ok ())
    (clean : ∀ f ∈ fields, f.shape.Clean hooks types)
    (typed : ∀ f ∈ fields, ∀ σ, σ.Ready types →
      ∃ x τ, Runs ((emitter hooks depth).typeExpr f.shape) σ x τ)
    (ready : σ.Ready types) : ∃ type τ, Runs (structName (emitter hooks depth) t) σ type τ := by
  have wanted (signature fallback : String) :
      Proceeds types σ.draft.groups (desiredName signature fallback) fun _ => True := by
    refine (proceeds_aliasOf? signature).bind fun found _ => ?_
    split
    · exact proceeds_pure trivial
    · exact proceeds_hintName fallback
  obtain ⟨desired, σ₁, asked, ready₁, _⟩ :=
    wanted (t.canonicalName σ.refs) (t.safeName σ.refs) σ ready rfl
  -- A struct that is not declared yet gets a draft of its own, on which its fields are typed.
  have defined (name : String) (r : Registry) (hygienic : r.Hygienic) :
      ∃ d σ₂, Runs (do
        Gen.ofExcept (t.slotsValid (← Gen.refs) name)
        Gen.nested name do
          let fields ← (← Gen.storedFields t).mapM fun f => do
            let type ← Gen.withHint f.name ((emitter hooks depth).typeExpr f.shape)
            return { name := f.name, type, doc := f.doc : FieldDecl }
          return .struct name fields : Gen Decl) { σ₁ with registry := r } d σ₂ := by
    have body : Proceeds types [] (do
        let fields ← (← Gen.storedFields t).mapM fun f => do
          let type ← Gen.withHint f.name ((emitter hooks depth).typeExpr f.shape)
          return { name := f.name, type, doc := f.doc : FieldDecl }
        return .struct name fields : Gen Decl) fun _ => True := by
      refine (proceeds_storedFields (Shape.storedFields_grouped grouped)).bind ?_
      rintro _ rfl
      refine (proceeds_mapM fun f member => ?_).bind fun _ _ => proceeds_pure trivial
      have inside := (List.mem_filter.mp member).1
      exact ((proceeds_typeExpr (clean f inside) (typed f inside)).withHint f.name).bind
        fun _ _ => proceeds_pure trivial
    obtain ⟨d, σ₂, ran, _⟩ := body { σ₁ with registry := r, draft := Draft.named name }
      ⟨⟨ready₁.refs, hygienic⟩, List.cons_ne_nil _ _, nofun⟩ rfl
    refine ⟨d, _, runs_bind.mpr ⟨_, _, runs_refs.mpr ⟨rfl, rfl⟩, runs_bind.mpr ⟨(), _,
      runs_ofExcept.mpr ⟨?_, rfl⟩, runs_nested.mpr ⟨σ₂, ran, rfl⟩⟩⟩⟩
    rw [ready₁.refs]
    exact valid name
  -- One that is declared already is taken as it is, and its slots are not checked again.
  obtain ⟨name, σ₂, registered⟩ : ∃ name σ₂, Runs (registerConstant (t.canonicalName σ.refs) desired
      fun name => do
        Gen.ofExcept (t.slotsValid (← Gen.refs) name)
        Gen.nested name do
          let fields ← (← Gen.storedFields t).mapM fun f => do
            let type ← Gen.withHint f.name ((emitter hooks depth).typeExpr f.shape)
            return { name := f.name, type, doc := f.doc : FieldDecl }
          return .struct name fields) σ₁ name σ₂ := by
    cases known : σ₁.registry.constants.lookup (t.canonicalName σ.refs) with
    | some name => exact ⟨name, σ₁, runs_registerConstant.mpr (.inl ⟨known, rfl⟩)⟩
    | none =>
      obtain ⟨d, σ₂, ran⟩ := defined (σ₁.registry.freeName desired) _
        (Registry.hygienic_reserve (Registry.hygienic_addConstant ready₁.codecs _ _) _)
      exact ⟨_, _, runs_registerConstant.mpr (.inr ⟨known, rfl, d, σ₂, ran, rfl⟩)⟩
  exact ⟨name, _, runs_bind.mpr ⟨_, _, runs_canonicalName.mpr ⟨rfl, rfl⟩, runs_bind.mpr
    ⟨_, _, runs_refs.mpr ⟨rfl, rfl⟩, runs_bind.mpr ⟨_, _, asked, runs_bind.mpr ⟨_, _, registered,
      runs_bind.mpr ⟨(), _, runs_discard.mpr ⟨_, runs_registerAlias.mpr ⟨rfl, rfl⟩⟩,
        runs_pure.mpr ⟨rfl, rfl⟩⟩⟩⟩⟩⟩⟩

/-- The fields of the struct are decoded inside the group. -/
theorem succeeds_decodeGrouped (grouped : t.bitGroup? = some (backing, fields, group))
    (valid : ∀ owner, t.slotsValid types owner = .ok ())
    (clean : ∀ f ∈ fields, f.shape.Clean hooks types)
    (typed : ∀ f ∈ fields, ∀ σ, σ.Ready types →
      ∃ x τ, Runs ((emitter hooks (depth + 1)).typeExpr f.shape) σ x τ)
    (decoded : ∀ f ∈ fields, ∀ raw groups, Proceeds types (⟨group, some (.var raw)⟩ :: groups)
      ((emitter hooks depth).decodeExpr f.shape) fun _ => True)
    (ready : σ.Ready types) : ∃ e τ, Runs ((emitter hooks (depth + 2)).decodeExpr t) σ e τ := by
  obtain ⟨type, σ₁, named⟩ := succeeds_structName grouped valid clean typed ready
  have ready₁ := ready.structName grouped clean named
  have raw : Proceeds types σ₁.draft.groups
      (declare (σ₁.draft.hints.headD "packed" ++ "_bits") (return .read backing)) fun _ => True :=
    (proceeds_pure (Q := fun _ => True) trivial).declare fun _ =>
      builds_pure ⟨rfl, Expr.scoped_read⟩
  obtain ⟨x, σ₂, declared, ready₂, same, _⟩ := raw σ₁ ready₁ rfl
  -- The binding of the integer is known from here on; the group refers to it.
  obtain ⟨_, _, _, _, _, _, _, _, next⟩ :=
    emits_declare declared ready₁ fun _ => builds_pure ⟨rfl, Expr.scoped_read⟩
  have bound : Proceeds types (⟨group, some (.var x)⟩ :: σ₁.draft.groups)
      (decodeFields (emitter hooks depth) fields) fun _ => True := by
    refine (proceeds_mapM fun f member => ?_).bind fun _ _ => proceeds_pure trivial
    refine Proceeds.bind (Q := fun _ => True) ?_ fun _ _ => proceeds_pure trivial
    exact ((decoded f member x _).declare ((clean f member).decodeExpr depth)).withHint f.name
  obtain ⟨xs, τ, within, _⟩ := bound.withGroup ready₂ same (by
    rintro _ ⟨⟩ y used
    rw [List.mem_singleton.mp used, next]
    exact Nat.lt_succ_self _)
  have group : Runs (decodeGroup (emitter hooks depth) backing group fields) σ₁ xs τ :=
    runs_bind.mpr ⟨_, _, runs_lastHint.mpr ⟨rfl, rfl⟩, runs_bind.mpr ⟨x, σ₂, declared, within⟩⟩
  refine ⟨structOf type xs, τ, ?_⟩
  cases t with
  | packed _ _ _ _ | flags _ _ _ _ =>
    cases grouped
    exact runs_bind.mpr ⟨type, σ₁, named, runs_bind.mpr ⟨xs, τ, group, runs_pure.mpr ⟨rfl, rfl⟩⟩⟩
  | _ => cases grouped

/-- The struct can be generated, if its fields can be decoded inside the group and written. -/
theorem Setting.generates_grouped {s : Setting}
    (grouped : t.bitGroup? = some (backing, fields, group))
    (valid : ∀ owner, t.slotsValid s.types owner = .ok ())
    (clean : ∀ f ∈ fields, f.shape.Clean s.hooks s.types) (whole : t.Clean s.hooks s.types)
    (typed : ∀ f ∈ fields, ∀ σ : Session, σ.Ready s.types →
      ∃ x τ, Runs ((emitter s.hooks (depth + 1)).typeExpr f.shape) σ x τ)
    (decoded : ∀ f ∈ fields, ∀ raw groups, Proceeds s.types (⟨group, some (.var raw)⟩ :: groups)
      ((emitter s.hooks depth).decodeExpr f.shape) fun _ => True)
    (encoded : ∀ (σ : Session) src, σ.Ready s.types → (∀ x ∈ src.locals, x < σ.draft.nextLocal) →
      ∃ τ, Runs (encodeFields (emitter s.hooks depth) t src) σ () τ) :
    s.Generates (depth + 2) t := by
  refine generates_of_clean whole (fun σ ready => ?_)
    (fun σ ready => succeeds_decodeGrouped grouped valid clean typed decoded ready)
    fun σ src ready known => ?_
  · obtain ⟨type, τ, named⟩ := succeeds_structName grouped valid clean typed ready
    refine ⟨.named type, τ, ?_⟩
    cases t with
    | packed _ _ _ _ | flags _ _ _ _ =>
      exact runs_bind.mpr ⟨type, τ, named, runs_pure.mpr ⟨rfl, rfl⟩⟩
    | _ => cases grouped
  · obtain ⟨type, σ₁, named⟩ := succeeds_structName grouped valid clean typed ready
    have quiet : σ₁.draft = σ.draft := quiet_structName _ _ _ _ _ named
    obtain ⟨τ, ran⟩ := encoded σ₁ src (ready.structName grouped clean named) (quiet ▸ known)
    refine ⟨τ, ?_⟩
    cases t with
    | packed _ _ _ _ | flags _ _ _ _ =>
      exact runs_bind.mpr ⟨(), σ₁, runs_discard.mpr ⟨type, named⟩, ran⟩
    | _ => cases grouped

theorem proceeds_decodeSlot {index : Nat} {kind : SlotKind} {raw : Local}
    {groups : List ActiveGroup} {e : Expr} (made : slotExpr (.var raw) kind = .ok e) :
    Proceeds types (⟨group, some (.var raw)⟩ :: groups)
      ((emitter hooks (depth + 1)).decodeExpr (.slot group index kind)) fun _ => True := by
  refine (proceeds_activeGroup? group).bind ?_
  rintro _ rfl
  simp only [List.find?_cons, beq_self_eq_true]
  exact (proceeds_ofExcept made).weaken fun _ _ => trivial

/-- A slot has the type of its values. -/
theorem succeeds_slotType (index : Nat) (kind : SlotKind) (σ : Session) :
    ∃ x τ, Runs ((emitter hooks (depth + 1)).typeExpr (.slot group index kind)) σ x τ := by
  cases kind <;> exact ⟨_, σ, runs_pure.mpr ⟨rfl, rfl⟩⟩

/-- Each slot is used once. -/
theorem Shape.checkUses_of_once {owner : String} {used : List Nat} {left index : Nat}
    (once : ∀ i, index ≤ i → i < index + left → used.count i = 1) :
    checkUses owner used left index = .ok () := by
  induction left generalizing index with
  | zero => rfl
  | succ left ih =>
    rw [checkUses, once index (Nat.le_refl _) (by omega)]
    exact ih fun i above below => once i (by omega) (by omega)

end Progress

end WireSchema
