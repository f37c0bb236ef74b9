import WireSchema.Proofs.Lowering.Hygiene
import WireSchema.Proofs.Session.Ownership
import WireSchema.Proofs.Wire.Integers

/-!
# Values carried by generated code

A shape carries a value if every encoder that generation makes of it writes the same bytes for the
value, and every decoder reads the value from these bytes and leaves alone what follows. Fields that
are carried can be put one after another. Slots of a bit group take their values from an integer
that was read before; under that integer they are carried by no bytes at all.
-/

namespace WireSchema

open Ir Gen Lowering

/-! ### Fields of a value -/

namespace Value

theorem getField?_cons (name other : String) (v : Value) (fields : List (String × Value)) :
    getField? name ((other, v) :: fields) = if other = name then some v else getField? name fields := by
  rw [getField?, List.findSome?_cons]
  by_cases same : other = name
  · simp only [if_pos same]
  · simp only [if_neg same]
    rfl

theorem getField?_setField (name other : String) (v : Value) (fields : List (String × Value)) :
    getField? name (setField other v fields) =
      if other = name then some v else getField? name fields := by
  induction fields with
  | nil => exact getField?_cons name other v []
  | cons entry rest ih =>
    obtain ⟨n, w⟩ := entry
    rw [setField]
    split
    · exact getField?_cons name other v _
    split
    case isTrue same =>
      subst same
      rw [getField?_cons, getField?_cons]
      split <;> rfl
    -- Another entry may still be the one that is looked for.
    case isFalse differ =>
      rw [getField?_cons, getField?_cons, ih]
      by_cases here : n = name
      · rw [if_pos here, if_neg (fun same => differ (same.trans here.symm)), if_pos here]
      · rw [if_neg here, if_neg here]

theorem getField?_of_not_mem {name : String} {entries : List (String × Value)}
    (absent : name ∉ entries.map (·.1)) : getField? name entries = none := by
  rw [getField?, List.findSome?_eq_none_iff]
  intro entry member
  refine if_neg ?_
  rintro rfl
  exact absent (List.mem_map_of_mem member)

theorem getField?_of_mem {entries : List (String × Value)} (distinct : (entries.map (·.1)).Nodup)
    {name : String} {v : Value} (member : (name, v) ∈ entries) :
    getField? name entries = some v := by
  induction entries with
  | nil => cases member
  | cons entry rest ih =>
    obtain ⟨fresh, others⟩ := List.nodup_cons.mp distinct
    rw [getField?_cons]
    rcases List.mem_cons.mp member with rfl | later
    · exact if_pos rfl
    · rw [if_neg, ih others later]
      intro same
      exact fresh (List.mem_map.mpr ⟨_, later, same.symm⟩)

/-- A struct with distinct names has the fields it was made of. -/
theorem getField?_foldl {entries : List (String × Value)} (distinct : (entries.map (·.1)).Nodup)
    (name : String) (start : List (String × Value)) :
    getField? name (entries.foldl (fun acc (n, v) => setField n v acc) start) =
      (getField? name entries).or (getField? name start) := by
  induction entries generalizing start with
  | nil => rfl
  | cons entry rest ih =>
    obtain ⟨n, v⟩ := entry
    obtain ⟨fresh, others⟩ := List.nodup_cons.mp distinct
    rw [List.foldl_cons, ih others, getField?_setField, getField?_cons]
    by_cases same : n = name
    · subst same
      rw [if_pos rfl, if_pos rfl, getField?_of_not_mem fresh]
      rfl
    · rw [if_neg same, if_neg same]

/-- The struct of some fields, whose names are distinct. -/
theorem ofFields_map {fields : List Field} (distinct : (fields.map (·.name)).Nodup)
    (value : Field → Value) :
    ∃ entries, ofFields (fields.map fun f => (f.name, value f)) = .struct entries ∧
      (∀ f ∈ fields, getField? f.name entries = some (value f)) ∧
      ∀ name ∉ fields.map (·.name), getField? name entries = none := by
  have names : (fields.map fun f => (f.name, value f)).map (·.1) = fields.map (·.name) := by
    rw [List.map_map]
    rfl
  have found (name : String) := getField?_foldl (names.symm ▸ distinct) name []
  refine ⟨_, rfl, fun f member => ?_, fun name absent => ?_⟩
  · have here : (f.name, value f) ∈ fields.map fun f => (f.name, value f) :=
      List.mem_map.mpr ⟨f, member, rfl⟩
    rw [found, getField?_of_mem (names.symm ▸ distinct) here]
    rfl
  · rw [found, getField?_of_not_mem (names.symm ▸ absent)]
    rfl

end Value

/-! ### Clean shapes -/

/-- At every depth the shape is generated hygienically. -/
structure Shape.Clean (hooks : Hooks) (types : Refs) (t : Shape) : Prop where
  typeExpr : ∀ depth, Keeps types ((emitter hooks depth).typeExpr t) fun _ => True
  decodeExpr : ∀ depth visible, Builds types visible [] ((emitter hooks depth).decodeExpr t) Yields
  encode : ∀ depth src visible, src.Scoped Binder.Among visible →
    Builds types visible [] ((emitter hooks depth).encode t src) Done

namespace Shape

variable {hooks : Hooks} {types : Refs}

theorem HookFree.clean {t : Shape} (free : t.HookFree types) : t.Clean hooks types where
  typeExpr depth := (hygienic_emitter hooks types depth).typeExpr t free
  decodeExpr depth visible := (hygienic_emitter hooks types depth).decodeExpr t visible free
  encode depth src visible := (hygienic_emitter hooks types depth).encode t src visible free

theorem hookFree_slot (group index : Nat) (kind : SlotKind) : (slot group index kind).HookFree types :=
  hookFree_of_parts nofun nofun

theorem Clean.optional {value presence : Shape} (first : value.Clean hooks types)
    (second : presence.Clean hooks types) : (optional value presence).Clean hooks types := by
  constructor
  case typeExpr =>
    intro depth
    cases depth with
    | zero => exact keeps_throw
    | succ depth =>
      exact keeps_aliasedOr ((first.typeExpr depth).bind fun _ _ => keeps_pure trivial)
  case decodeExpr =>
    intro depth visible
    cases depth with
    | zero => exact builds_throw
    | succ depth => exact builds_decodeOptional (second.decodeExpr depth) (first.decodeExpr depth)
  case encode =>
    intro depth src visible seen
    cases depth with
    | zero => exact builds_throw
    | succ depth =>
      exact builds_encodeOptional (second.encode depth) (first.encode depth) seen

end Shape

/-- The struct of the group is being decoded, and its integer is bound to `x`. -/
def Draft.Inside (d : Draft) (group : Nat) (x : Local) : Prop :=
  d.activeGroup? group = some ⟨group, some (.var x)⟩ ∧ x.id < d.nextLocal

theorem Draft.Inside.grow {d d' : Draft} {group : Nat} {x : Local} {added : List Stmt}
    {given : List Local} (inside : d.Inside group x) (grows : d.Grows d' added given) :
    d'.Inside group x := by
  refine ⟨?_, Nat.lt_of_lt_of_le inside.2 grows.mono⟩
  rw [Draft.activeGroup?, grows.groups]
  exact inside.1

/-! ### Settings -/

/-- Generated code and the programs that run it. What is generated in a session that leads to the
programs is run by them; so it leads there if the session after another generation does. -/
structure Setting where
  hooks : Hooks
  types : Refs
  reader : Program
  writer : Program
  leads : Session → Prop
  order : writer.order = reader.order
  readerIsolated : reader.Isolated
  writerIsolated : writer.Isolated
  redraft : ∀ {σ : Session} {d : Draft}, leads { σ with draft := d } → leads σ
  decoded : ∀ {depth : Nat} {t : Shape} {σ τ : Session} {e : Expr},
    Runs ((emitter hooks depth).decodeExpr t) σ e τ → leads τ → leads σ
  encoded : ∀ {depth : Nat} {t : Shape} {src : Expr} {σ τ : Session} {u : Unit},
    Runs ((emitter hooks depth).encode t src) σ u τ → leads τ → leads σ

namespace Setting

/-- Code without hooks and references, run by programs that have no functions to call. -/
def plain (order : Wire.ByteOrder) : Setting where
  hooks := .none
  types := []
  reader := Generated.programAt ⟨[], [], []⟩ order 0 1 0
  writer := Generated.programAt ⟨[], [], []⟩ order 0 1 0
  leads _ := True
  order := rfl
  readerIsolated := Calls.isolated_nested _ order 0 1 0
  writerIsolated := Calls.isolated_nested _ order 0 1 0
  redraft _ := trivial
  decoded _ _ := trivial
  encoded _ _ := trivial

variable {s : Setting} {t : Shape} {σ τ : Session} {bytes : List UInt8} {v w : Value}

/-- The body was generated to decode values of the shape. -/
structure Decoder (s : Setting) (t : Shape) (σ : Session) (b : Block) : Prop where
  ready : σ.Ready s.types
  made : ∃ depth τ, Runs ((emitter s.hooks depth).decodeExpr t) σ b.result τ ∧
    σ.Emits s.types τ b.stmts ∧ s.leads τ

/-- The statements were generated to write the value of `src` as the shape. -/
structure Encoder (s : Setting) (t : Shape) (src : Expr) (σ : Session) (stmts : List Stmt) :
    Prop where
  ready : σ.Ready s.types
  known : ∀ x ∈ src.locals, x < σ.draft.nextLocal
  made : ∃ depth τ, Runs ((emitter s.hooks depth).encode t src) σ () τ ∧
    σ.Emits s.types τ stmts ∧ s.leads τ

/-- At the depth the shape can be generated, wherever a function stands. -/
structure Generates (s : Setting) (depth : Nat) (t : Shape) : Prop where
  typeExpr : ∀ σ : Session, σ.Ready s.types → ∃ x τ, Runs ((emitter s.hooks depth).typeExpr t) σ x τ
  decodeExpr : ∀ σ : Session, σ.Ready s.types →
    ∃ e τ stmts, Runs ((emitter s.hooks depth).decodeExpr t) σ e τ ∧ σ.Emits s.types τ stmts
  encode : ∀ (σ : Session) src, σ.Ready s.types → (∀ x ∈ src.locals, x < σ.draft.nextLocal) →
    ∃ τ stmts, Runs ((emitter s.hooks depth).encode t src) σ () τ ∧ σ.Emits s.types τ stmts

/-- Every encoder writes the bytes for the value. -/
def Writes (s : Setting) (t : Shape) (v : Value) (bytes : List UInt8) : Prop :=
  ∀ src σ stmts, s.Encoder t src σ stmts → Stmt.Writes s.writer σ.draft.nextLocal src v stmts bytes

/-- Every decoder reads the value from the bytes. -/
def Reads (s : Setting) (t : Shape) (bytes : List UInt8) (w : Value) : Prop :=
  ∀ σ b, s.Decoder t σ b → b.Reads s.reader bytes w

/-- The value is written as the bytes, from which `w` is read. -/
structure Carries (s : Setting) (t : Shape) (v : Value) (bytes : List UInt8) (w : Value) : Prop where
  writes : s.Writes t v bytes
  reads : s.Reads t bytes w

/-- The shape can be generated from some depth on. -/
structure Served (s : Setting) (t : Shape) : Prop where
  clean : t.Clean s.hooks s.types
  generates : ∃ least, ∀ depth ≥ least, s.Generates depth t

/-- The values of the shape come back from what is written for them, whatever follows. -/
structure RoundTrips (s : Setting) (t : Shape) (typed : Value → Prop) : Prop
    extends s.Served t where
  carries : ∀ v, typed v → ∃ bytes, s.Carries t v bytes v

/-- Decoders that are made inside a bit group read the value from the bytes, if the integer of the
group is `r`. -/
def ReadsUnder (s : Setting) (group : Nat) (r : Value) (t : Shape) (bytes : List UInt8)
    (w : Value) : Prop :=
  ∀ σ b x, s.Decoder t σ b → σ.draft.Inside group x →
    b.ReadsWhere s.reader (fun env => env.get? x.id = some r) bytes w

/-- Hygienic code that can be generated is emitted. -/
theorem generates_of_clean {depth : Nat} (clean : t.Clean s.hooks s.types)
    (typed : ∀ σ : Session, σ.Ready s.types → ∃ x τ, Runs ((emitter s.hooks depth).typeExpr t) σ x τ)
    (decoded : ∀ σ : Session, σ.Ready s.types →
      ∃ e τ, Runs ((emitter s.hooks depth).decodeExpr t) σ e τ)
    (encoded : ∀ (σ : Session) src, σ.Ready s.types → (∀ x ∈ src.locals, x < σ.draft.nextLocal) →
      ∃ τ, Runs ((emitter s.hooks depth).encode t src) σ () τ) : s.Generates depth t := by
  refine ⟨typed, fun σ ready => ?_, fun σ src ready known => ?_⟩
  · obtain ⟨e, τ, ran⟩ := decoded σ ready
    obtain ⟨stmts, emits⟩ := emits_of_yields ran ready (clean.decodeExpr depth)
    exact ⟨e, τ, stmts, ran, emits⟩
  · obtain ⟨τ, ran⟩ := encoded σ src ready known
    obtain ⟨stmts, emits⟩ := emits_of_builds ran ready (List.forall_mem_singleton.mpr known)
      fun visible seen => clean.encode depth src visible (seen src List.mem_cons_self)
    exact ⟨τ, stmts, ran, emits⟩

theorem Reads.under (reads : s.Reads t bytes w) (group : Nat) (r : Value) :
    s.ReadsUnder group r t bytes w := fun σ b _ decoder _ => (reads σ b decoder).everywhere

theorem Reads.elide (reads : s.Reads t bytes w) {b : Block} (decoder : s.Decoder t σ b) :
    b.elide.Reads s.reader bytes w := by
  obtain ⟨_, _, _, emits, _⟩ := decoder.made
  exact (reads σ b decoder).elide s.readerIsolated emits.owns.tidy

/-- Every decoder reads the value from the bytes, and so does the elided body. -/
def Decodes (s : Setting) (t : Shape) (bytes : List UInt8) (w : Value) : Prop :=
  ∀ σ b, s.Decoder t σ b → b.Reads s.reader bytes w ∧ b.elide.Reads s.reader bytes w

theorem Reads.decodes (reads : s.Reads t bytes w) : s.Decodes t bytes w :=
  fun σ b decoder => ⟨reads σ b decoder, reads.elide decoder⟩

/-! ### Fields in order -/

/-- A value is decoded and bound. -/
theorem reads_declared {depth : Nat} {hint requested : String} {pre : Env → Prop} {y : Local}
    (clean : t.Clean s.hooks s.types) (ready : σ.Ready s.types) (leads : s.leads τ)
    (reads : ∀ b, s.Decoder t (mapDraft Draft.pushScope
      { σ with draft.hints := hint :: σ.draft.hints }) b → b.ReadsWhere s.reader pre bytes w)
    (ran : Runs (Gen.withHint hint (declare requested ((emitter s.hooks depth).decodeExpr t)))
      σ y τ) :
    s.leads σ ∧ y.id < τ.draft.nextLocal ∧ ∃ stmts, σ.Emits s.types τ stmts ∧
      Stmt.Reads s.reader pre stmts bytes fun env => env.get? y.id = some w := by
  obtain ⟨τ', declared, rfl⟩ := runs_withHint.mp ran
  obtain ⟨e, σ₁, stmts, inner, emits₁, ⟨d, rfl⟩, emits, _, next⟩ :=
    emits_declare declared (ready.withHints _) (clean.decodeExpr depth)
  have leads₁ : s.leads σ₁ := s.redraft leads
  refine ⟨s.redraft (s.decoded inner leads₁), ?_, stmts ++ [.bind y false (some e)], ?_, ?_⟩
  · exact Nat.lt_of_lt_of_eq (Nat.lt_succ_self _) next.symm
  · obtain ⟨_, grows⟩ := emits.grows
    exact emits.redraft ⟨rfl, rfl, rfl⟩ ⟨rfl, rfl, rfl⟩ (emits.ready.withHints _) grows.groups
  · apply Block.ReadsWhere.declare (b := ⟨stmts, e⟩)
    exact reads ⟨stmts, e⟩ ⟨(ready.withHints _).pushScope, depth, σ₁, inner, emits₁, leads₁⟩

/-- A field is decoded and bound. -/
theorem reads_bindField {depth : Nat} {f : Field} {group : Nat} {r : Value} {x : Local}
    {y : Field × Local} (clean : f.shape.Clean s.hooks s.types)
    (reads : s.ReadsUnder group r f.shape bytes w) (ready : σ.Ready s.types)
    (inside : σ.draft.Inside group x) (leads : s.leads τ)
    (ran : Runs (bindField (emitter s.hooks depth) f) σ y τ) :
    s.leads σ ∧ y.1 = f ∧ y.2.id < τ.draft.nextLocal ∧ ∃ stmts, σ.Emits s.types τ stmts ∧
      Stmt.Reads s.reader (fun env => env.get? x.id = some r) stmts bytes
        fun env => env.get? y.2.id = some w := by
  obtain ⟨z, σ₁, declared, ran⟩ := runs_bind.mp ran
  obtain ⟨rfl, rfl⟩ := runs_pure.mp ran
  obtain ⟨leads, below, stmts, emits, read⟩ :=
    reads_declared clean ready leads (fun b decoder => reads _ b x decoder inside) declared
  exact ⟨leads, rfl, below, stmts, emits, read⟩

theorem emits_bindField {depth : Nat} {f : Field} {y : Field × Local}
    (clean : f.shape.Clean s.hooks s.types) (ready : σ.Ready s.types)
    (ran : Runs (bindField (emitter s.hooks depth) f) σ y τ) : ∃ stmts, σ.Emits s.types τ stmts := by
  have none : ∀ e ∈ ([] : List Expr), ∀ x ∈ e.locals, x < σ.draft.nextLocal := nofun
  refine emits_of_builds ran ready none fun visible _ => ?_
  refine (clean.decodeExpr depth visible).declare.withHint.bind ?_
  rintro z _ _ _ ⟨rfl, _⟩
  exact builds_pure rfl

theorem emits_bindFields {depth : Nat} {fields : List Field} {ys : List (Field × Local)}
    (clean : ∀ f ∈ fields, f.shape.Clean s.hooks s.types) (ready : σ.Ready s.types)
    (ran : Runs (fields.mapM (bindField (emitter s.hooks depth))) σ ys τ) :
    ∃ stmts, σ.Emits s.types τ stmts := by
  have none : ∀ e ∈ ([] : List Expr), ∀ x ∈ e.locals, x < σ.draft.nextLocal := nofun
  refine emits_of_builds ran ready none fun visible _ => ?_
  exact (builds_bindFields fun f member => (clean f member).decodeExpr depth).weaken
    fun _ _ _ _ => And.left

/-- Fields are decoded one after another; each binding keeps what was read for its field. -/
theorem reads_bindFields {depth : Nat} {fields : List Field} {group : Nat} {r : Value} {x : Local}
    {taken : Field → List UInt8} {got : Field → Value} {ys : List (Field × Local)}
    (clean : ∀ f ∈ fields, f.shape.Clean s.hooks s.types)
    (reads : ∀ f ∈ fields, s.ReadsUnder group r f.shape (taken f) (got f))
    (ready : σ.Ready s.types) (inside : σ.draft.Inside group x) (leads : s.leads τ)
    (ran : Runs (fields.mapM (bindField (emitter s.hooks depth))) σ ys τ) :
    s.leads σ ∧ ys.map (·.1) = fields ∧ ∃ stmts, σ.Emits s.types τ stmts ∧
      Stmt.Reads s.reader (fun env => env.get? x.id = some r) stmts (fields.flatMap taken)
        fun env => ∀ y ∈ ys, env.get? y.2.id = some (got y.1) := by
  obtain ⟨all, emits⟩ := emits_bindFields clean ready ran
  induction fields generalizing σ ys all with
  | nil =>
    rw [List.mapM_nil] at ran
    obtain ⟨rfl, rfl⟩ := runs_pure.mp ran
    obtain ⟨_, grows⟩ := emits.grows
    cases grows.unique (.refl _) ready.opened
    exact ⟨leads, rfl, [], emits, Stmt.reads_nil.weaken (fun _ => id) fun _ _ => nofun⟩
  | cons f rest ih =>
    rw [List.mapM_cons] at ran
    obtain ⟨y, σ₁, here, ran⟩ := runs_bind.mp ran
    obtain ⟨ys, σ₂, later, ran⟩ := runs_bind.mp ran
    obtain ⟨rfl, rfl⟩ := runs_pure.mp ran
    obtain ⟨cleanHere, cleanLater⟩ := List.forall_mem_cons.mp clean
    obtain ⟨readsHere, readsLater⟩ := List.forall_mem_cons.mp reads
    -- The session after the field comes first: the other fields tell whether it leads on.
    obtain ⟨_, emits₁⟩ := emits_bindField cleanHere ready here
    obtain ⟨_, grows₁⟩ := emits₁.grows
    obtain ⟨others, emits₂⟩ := emits_bindFields cleanLater emits₁.ready later
    obtain ⟨leads₁, names, back, emitsBack, second⟩ :=
      ih cleanLater readsLater emits₁.ready (inside.grow grows₁) later others emits₂
    obtain ⟨leads, named, known, front, emitsFront, first⟩ :=
      reads_bindField cleanHere readsHere ready inside leads₁ here
    obtain ⟨_, growsFront⟩ := emitsFront.grows
    obtain ⟨_, growsBack⟩ := emitsBack.grows
    obtain ⟨_, grows⟩ := emits.grows
    cases grows.unique (growsFront.trans growsBack) ready.opened
    refine ⟨leads, by rw [List.map_cons, named, names], _, emits, ?_⟩
    rw [List.flatMap_cons]
    -- Later fields bind later locals, so neither the integer nor what is bound already is lost.
    have kept (env env' : Env) (agrees : env.Agrees σ.draft.nextLocal env')
        (old : env.get? x.id = some r) : env'.get? x.id = some r :=
      (agrees _ inside.2).trans old
    have kept' (env env' : Env) (agrees : env.Agrees σ₁.draft.nextLocal env')
        (old : env.get? y.2.id = some (got f)) : env'.get? y.2.id = some (got f) :=
      (agrees _ known).trans old
    have head := first.frame s.readerIsolated emitsFront.owns kept
    have tail := second.frame s.readerIsolated emitsBack.owns kept'
    refine (head.weaken (fun _ holds => ⟨holds, holds⟩) fun _ => And.symm).append
      (tail.weaken (fun _ => id) ?_)
    rintro env ⟨others, this⟩
    refine List.forall_mem_cons.mpr ⟨?_, others⟩
    rw [named]
    exact this

/-- A value is written under a hint. -/
theorem writes_hinted {depth : Nat} {hint : String} {src : Expr} {u : Unit}
    (clean : t.Clean s.hooks s.types) (writes : s.Writes t v bytes) (ready : σ.Ready s.types)
    (known : ∀ x ∈ src.locals, x < σ.draft.nextLocal) (leads : s.leads τ)
    (ran : Runs (Gen.withHint hint ((emitter s.hooks depth).encode t src)) σ u τ) :
    s.leads σ ∧ ∃ stmts, σ.Emits s.types τ stmts ∧
      Stmt.Writes s.writer σ.draft.nextLocal src v stmts bytes := by
  obtain ⟨τ', inner, rfl⟩ := runs_withHint.mp ran
  obtain ⟨stmts, emits⟩ := emits_of_builds inner (ready.withHints _)
    (List.forall_mem_singleton.mpr known)
    fun visible seen => clean.encode depth _ visible (seen _ List.mem_cons_self)
  have leads' : s.leads τ' := s.redraft leads
  have encoder : s.Encoder t src _ stmts :=
    ⟨ready.withHints (hint :: σ.draft.hints), known, depth, τ', inner, emits, leads'⟩
  have written := writes _ _ _ encoder
  refine ⟨s.redraft (s.encoded inner leads'), stmts, ?_, written⟩
  obtain ⟨_, grows⟩ := emits.grows
  exact emits.redraft ⟨rfl, rfl, rfl⟩ ⟨rfl, rfl, rfl⟩ (emits.ready.withHints _) grows.groups

theorem emits_inOrder {depth : Nat} {fields : List Field} {src : Expr} {u : Unit}
    (clean : ∀ f ∈ fields, f.shape.Clean s.hooks s.types) (ready : σ.Ready s.types)
    (known : ∀ x ∈ src.locals, x < σ.draft.nextLocal)
    (ran : Runs (encodeInOrder (emitter s.hooks depth) src fields) σ u τ) :
    ∃ stmts, σ.Emits s.types τ stmts :=
  emits_of_builds ran ready (List.forall_mem_singleton.mpr known) fun _ seen =>
    builds_encodeInOrder (fun f member => (clean f member).encode depth)
      (seen src List.mem_cons_self)

/-- Fields are written one after another. -/
theorem writes_inOrder {depth : Nat} {fields : List Field} {src : Expr}
    {sent : Field → Value} {written : Field → List UInt8} {u : Unit}
    (clean : ∀ f ∈ fields, f.shape.Clean s.hooks s.types)
    (writes : ∀ f ∈ fields, s.Writes f.shape (sent f) (written f))
    (ready : σ.Ready s.types) (known : ∀ x ∈ src.locals, x < σ.draft.nextLocal) (leads : s.leads τ)
    (ran : Runs (encodeInOrder (emitter s.hooks depth) src fields) σ u τ)
    {values : List (String × Value)}
    (same : ∀ f ∈ fields, (Value.getField? f.name values).getD .null = sent f) :
    s.leads σ ∧ ∃ stmts, σ.Emits s.types τ stmts ∧
      Stmt.Writes s.writer σ.draft.nextLocal src (.struct values) stmts
        (fields.flatMap written) := by
  obtain ⟨all, emits⟩ := emits_inOrder clean ready known ran
  induction fields generalizing σ all with
  | nil =>
    obtain ⟨_, rfl⟩ := runs_pure.mp ran
    obtain ⟨_, grows⟩ := emits.grows
    cases grows.unique (.refl _) ready.opened
    exact ⟨leads, [], emits, fun m _ _ stream => ⟨m, rfl, stream⟩⟩
  | cons f rest ih =>
    obtain ⟨_, σ₁, here, later⟩ := runs_bind.mp ran
    obtain ⟨cleanHere, cleanLater⟩ := List.forall_mem_cons.mp clean
    obtain ⟨writesHere, writesLater⟩ := List.forall_mem_cons.mp writes
    obtain ⟨sameHere, sameLater⟩ := List.forall_mem_cons.mp same
    -- As with decoding, the others tell first whether the session between leads on.
    have single : ∀ g ∈ [f], g.shape.Clean s.hooks s.types := List.forall_mem_singleton.mpr cleanHere
    obtain ⟨_, emits₁⟩ := emits_inOrder single ready known (runs_bind.mpr ⟨_, _, here, runs_pure.mpr
      ⟨rfl, rfl⟩⟩)
    have known₁ : ∀ x ∈ src.locals, x < σ₁.draft.nextLocal :=
      fun x used => Nat.lt_of_lt_of_le (known x used) emits₁.owns.le
    obtain ⟨others, emits₂⟩ := emits_inOrder cleanLater emits₁.ready known₁ later
    obtain ⟨leads₁, back, emitsBack, second⟩ :=
      ih cleanLater writesLater emits₁.ready known₁ later sameLater others emits₂
    have knownHere : ∀ x ∈ (Expr.field src f.name).locals, x < σ.draft.nextLocal := known
    obtain ⟨leads, front, emitsFront, first⟩ :=
      writes_hinted cleanHere writesHere ready knownHere leads₁ here
    obtain ⟨_, growsFront⟩ := emitsFront.grows
    obtain ⟨_, growsBack⟩ := emitsBack.grows
    obtain ⟨_, grows⟩ := emits.grows
    cases grows.unique (growsFront.trans growsBack) ready.opened
    refine ⟨leads, _, emits, fun m latest denotes stream => ?_⟩
    -- What is written for the field leaves the struct alone, so the others are found in it.
    have field := denotes.field f.name
    rw [sameHere] at field
    obtain ⟨m₁, ran₁, stream₁⟩ := first m latest field stream
    have agrees := Run.agrees_execBlock s.writerIsolated emitsFront.owns ran₁
    obtain ⟨m₂, ran₂, stream₂⟩ :=
      second m₁ _ (denotes.mono agrees emitsFront.owns.le) stream₁
    refine ⟨m₂, ?_, ?_⟩
    · rw [Run.execBlock_append, ran₁]
      exact ran₂
    · rw [stream₂, List.flatMap_cons, List.reverse_append, List.append_assoc]

end Setting

end WireSchema
