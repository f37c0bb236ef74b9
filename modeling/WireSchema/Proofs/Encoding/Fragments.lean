import WireSchema.Proofs.Decoding.Arms
import WireSchema.Proofs.Layout.Writing

/-!
# Fragments of encoders

The code that writes a shape is a fragment of a body: it binds only locals of its own and sets none,
and where an expression yields a value of the shape it writes the bytes of the value. Fragments are
put together from smaller ones.
-/

namespace WireSchema

open Ir Wire Lowering

/-- Where `pre` holds of the bindings, the statements write the bytes. -/
def Ir.Stmt.Sends (p : Program) (pre : Env → Prop) (stmts : List Stmt) (bytes : List UInt8) : Prop :=
  ∀ m latest, pre m.env → m.stream = .output latest →
    ∃ m', Run.execBlock p stmts m = .ok ((), m') ∧ m'.stream = .output (bytes.reverse ++ latest)

namespace Encoding

open Decoding (Programs)

variable {p : Program} {low mid high : Nat} {front back stmts : List Stmt} {bytes : List UInt8}

/-! ### Confined fragments -/

/-- Statements that bind only locals from `low` to `high`, and set none. -/
structure Confined (low high : Nat) (stmts : List Stmt) : Prop where
  le : low ≤ high
  bound : ∀ x ∈ Stmt.bound stmts, low ≤ x ∧ x < high
  assigned : Stmt.assigned stmts = []

theorem confined_nil (n : Nat) : Confined n n [] where
  le := Nat.le_refl n
  bound _ member := nomatch member
  assigned := rfl

theorem confined_single {s : Stmt} (le : low ≤ high) (binds : ∀ x ∈ s.binds, low ≤ x ∧ x < high)
    (sets : s.sets = []) : Confined low high [s] where
  le := le
  bound x member := by
    rw [Stmt.bound_cons, Stmt.bound_nil, List.append_nil] at member
    exact binds x member
  assigned := by
    rw [Stmt.assigned_cons, sets]
    rfl

theorem Confined.append (first : Confined low mid front) (second : Confined mid high back) :
    Confined low high (front ++ back) where
  le := Nat.le_trans first.le second.le
  bound x member := by
    have le := first.le
    have le' := second.le
    rw [Stmt.bound_append, List.mem_append] at member
    rcases member with early | later
    · have := first.bound x early
      omega
    · have := second.bound x later
      omega
  assigned := by
    rw [Stmt.assigned_append, first.assigned, second.assigned]
    rfl

/-- A fragment leaves the bindings before its own alone. -/
theorem Confined.agrees (confined : Confined low high stmts) (isolated : p.Isolated)
    {m m' : Machine} (ran : Run.execBlock p stmts m = .ok ((), m')) : m.env.Agrees low m'.env := by
  intro x below
  have ran' : Probe.execBlock p stmts m = .ok ((), m') :=
    Probe.ok_of_unmarked (by rwa [Probe.unmarked_execBlock])
  have unbound : x ∉ Stmt.bound stmts := by
    intro member
    have := confined.bound x member
    omega
  have unset : x ∉ Stmt.assigned stmts := by
    rw [confined.assigned]
    exact List.not_mem_nil
  rw [Env.get?, Env.get?, Probe.cell?_execBlock isolated unbound unset ran']

/-! ### What fragments write -/

theorem sends_nil {pre : Env → Prop} : Stmt.Sends p pre [] [] := fun m _ _ stream => ⟨m, rfl, stream⟩

/-- Statements follow others that leave alone what they depend on. -/
theorem sends_append {pre pre' : Env → Prop} {bytes' : List UInt8} (isolated : p.Isolated)
    (confined : Confined low mid front) (first : Stmt.Sends p pre front bytes)
    (second : Stmt.Sends p pre' back bytes')
    (kept : ∀ env env', pre env → env.Agrees low env' → pre' env') :
    Stmt.Sends p pre (front ++ back) (bytes ++ bytes') := by
  intro m latest holds stream
  obtain ⟨m₁, ran₁, stream₁⟩ := first m latest holds stream
  have after := kept _ _ holds (confined.agrees isolated ran₁)
  obtain ⟨m₂, ran₂, stream₂⟩ := second m₁ _ after stream₁
  refine ⟨m₂, ?_, ?_⟩
  · rw [Run.execBlock_append, ran₁]
    exact ran₂
  · rw [stream₂, List.reverse_append, List.append_assoc]

theorem sends_write {pre : Env → Prop} {prim : Primitive} {e : Expr} {v : Value}
    (made : Wire.write p.order prim v = .ok bytes)
    (value : ∀ m : Machine, pre m.env → Run.eval p e m = .ok (v, m)) :
    Stmt.Sends p pre [.write prim e] bytes := by
  intro m latest holds stream
  obtain ⟨m', ran, _, stream'⟩ := Run.exec_write made (value m holds) stream
  exact ⟨m', by rwa [Run.execBlock_single], stream'⟩

/-- What a source has to yield for something to be written: it may depend on the program and on the
locals before a number. -/
abbrev Offer (α : Type) := Program → Nat → α → Env → Prop

/-- The expression yields the value, unless nothing of the shape is stored. -/
def HasValue (s : Shape) (src : Expr) : Offer Value := fun p low v env =>
  s.isStored = true → src.Denotes p low env v

/-- The expression yields a struct that has the members. -/
def HasMembers (src : Expr) : Offer (List (String × Value)) := fun p low members env =>
  ∀ member ∈ members, (Expr.field src member.1).Denotes p low env member.2

/-- A fragment that writes the bytes of what is offered. -/
structure Encodes {α : Type} (C : Programs) (offer : Offer α) (written : α → List UInt8 → Prop)
    (low high : Nat) (stmts : List Stmt) : Prop where
  confined : Confined low high stmts
  run : ∀ p, C.holds p → ∀ a bytes, written a bytes → Stmt.Sends p (offer p low a) stmts bytes

variable {α β γ : Type} {C : Programs} {offer : Offer α} {written : α → List UInt8 → Prop}

theorem HasValue.later {s : Shape} {src : Expr} {v : Value} {env env' : Env}
    (has : HasValue s src p low v env) (agrees : env.Agrees low env') (le : low ≤ mid) :
    HasValue s src p mid v env' := fun stored => (has stored).mono agrees le

theorem HasMembers.later {src : Expr} {members : List (String × Value)} {env env' : Env}
    (has : HasMembers src p low members env) (agrees : env.Agrees low env') (le : low ≤ mid) :
    HasMembers src p mid members env' := fun member inside => (has member inside).mono agrees le

/-- A struct that is made of distinct members has them. -/
theorem hasMembers_ofFields {src : Expr} {members : List (String × Value)} {env : Env}
    (distinct : (members.map (·.1)).Nodup) (denotes : src.Denotes p low env (.ofFields members)) :
    HasMembers src p low members env := by
  rintro ⟨name, v⟩ inside
  have field := denotes.field name
  rwa [Value.getField?_foldl distinct, Value.getField?_of_mem distinct inside, Option.some_or,
    Option.getD_some] at field

/-- What is offered is written in two parts. -/
theorem Encodes.append {offer' : Offer β} {written' : β → List UInt8 → Prop} {whole : Offer γ}
    {all : γ → List UInt8 → Prop} (first : Encodes C offer written low mid front)
    (second : Encodes C offer' written' mid high back)
    (parts : ∀ c bytes, all c bytes → ∃ a b bytes₁ bytes₂, bytes = bytes₁ ++ bytes₂ ∧
      written a bytes₁ ∧ written' b bytes₂ ∧ ∀ p env, whole p low c env → offer p low a env ∧
        ∀ env', env.Agrees low env' → offer' p mid b env') :
    Encodes C whole all low high (front ++ back) where
  confined := first.confined.append second.confined
  run p holds c bytes made := by
    obtain ⟨a, b, bytes₁, bytes₂, rfl, made₁, made₂, offers⟩ := parts c bytes made
    have start : Stmt.Sends p (whole p low c) front bytes₁ := fun m latest given =>
      first.run p holds a bytes₁ made₁ m latest (offers p m.env given).1
    refine sends_append (C.isolated p holds) first.confined start (second.run p holds b bytes₂ made₂) ?_
    exact fun env env' given agrees => (offers p env given).2 env' agrees

/-- Something else is offered that is written in the same way. -/
theorem Encodes.recast {whole : Offer γ} {all : γ → List UInt8 → Prop}
    (encodes : Encodes C offer written low high stmts)
    (same : ∀ c bytes, all c bytes → ∃ a, written a bytes ∧
      ∀ p env, whole p low c env → offer p low a env) : Encodes C whole all low high stmts where
  confined := encodes.confined
  run p holds c bytes made := by
    obtain ⟨a, made', offers⟩ := same c bytes made
    exact fun m latest given => encodes.run p holds a bytes made' m latest (offers p m.env given)

/-- What takes up no bytes needs no statements. -/
theorem encodes_nil (n : Nat) (none : ∀ a bytes, written a bytes → bytes = []) :
    Encodes C offer written n n [] where
  confined := confined_nil n
  run p _ a bytes made := by
    rw [none a bytes made]
    exact sends_nil

/-- One primitive is written. -/
theorem encodes_write {prim : Primitive} {e : Expr} (n : Nat)
    (made : ∀ p, C.holds p → ∀ a bytes, written a bytes → ∃ v,
      Wire.write p.order prim v = .ok bytes ∧
      ∀ m : Machine, offer p n a m.env → Run.eval p e m = .ok (v, m)) :
    Encodes C offer written n n [.write prim e] where
  confined := confined_single (Nat.le_refl n) (fun _ member => nomatch member) rfl
  run p holds a bytes is := by
    obtain ⟨v, written, value⟩ := made p holds a bytes is
    exact sends_write written value

/-! ### Optional values and collections -/

section

variable {order : ByteOrder} {refs : Refs} {s : Shape} {src : Expr} {x : Local} {body : List Stmt}
  {length : Primitive} {kind : IntKind}

/-- What comes after the test of an optional value: the value if it is present. -/
inductive Guarded (order : ByteOrder) (refs : Refs) (s : Shape) : Value → List UInt8 → Prop where
  | absent : Guarded order refs s .null []
  | present {v : Value} {bytes : List UInt8} (some : v.isNull = false)
      (inner : Layout.Written order refs s v bytes) : Guarded order refs s v bytes

/-- A value is written if it is present. -/
theorem encodes_guarded (own : x.id = low)
    (inner : Encodes C (HasValue s (.place x)) (Layout.Written order refs s) (low + 1) high body) :
    Encodes C (fun p low v env => src.Denotes p low env v) (Guarded order refs s) low high
      (if body.isEmpty then [] else [.ifPresent x src body]) where
  confined := by
    have le := inner.confined.le
    split
    · exact ⟨by omega, fun _ member => (nomatch member), rfl⟩
    · refine confined_single (by omega) (fun y member => ?_) ?_
      · have either : y = x.id ∨ y ∈ Stmt.bound body := by
          simpa [Stmt.binds, Stmt.binders, Stmt.blocks] using member
        rcases either with rfl | inside
        · omega
        · have := inner.confined.bound y inside
          omega
      · simp [Stmt.sets, Stmt.target?, Stmt.blocks, inner.confined.assigned]
  run p holds v bytes made := by
    -- What the value would be written as, were it bound.
    have write (m : Machine) (latest : List UInt8) (stream : m.stream = .output latest)
        (is : Layout.Written order refs s v bytes) :
        ∃ m', Run.execBlock p body { m with env := m.env.set x.id v } = .ok ((), m') ∧
          m'.stream = .output (bytes.reverse ++ latest) := by
      have held : (m.env.set x.id v).get? x.id = some v := (Env.get?_set _ _ _ _).trans (if_pos rfl)
      exact inner.run p holds v bytes is _ latest
        (fun _ => Expr.denotes_place held (by omega)) stream
    intro m latest denotes stream
    split
    · next plain =>
      cases List.isEmpty_iff.mp plain
      cases made with
      | absent => exact ⟨m, rfl, stream⟩
      | present some inner =>
        obtain ⟨m', ran, stream'⟩ := write m latest stream inner
        cases ran
        exact ⟨m, rfl, stream'⟩
    · rw [Run.execBlock_single, Run.exec_ifPresent (denotes m (.refl _ _))]
      cases made with
      | absent => exact ⟨m, rfl, stream⟩
      | present some inner =>
        rw [some, if_neg Bool.false_ne_true]
        exact write m latest stream inner

/-- It is written whether a value is present, then the value if it is. -/
theorem Encodes.optional
    (test : Encodes C (HasValue (.prim .bool) (.isPresent src))
      (Layout.Written order refs (.prim .bool)) low mid front)
    (value : Encodes C (fun p low v env => src.Denotes p low env v) (Guarded order refs s)
      mid high back) :
    Encodes C (HasValue (.optional s (.prim .bool)) src)
      (Layout.Written order refs (.optional s (.prim .bool))) low high (front ++ back) := by
  refine test.append value fun v bytes made => ?_
  have tested (b : Bool) : Layout.Written order refs (.prim .bool) (.bool b) [if b then 1 else 0] :=
    .prim ⟨b, rfl⟩ rfl
  have offers (p : Program) (env : Env) (has : HasValue (.optional s (.prim .bool)) src p low v env) :
      HasValue (.prim .bool) (.isPresent src) p low (.bool !v.isNull) env ∧
        ∀ env', env.Agrees low env' → src.Denotes p mid env' v :=
    ⟨fun _ => (has rfl).isPresent, fun env' agrees => (has rfl).mono agrees test.confined.le⟩
  cases made with
  | absent => exact ⟨_, _, _, _, rfl, tested false, .absent, offers⟩
  | present some inner =>
    rw [some] at offers
    exact ⟨_, _, _, _, rfl, tested true, .present some inner, offers⟩
  | struct like => cases like

theorem confined_collection {loop : Stmt} {e : Expr} (le : low ≤ high)
    (binds : ∀ y ∈ loop.binds, low ≤ y ∧ y < high) (sets : loop.sets = []) :
    Confined low high [.write length e, loop] := by
  have first : Confined low low [.write length e] :=
    confined_single (Nat.le_refl low) (fun _ member => nomatch member) rfl
  exact first.append (confined_single le binds sets)

/-- The items of a list are written after their number. -/
theorem Encodes.list (known : length.intKind? = some kind) (own : x.id = low)
    (item : Encodes C (HasValue s (.place x)) (Layout.Written order refs s) (low + 1) high body)
    (orders : ∀ p, C.holds p → p.order = order) :
    Encodes C (HasValue (.list s length) src) (Layout.Written order refs (.list s length)) low high
      [.write length (.cast (.len src) kind), .forEach x src body] where
  confined := by
    have le := item.confined.le
    refine confined_collection (by omega) (fun y member => ?_) ?_
    · have either : y = x.id ∨ y ∈ Stmt.bound body := by
        simpa [Stmt.binds, Stmt.binders, Stmt.blocks] using member
      rcases either with rfl | inside
      · omega
      · have := item.confined.bound y inside
        omega
    · simp [Stmt.sets, Stmt.target?, Stmt.blocks, item.confined.assigned]
  run p holds v bytes made m latest has stream := by
    cases made with
    | struct like => cases like
    | @list _ _ _ items each known' counts inner =>
      cases known.symm.trans known'
      have loop (m : Machine) (value : Run.eval p src m = .ok (.list items, m)) :
          Run.exec p (.forEach x src body) m =
            Run.forEach (fun v => do Run.bind x v; Run.execBlock p body) items m := by
        rw [Run.exec, Run.bind_apply, value]
        rfl
      have writes : Stmt.Writes p low src (.list items)
          [.write length (.cast (.len src) kind), .forEach x src body]
          (intBytes p.order length kind (kind.lengthBits items.length).toNat ++
            items.flatMap each) :=
        Run.writes_collection known rfl loop fun v member m latest stream => by
          have held : (m.env.set x.id v).get? x.id = some v :=
            (Env.get?_set _ _ _ _).trans (if_pos rfl)
          exact item.run p holds v _ (inner v member) { m with env := m.env.set x.id v } latest
            (fun _ => Expr.denotes_place held (by omega)) stream
      rw [counts.toNat_lengthBits, orders p holds] at writes
      exact writes m latest (has rfl) stream

/-- The value of a key and that of a value are yielded. -/
def HasEntry (key value : Shape) (k v : Expr) : Offer (Value × Value) := fun p low e env =>
  HasValue key k p low e.1 env ∧ HasValue value v p low e.2 env

/-- The bytes are those of the key and then those of the value. -/
def WrittenEntry (order : ByteOrder) (refs : Refs) (key value : Shape) (e : Value × Value)
    (bytes : List UInt8) : Prop :=
  ∃ first second, bytes = first ++ second ∧ Layout.Written order refs key e.1 first ∧
    Layout.Written order refs value e.2 second

/-- The entries of a map are written after their number. -/
theorem Encodes.map {key value : Shape} {y : Local} (known : length.intKind? = some kind)
    (own : x.id = low) (own' : y.id = low + 1)
    (entry : Encodes C (HasEntry key value (.place x) (.place y)) (WrittenEntry order refs key value)
      (low + 2) high body) (orders : ∀ p, C.holds p → p.order = order) :
    Encodes C (HasValue (.map key value length) src)
      (Layout.Written order refs (.map key value length)) low high
      [.write length (.cast (.len src) kind), .forEachPair x y src body] where
  confined := by
    have le := entry.confined.le
    refine confined_collection (by omega) (fun z member => ?_) ?_
    · have either : z = x.id ∨ z = y.id ∨ z ∈ Stmt.bound body := by
        simpa [Stmt.binds, Stmt.binders, Stmt.blocks] using member
      rcases either with rfl | rfl | inside
      · omega
      · omega
      · have := entry.confined.bound z inside
        omega
    · simp [Stmt.sets, Stmt.target?, Stmt.blocks, entry.confined.assigned]
  run p holds v bytes made m latest has stream := by
    cases made with
    | struct like => cases like
    | @map _ _ _ _ entries first second known' counts keys values =>
      cases known.symm.trans known'
      have loop (m : Machine) (value : Run.eval p src m = .ok (.map entries, m)) :
          Run.exec p (.forEachPair x y src body) m = Run.forEach (fun e => do
            Run.bind x e.1
            Run.bind y e.2
            Run.execBlock p body) entries m := by
        rw [Run.exec, Run.bind_apply, value]
        rfl
      have writes : Stmt.Writes p low src (.map entries)
          [.write length (.cast (.len src) kind), .forEachPair x y src body]
          (intBytes p.order length kind (kind.lengthBits entries.length).toNat ++
            entries.flatMap fun e => first e.1 ++ second e.2) :=
        Run.writes_collection known rfl loop fun e member m latest stream => by
          have heldY : ((m.env.set x.id e.1).set y.id e.2).get? y.id = some e.2 :=
            (Env.get?_set _ _ _ _).trans (if_pos rfl)
          have heldX : ((m.env.set x.id e.1).set y.id e.2).get? x.id = some e.1 := by
            rw [Env.get?_set, if_neg (by omega), Env.get?_set, if_pos rfl]
          exact entry.run p holds e _ ⟨_, _, rfl, keys e member, values e member⟩
            { m with env := (m.env.set x.id e.1).set y.id e.2 } latest
            ⟨fun _ => Expr.denotes_place heldX (by omega),
              fun _ => Expr.denotes_place heldY (by omega)⟩ stream
      rw [counts.toNat_lengthBits, orders p holds] at writes
      exact writes m latest (has rfl) stream

end

end Encoding

end WireSchema
