import WireSchema.Proofs.Lowering.Collections
import WireSchema.Proofs.Wire.Forms

/-!
# Fragments for the kinds of shape

How the code of a shape is put together from the code of its parts: members one after another,
optional values, collections, pairs, enumerations, calls of codecs and literals. Each piece computes
what the layout reads, whatever program it is part of, as long as its parts do.
-/

namespace WireSchema

open Ir Wire Lowering

namespace Decoding

variable {C : Programs} {low mid high : Nat} {front back stmts : List Stmt} {x y : Local} {e : Expr}
  {order : ByteOrder} {read : Read Value} {block : Block}

/-! ### Members -/

theorem bindsAll_nil (C : Programs) (n : Nat) : BindsAll C (pure []) n n [] [] where
  closed := closed_nil n
  opened _ member := nomatch member
  run _ _ _ _ stream := Probe.mirrors_pure stream rfl

/-- A member is bound before others. It is one of them if it is stored. -/
theorem BindsAll.cons {reads : Read (List (String × Value))} {bindings : List (String × Local)}
    (name : String) (stored : Bool) (first : Binds C read low mid front x)
    (second : BindsAll C reads mid high back bindings) :
    BindsAll C (do
      let v ← read
      let others ← reads
      return if stored then (name, v) :: others else others) low high (front ++ back)
      (if stored then (name, x) :: bindings else bindings) where
  closed := first.closed.append second.closed
  opened b member := by
    have either : b = (name, x) ∨ b ∈ bindings := by
      split at member
      · exact List.mem_cons.mp member
      · exact .inr member
    rcases either with rfl | later
    · obtain ⟨mutable, init, here⟩ := first.opened
      exact ⟨mutable, init, List.mem_append_left _ here⟩
    · obtain ⟨mutable, init, there⟩ := second.opened b later
      exact ⟨mutable, init, List.mem_append_right _ there⟩
  run p holds m reader stream := by
    rw [Probe.execBlock_append]
    refine (first.run p holds m reader stream).bind fun _ v m₁ _ _ _ stream₁ known => ?_
    apply Probe.mirrors_map.mpr
    refine (second.run p holds m₁ _ stream₁).weaken fun _ others m₂ _ ran _ held => ?_
    have kept :=
      (first.closed.kept second.closed (C.isolated p holds) ran first.mem_bound).trans known
    cases stored with
    | false => exact held
    | true =>
      simp only [Holds, if_true, List.map_cons, kept]
      exact congrArg _ held

/-- The members of one part come before those of another. -/
theorem BindsAll.append {reads reads' : Read (List (String × Value))}
    {bindings bindings' : List (String × Local)}
    (first : BindsAll C reads low mid front bindings)
    (second : BindsAll C reads' mid high back bindings') :
    BindsAll C (do
      let members ← reads
      let others ← reads'
      return members ++ others) low high (front ++ back) (bindings ++ bindings') where
  closed := first.closed.append second.closed
  opened b member := by
    rcases List.mem_append.mp member with early | later
    · obtain ⟨mutable, init, here⟩ := first.opened b early
      exact ⟨mutable, init, List.mem_append_left _ here⟩
    · obtain ⟨mutable, init, there⟩ := second.opened b later
      exact ⟨mutable, init, List.mem_append_right _ there⟩
  run p holds m reader stream := by
    rw [Probe.execBlock_append]
    refine (first.run p holds m reader stream).bind fun _ members m₁ _ _ _ stream₁ known => ?_
    apply Probe.mirrors_map.mpr
    refine (second.run p holds m₁ _ stream₁).weaken fun _ others m₂ _ ran _ held => ?_
    have kept : Holds m₂.env bindings members := by
      rw [Holds, ← known]
      refine List.map_congr_left fun b member => ?_
      rw [first.closed.kept second.closed (C.isolated p holds) ran (first.mem_bound member)]
    rw [Holds, List.map_append, List.map_append]
    exact congrArg₂ (· ++ ·) kept held

/-- Bindings that hold members make up a struct of them. -/
theorem eval_structOf (p : Program) (type : String) {bindings : List (String × Local)}
    {members : List (String × Value)} {m : Machine} (held : Holds m.env bindings members) :
    Probe.eval p (structOf type bindings) m = .ok (.ofFields members, m) := by
  have fields : Probe.evalFields p (bindings.map fun b => (b.1, .var b.2)) m =
      .ok (members, m) := by
    induction bindings generalizing members with
    | nil =>
      cases members with
      | nil => rfl
      | cons _ _ => cases held
    | cons b rest ih =>
      cases members with
      | nil => cases held
      | cons first others =>
        obtain ⟨here, later⟩ := List.cons.inj held
        obtain ⟨named, known⟩ := Prod.mk.inj here
        simp only [List.map_cons, Probe.evalFields, Probe.bind_apply, Probe.eval_var known,
          Except.bind, ih later]
        rw [named]
        rfl
  rw [structOf, Probe.eval, Probe.bind_apply]
  change (Probe.evalFields p (bindings.map fun b => (b.1, .var b.2)) m).bind _ = _
  rw [fields]
  rfl

/-- The members of a struct are put together. -/
theorem BindsAll.struct {reads : Read (List (String × Value))} {bindings : List (String × Local)}
    (binds : BindsAll C reads low high stmts bindings) (type : String) :
    Decodes C (do return .ofFields (← reads)) low high ⟨stmts, structOf type bindings⟩ where
  closed := binds.closed
  sorted := by
    have parts (fields : List (String × Local)) (within : ∀ b ∈ fields, b ∈ bindings) :
        ∀ n ∈ Expr.nodesFields (fields.map fun b => (b.1, .var b.2)),
        n.Safe (Stmt.sortsAfter {} stmts) := by
      intro n node
      induction fields with
      | nil => cases node
      | cons b rest ih =>
        rcases List.mem_append.mp node with here | later
        · cases List.mem_singleton.mp here
          obtain ⟨mutable, init, member⟩ := binds.opened b (within b (List.mem_cons_self ..))
          exact seen_of_bind member
        · exact ih (fun b later => within b (List.mem_cons_of_mem _ later)) later
    intro n node
    rcases List.mem_cons.mp node with rfl | later
    · trivial
    · exact parts bindings (fun _ member => member) n later
  run p holds m reader stream := by
    rw [Probe.evalBlock]
    refine (binds.run p holds m reader stream).bind fun _ members m₁ _ _ _ stream₁ held => ?_
    exact ⟨_, m₁, eval_structOf p type held, stream₁, rfl⟩

/-! ### Single statements -/

/-- A binding that may be set, and a statement that keeps to what comes after it. -/
theorem closed_open {init : Option Expr} {s : Stmt} {mutable : Bool}
    (own : low ≤ x.id ∧ x.id < high) (free : (Stmt.bind x mutable init).initialised? = none)
    (free' : s.initialised? = none) (bound : ∀ y ∈ s.binds, low ≤ y ∧ y < high ∧ y ≠ x.id)
    (assigned : ∀ y ∈ s.sets, low ≤ y ∧ y < high) :
    Closed low high [.bind x mutable init, s] where
  le := by omega
  bound y member := by
    have either : y = x.id ∨ y ∈ s.binds := by
      simpa [Stmt.bound_cons, Stmt.binds, Stmt.binders, Stmt.blocks] using member
    rcases either with rfl | inner
    · exact own
    · exact ⟨(bound y inner).1, (bound y inner).2.1⟩
  assigned y member := by
    have inner : y ∈ s.sets := by
      simpa [Stmt.assigned_cons, Stmt.sets, Stmt.target?, Stmt.blocks] using member
    exact assigned y inner
  tidy := by
    refine ⟨fun y member again => ?_, fun x init found => ?_, fun y _ again => ?_,
      fun x init found => ?_, trivial⟩
    · have same : y = x.id := by simpa [Stmt.binds, Stmt.binders, Stmt.blocks] using member
      have inner : y ∈ s.binds := by simpa [Stmt.bound_cons] using again
      exact (bound y inner).2.2 same
    · cases free.symm.trans found
    · cases again
    · cases free'.symm.trans found
  sorted := by
    refine ⟨fun x init found => ?_, fun x init found => ?_, trivial⟩
    · cases free.symm.trans found
    · cases free'.symm.trans found

theorem execBlock_assign (p : Program) (b : Block) (x : Local) :
    Probe.execBlock p (b.stmts ++ [.assign x b.result]) =
      Probe.evalBlock p b >>= fun v => Probe.effect (Run.bind x v) := by
  simp [Probe.execBlock_append, Probe.execBlock, Probe.exec, Probe.evalBlock]

theorem execBlock_push (p : Program) (b : Block) (x : Local) :
    Probe.execBlock p (b.stmts ++ [.push x b.result]) =
      Probe.evalBlock p b >>= fun v => Probe.effect (Run.push x v) := by
  simp [Probe.execBlock_append, Probe.execBlock, Probe.exec, Probe.evalBlock]

/-- The binding of a primitive that is read. -/
theorem closed_read {prim : Primitive} (own : x.id = low) :
    Closed low (low + 1) [.bind x false (some (.read prim))] :=
  (closed_nil low).declare own (by simp [Expr.WellSorted, Expr.nodes, Expr.Safe])

section

variable (orders : ∀ p, C.holds p → p.order = order)
include orders

theorem mirrors_bindRead {p : Program} (holds : C.holds p) {m : Machine} {reader : Reader}
    (stream : m.stream = .input reader) (x : Local) (prim : Primitive) :
    Probe.Mirrors (Probe.exec p (.bind x false (some (.read prim))) m)
      ((Wire.read order prim).run reader) fun _ v m' => m'.env.get? x.id = some v := by
  have first := Probe.mirrors_read (p := p) prim stream
  rw [orders p holds] at first
  rw [Probe.exec]
  exact first.set (f := id) x

/-! ### Optional values -/

/-- The test reads a boolean, and decides how to go on. -/
theorem mirrors_optional {β : Type} {p : Program} (holds : C.holds p) {m : Machine}
    {reader : Reader} (stream : m.stream = .input reader) (fault : Bool) {yes no : Probe β}
    {Q : β → Value → Machine → Prop}
    (present : ∀ m reader, m.stream = .input reader → Probe.Mirrors (yes m) (read.run reader) Q)
    (absent : ∀ m' reader, m'.env = m.env → m'.stream = .input reader →
      Probe.Mirrors (no m') ((pure .null : Read Value).run reader) Q) :
    Probe.Mirrors ((do
      let v ← Probe.eval p (.read .bool)
      if ← Probe.marked fault (Run.asTruth v) then yes else no) m)
      ((do
        let present ← Wire.read order .bool
        if present.asBool? = some true then read else return .null : Read Value).run reader) Q := by
  have first := Probe.mirrors_read (p := p) .bool stream
  rw [orders p holds] at first
  refine first.bind fun v w m₁ reader₁ ran ran' stream₁ same => ?_
  subst same
  obtain ⟨b, rfl⟩ := yields_read_bool order _ _ _ ran'
  have decided : Probe.marked fault (Run.asTruth (.bool b)) m₁ = .ok (b, m₁) := rfl
  refine Probe.Mirrors.step decided ?_
  cases b with
  | true => exact present m₁ reader₁ stream₁
  | false => exact absent m₁ reader₁ (Probe.env_of_eval (C.isolated p holds) ran) stream₁

/-- A value that needs no statements is read under a condition. -/
theorem Decodes.cond (decodes : Decodes C read low high ⟨[], e⟩) :
    Decodes C (do
      let present ← Wire.read order .bool
      if present.asBool? = some true then read else return .null) low high
      ⟨[], .cond (.read .bool) (.present e) .absent⟩ where
  closed := decodes.closed
  sorted := by
    intro n node
    have inside : n = .cond (.read .bool) (.present e) .absent ∨ n = .read .bool ∨
        n = .present e ∨ n ∈ e.nodes ∨ n = .absent := by
      simpa [Expr.nodes, or_assoc] using node
    rcases inside with rfl | rfl | rfl | inner | rfl
    · exact rfl
    · trivial
    · trivial
    · exact decodes.sorted n inner
    · trivial
  run p holds m reader stream := by
    refine mirrors_optional orders holds stream true ?_ ?_
    · exact fun m₁ reader₁ stream₁ => decodes.run p holds m₁ reader₁ stream₁
    · exact fun m₁ reader₁ _ stream₁ => Probe.mirrors_pure stream₁ rfl

/-- Any other value is assigned under a condition. -/
theorem Decodes.branch (decodes : Decodes C read low mid block) (own : x.id = mid) :
    Decodes C (do
      let present ← Wire.read order .bool
      if present.asBool? = some true then read else return .null) low (mid + 1)
      ⟨[.bind x true (some .absent), .branch (.read .bool)
        (block.stmts ++ [.assign x (.present block.result)]) []], .var x⟩ := by
  have le := decodes.closed.le
  refine Binds.value ⟨closed_open (by omega) rfl rfl ?_ ?_, ⟨_, _, List.mem_cons_self ..⟩, ?_⟩
  · intro y member
    have inner : y ∈ Stmt.bound block.stmts := by
      simpa [Stmt.binds, Stmt.binders, Stmt.blocks, Stmt.bound_cons] using member
    have := decodes.closed.bound y inner
    omega
  · intro y member
    have either : y ∈ Stmt.assigned block.stmts ∨ y = x.id := by
      simpa [Stmt.sets, Stmt.target?, Stmt.blocks, Stmt.assigned_cons] using member
    rcases either with inner | rfl
    · have := decodes.closed.assigned y inner
      omega
    · omega
  · intro p holds m reader stream
    -- The binding starts out absent, and stays so unless the test succeeds.
    have start : Probe.exec p (.bind x true (some .absent)) m =
        .ok ((), Probe.setting m x .null) := rfl
    refine Probe.Mirrors.step start ?_
    rw [execBlock_single, Probe.exec]
    refine mirrors_optional orders holds (m := Probe.setting m x .null) stream false ?_ ?_
    · intro m₁ reader₁ stream₁
      have mirrors : Probe.Mirrors (Probe.evalBlock p ⟨block.stmts, .present block.result⟩ m₁)
          (read.run reader₁) fun v w _ => v = w := by
        rw [Probe.evalBlock, Probe.eval]
        exact decodes.run p holds m₁ reader₁ stream₁
      rw [execBlock_assign p ⟨block.stmts, .present block.result⟩ x]
      exact mirrors.set x
    · intro m₁ reader₁ same stream₁
      refine Probe.mirrors_pure stream₁ ?_
      rw [same, Env.get?_set, if_pos rfl]

end

/-! ### Collections -/

/-- Each round adds what it reads to the collection. -/
theorem mirrors_times {α : Type} {whole : List α → Value} {entry : α → Value}
    (collects : Value.Collects whole entry) {item : Read α}
    (decodes : Decodes C (do return entry (← item)) low high block) {p : Program}
    (holds : C.holds p) {acc : Local} (early : acc.id < low) (count : Nat) {m : Machine}
    {reader : Reader} {start : List α} (stream : m.stream = .input reader)
    (known : m.env.get? acc.id = some (whole start)) :
    Probe.Mirrors
      (Probe.times (Probe.execBlock p (block.stmts ++ [.push acc block.result])) count m)
      ((Layout.repeated item count).run reader)
      fun _ items m' => m'.env.get? acc.id = some (whole (start ++ items)) := by
  induction count generalizing m reader start with
  | zero =>
    refine Probe.mirrors_pure stream ?_
    rwa [List.append_nil]
  | succ count ih =>
    -- One round reads an item and adds it; the others start from the longer collection.
    have round : Probe.Mirrors
        (Probe.execBlock p (block.stmts ++ [.push acc block.result]) m) (item.run reader)
        fun _ first m' => m'.env.get? acc.id = some (whole (start ++ [first])) := by
      rw [execBlock_push]
      refine (Probe.mirrors_map.mp (decodes.run p holds m reader stream)).settle ?_
      rintro v first m' ran rfl
      have kept := (decodes.get?_eq (C.isolated p holds) ran early).trans known
      obtain ⟨env, pushed, grown⟩ := Run.exec_push kept (collects start first)
      refine ⟨(), { m' with env }, ?_, rfl, grown⟩
      rw [Probe.effect, Probe.marked, pushed]
    refine round.bind fun _ first m₁ reader₁ _ _ stream₁ known₁ => ?_
    apply Probe.mirrors_map.mpr
    refine (ih stream₁ known₁).weaken fun _ others m₂ _ _ _ known₂ => ?_
    rwa [List.append_assoc] at known₂

/-- The count is read, then as many items are added to an empty collection. -/
theorem Decodes.collection {α : Type} {whole : List α → Value} {entry : α → Value}
    (collects : Value.Collects whole entry) {item : Read α} {count acc : Local} {empty : Expr}
    {length : Primitive} (int : length.isInteger = true)
    (orders : ∀ p, C.holds p → p.order = order)
    (new : ∀ p m, Probe.eval p empty m = .ok (whole [], m))
    (counted : count.id = low) (collected : acc.id = low + 1)
    (decodes : Decodes C (do return entry (← item)) (low + 2) high block) :
    Decodes C (do
      let n ← Wire.read order length
      let items ← Layout.repeated item (Layout.itemCount n)
      return whole items) low high
      ⟨[.bind count false (some (.read length)), .bind acc true (some empty),
        .times (.var count) (block.stmts ++ [.push acc block.result])], .var acc⟩ := by
  have le := decodes.closed.le
  have loop : Closed (low + 1) high [.bind acc true (some empty),
      .times (.var count) (block.stmts ++ [.push acc block.result])] := by
    refine closed_open (by omega) rfl rfl ?_ ?_
    · intro y member
      have inner : y ∈ Stmt.bound block.stmts := by
        simpa [Stmt.binds, Stmt.binders, Stmt.blocks, Stmt.bound_cons] using member
      have := decodes.closed.bound y inner
      omega
    · intro y member
      have either : y ∈ Stmt.assigned block.stmts ∨ y = acc.id := by
        simpa [Stmt.sets, Stmt.target?, Stmt.blocks, Stmt.assigned_cons] using member
      rcases either with inner | rfl
      · have := decodes.closed.assigned y inner
        omega
      · omega
  refine Binds.value ⟨(closed_read counted).append loop, ⟨true, some empty, by simp⟩, ?_⟩
  intro p holds m reader stream
  refine (mirrors_bindRead orders holds stream count length).bind
    fun _ n m₁ reader₁ _ ran stream₁ known => ?_
  obtain ⟨kind, bits, rfl⟩ := Probe.yields_integer order int _ _ _ ran
  -- The collection starts out empty, and the count is still bound.
  have emptied : Probe.exec p (.bind acc true (some empty)) m₁ =
      .ok ((), Probe.setting m₁ acc (whole [])) := by
    rw [Probe.exec, Probe.bind_apply, new]
    rfl
  refine Probe.Mirrors.step emptied ?_
  have still : (Probe.setting m₁ acc (whole [])).env.get? count.id = some (.int kind bits) := by
    rw [Env.get?_set, if_neg (by omega), known]
  have started : (Probe.setting m₁ acc (whole [])).env.get? acc.id = some (whole []) := by
    rw [Env.get?_set, if_pos rfl]
  rw [execBlock_single, Probe.exec]
  refine Probe.Mirrors.step (Probe.eval_var still) ?_
  have rounds : Probe.effect (Run.rounds (.int kind bits)) (Probe.setting m₁ acc (whole [])) =
      .ok ((kind.view bits).toNat, Probe.setting m₁ acc (whole [])) := rfl
  refine Probe.Mirrors.step rounds (Probe.mirrors_map.mpr ?_)
  exact mirrors_times (m := Probe.setting m₁ acc (whole [])) collects decodes holds (by omega) _
    stream₁ started

/-- A pair of values. -/
theorem Binds.pair {read read' : Read Value} (first : Binds C read low mid front x)
    (second : Binds C read' mid high back y) :
    Decodes C (do
      let k ← read
      let v ← read'
      return .list [k, v]) low high ⟨front ++ back, .pair (.var x) (.var y)⟩ where
  closed := first.closed.append second.closed
  sorted := by
    obtain ⟨mutable, init, here⟩ := first.opened
    obtain ⟨mutable', init', there⟩ := second.opened
    intro n node
    have either : n = .pair (.var x) (.var y) ∨ n = .var x ∨ n = .var y := by
      simpa [Expr.nodes] using node
    rcases either with rfl | rfl | rfl
    · trivial
    · exact seen_of_bind (List.mem_append_left _ here)
    · exact seen_of_bind (List.mem_append_right _ there)
  run p holds m reader stream := by
    rw [Probe.evalBlock, Probe.execBlock_append, bind_assoc]
    refine (first.run p holds m reader stream).bind fun _ k m₁ reader₁ _ _ stream₁ known => ?_
    apply Probe.mirrors_map.mpr
    refine (second.run p holds m₁ reader₁ stream₁).settle fun _ v m₂ ran known' => ?_
    have kept :=
      (first.closed.kept second.closed (C.isolated p holds) ran first.mem_bound).trans known
    refine ⟨_, m₂, ?_, rfl, rfl⟩
    rw [Probe.eval, Probe.bind_apply, Probe.eval_var kept]
    change ((Probe.eval p (.var y) m₂).bind _) = _
    rw [Probe.eval_var known']
    rfl

/-! ### Enumerations and codecs -/

/-- A name of an enumeration, from the integer that stands for it. -/
theorem decodes_fromId (orders : ∀ p, C.holds p → p.order = order) {backing : Primitive}
    (int : backing.isInteger = true) {type : String} {d : EnumDecl}
    (declared : ∀ p, C.holds p → Run.enumOf p.code type = pure d) (n : Nat) :
    Decodes C (do
      let id ← Wire.read order backing
      match d.entries.find? fun entry => id.asInt? == some entry.2 with
      | some (name, _) => return .enum name
      | none => throw (.unknownEnumId "" (id.asInt?.getD 0))) n n
      ⟨[], .fromId type (.read backing)⟩ where
  closed := closed_nil n
  sorted := by simp [Expr.WellSorted, Expr.nodes, Expr.Safe]
  run p holds m reader stream := by
    have first := Probe.mirrors_read (p := p) backing stream
    rw [orders p holds] at first
    rw [evalBlock_nil, Probe.eval]
    refine first.bind fun v w m₁ reader₁ _ ran stream₁ same => ?_
    subst same
    obtain ⟨kind, bits, rfl⟩ := Probe.yields_integer order int _ _ _ ran
    have named : Run.nameOfId p.code type (.int kind bits) =
        (d.nameOf? (kind.view bits)).elim
          (throw (.decode (.unknownEnumId type (kind.view bits)))) fun name => pure (.enum name) := by
      have integer : Run.asInteger (.int kind bits) = pure (kind.view bits, kind) := rfl
      simp only [Run.nameOfId, integer, declared p holds, pure_bind]
      cases d.nameOf? (kind.view bits) <;> rfl
    have ids (entry : String × Int) : (Value.asInt? (.int kind bits) == some entry.2) =
        (entry.2 == kind.view bits) := by
      rw [Bool.eq_iff_iff, beq_iff_eq, beq_iff_eq, Value.asInt?, Option.some.injEq, eq_comm]
    simp only [ids]
    rw [Probe.effect, Probe.marked, named, EnumDecl.nameOf?]
    cases d.entries.find? fun entry => entry.2 == kind.view bits with
    | none => exact Probe.mirrors_throw rfl rfl
    | some entry => exact Probe.mirrors_pure stream₁ rfl

/-- A codec computes what it is known to compute. -/
theorem decodes_call {codec : String}
    (calls : ∀ p, C.holds p → ∀ m reader, m.stream = .input reader →
      Probe.Mirrors (Probe.effect (p.calls.decode codec) m) (read.run reader) fun v w _ => v = w)
    (n : Nat) : Decodes C read n n ⟨[], .callDecode codec⟩ where
  closed := closed_nil n
  sorted := by simp [Expr.WellSorted, Expr.nodes, Expr.Safe]
  run p holds m reader stream := calls p holds m reader stream

/-! ### Literals -/

/-- Integers of one type are compared by their bits, and other values as they are. -/
theorem sameValue_literal {p : Primitive} {l : Literal} (typed : Shape.IsTyped l (some p))
    {reader reader' : Reader} {found : Value}
    (ran : (Wire.read order p).run reader = (.ok found, reader')) :
    Run.sameValue found (.ofLiteral l) = (found == .ofLiteral l) := by
  have kind := yields_kind order p _ _ _ ran
  cases found with
  | int k bits =>
    cases l with
    | int v own =>
      have known : p.intKind? = some k := kind.symm
      cases typed p k rfl known v own rfl
      have same : (Value.int k bits == .ofLiteral (.int v k)) =
          (k == k && bits.toNat == (BitVec.ofInt k.bits v).toNat) := by
        change Value.equal _ _ = _
        rw [Value.ofLiteral, Value.ofInt, Value.equal]
      rw [same, beq_self_eq_true, Bool.true_and, Value.ofLiteral, Value.ofInt, Run.sameValue_int,
        Bool.eq_iff_iff, beq_iff_eq, beq_iff_eq, BitVec.toNat_inj]
    | bool _ | str _ => rfl
  | _ => rfl

theorem decodes_lit (C : Programs) (l : Literal) (n : Nat) :
    Decodes C (pure (.ofLiteral l)) n n ⟨[], .lit l⟩ where
  closed := closed_nil n
  sorted := by simp [Expr.WellSorted, Expr.nodes, Expr.Safe]
  run _ _ _ _ stream := Probe.mirrors_pure stream rfl

/-- A literal that takes up bytes is read, and has to be there. -/
theorem decodes_literal (orders : ∀ p, C.holds p → p.order = order) {prim : Primitive}
    {l : Literal} (typed : Shape.IsTyped l (some prim)) (own : x.id = low) :
    Decodes C (do
      let found ← Wire.read order prim
      if found == .ofLiteral l then return .ofLiteral l
      else throw (.literalMismatch l.text found.describe)) low (low + 1)
      ⟨[.bind x false (some (.read prim)), .branch (.binary .ne (.var x) (.lit l))
        [.fail (.literalMismatch l (.var x))] []], .lit l⟩ where
  closed := by
    change Closed low (low + 1) ([_] ++ [_])
    refine (closed_read own).extend (Nat.le_refl _) ?_ ?_ ?_ ?_
    · simp [Stmt.bound_cons, Stmt.binds, Stmt.binders, Stmt.blocks]
    · simp [Stmt.assigned_cons, Stmt.sets, Stmt.target?, Stmt.blocks]
    · simp [Stmt.Tidy]
    · refine ⟨fun y init found => ?_, trivial⟩
      cases found
  sorted := by simp [Expr.WellSorted, Expr.nodes, Expr.Safe]
  run p holds m reader stream := by
    rw [Probe.evalBlock, Probe.execBlock, bind_assoc]
    refine (mirrors_bindRead orders holds stream x prim).bind
      fun _ found m₁ reader₁ _ ran stream₁ known => ?_
    have tested : Probe.eval p (.binary .ne (.var x) (.lit l)) m₁ =
        .ok (.bool (!(found == .ofLiteral l)), m₁) := by
      rw [Probe.eval, Probe.bind_apply, Probe.eval_var known, ← sameValue_literal typed ran]
      rfl
    rw [execBlock_single, Probe.exec, bind_assoc]
    refine Probe.Mirrors.step tested ?_
    have decided (b : Bool) : Probe.effect (Run.asTruth (.bool b)) m₁ = .ok (b, m₁) := rfl
    rw [bind_assoc]
    refine Probe.Mirrors.step (decided _) ?_
    cases found == .ofLiteral l with
    | true => exact Probe.mirrors_pure stream₁ rfl
    | false =>
      rw [Bool.not_false, if_pos rfl, execBlock_single, Probe.exec, Probe.bind_apply,
        Probe.raise_literalMismatch l known]
      exact ⟨_, rfl, rfl⟩

end Decoding

end WireSchema
