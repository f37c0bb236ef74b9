import WireSchema.Proofs.Lowering.BitGroups

/-!
# Collections and their lengths

A list or a map is written as its length, cut to the length type, and then its items. A decoder makes
as many rounds as the cut length announces and leaves the other items unread. So a collection comes
back as a whole exactly if the length type can count it.
-/

namespace WireSchema

open Ir Gen Lowering

/-! ### Counting -/

namespace IntKind

/-- The integer that is written for a length: its low 64 bits, cut to the type. -/
def lengthBits (kind : IntKind) (n : Nat) : BitVec kind.bits :=
  BitVec.ofInt kind.bits (usize.wrap n)

/-- The number of rounds that a decoder makes for a collection of `n` items. -/
def announced (kind : IntKind) (n : Nat) : Nat := (kind.view (kind.lengthBits n)).toNat

/-- The type can count `n` items. -/
def Counts (kind : IntKind) (n : Nat) : Prop :=
  n < 2 ^ 64 ∧ n < 2 ^ (if kind.signed then kind.bits - 1 else kind.bits)

instance (kind : IntKind) (n : Nat) : Decidable (kind.Counts n) :=
  inferInstanceAs (Decidable (_ ∧ _))

theorem toNat_lengthBits (kind : IntKind) (n : Nat) :
    (kind.lengthBits n).toNat = n % 2 ^ 64 % 2 ^ kind.bits := by
  have wrapped : usize.wrap n = ((n % 2 ^ 64 : Nat) : Int) := by
    change ((BitVec.ofInt 64 n).toNat : Int) = _
    rw [BitVec.ofInt_natCast, BitVec.toNat_ofNat]
  rw [lengthBits, wrapped, BitVec.ofInt_natCast, BitVec.toNat_ofNat]

/-- A length in the upper half of a signed type announces nothing. -/
theorem announced_eq (kind : IntKind) (n : Nat) : kind.announced n =
    if kind.signed ∧ 2 ^ kind.bits ≤ 2 * (n % 2 ^ 64 % 2 ^ kind.bits) then 0
    else n % 2 ^ 64 % 2 ^ kind.bits := by
  have bits := kind.toNat_lengthBits n
  have below := (kind.lengthBits n).isLt
  rw [← bits, announced, view]
  cases signed : kind.signed with
  | true =>
    simp only [Bool.true_or, if_true, true_and, BitVec.toInt_eq_toNat_cond]
    by_cases low : 2 * (kind.lengthBits n).toNat < 2 ^ kind.bits
    · rw [if_pos low, if_neg (Nat.not_le.mpr low), Int.toNat_natCast]
    · have below : ((kind.lengthBits n).toNat : Int) < (2 ^ kind.bits : Nat) := by exact_mod_cast below
      rw [if_neg low, if_pos (Nat.le_of_not_lt low), Int.toNat_of_nonpos (by omega)]
  | false =>
    simp only [Bool.false_or, Bool.false_eq_true, false_and, if_false]
    by_cases wide : kind.bits = 128
    · -- Lengths are far below the upper half of the widest type.
      have low : 2 * (kind.lengthBits n).toNat < 2 ^ kind.bits := by
        simp only [bits, wide]
        omega
      simp [wide, BitVec.toInt_eq_toNat_of_lt low]
    · simp [wide]

theorem announced_le (kind : IntKind) (n : Nat) : kind.announced n ≤ n := by
  have cut := Nat.le_trans (Nat.mod_le (n % 2 ^ 64) (2 ^ kind.bits)) (Nat.mod_le n (2 ^ 64))
  rw [announced_eq]
  split
  · exact Nat.zero_le n
  · exact cut

theorem announced_eq_self_iff {kind : IntKind} {n : Nat} :
    kind.announced n = n ↔ kind.Counts n := by
  rw [announced_eq, Counts]
  -- Both sides are comparisons with powers of two, once the type is given.
  cases kind <;> simp only [signed, bits, Bool.false_eq_true, false_and, true_and, if_true, if_false] <;>
    first | omega | (split <;> omega)

/-- A number that the type can count is written as it is. -/
theorem Counts.toNat_lengthBits {kind : IntKind} {n : Nat} (counts : kind.Counts n) :
    (kind.lengthBits n).toNat = n := by
  have fits : n < 2 ^ kind.bits := by
    refine Nat.lt_of_lt_of_le counts.2 (Nat.pow_le_pow_right (by decide) ?_)
    split
    · exact Nat.sub_le _ _
    · exact Nat.le_refl _
  rw [IntKind.toNat_lengthBits, Nat.mod_eq_of_lt counts.1, Nat.mod_eq_of_lt fits]

example : announced .i8 127 = 127 ∧ announced .i8 128 = 0 ∧ announced .u8 300 = 44 := by decide

end IntKind

/-! ### Loops -/

/-- A collection over its entries: adding one to its end gives the collection with that entry. -/
def Value.Collects {α : Type} (whole : List α → Value) (entry : α → Value) : Prop :=
  ∀ xs x, (whole xs).push (entry x) = .ok (whole (xs ++ [x]))

theorem Value.collects_list : Collects .list id := fun _ _ => rfl

theorem Value.collects_map : Collects .map fun e => .list [e.1, e.2] := fun _ _ => rfl

namespace Run

variable {p : Program} {α : Type}

theorem exec_push {m : Machine} {x : Local} {c c' v : Value} (known : m.env.get? x.id = some c)
    (grown : c.push v = .ok c') :
    ∃ env, push x v m = .ok ((), { m with env }) ∧ env.get? x.id = some c' := by
  obtain ⟨cell, found, rfl⟩ := Option.map_eq_some_iff.mp known
  have pushed := cell.value_push v
  rw [grown] at pushed
  cases result : cell.push v with
  | error e =>
    rw [result] at pushed
    cases pushed
  | ok cell' =>
    rw [result] at pushed
    cases pushed
    refine ⟨m.env.put x.id cell', ?_, (Env.get?_put _ _ _ _).trans (if_pos rfl)⟩
    simp only [push, bind_apply, get, getThe, MonadStateOf.get, StateT.get, pure, Except.pure,
      Except.bind, found, result]
    rfl

/-- A body whose result is added to a collection. -/
theorem execBlock_push (stmts : List Stmt) (x : Local) (e : Expr) {m : Machine} :
    execBlock p (stmts ++ [.push x e]) m =
      (evalBlock p ⟨stmts, e⟩ m).bind fun out => push x out.1 out.2 := by
  rw [execBlock_append, evalBlock_apply]
  cases execBlock p stmts m with
  | error e => rfl
  | ok out => exact execBlock_single _

theorem times_succ (act : Run Unit) (count : Nat) (m : Machine) :
    times act (count + 1) m = (act m).bind fun out => times act count out.2 := rfl

theorem forEach_cons (act : α → Run Unit) (x : α) (rest : List α) (m : Machine) :
    forEach act (x :: rest) m = (act x m).bind fun out => forEach act rest out.2 := rfl

/-- A round of a decoder adds what it reads; so the rounds read the entries in order. -/
theorem reads_times (isolated : p.Isolated) {whole : List α → Value} {entry : α → Value}
    (collects : Value.Collects whole entry) {acc : Local} {body : Block} {low high : Nat}
    (owns : Stmt.Owns low high body.stmts) (earlier : acc.id < low) {taken : α → List UInt8}
    {xs start : List α} (reads : ∀ x ∈ xs, body.Reads p (taken x) (entry x)) {m : Machine}
    {rest : List UInt8} {position : Nat} (known : m.env.get? acc.id = some (whole start))
    (stream : m.stream = .input ⟨xs.flatMap taken ++ rest, position⟩) :
    ∃ m', times (execBlock p (body.stmts ++ [.push acc body.result])) xs.length m = .ok ((), m') ∧
      m'.stream = .input ⟨rest, position + (xs.flatMap taken).length⟩ ∧
      m'.env.get? acc.id = some (whole (start ++ xs)) := by
  -- The collection has the entries of the rounds so far, which is what the induction is over.
  induction xs generalizing start m position with
  | nil =>
    rw [List.append_nil]
    exact ⟨m, rfl, stream, known⟩
  | cons x xs ih =>
    obtain ⟨here, later⟩ := List.forall_mem_cons.mp reads
    rw [List.flatMap_cons, List.append_assoc] at stream
    obtain ⟨m₁, ran, left⟩ := here m _ position stream
    -- The body leaves the collection alone, which then grows by what was read.
    have kept : m₁.env.get? acc.id = some (whole start) :=
      (agrees_evalBlock isolated owns ran _ earlier).trans known
    obtain ⟨env, pushed, grown⟩ := exec_push kept (collects start x)
    obtain ⟨m₂, others, left₂, whole₂⟩ := ih (m := { m₁ with env }) later grown left
    refine ⟨m₂, ?_, ?_, ?_⟩
    · rw [List.length_cons, times_succ, execBlock_push, ran]
      change ((push acc (entry x) m₁).bind _) = _
      rw [pushed]
      exact others
    · rw [left₂, List.flatMap_cons, List.length_append, Nat.add_assoc]
    · rwa [List.append_assoc] at whole₂

/-- A round of an encoder writes an entry; so the rounds write the entries in order. -/
theorem writes_forEach {act : α → Run Unit} {written : α → List UInt8} {xs : List α}
    (each : ∀ x ∈ xs, ∀ m latest, m.stream = .output latest →
      ∃ m', act x m = .ok ((), m') ∧ m'.stream = .output ((written x).reverse ++ latest))
    {m : Machine} {latest : List UInt8} (stream : m.stream = .output latest) :
    ∃ m', forEach act xs m = .ok ((), m') ∧
      m'.stream = .output ((xs.flatMap written).reverse ++ latest) := by
  induction xs generalizing m latest with
  | nil => exact ⟨m, rfl, stream⟩
  | cons x xs ih =>
    obtain ⟨here, later⟩ := List.forall_mem_cons.mp each
    obtain ⟨m₁, ran, left⟩ := here m latest stream
    obtain ⟨m₂, others, left₂⟩ := ih later left
    refine ⟨m₂, ?_, ?_⟩
    · rw [forEach_cons, ran]
      exact others
    · rw [left₂, List.flatMap_cons, List.reverse_append, List.append_assoc]

end Run

/-- The length of a collection, cut to a type. -/
theorem Ir.Expr.Denotes.length {p : Program} {low n : Nat} {env : Env} {e : Expr} {v : Value}
    (denotes : e.Denotes p low env v) (length : Run.lengthOf v = pure n) (kind : IntKind) :
    (Expr.cast (.len e) kind).Denotes p low env (.int kind (kind.lengthBits n)) := by
  intro m same
  have counted : Run.eval p (.len e) m = .ok (.ofInt .usize n, m) := by
    rw [Run.eval, Run.bind_apply, denotes m same]
    change (Run.lengthOf v m).bind _ = _
    rw [length]
    rfl
  rw [Run.eval, Run.bind_apply, counted]
  rfl

/-- The length is written, then a loop writes the entries. -/
theorem Run.writes_collection {p : Program} {α : Type} {length : Primitive} {kind : IntKind}
    {src : Expr} {v : Value} {xs : List α} {low : Nat} {loop : Stmt} {act : α → Run Unit}
    {written : α → List UInt8} (known : length.intKind? = some kind)
    (counted : lengthOf v = pure xs.length)
    (runs : ∀ m, eval p src m = .ok (v, m) → exec p loop m = forEach act xs m)
    (each : ∀ x ∈ xs, ∀ m latest, m.stream = .output latest →
      ∃ m', act x m = .ok ((), m') ∧ m'.stream = .output ((written x).reverse ++ latest)) :
    Stmt.Writes p low src v [.write length (.cast (.len src) kind), loop]
      (Wire.intBytes p.order length kind (kind.lengthBits xs.length).toNat ++
        xs.flatMap written) := by
  intro m latest denotes stream
  obtain ⟨m₁, ran₁, same, stream₁⟩ :=
    exec_write_int known (denotes.length counted kind m (.refl _ _)) stream
  have value : eval p src m₁ = .ok (v, m₁) := denotes m₁ (same ▸ Env.Agrees.refl low m.env)
  obtain ⟨m₂, ran₂, stream₂⟩ := writes_forEach each stream₁
  refine ⟨m₂, ?_, ?_⟩
  · rw [execBlock_cons, ran₁]
    change execBlock p [loop] m₁ = _
    rw [execBlock_single, runs m₁ value, ran₂]
  · rw [stream₂, List.reverse_append, List.append_assoc]

/-! ### Decoders -/

namespace Setting

variable {s : Setting} {σ τ : Session} {length : Primitive} {kind : IntKind}

/-- The body is what a computation emits and yields in the middle of a function. -/
structure Body (s : Setting) (act : Gen Expr) (σ : Session) (b : Block) : Prop where
  ready : σ.Ready s.types
  made : ∃ τ, Runs act σ b.result τ ∧ σ.Emits s.types τ b.stmts ∧ s.leads τ

/-- The code of a collection: its length is read, and each round of the loop adds an entry. -/
theorem Body.collection {empty : Expr} {item : Gen Expr} {b : Block}
    (body : s.Body (decodeCollection length empty item) σ b)
    (builds : ∀ visible, Builds s.types visible [] item Yields) :
    ∃ (count acc : Local) (σ₁ : Session) (inner : Block), count.id < acc.id ∧
      acc.id < σ₁.draft.nextLocal ∧ s.Body item σ₁ inner ∧
      b = ⟨[.bind count false (some (.read length)), .bind acc true (some empty),
        .times (.var count) (inner.elide.stmts ++ [.push acc inner.elide.result])], .var acc⟩ := by
  obtain ⟨stmts, e⟩ := b
  obtain ⟨ready, τ, ran, emits, leads⟩ := body
  unfold decodeCollection at ran
  split at ran
  · exact (runs_throw.mp ran).elim
  obtain ⟨name, _, hinted, ran₁⟩ := runs_bind.mp ran
  cases (runs_lastHint.mp hinted).2
  obtain ⟨count, σ₀, counted, ran₂⟩ := runs_bind.mp ran₁
  obtain ⟨read, _, nothing, taken, quiet, _, first, _, next⟩ :=
    emits_declare counted ready fun _ => builds_pure ⟨rfl, Expr.scoped_read⟩
  obtain ⟨rfl, rfl⟩ := runs_pure.mp taken
  obtain ⟨_, still⟩ := quiet.grows
  cases still.unique (.refl _) ready.pushScope.opened
  obtain ⟨acc, _, declared, ran₃⟩ := runs_bind.mp ran₂
  obtain ⟨named, rfl⟩ := runs_declareMut.mp declared
  have second := (Draft.grows_alloc σ₀.draft name).trans
    (Draft.grows_emit _ (.bind acc true (some empty)))
  have ready₁ : (mapDraft (fun d => (d.alloc name).2.emit (.bind acc true (some empty))) σ₀).Ready
      s.types := first.ready.grow ⟨first.ready.refs, first.ready.codecs⟩ second
  obtain ⟨block, _, captured, ran₄⟩ := runs_bind.mp ran₃
  obtain ⟨result, σ₂, inner, made, emits₂, rfl, rfl, _, _, third⟩ :=
    emits_captureBlock captured ready₁ builds
  obtain ⟨_, _, emitted, ran₅⟩ := runs_bind.mp ran₄
  cases runs_emit.mp emitted
  obtain ⟨rfl, rfl⟩ := runs_pure.mp ran₅
  -- Four pieces were emitted: the count, the empty collection, nothing for the block, and the loop.
  obtain ⟨_, whole⟩ := emits.grows
  obtain ⟨_, first'⟩ := first.grows
  cases whole.unique (((first'.trans second).trans third).trans (Draft.grows_emit _ _)) ready.opened
  have own : acc.id = σ₀.draft.nextLocal := congrArg Local.id named
  refine ⟨count, acc, _, ⟨inner, result⟩, ?_, ?_,
    ⟨ready₁.pushScope, σ₂, made, emits₂, s.redraft leads⟩, rfl⟩
  · rw [own, next]
    exact Nat.lt_succ_self _
  · have after := (Draft.grows_alloc σ₀.draft name).next
    rw [own]
    exact Nat.lt_of_lt_of_eq (Nat.lt_of_lt_of_eq (Nat.lt_succ_self _) after.symm)
      (Draft.nextLocal_updateScope _ _).symm

/-- Where the count says so, the code reads the entries in order. -/
theorem reads_collection {α : Type} {whole : List α → Value} {entry : α → Value}
    (collects : Value.Collects whole entry) {empty : Expr} {item : Gen Expr} {b : Block}
    {taken : α → List UInt8} {xs : List α} (known : length.intKind? = some kind)
    (new : ∀ m, Run.eval s.reader empty m = .ok (whole [], m))
    (builds : ∀ visible, Builds s.types visible [] item Yields)
    (each : ∀ σ₁ inner, s.Body item σ₁ inner → ∀ x ∈ xs, inner.Reads s.reader (taken x) (entry x))
    (body : s.Body (decodeCollection length empty item) σ b) {count : BitVec kind.bits}
    (rounds : (kind.view count).toNat = xs.length) :
    b.Reads s.reader
      (Wire.intBytes s.reader.order length kind count.toNat ++ xs.flatMap taken) (whole xs) := by
  obtain ⟨n, acc, σ₁, inner, before, below, made, rfl⟩ := body.collection builds
  obtain ⟨_, _, emits, _⟩ := made.made
  have reads (x : α) (member : x ∈ xs) : inner.elide.Reads s.reader (taken x) (entry x) :=
    (each σ₁ inner made x member).elide s.readerIsolated emits.owns.tidy
  intro m rest position stream
  rw [List.append_assoc] at stream
  -- The count is read and bound, and the collection starts out empty.
  obtain ⟨m₁, read, left⟩ :=
    Block.reads_read (Wire.takes_read_int s.reader.order known count) m _ position stream
  have read : Run.eval s.reader (.read length) m = .ok (.int kind count, m₁) := read
  let m₂ : Machine := { m₁ with env := (m₁.env.set n.id (.int kind count)).set acc.id (whole []) }
  have counted : m₂.env.get? n.id = some (.int kind count) := by
    rw [Env.get?_set, if_neg (Nat.ne_of_lt before), Env.get?_set, if_pos rfl]
  have started : m₂.env.get? acc.id = some (whole []) := (Env.get?_set _ _ _ _).trans (if_pos rfl)
  have bound : Run.exec s.reader (.bind acc true (some empty))
      { m₁ with env := m₁.env.set n.id (.int kind count) } = .ok ((), m₂) := by
    rw [Run.exec_bind, new]
    rfl
  obtain ⟨m₃, looped, left₃, whole₃⟩ :=
    Run.reads_times s.readerIsolated collects emits.owns.elide below reads started left
  have loop : Run.exec s.reader
      (.times (.var n) (inner.elide.stmts ++ [.push acc inner.elide.result])) m₂ = .ok ((), m₃) := by
    rw [Run.exec, Run.bind_apply, Run.eval_var counted]
    change Run.times _ (kind.view count).toNat m₂ = _
    rw [rounds]
    exact looped
  refine ⟨m₃, ?_, ?_⟩
  · rw [Run.evalBlock_apply, Run.execBlock_cons, Run.exec_bind, read]
    change (Run.execBlock s.reader (_ :: _) _).bind _ = _
    rw [Run.execBlock_cons, bound]
    change (Run.execBlock s.reader [_] _).bind _ = _
    rw [Run.execBlock_single, loop]
    exact Run.eval_var (p := s.reader) whole₃
  · rw [left₃, List.length_append, Nat.add_assoc]

/-- Decoders of a list make a round for each item that is announced. -/
theorem reads_list {item : Shape} {taken : Value → List UInt8} {items : List Value}
    (known : length.intKind? = some kind) (clean : item.Clean s.hooks s.types)
    (reads : ∀ v ∈ items, s.Reads item (taken v) v) {count : BitVec kind.bits}
    (rounds : (kind.view count).toNat = items.length) :
    s.Reads (.list item length)
      (Wire.intBytes s.reader.order length kind count.toNat ++ items.flatMap taken)
      (.list items) := by
  rintro σ b ⟨ready, depth, τ, ran, emits, leads⟩
  obtain _ | depth := depth
  · exact (runs_throw.mp ran).elim
  refine reads_collection Value.collects_list known (fun _ => rfl)
    (fun visible => (clean.decodeExpr depth visible).withHint) ?_
    ⟨ready, τ, ran, emits, leads⟩ rounds
  rintro σ₁ inner ⟨ready₁, τ₁, ran₁, emits₁, leads₁⟩ v member
  obtain ⟨τ₂, ran₂, rfl⟩ := runs_withHint.mp ran₁
  obtain ⟨_, grows⟩ := emits₁.grows
  have emits₂ : Session.Emits s.types { σ₁ with draft.hints := "item" :: σ₁.draft.hints } τ₂
      inner.stmts := emits₁.redraft ⟨rfl, rfl, rfl⟩ ⟨rfl, rfl, rfl⟩
        (emits₁.ready.withHints τ₂.draft.hints) grows.groups
  exact reads v member _ inner ⟨ready₁.withHints _, depth, τ₂, ran₂, emits₂, s.redraft leads₁⟩

/-- The key is read and bound, then the value. -/
theorem Body.reads_entry {depth : Nat} {key value : Shape} {b : Block} {k v : Value}
    {front back : List UInt8} (body : s.Body (bindEntry (emitter s.hooks depth) key value) σ b)
    (cleanKey : key.Clean s.hooks s.types) (cleanValue : value.Clean s.hooks s.types)
    (readsKey : s.Reads key front k) (readsValue : s.Reads value back v) :
    b.Reads s.reader (front ++ back) (.list [k, v]) := by
  obtain ⟨stmts, result⟩ := b
  obtain ⟨ready, τ, ran, emits, leads⟩ := body
  obtain ⟨x, σ₁, bound, ran₁⟩ := runs_bind.mp ran
  obtain ⟨y, σ₂, bound', ran₂⟩ := runs_bind.mp ran₁
  obtain ⟨rfl, rfl⟩ := runs_pure.mp ran₂
  have none : ∀ e ∈ ([] : List Expr), ∀ x ∈ e.locals, x < σ.draft.nextLocal := nofun
  obtain ⟨_, emits₁⟩ := emits_of_builds bound ready none fun visible _ =>
    (cleanKey.decodeExpr depth visible).declare.withHint.weaken fun _ _ _ _ => And.left
  have anywhere {t : Shape} {bytes : List UInt8} {w : Value} (reads : s.Reads t bytes w) (σ : Session)
      (b : Block) (decoder : s.Decoder t σ b) : b.ReadsWhere s.reader (fun _ => True) bytes w :=
    (reads σ b decoder).everywhere
  -- The value tells that the session between the two leads on, so it comes first.
  obtain ⟨leads₁, _, later, emits₂, second⟩ :=
    reads_declared cleanValue emits₁.ready leads (anywhere readsValue _) bound'
  obtain ⟨_, below, early, emits₁, first⟩ :=
    reads_declared cleanKey ready leads₁ (anywhere readsKey _) bound
  obtain ⟨_, grows⟩ := emits.grows
  obtain ⟨_, grows₁⟩ := emits₁.grows
  obtain ⟨_, grows₂⟩ := emits₂.grows
  cases grows.unique (grows₁.trans grows₂) ready.opened
  have kept (env env' : Env) (agrees : env.Agrees σ₁.draft.nextLocal env')
      (old : env.get? x.id = some k) : env'.get? x.id = some k := (agrees _ below).trans old
  have tail := second.frame s.readerIsolated emits₂.owns kept
  have both := first.append (tail.weaken (fun _ holds => ⟨trivial, holds⟩) fun _ => id)
  intro m rest position stream
  refine both.block (fun m ⟨there, here⟩ => ?_) m rest position trivial stream
  rw [Run.eval, Run.bind_apply, Run.eval_var here]
  change (Run.eval s.reader (.var y) m).bind _ = _
  rw [Run.eval_var there]
  rfl

/-- Decoders of a map make a round for each entry that is announced. -/
theorem reads_map {key value : Shape} {takenKey takenValue : Value → List UInt8}
    {entries : List (Value × Value)} (known : length.intKind? = some kind)
    (cleanKey : key.Clean s.hooks s.types) (cleanValue : value.Clean s.hooks s.types)
    (reads : ∀ e ∈ entries, s.Reads key (takenKey e.1) e.1 ∧ s.Reads value (takenValue e.2) e.2)
    {count : BitVec kind.bits} (rounds : (kind.view count).toNat = entries.length) :
    s.Reads (.map key value length) (Wire.intBytes s.reader.order length kind count.toNat ++
      entries.flatMap fun e => takenKey e.1 ++ takenValue e.2) (.map entries) := by
  rintro σ b ⟨ready, depth, τ, ran, emits, leads⟩
  obtain _ | depth := depth
  · exact (runs_throw.mp ran).elim
  refine reads_collection Value.collects_map known (fun _ => rfl)
    (fun visible => builds_bindEntry (cleanKey.decodeExpr depth) (cleanValue.decodeExpr depth)) ?_
    ⟨ready, τ, ran, emits, leads⟩ rounds
  intro σ₁ inner body e member
  obtain ⟨readsKey, readsValue⟩ := reads e member
  exact body.reads_entry cleanKey cleanValue readsKey readsValue

/-! ### Encoders -/

theorem emits_writeLength (known : length.intKind? = some kind) {src : Expr} {u : Unit}
    (ran : Runs (writeLength length src) σ u τ) :
    Runs (emit (.write length (.cast (.len src) kind))) σ u τ := by
  obtain ⟨kind', _, looked, emitted⟩ := runs_bind.mp ran
  obtain ⟨found, rfl⟩ := runs_ofExcept.mp looked
  rw [backingKind_of_known known, Except.ok.injEq] at found
  rwa [← found] at emitted

/-- Encoders write the length of a list, cut to its type, and all items. -/
theorem writes_list {item : Shape} {written : Value → List UInt8} {items : List Value}
    (known : length.intKind? = some kind) (clean : item.Clean s.hooks s.types)
    (writes : ∀ v ∈ items, s.Writes item v (written v)) :
    s.Writes (.list item length) (.list items)
      (Wire.intBytes s.writer.order length kind (kind.lengthBits items.length).toNat ++
        items.flatMap written) := by
  rintro src σ stmts ⟨ready, _, depth, τ, ran, emits, leads⟩
  obtain _ | depth := depth
  · exact (runs_throw.mp ran).elim
  obtain ⟨_, σ₁, counted, ran₁⟩ := runs_bind.mp ran
  obtain ⟨ready₁, ⟨_, grows₁⟩, _⟩ := ready_emit (emits_writeLength known counted) ready
  obtain ⟨x, σ₂, allocated, ran₂⟩ := runs_bind.mp ran₁
  obtain ⟨ready₂, ⟨_, grows₂⟩, _, next⟩ := ready_alloc allocated ready₁
  have below : x.id < σ₂.draft.nextLocal := by omega
  have own : ∀ y ∈ (Expr.place x).locals, y < σ₂.draft.nextLocal :=
    List.forall_mem_singleton.mpr below
  obtain ⟨⟨body, u⟩, _, captured, ran₃⟩ := runs_bind.mp ran₂
  obtain ⟨σ₃, made, emits₃, rfl, ready₃, _, grows₃⟩ := emits_capture captured ready₂
    (List.forall_mem_singleton.mpr own)
    fun visible seen => (clean.encode depth _ visible (seen _ List.mem_cons_self)).withHint
  obtain ⟨_, ⟨_, grows₄⟩, _⟩ := ready_emit ran₃ ready₃
  cases runs_emit.mp ran₃
  have leads₃ : s.leads σ₃ := s.redraft leads
  obtain ⟨_, grows⟩ := emits.grows
  cases grows.unique (((grows₁.trans grows₂).trans grows₃).trans grows₄) ready.opened
  have loop (m : Machine) (value : Run.eval s.writer src m = .ok (.list items, m)) :
      Run.exec s.writer (.forEach x src body) m =
        Run.forEach (fun v => do Run.bind x v; Run.execBlock s.writer body) items m := by
    rw [Run.exec, Run.bind_apply, value]
    rfl
  -- One body serves all items, so each of them is written by the statements that were captured.
  refine Run.writes_collection known rfl loop fun v member m latest stream => ?_
  obtain ⟨_, _, emits₄, writes₄⟩ :=
    writes_hinted clean (writes v member) ready₂.pushScope own leads₃ made
  obtain ⟨_, first⟩ := emits₃.grows
  obtain ⟨_, second⟩ := emits₄.grows
  cases first.unique second ready₂.pushScope.opened
  have held : (m.env.set x.id v).get? x.id = some v := (Env.get?_set _ _ _ _).trans (if_pos rfl)
  exact writes₄ { m with env := m.env.set x.id v } latest (Expr.denotes_place held below) stream

/-- The key is written, then the value. -/
theorem writes_entry {depth : Nat} {key value : Shape} {x y : Local} {k v : Value}
    {front back : List UInt8} {stmts : List Stmt} {u : Unit}
    (cleanKey : key.Clean s.hooks s.types) (cleanValue : value.Clean s.hooks s.types)
    (writesKey : s.Writes key k front) (writesValue : s.Writes value v back)
    (ready : σ.Ready s.types) (leads : s.leads τ) (belowX : x.id < σ.draft.nextLocal)
    (belowY : y.id < σ.draft.nextLocal)
    (ran : Runs (do
      Gen.withHint "key" ((emitter s.hooks depth).encode key (.place x))
      Gen.withHint "value" ((emitter s.hooks depth).encode value (.place y))) σ u τ)
    (emits : σ.Emits s.types τ stmts) {m : Machine} {latest : List UInt8}
    (holdsX : m.env.get? x.id = some k) (holdsY : m.env.get? y.id = some v)
    (stream : m.stream = .output latest) :
    ∃ m', Run.execBlock s.writer stmts m = .ok ((), m') ∧
      m'.stream = .output ((front ++ back).reverse ++ latest) := by
  obtain ⟨_, σ₁, here, later⟩ := runs_bind.mp ran
  have ownX : ∀ z ∈ (Expr.place x).locals, z < σ.draft.nextLocal := List.forall_mem_singleton.mpr belowX
  obtain ⟨_, emits₁⟩ := emits_of_builds here ready (List.forall_mem_singleton.mpr ownX)
    fun visible seen => (cleanKey.encode depth _ visible (seen _ List.mem_cons_self)).withHint
  have ownY : ∀ z ∈ (Expr.place y).locals, z < σ₁.draft.nextLocal :=
    List.forall_mem_singleton.mpr (Nat.lt_of_lt_of_le belowY emits₁.owns.le)
  obtain ⟨leads₁, _, emits₂, second⟩ :=
    writes_hinted cleanValue writesValue emits₁.ready ownY leads later
  obtain ⟨_, _, emits₁, first⟩ := writes_hinted cleanKey writesKey ready ownX leads₁ here
  obtain ⟨_, grows⟩ := emits.grows
  obtain ⟨_, grows₁⟩ := emits₁.grows
  obtain ⟨_, grows₂⟩ := emits₂.grows
  cases grows.unique (grows₁.trans grows₂) ready.opened
  obtain ⟨m₁, ran₁, stream₁⟩ := first m latest (Expr.denotes_place holdsX belowX) stream
  -- What was run for the key leaves the value bound.
  have agrees := Run.agrees_execBlock s.writerIsolated emits₁.owns ran₁
  have value := (Expr.denotes_place (p := s.writer) holdsY belowY).mono agrees emits₁.owns.le
  obtain ⟨m₂, ran₂, stream₂⟩ := second m₁ _ value stream₁
  refine ⟨m₂, ?_, ?_⟩
  · rw [Run.execBlock_append, ran₁]
    exact ran₂
  · rw [stream₂, List.reverse_append, List.append_assoc]

/-- Encoders write the length of a map, cut to its type, and all entries. -/
theorem writes_map {key value : Shape} {writtenKey writtenValue : Value → List UInt8}
    {entries : List (Value × Value)} (known : length.intKind? = some kind)
    (cleanKey : key.Clean s.hooks s.types) (cleanValue : value.Clean s.hooks s.types)
    (writes : ∀ e ∈ entries, s.Writes key e.1 (writtenKey e.1) ∧
      s.Writes value e.2 (writtenValue e.2)) :
    s.Writes (.map key value length) (.map entries)
      (Wire.intBytes s.writer.order length kind (kind.lengthBits entries.length).toNat ++
        entries.flatMap fun e => writtenKey e.1 ++ writtenValue e.2) := by
  rintro src σ stmts ⟨ready, _, depth, τ, ran, emits, leads⟩
  obtain _ | depth := depth
  · exact (runs_throw.mp ran).elim
  obtain ⟨_, σ₁, counted, ran₁⟩ := runs_bind.mp ran
  obtain ⟨ready₁, ⟨_, grows₁⟩, _⟩ := ready_emit (emits_writeLength known counted) ready
  obtain ⟨x, σ₂, allocated, ran₂⟩ := runs_bind.mp ran₁
  obtain ⟨ready₂, ⟨_, grows₂⟩, _, nextX⟩ := ready_alloc allocated ready₁
  obtain ⟨y, σ₃, allocated', ran₃⟩ := runs_bind.mp ran₂
  obtain ⟨ready₃, ⟨_, grows₃⟩, ownY, nextY⟩ := ready_alloc allocated' ready₂
  have belowX : x.id < σ₃.draft.nextLocal := by omega
  have belowY : y.id < σ₃.draft.nextLocal := by omega
  have own : ∀ e ∈ [Expr.place x, .place y], ∀ z ∈ e.locals, z < σ₃.draft.nextLocal :=
    List.forall_mem_cons.mpr ⟨List.forall_mem_singleton.mpr belowX,
      List.forall_mem_singleton.mpr (List.forall_mem_singleton.mpr belowY)⟩
  obtain ⟨⟨body, u⟩, _, captured, ran₄⟩ := runs_bind.mp ran₃
  obtain ⟨σ₄, made, emits₄, rfl, ready₄, _, grows₄⟩ := emits_capture captured ready₃ own
    fun visible seen => by
      refine (cleanKey.encode depth _ visible (seen _ List.mem_cons_self)).withHint.bind ?_
      rintro _ visible' _ wider rfl
      refine (cleanValue.encode depth _ visible' ?_).withHint
      exact (seen _ (List.mem_cons_of_mem _ List.mem_cons_self)).widen wider
  obtain ⟨_, ⟨_, grows₅⟩, _⟩ := ready_emit ran₄ ready₄
  cases runs_emit.mp ran₄
  obtain ⟨_, grows⟩ := emits.grows
  cases grows.unique ((((grows₁.trans grows₂).trans grows₃).trans grows₄).trans grows₅) ready.opened
  have loop (m : Machine) (value : Run.eval s.writer src m = .ok (.map entries, m)) :
      Run.exec s.writer (.forEachPair x y src body) m = Run.forEach (fun e => do
        Run.bind x e.1
        Run.bind y e.2
        Run.execBlock s.writer body) entries m := by
    rw [Run.exec, Run.bind_apply, value]
    rfl
  refine Run.writes_collection known rfl loop fun e member m latest stream => ?_
  obtain ⟨writesKey, writesValue⟩ := writes e member
  have holdsY : ((m.env.set x.id e.1).set y.id e.2).get? y.id = some e.2 :=
    (Env.get?_set _ _ _ _).trans (if_pos rfl)
  have holdsX : ((m.env.set x.id e.1).set y.id e.2).get? x.id = some e.1 := by
    rw [Env.get?_set, if_neg (by omega), Env.get?_set, if_pos rfl]
  have leads₄ : s.leads σ₄ := s.redraft leads
  exact writes_entry cleanKey cleanValue writesKey writesValue ready₃.pushScope leads₄ belowX belowY
    made emits₄ holdsX holdsY stream

end Setting

/-! ### Generation succeeds -/

namespace Shape.Clean

variable {hooks : Hooks} {types : Refs}

theorem list {item : Shape} (clean : item.Clean hooks types) (length : Primitive) :
    (Shape.list item length).Clean hooks types := by
  constructor
  case typeExpr =>
    intro depth
    cases depth with
    | zero => exact keeps_throw
    | succ depth =>
      exact keeps_aliasedOr ((clean.typeExpr depth).withHint.bind fun _ _ => keeps_pure trivial)
  case decodeExpr =>
    intro depth visible
    cases depth with
    | zero => exact builds_throw
    | succ depth =>
      exact builds_decodeCollection (fun _ => Expr.scoped_newList) fun visible =>
        (clean.decodeExpr depth visible).withHint
  case encode =>
    intro depth src visible seen
    cases depth with
    | zero => exact builds_throw
    | succ depth => exact builds_encodeList hooks (clean.encode depth) seen

theorem map {key value : Shape} (keys : key.Clean hooks types) (values : value.Clean hooks types)
    (length : Primitive) : (Shape.map key value length).Clean hooks types := by
  constructor
  case typeExpr =>
    intro depth
    cases depth with
    | zero => exact keeps_throw
    | succ depth =>
      exact keeps_aliasedOr ((keys.typeExpr depth).withHint.bind fun _ _ =>
        (values.typeExpr depth).withHint.bind fun _ _ => keeps_pure trivial)
  case decodeExpr =>
    intro depth visible
    cases depth with
    | zero => exact builds_throw
    | succ depth =>
      exact builds_decodeCollection (fun _ => Expr.scoped_newMap) fun visible =>
        builds_bindEntry (keys.decodeExpr depth) (values.decodeExpr depth)
  case encode =>
    intro depth src visible seen
    cases depth with
    | zero => exact builds_throw
    | succ depth => exact builds_encodeMap hooks (keys.encode depth) (values.encode depth) seen

end Shape.Clean

namespace Setting

variable {s : Setting} {σ : Session} {length : Primitive} {kind : IntKind} {depth : Nat}

theorem proceeds_decodeCollection {groups : List ActiveGroup} {empty : Expr} {item : Gen Expr}
    (known : length.intKind? = some kind) (inner : Proceeds s.types groups item fun _ => True)
    (builds : ∀ visible, Builds s.types visible [] item Yields) :
    Proceeds s.types groups (decodeCollection length empty item) fun _ => True := by
  have integer : length.isInteger = true := by rw [Primitive.isInteger, known]; rfl
  unfold decodeCollection
  rw [integer]
  refine (proceeds_lastHint _).bind fun name _ => ?_
  refine (Proceeds.declare (Q := fun _ => True) (proceeds_pure trivial) fun _ =>
    builds_pure ⟨rfl, Expr.scoped_read⟩).bind fun count _ => ?_
  refine (proceeds_declareMut name empty).bind fun acc _ => ?_
  refine (inner.captureBlock builds).bind fun block _ => ?_
  exact (proceeds_emit _).bind fun _ _ => proceeds_pure trivial

/-- A value can be written under a hint. -/
theorem Generates.hinted {t : Shape} (generates : s.Generates depth t) (src : Expr)
    (ready : σ.Ready s.types) (known : ∀ x ∈ src.locals, x < σ.draft.nextLocal) (hint : String) :
    ∃ τ stmts, Runs (Gen.withHint hint ((emitter s.hooks depth).encode t src)) σ () τ ∧
      σ.Emits s.types τ stmts := by
  obtain ⟨τ, stmts, ran, emits⟩ :=
    generates.encode _ src (ready.withHints (hint :: σ.draft.hints)) known
  obtain ⟨_, grows⟩ := emits.grows
  refine ⟨_, stmts, runs_withHint.mpr ⟨τ, ran, rfl⟩, ?_⟩
  exact emits.redraft ⟨rfl, rfl, rfl⟩ ⟨rfl, rfl, rfl⟩ (emits.ready.withHints _) grows.groups

theorem succeeds_writeLength (known : length.intKind? = some kind) (src : Expr)
    (ready : σ.Ready s.types) :
    ∃ τ, Runs (writeLength length src) σ () τ ∧ τ.Ready s.types := by
  obtain ⟨τ, ran⟩ : ∃ τ, Runs (writeLength length src) σ () τ :=
    ⟨_, runs_bind.mpr ⟨kind, σ, runs_ofExcept.mpr ⟨backingKind_of_known known, rfl⟩,
      runs_emit.mpr rfl⟩⟩
  exact ⟨τ, ran, (ready_emit (emits_writeLength known ran) ready).1⟩

theorem generates_list {item : Shape} (known : length.intKind? = some kind)
    (clean : item.Clean s.hooks s.types) (generates : s.Generates depth item) :
    s.Generates (depth + 1) (.list item length) := by
  refine generates_of_clean (clean.list length) (fun σ ready => ?_) (fun σ ready => ?_)
    fun σ src ready _ => ?_
  · apply Proceeds.succeeds _ ready
    exact proceeds_aliasedOr (((proceeds_typeExpr clean generates.typeExpr).withHint "item").bind
      fun _ _ => proceeds_pure trivial) _
  · apply Proceeds.succeeds _ ready
    exact proceeds_decodeCollection known ((generates.proceeds _).withHint "item")
      fun visible => (clean.decodeExpr depth visible).withHint
  · obtain ⟨σ₁, counted, ready₁⟩ := succeeds_writeLength known src ready
    obtain ⟨x, σ₂, allocated, ready₂, _, below⟩ := succeeds_alloc "item" ready₁
    obtain ⟨σ₃, _, made, _⟩ := generates.hinted (.place x) ready₂.pushScope
      (List.forall_mem_singleton.mpr below) "item"
    exact ⟨_, runs_bind.mpr ⟨(), σ₁, counted, runs_bind.mpr ⟨x, σ₂, allocated, runs_bind.mpr
      ⟨(_, ()), _, runs_capture.mpr ⟨σ₃, made, rfl, rfl⟩, runs_emit.mpr rfl⟩⟩⟩⟩

theorem generates_map {key value : Shape} (known : length.intKind? = some kind)
    (cleanKey : key.Clean s.hooks s.types) (cleanValue : value.Clean s.hooks s.types)
    (keys : s.Generates depth key) (values : s.Generates depth value) :
    s.Generates (depth + 1) (.map key value length) := by
  refine generates_of_clean (cleanKey.map cleanValue length) (fun σ ready => ?_) (fun σ ready => ?_)
    fun σ src ready _ => ?_
  · apply Proceeds.succeeds _ ready
    exact proceeds_aliasedOr (((proceeds_typeExpr cleanKey keys.typeExpr).withHint "key").bind
      fun _ _ => ((proceeds_typeExpr cleanValue values.typeExpr).withHint "value").bind
        fun _ _ => proceeds_pure trivial) _
  · have entry : Proceeds s.types σ.draft.groups (bindEntry (emitter s.hooks depth) key value)
        fun _ => True := by
      refine (((keys.proceeds _).declare
        (cleanKey.decodeExpr depth)).withHint "key").bind fun _ _ => ?_
      refine (((values.proceeds _).declare
        (cleanValue.decodeExpr depth)).withHint "value").bind fun _ _ => ?_
      exact proceeds_pure trivial
    apply Proceeds.succeeds _ ready
    exact proceeds_decodeCollection known entry fun visible =>
      builds_bindEntry (cleanKey.decodeExpr depth) (cleanValue.decodeExpr depth)
  · obtain ⟨σ₁, counted, ready₁⟩ := succeeds_writeLength known src ready
    obtain ⟨x, σ₂, allocated, ready₂, _, belowX⟩ := succeeds_alloc "key" ready₁
    obtain ⟨y, σ₃, allocated', ready₃, after, belowY⟩ := succeeds_alloc "val" ready₂
    have early : x.id < σ₃.draft.nextLocal := by omega
    obtain ⟨σ₄, _, made, emits⟩ := keys.hinted (.place x) ready₃.pushScope
      (List.forall_mem_singleton.mpr early) "key"
    have late : y.id < σ₄.draft.nextLocal := Nat.lt_of_lt_of_le belowY emits.owns.le
    obtain ⟨σ₅, _, made', _⟩ := values.hinted (.place y) emits.ready
      (List.forall_mem_singleton.mpr late) "value"
    exact ⟨_, runs_bind.mpr ⟨(), σ₁, counted, runs_bind.mpr ⟨x, σ₂, allocated, runs_bind.mpr
      ⟨y, σ₃, allocated', runs_bind.mpr ⟨(_, ()), _, runs_capture.mpr
        ⟨σ₅, runs_bind.mpr ⟨(), σ₄, made, made'⟩, rfl, rfl⟩, runs_emit.mpr rfl⟩⟩⟩⟩⟩

/-! ### Collections that come back -/

/-- A collection is written as its length, cut to the length type, and its entries. A decoder takes
the entries that the cut length announces, and leaves the others. -/
def CutToLength (s : Setting) (t : Shape) (length : Primitive) (kind : IntKind) {α : Type}
    (whole : List α → Value) (xs : List α) : Prop :=
  ∃ each : α → List UInt8,
    s.Writes t (whole xs) (Wire.intBytes s.writer.order length kind
      (kind.lengthBits xs.length).toNat ++ xs.flatMap each) ∧
    s.Decodes t (Wire.intBytes s.writer.order length kind (kind.lengthBits xs.length).toNat ++
      (xs.take (kind.announced xs.length)).flatMap each) (whole (xs.take (kind.announced xs.length)))

variable {typed typed' : Value → Prop}

theorem length_take_announced {α : Type} (xs : List α) :
    (kind.view (kind.lengthBits xs.length)).toNat = (xs.take (kind.announced xs.length)).length := by
  rw [List.length_take, Nat.min_eq_left (kind.announced_le xs.length)]
  rfl

theorem RoundTrips.list_cut {item : Shape} (carried : s.RoundTrips item typed)
    (known : length.intKind? = some kind) {items : List Value} (holds : ∀ v ∈ items, typed v) :
    s.CutToLength (.list item length) length kind .list items := by
  choose! each carries using carried.carries
  refine ⟨each, writes_list known carried.clean fun v member => (carries v (holds v member)).writes, ?_⟩
  rw [s.order]
  refine (reads_list known carried.clean (fun v member => ?_) (length_take_announced items)).decodes
  exact (carries v (holds v (List.mem_of_mem_take member))).reads

theorem RoundTrips.map_cut {key value : Shape} (keys : s.RoundTrips key typed)
    (values : s.RoundTrips value typed') (known : length.intKind? = some kind)
    {entries : List (Value × Value)} (holds : ∀ e ∈ entries, typed e.1 ∧ typed' e.2) :
    s.CutToLength (.map key value length) length kind .map entries := by
  choose! eachKey carriesKey using keys.carries
  choose! eachValue carriesValue using values.carries
  refine ⟨_, writes_map known keys.clean values.clean fun e member =>
    ⟨(carriesKey _ (holds e member).1).writes, (carriesValue _ (holds e member).2).writes⟩, ?_⟩
  rw [s.order]
  refine (reads_map known keys.clean values.clean (fun e member => ?_)
    (length_take_announced entries)).decodes
  have member := List.mem_of_mem_take member
  exact ⟨(carriesKey _ (holds e member).1).reads, (carriesValue _ (holds e member).2).reads⟩

/-- A collection that the length type can count comes back. -/
theorem CutToLength.carries {t : Shape} {α : Type} {whole : List α → Value} {xs : List α}
    (cut : s.CutToLength t length kind whole xs) (counts : kind.Counts xs.length) :
    ∃ bytes, s.Carries t (whole xs) bytes (whole xs) := by
  obtain ⟨each, writes, decodes⟩ := cut
  rw [IntKind.announced_eq_self_iff.mpr counts, List.take_length] at decodes
  exact ⟨_, writes, fun σ b decoder => (decodes σ b decoder).1⟩

/-- Encoders write some bytes for the value. Every decoder reads a value from them, whatever follows,
and it is the same value exactly if the condition holds. -/
def ComesBackIff (s : Setting) (t : Shape) (v : Value) (condition : Prop) : Prop :=
  ∃ bytes, s.Writes t v bytes ∧ ∀ σ b, s.Decoder t σ b → ∀ m rest position,
    m.stream = .input ⟨bytes ++ rest, position⟩ →
      ∃ w m', Run.evalBlock s.reader b.elide m = .ok (w, m') ∧ (w = v ↔ condition)

/-- A collection comes back exactly if the length type can count it. -/
theorem CutToLength.comes_back_iff {t : Shape} {α : Type} {whole : List α → Value} {xs : List α}
    (cut : s.CutToLength t length kind whole xs) (injective : Function.Injective whole) :
    s.ComesBackIff t (whole xs) (kind.Counts xs.length) := by
  obtain ⟨each, writes, decodes⟩ := cut
  refine ⟨_, writes, fun σ b decoder m rest position stream => ?_⟩
  -- The items that were not announced are part of what follows.
  have split : xs.flatMap each = (xs.take (kind.announced xs.length)).flatMap each ++
      (xs.drop (kind.announced xs.length)).flatMap each := by
    rw [← List.flatMap_append, List.take_append_drop]
  rw [split, ← List.append_assoc, List.append_assoc _ _ rest] at stream
  obtain ⟨m', ran, _⟩ := (decodes σ b decoder).2 m _ position stream
  refine ⟨_, m', ran, ?_⟩
  rw [injective.eq_iff, ← IntKind.announced_eq_self_iff]
  constructor
  · intro same
    have shorter := congrArg List.length same
    rwa [← length_take_announced] at shorter
  · intro same
    rw [same, List.take_length]

end Setting

/-- No length is checked: a list comes back exactly if the length type can count its items. -/
theorem Setting.RoundTrips.list_comes_back_iff {s : Setting} {item : Shape} {length : Primitive}
    {kind : IntKind} {typed : Value → Prop} (carried : s.RoundTrips item typed)
    (known : length.intKind? = some kind) {items : List Value} (holds : ∀ v ∈ items, typed v) :
    s.ComesBackIff (.list item length) (.list items) (kind.Counts items.length) :=
  (carried.list_cut known holds).comes_back_iff fun _ _ => Value.list.inj

/-- A map comes back exactly if the length type can count its entries. -/
theorem Setting.RoundTrips.map_comes_back_iff {s : Setting} {key value : Shape}
    {length : Primitive} {kind : IntKind} {typed typed' : Value → Prop}
    (keys : s.RoundTrips key typed) (values : s.RoundTrips value typed')
    (known : length.intKind? = some kind) {entries : List (Value × Value)}
    (holds : ∀ e ∈ entries, typed e.1 ∧ typed' e.2) :
    s.ComesBackIff (.map key value length) (.map entries) (kind.Counts entries.length) :=
  (keys.map_cut values known holds).comes_back_iff fun _ _ => Value.map.inj

/-- Lists of values that come back do so too, if the length type can count their items. -/
theorem Setting.RoundTrips.list {s : Setting} {item : Shape} {length : Primitive} {kind : IntKind}
    {typed : Value → Prop} (carried : s.RoundTrips item typed)
    (known : length.intKind? = some kind) :
    s.RoundTrips (.list item length) fun v => ∃ items, v = .list items ∧ (∀ w ∈ items, typed w) ∧
      kind.Counts items.length := by
  obtain ⟨least, generates⟩ := carried.generates
  refine ⟨⟨carried.clean.list length, least + 1, fun depth deep => ?_⟩, ?_⟩
  · obtain ⟨depth, rfl⟩ := Nat.exists_eq_add_of_le' (Nat.le_trans (Nat.le_add_left 1 least) deep)
    exact generates_list known carried.clean (generates depth (by omega))
  · rintro _ ⟨items, rfl, holds, counts⟩
    exact (carried.list_cut known holds).carries counts

/-- Maps of values that come back do so too, if the length type can count their entries. -/
theorem Setting.RoundTrips.map {s : Setting} {key value : Shape} {length : Primitive}
    {kind : IntKind} {typed typed' : Value → Prop} (keys : s.RoundTrips key typed)
    (values : s.RoundTrips value typed') (known : length.intKind? = some kind) :
    s.RoundTrips (.map key value length) fun v => ∃ entries, v = .map entries ∧
      (∀ e ∈ entries, typed e.1 ∧ typed' e.2) ∧ kind.Counts entries.length := by
  obtain ⟨least, generates⟩ := keys.generates
  obtain ⟨least', generates'⟩ := values.generates
  refine ⟨⟨keys.clean.map values.clean length, max least least' + 1, fun depth deep => ?_⟩, ?_⟩
  · obtain ⟨depth, rfl⟩ : ∃ k, depth = k + 1 := ⟨depth - 1, by omega⟩
    exact generates_map known keys.clean values.clean (generates depth (by omega))
      (generates' depth (by omega))
  · rintro _ ⟨entries, rfl, holds, counts⟩
    exact (keys.map_cut values known holds).carries counts

end WireSchema
