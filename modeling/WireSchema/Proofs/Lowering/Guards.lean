import WireSchema.Proofs.Lowering.BitGroups

/-!
# Optional values guarded by a slot

An optional value whose presence is a slot of a bit group takes no bytes when it is absent, and only
those of the value when it is present: the slot tells which.
-/

namespace WireSchema

open Ir Gen Lowering

/-! ### Conditions -/

namespace Run

variable {p : Program} {m : Machine} {test : Expr} {on : Bool}

theorem eval_cond (known : eval p test m = .ok (.bool on, m)) (yes no : Expr) :
    eval p (.cond test yes no) m = if on then eval p yes m else eval p no m := by
  rw [eval, bind_apply, known]
  cases on <;> rfl

theorem exec_branch (known : eval p test m = .ok (.bool on, m)) (yes no : List Stmt) :
    exec p (.branch test yes no) m = if on then execBlock p yes m else execBlock p no m := by
  rw [exec, bind_apply, known]
  cases on <;> rfl

theorem exec_ifPresent {x : Local} {e : Expr} {v : Value} (known : eval p e m = .ok (v, m))
    (body : List Stmt) : exec p (.ifPresent x e body) m =
      if v.isNull then .ok ((), m) else execBlock p body { m with env := m.env.set x.id v } := by
  rw [exec, bind_apply, known]
  cases null : v.isNull <;> simp only [Except.bind, null, if_true] <;> rfl

/-- A body whose result is assigned. -/
theorem execBlock_assign (stmts : List Stmt) (x : Local) (e : Expr) :
    execBlock p (stmts ++ [.assign x (.present e)]) m = (evalBlock p ⟨stmts, e⟩ m).bind fun out =>
      .ok ((), { out.2 with env := out.2.env.set x.id out.1 }) := by
  rw [execBlock_append, evalBlock_apply]
  cases execBlock p stmts m with
  | error e => rfl
  | ok out => exact execBlock_single _

end Run

namespace Setting

variable {s : Setting} {t : Shape} {σ : Session} {group index : Nat} {kind : SlotKind}
variable {bytes : List UInt8} {v w : Value}

/-- The code of a decoder: the value is decoded where the slot says so. -/
theorem Decoder.guarded {b : Block} {x : Local}
    (decoder : s.Decoder (.optional t (.slot group index kind)) σ b)
    (inside : σ.draft.Inside group x) (clean : t.Clean s.hooks s.types) :
    ∃ test σ₁ body, slotExpr (.var x) kind = .ok test ∧ s.Decoder t σ₁ body ∧
      (body.elide.stmts = [] ∧ b = ⟨[], .cond test (.present body.elide.result) .absent⟩ ∨
        ∃ y, x.id < y.id ∧ b = ⟨[.bind y true (some .absent), .branch test
          (body.elide.stmts ++ [.assign y (.present body.elide.result)]) []], .var y⟩) := by
  obtain ⟨stmts, result⟩ := b
  obtain ⟨ready, depth, τ, ran, emits, leads⟩ := decoder
  obtain _ | depth := depth
  · exact (runs_throw.mp ran).elim
  obtain ⟨refs, _, asked, ran₁⟩ := runs_bind.mp ran
  cases (runs_refs.mp asked).2
  split at ran₁
  · obtain ⟨_, _, _, thrown⟩ := runs_bind.mp ran₁
    exact (runs_throw.mp thrown).elim
  obtain ⟨test, σ₀, tested, ran₂⟩ := runs_bind.mp ran₁
  obtain _ | depth := depth
  · exact (runs_throw.mp tested).elim
  obtain ⟨found, _, active, looked⟩ := runs_bind.mp tested
  obtain ⟨same, unchanged⟩ := runs_activeGroup?.mp active
  rw [same, inside.1, unchanged] at looked
  obtain ⟨slot, rfl⟩ := runs_ofExcept.mp looked
  obtain ⟨block, σ₂, captured, ran₃⟩ := runs_bind.mp ran₂
  obtain ⟨e, σ₁, inner, made, emits₁, rfl, rfl, ready₂, given, grows⟩ :=
    emits_captureBlock captured ready (clean.decodeExpr (depth + 1))
  have decoder (leads : s.leads σ₁) : s.Decoder t (mapDraft Draft.pushScope σ₀) ⟨inner, e⟩ :=
    ⟨ready.pushScope, depth + 1, σ₁, made, emits₁, leads⟩
  obtain ⟨_, whole⟩ := emits.grows
  -- Without statements of its own the value can stand in a conditional expression.
  split at ran₃
  case isTrue empty =>
    obtain ⟨rfl, rfl⟩ := runs_pure.mp ran₃
    cases whole.unique grows ready.opened
    exact ⟨test, _, _, slot, decoder (s.redraft leads), .inl ⟨List.isEmpty_iff.mp empty, rfl⟩⟩
  case isFalse =>
    obtain ⟨hint, _, hinted, ran₄⟩ := runs_bind.mp ran₃
    obtain ⟨rfl, rfl⟩ := runs_lastHint.mp hinted
    obtain ⟨y, _, declared, ran₅⟩ := runs_bind.mp ran₄
    obtain ⟨named, rfl⟩ := runs_declareMut.mp declared
    obtain ⟨_, _, emitted, ran₆⟩ := runs_bind.mp ran₅
    cases runs_emit.mp emitted
    obtain ⟨rfl, rfl⟩ := runs_pure.mp ran₆
    cases whole.unique (grows.trans (((Draft.grows_alloc _ _).trans (Draft.grows_emit _ _)).trans
      (Draft.grows_emit _ _))) ready.opened
    refine ⟨test, _, _, slot, decoder (s.redraft leads), .inr ⟨y, ?_, rfl⟩⟩
    have late : σ₀.draft.nextLocal ≤ y.id := by
      rw [named]
      exact grows.mono
    exact Nat.lt_of_lt_of_le inside.2 late

/-- Where the slot is set the value is read, and otherwise nothing. -/
theorem reads_guarded {r : Value} {on : Bool} (clean : t.Clean s.hooks s.types)
    (test : ∀ x e m, slotExpr (.var x) kind = .ok e → m.env.get? x.id = some r →
      Run.eval s.reader e m = .ok (.bool on, m))
    (present : on = true → s.Reads t bytes w) (absent : on = false → bytes = [] ∧ w = .null) :
    s.ReadsUnder group r (.optional t (.slot group index kind)) bytes w := by
  intro σ b x decoder inside m rest position known stream
  obtain ⟨e, σ₁, body, slot, inner, code⟩ := decoder.guarded inside clean
  rcases code with ⟨none, rfl⟩ | ⟨y, later, rfl⟩
  · change ∃ m', Run.eval s.reader (.cond e (.present body.elide.result) .absent) m = _ ∧ _
    rw [Run.eval_cond (test x e m slot known)]
    cases on with
    | true =>
      have reads := (present rfl).elide inner m rest position stream
      rw [Run.evalBlock_apply, none] at reads
      exact reads
    | false =>
      obtain ⟨rfl, rfl⟩ := absent rfl
      exact ⟨m, rfl, stream⟩
  · -- The binding starts out empty; the slot is looked at after that.
    have known' : (m.env.set y.id .null).get? x.id = some r := by
      rw [Env.get?_set, if_neg (Nat.ne_of_lt later)]
      exact known
    have tested := test x e { m with env := m.env.set y.id .null } slot known'
    have started : Run.exec s.reader (.bind y true (some .absent)) m =
        .ok ((), { m with env := m.env.set y.id .null }) := rfl
    cases on with
    | true =>
      obtain ⟨m', ran, left⟩ :=
        (present rfl).elide inner { m with env := m.env.set y.id .null } rest position stream
      refine ⟨{ m' with env := m'.env.set y.id w }, ?_, left⟩
      have branched : Run.exec s.reader (.branch e
          (body.elide.stmts ++ [.assign y (.present body.elide.result)]) [])
          { m with env := m.env.set y.id .null } =
            .ok ((), { m' with env := m'.env.set y.id w }) := by
        rw [Run.exec_branch tested, if_pos rfl, Run.execBlock_assign, ran]
        rfl
      rw [Run.evalBlock_apply, Run.execBlock_cons, started]
      change (Run.execBlock s.reader [_] _).bind _ = _
      rw [Run.execBlock_single, branched]
      exact Run.eval_var (p := s.reader) ((Env.get?_set _ _ _ _).trans (if_pos rfl))
    | false =>
      obtain ⟨rfl, rfl⟩ := absent rfl
      refine ⟨{ m with env := m.env.set y.id .null }, ?_, stream⟩
      rw [Run.evalBlock_apply, Run.execBlock_cons, started]
      change (Run.execBlock s.reader [_] _).bind _ = _
      rw [Run.execBlock_single, Run.exec_branch tested]
      exact Run.eval_var (p := s.reader) ((Env.get?_set _ _ _ _).trans (if_pos rfl))

/-- The code of an encoder: the value is written if it is present. -/
theorem Encoder.guarded {src : Expr} {stmts : List Stmt}
    (encoder : s.Encoder (.optional t (.slot group index kind)) src σ stmts)
    (clean : t.Clean s.hooks s.types) :
    ∃ x σ₁ body, x.id < σ₁.draft.nextLocal ∧ s.Encoder t (.place x) σ₁ body ∧
      (body = [] ∧ stmts = [] ∨ stmts = [.ifPresent x src body]) := by
  obtain ⟨ready, _, depth, τ, ran, emits, leads⟩ := encoder
  obtain _ | depth := depth
  · exact (runs_throw.mp ran).elim
  obtain ⟨refs, _, asked, ran₁⟩ := runs_bind.mp ran
  cases (runs_refs.mp asked).2
  split at ran₁
  · obtain ⟨_, _, _, thrown⟩ := runs_bind.mp ran₁
    exact (runs_throw.mp thrown).elim
  obtain ⟨_, _, tested, ran₂⟩ := runs_bind.mp ran₁
  obtain _ | depth := depth
  · exact (runs_throw.mp tested).elim
  obtain ⟨found, _, active, looked⟩ := runs_bind.mp tested
  -- The slot writes nothing: its bit is part of the integer.
  cases (runs_activeGroup?.mp active).2
  split at looked
  · exact (runs_throw.mp looked).elim
  cases (runs_pure.mp looked).2
  obtain ⟨hint, σ₀, hinted, ran₃⟩ := runs_bind.mp ran₂
  obtain ⟨rfl, rfl⟩ := runs_lastHint.mp hinted
  obtain ⟨x, σ₁, allocated, ran₄⟩ := runs_bind.mp ran₃
  obtain ⟨ready₁, ⟨_, first⟩, _, next⟩ := ready_alloc allocated ready
  have below : x.id < σ₁.draft.nextLocal := by omega
  have known : ∀ y ∈ (Expr.place x).locals, y < σ₁.draft.nextLocal :=
    List.forall_mem_singleton.mpr below
  obtain ⟨⟨body, u⟩, _, captured, ran₅⟩ := runs_bind.mp ran₄
  obtain ⟨σ₂, made, emits₁, rfl, ready₂, _, second⟩ := emits_capture captured ready₁
    (List.forall_mem_singleton.mpr known)
    fun visible seen => clean.encode (depth + 1) _ visible (seen _ List.mem_cons_self)
  have encoder (leads : s.leads σ₂) : s.Encoder t (.place x) (mapDraft Draft.pushScope σ₁) body :=
    ⟨ready₁.pushScope, known, depth + 1, σ₂, made, emits₁, leads⟩
  obtain ⟨_, whole⟩ := emits.grows
  change Runs (if _ then _ else _) _ _ _ at ran₅
  split at ran₅
  case isTrue some =>
    obtain ⟨_, ⟨_, third⟩, _⟩ := ready_emit ran₅ ready₂
    cases runs_emit.mp ran₅
    cases whole.unique ((first.trans second).trans third) ready.opened
    exact ⟨x, mapDraft Draft.pushScope σ₁, body, below, encoder (s.redraft leads), .inr rfl⟩
  case isFalse none =>
    obtain ⟨_, rfl⟩ := runs_pure.mp ran₅
    cases whole.unique (first.trans second) ready.opened
    have empty : body = [] := by simpa using none
    exact ⟨x, mapDraft Draft.pushScope σ₁, body, below, encoder (s.redraft leads),
      .inl ⟨empty, rfl⟩⟩

/-- Encoders write the value if it is present, and nothing for its presence. -/
theorem writes_guarded (clean : t.Clean s.hooks s.types) (absent : v.isNull = true → bytes = [])
    (present : v.isNull = false → s.Writes t v bytes) :
    s.Writes (.optional t (.slot group index kind)) v bytes := by
  intro src σ stmts encoder m latest denotes stream
  obtain ⟨x, σ₁, body, below, inner, code⟩ := encoder.guarded clean
  have known : ({ m with env := m.env.set x.id v } : Machine).env.get? x.id = some v :=
    (Env.get?_set _ _ _ _).trans (if_pos rfl)
  -- What the value would be written as, were it present.
  have writes (present' : v.isNull = false) :=
    present present' _ _ _ inner { m with env := m.env.set x.id v } latest
      (Expr.denotes_place known below) stream
  rcases code with ⟨rfl, rfl⟩ | rfl
  -- A body without statements writes nothing, even for a value that is present.
  · have none : bytes = [] := by
      cases null : v.isNull with
      | true => exact absent null
      | false =>
        obtain ⟨m', ran, left⟩ := writes null
        cases ran
        have same : Stream.output latest = .output (bytes.reverse ++ latest) := stream.symm.trans left
        simpa using Stream.output.inj same
    rw [none]
    exact ⟨m, rfl, stream⟩
  · rw [Run.execBlock_single, Run.exec_ifPresent (denotes m (.refl _ _))]
    cases null : v.isNull with
    | true =>
      rw [absent null]
      exact ⟨m, rfl, stream⟩
    | false => exact writes null

end Setting

/-! ### Generation succeeds -/

section Progress

variable {hooks : Hooks} {types : Refs} {depth group index : Nat} {t : Shape} {mask : Int}
variable {backing : Primitive} {groups : List ActiveGroup}

theorem isBoolean_flag (refs : Refs) :
    (Shape.slot group index (.flag mask backing)).isBoolean refs = true := by
  unfold Shape.isBoolean
  cases refs.length <;> rfl

theorem succeeds_guardedType (clean : t.Clean hooks types)
    (typed : ∀ σ, σ.Ready types → ∃ x τ, Runs ((emitter hooks depth).typeExpr t) σ x τ)
    {σ : Session} (ready : σ.Ready types) (presence : Shape) :
    ∃ x τ, Runs ((emitter hooks (depth + 1)).typeExpr (.optional t presence)) σ x τ := by
  apply Proceeds.succeeds _ ready
  exact proceeds_aliasedOr ((proceeds_typeExpr clean typed).bind fun _ _ => proceeds_pure trivial) _

/-- A guarded value can be decoded inside the group. -/
theorem proceeds_guarded {s : Setting} {raw : Local} {e : Expr}
    (made : slotExpr (.var raw) (.flag mask backing) = .ok e) (clean : t.Clean s.hooks s.types)
    (generates : s.Generates (depth + 1) t) :
    Proceeds s.types (⟨group, some (.var raw)⟩ :: groups) ((emitter s.hooks (depth + 2)).decodeExpr
      (.optional t (.slot group index (.flag mask backing)))) fun _ => True := by
  refine proceeds_refs.bind ?_
  rintro refs rfl
  rw [isBoolean_flag]
  refine (proceeds_decodeSlot made).bind fun test _ => ?_
  refine ((generates.proceeds _).captureBlock (clean.decodeExpr (depth + 1))).bind fun block _ => ?_
  split
  · exact proceeds_pure trivial
  · refine (proceeds_lastHint _).bind fun _ _ => (proceeds_declareMut _ _).bind fun _ _ => ?_
    exact (proceeds_emit _).bind fun _ _ => proceeds_pure trivial

/-- A guarded value can be written inside the group. -/
theorem succeeds_guarded {s : Setting} {raw : Option Expr} (clean : t.Clean s.hooks s.types)
    (generates : s.Generates (depth + 1) t) {σ : Session} {src : Expr} (ready : σ.Ready s.types)
    (known : ∀ x ∈ src.locals, x < σ.draft.nextLocal)
    (active : σ.draft.groups = ⟨group, raw⟩ :: groups) :
    ∃ τ stmts, Runs ((emitter s.hooks (depth + 2)).encode
      (.optional t (.slot group index (.flag mask backing))) src) σ () τ ∧
      σ.Emits s.types τ stmts := by
  have slotClean : (Shape.slot group index (.flag mask backing)).Clean s.hooks s.types :=
    (Shape.hookFree_slot _ _ _).clean
  have tested : Runs ((emitter s.hooks (depth + 1)).encode
      (.slot group index (.flag mask backing)) (.isPresent src)) σ () σ := by
    refine runs_bind.mpr ⟨_, σ, runs_activeGroup?.mpr ⟨rfl, rfl⟩, ?_⟩
    have found : σ.draft.activeGroup? group = some ⟨group, raw⟩ := by
      simp [Draft.activeGroup?, active]
    rw [found]
    exact runs_pure.mpr ⟨rfl, rfl⟩
  obtain ⟨x, σ₁, allocated, ready₁, _, below⟩ :=
    succeeds_alloc (σ.draft.hints.headD "inner") ready
  obtain ⟨σ₂, _, made, _⟩ := generates.encode _ (.place x) ready₁.pushScope
    (List.forall_mem_singleton.mpr below)
  have captured : Runs (capture ((emitter s.hooks (depth + 1)).encode t (.place x))) σ₁ (_, ()) _ :=
    runs_capture.mpr ⟨σ₂, made, rfl, rfl⟩
  obtain ⟨τ, ran⟩ : ∃ τ, Runs ((emitter s.hooks (depth + 2)).encode
      (.optional t (.slot group index (.flag mask backing))) src) σ () τ := by
    have rest : ∃ τ, Runs (if !(σ₂.draft.popScope.1.stmts).isEmpty then
        emit (.ifPresent x src σ₂.draft.popScope.1.stmts) else return) (mapDraft (·.popScope.2) σ₂)
          () τ := by
      split
      · exact ⟨_, runs_emit.mpr rfl⟩
      · exact ⟨_, runs_pure.mpr ⟨rfl, rfl⟩⟩
    obtain ⟨τ, rest⟩ := rest
    refine ⟨τ, runs_bind.mpr ⟨_, σ, runs_refs.mpr ⟨rfl, rfl⟩, ?_⟩⟩
    rw [isBoolean_flag]
    exact runs_bind.mpr ⟨(), σ, tested, runs_bind.mpr ⟨_, σ, runs_lastHint.mpr ⟨rfl, rfl⟩,
      runs_bind.mpr ⟨x, σ₁, allocated, runs_bind.mpr ⟨_, _, captured, rest⟩⟩⟩⟩
  obtain ⟨stmts, emits⟩ := emits_of_builds ran ready (List.forall_mem_singleton.mpr known)
    fun visible seen => (clean.optional slotClean).encode (depth + 2) src visible
      (seen src List.mem_cons_self)
  exact ⟨τ, stmts, ran, emits⟩

end Progress

end WireSchema
