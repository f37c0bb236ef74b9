import WireSchema.Proofs.Session.Hygiene
import WireSchema.Proofs.Session.Quiet

/-!
# What computations emit

A computation is judged by what is in force when it starts. What it emits is scoped by that, and
introduces only bindings that were given out on the way or waited to be introduced; the judgement
tells what is in force and what waits when the computation ends. The rules follow the operations of
a session.
-/

namespace WireSchema

open Ir

namespace Gen

/-- Where `visible` is in force and `waiting` waits to be introduced, the computation emits scoped
statements. Of its value, of what is in force then and of what waits then, `post` holds. -/
def Builds (types : Refs) (visible : List Binder) (waiting : List Local) {α : Type} (act : Gen α)
    (post : α → List Binder → List Local → Prop) : Prop :=
  ∀ σ a τ, Runs act σ a τ → σ.Fits types → σ.draft.Serves visible waiting →
    τ.Fits types ∧ ∃ added given waiting', σ.draft.Grows τ.draft added given ∧
      Stmt.Scoped Binder.Among visible added ∧ Draft.Owned added waiting' given waiting ∧
      post a (Stmt.after visible added) waiting'

/-- Nothing waits. -/
def Done {α : Type} (_ : α) (_ : List Binder) (waiting : List Local) : Prop := waiting = []

/-- The value is an expression over what is in force, and nothing waits. -/
def Yields (e : Expr) (visible : List Binder) (waiting : List Local) : Prop :=
  waiting = [] ∧ e.Scoped Binder.Among visible

variable {types : Refs} {visible : List Binder} {waiting : List Local} {α β : Type}
variable {post : α → List Binder → List Local → Prop}

theorem Builds.weaken {act : Gen α} {post' : α → List Binder → List Local → Prop}
    (builds : Builds types visible waiting act post)
    (weaker : ∀ a visible' waiting', (∀ b ∈ visible, b ∈ visible') → post a visible' waiting' →
      post' a visible' waiting') : Builds types visible waiting act post' := by
  intro σ a τ ran fits serves
  obtain ⟨fits', added, given, waiting', grows, holds, owned, after⟩ := builds σ a τ ran fits serves
  exact ⟨fits', added, given, waiting', grows, holds, owned,
    weaker _ _ _ (fun _ => Stmt.mem_after_of_mem) after⟩

/-- What waits may be forgotten and put into another order. -/
theorem Builds.forget {act : Gen α} {fewer : List Local}
    (builds : Builds types visible fewer act post) (owned : fewer.Subperm waiting) :
    Builds types visible waiting act post := by
  intro σ a τ ran fits serves
  obtain ⟨fits', added, given, waiting', grows, holds, owned', after⟩ := builds σ a τ ran fits
    ⟨serves.inForce, fun x member => serves.known x (owned.subset member), serves.groups⟩
  exact ⟨fits', added, given, waiting', grows, holds,
    List.Subperm.trans owned' ((List.subperm_append_left given).mpr owned), after⟩

/-! ### Sequences -/

theorem builds_pure {a : α} (holds : post a visible waiting) :
    Builds types visible waiting (pure a) post := by
  intro σ b τ ran fits serves
  obtain ⟨rfl, rfl⟩ := runs_pure.mp ran
  exact ⟨fits, [], [], waiting, .refl _, .nil, List.Subperm.refl _, holds⟩

theorem builds_throw {e : SchemaError} : Builds types visible waiting (throw e : Gen α) post :=
  fun _ _ _ ran => (runs_throw.mp ran).elim

theorem Builds.bind {act : Gen α} {next : α → Gen β} {post' : β → List Binder → List Local → Prop}
    (first : Builds types visible waiting act post)
    (second : ∀ a visible' waiting', (∀ b ∈ visible, b ∈ visible') → post a visible' waiting' →
      Builds types visible' waiting' (next a) post') :
    Builds types visible waiting (act >>= next) post' := by
  intro σ b τ ran fits serves
  obtain ⟨a, σ₁, ran₁, ran₂⟩ := runs_bind.mp ran
  obtain ⟨fits₁, added, given, waiting', grows, holds, owned, after⟩ :=
    first σ a σ₁ ran₁ fits serves
  obtain ⟨fits₂, added', given', waiting'', grows', holds', owned', after'⟩ :=
    second a _ _ (fun _ => Stmt.mem_after_of_mem) after σ₁ b τ ran₂ fits₁ (serves.grow grows owned)
  refine ⟨fits₂, added ++ added', given ++ given', waiting'', grows.trans grows',
    Stmt.scoped_append.mpr ⟨holds, holds'⟩, owned.trans owned', ?_⟩
  rwa [Stmt.after, List.foldl_append]

theorem Builds.map {act : Gen α} {f : α → β} {post' : β → List Binder → List Local → Prop}
    (builds : Builds types visible waiting act fun a => post' (f a)) :
    Builds types visible waiting (f <$> act) post' := by
  rw [map_eq_pure_bind]
  exact builds.bind fun a _ _ _ holds => builds_pure holds

/-- A computation that leaves the draft alone emits nothing. -/
theorem Keeps.builds {act : Gen α} {Q : α → Prop} (keeps : Keeps types act Q) (quiet : Quiet act)
    (holds : ∀ a, Q a → post a visible waiting) : Builds types visible waiting act post := by
  intro σ a τ ran fits serves
  obtain ⟨fits', found⟩ := keeps σ a τ ran fits
  refine ⟨fits', [], [], waiting, ?_, .nil, List.Subperm.refl _, holds a found⟩
  rw [quiet σ a τ ran]
  exact .refl _

theorem Keeps.before {act : Gen α} {Q : α → Prop} {next : α → Gen β}
    {post' : β → List Binder → List Local → Prop} (keeps : Keeps types act Q) (quiet : Quiet act)
    (second : ∀ a, Q a → Builds types visible waiting (next a) post') :
    Builds types visible waiting (act >>= next) post' := by
  have first : Builds types visible waiting act fun a visible' waiting' =>
      visible' = visible ∧ waiting' = waiting ∧ Q a :=
    keeps.builds quiet fun a found => ⟨rfl, rfl, found⟩
  refine first.bind fun a _ _ _ => ?_
  rintro ⟨rfl, rfl, found⟩
  exact second a found

theorem Builds.discard {act : Gen α} (builds : Builds types visible waiting act post) :
    Builds types visible waiting (discard act) fun _ visible' waiting' =>
      ∃ a, post a visible' waiting' := by
  intro σ u τ ran fits serves
  obtain ⟨a, ran⟩ := runs_discard.mp ran
  obtain ⟨fits', added, given, waiting', grows, holds, owned, after⟩ := builds σ a τ ran fits serves
  exact ⟨fits', added, given, waiting', grows, holds, owned, a, after⟩

theorem Builds.withHint {hint : String} {act : Gen α}
    (builds : Builds types visible waiting act post) :
    Builds types visible waiting (withHint hint act) post := by
  intro σ a τ ran fits serves
  obtain ⟨σ₁, inner, rfl⟩ := runs_withHint.mp ran
  obtain ⟨fits', added, given, waiting', grows, holds, owned, after⟩ :=
    builds _ _ _ inner ⟨fits.refs, fits.codecs⟩ ⟨serves.inForce, serves.known, serves.groups⟩
  refine ⟨⟨fits'.refs, fits'.codecs⟩, added, given, waiting', ?_, holds, owned, after⟩
  exact ⟨⟨grows.next, grows.ids, grows.taken, grows.names, grows.free⟩, grows.scopes, grows.groups⟩

/-- The integer of a bit group has to be in force while its struct is generated. -/
theorem Builds.withGroup {group : Nat} {raw : Option Expr} {act : Gen α}
    (builds : Builds types visible waiting act post)
    (seen : ∀ e, raw = some e → e.Scoped Binder.Among visible) :
    Builds types visible waiting (withGroup group raw act) post := by
  intro σ a τ ran fits serves
  obtain ⟨σ₁, inner, rfl⟩ := runs_withGroup.mp ran
  have groups : ∀ g ∈ ⟨group, raw⟩ :: σ.draft.groups, ∀ e, g.raw = some e →
      e.Scoped Binder.Among visible := by
    intro g member e found
    rcases List.mem_cons.mp member with rfl | old
    · exact seen e found
    · exact serves.groups g old e found
  obtain ⟨fits', added, given, waiting', grows, holds, owned, after⟩ :=
    builds _ _ _ inner ⟨fits.refs, fits.codecs⟩ ⟨serves.inForce, serves.known, groups⟩
  refine ⟨⟨fits'.refs, fits'.codecs⟩, added, given, waiting', ?_, holds, owned, after⟩
  refine ⟨⟨grows.next, grows.ids, grows.taken, grows.names, grows.free⟩, grows.scopes, ?_⟩
  exact congrArg List.tail grows.groups

theorem builds_activeGroup? {group : Nat} :
    Builds types visible waiting (activeGroup? group) fun found visible' waiting' =>
      visible' = visible ∧ waiting' = waiting ∧ ∀ g raw, found = some g → g.raw = some raw →
        raw.Scoped Binder.Among visible := by
  intro σ found τ ran fits serves
  obtain ⟨rfl, rfl⟩ := runs_activeGroup?.mp ran
  refine ⟨fits, [], [], waiting, .refl _, .nil, List.Subperm.refl _, rfl, rfl, fun g raw same => ?_⟩
  exact serves.groups g (List.mem_of_find?_eq_some same) raw

/-! ### Statements and bindings -/

theorem builds_emit {s : Stmt} (waiting' : List Local)
    (holds : Stmt.Scoped Binder.Among visible [s])
    (owned : ((Stmt.introduced [s]).map (·.var) ++ waiting').Subperm waiting) :
    Builds types visible waiting (emit s) fun _ visible' left =>
      visible' = s.opened ++ visible ∧ left = waiting' := by
  intro σ u τ ran fits serves
  cases runs_emit.mp ran
  exact ⟨⟨fits.refs, fits.codecs⟩, [s], [], waiting', Draft.grows_emit _ s, holds, owned, rfl, rfl⟩

/-- A binding that is given out waits to be introduced. -/
theorem builds_alloc {requested : String} :
    Builds types visible waiting (alloc requested) fun x visible' waiting' =>
      visible' = visible ∧ waiting' = x :: waiting := by
  intro σ x τ ran fits serves
  obtain ⟨rfl, rfl⟩ := runs_alloc.mp ran
  exact ⟨⟨fits.refs, fits.codecs⟩, [], _, _, Draft.grows_alloc _ requested, .nil,
    List.Subperm.refl _, rfl, rfl⟩

/-- In a scope of its own a computation may use bindings that wait. What is introduced there waits
with its statements. -/
theorem Builds.capture {act : Gen α} (new : List Binder)
    (builds : Builds types (new ++ visible) [] act Done)
    (own : ∀ b ∈ new, b.var ∈ waiting) :
    Builds types visible waiting (capture act) fun out visible' waiting' =>
      visible' = visible ∧ waiting' = (Stmt.introduced out.1).map (·.var) ++ waiting ∧
      Stmt.Scoped Binder.Among (new ++ visible) out.1 := by
  rintro σ ⟨stmts, a⟩ τ ran fits serves
  obtain ⟨σ₁, inner, rfl, rfl⟩ := runs_capture.mp ran
  have serves' : (σ.draft.pushScope).Serves (new ++ visible) [] := by
    refine ⟨fun b member => ?_, nofun, fun g member raw found => ?_⟩
    · rcases List.mem_append.mp member with here | old
      · exact serves.known _ (own b here)
      · exact serves.inForce b old
    · exact (serves.groups g member raw found).widen fun b => List.mem_append_right _
  obtain ⟨fits', added, given, left, grows, holds, owned, rfl⟩ :=
    builds _ _ _ inner ⟨fits.refs, fits.codecs⟩ serves'
  -- The scope is gone from the draft: its statements are in the value, and wait with it.
  obtain ⟨rfl, popped⟩ := grows.pop
  refine ⟨⟨fits'.refs, fits'.codecs⟩, [], given, _, popped, .nil, ?_, rfl, rfl, holds⟩
  have more := (List.subperm_append_right waiting).mpr owned
  simpa [Draft.Owned] using more

end Gen

namespace Ir.Stmt

theorem scoped_single {visible : List Binder} {s : Stmt}
    (exprs : ∀ e ∈ s.exprs, e.Scoped Binder.Among visible)
    (target : ∀ x, s.targetVar? = some x → ⟨x, true⟩ ∈ visible)
    (inner : ∀ block ∈ s.inner, Scoped Binder.Among (block.1 ++ visible) block.2) :
    Scoped Binder.Among visible [s] := .cons exprs target inner .nil

end Ir.Stmt

namespace Gen

variable {types : Refs} {visible : List Binder} {waiting : List Local} {α β : Type}

/-- The elided block is scoped, and what it introduces waits. -/
theorem Builds.captureBlock {act : Gen Expr} (builds : Builds types visible [] act Yields) :
    Builds types visible waiting (captureBlock act) fun b visible' waiting' =>
      visible' = visible ∧ waiting' = (Stmt.introduced b.stmts).map (·.var) ++ waiting ∧
      Stmt.Scoped Binder.Among visible b.body := by
  intro σ b τ ran fits serves
  obtain ⟨e, σ₁, inner, rfl, rfl⟩ := runs_captureBlock.mp ran
  obtain ⟨fits', added, given, left, grows, holds, owned, rfl, seen⟩ :=
    builds _ _ _ inner ⟨fits.refs, fits.codecs⟩ ⟨serves.inForce, nofun, serves.groups⟩
  obtain ⟨rfl, popped⟩ := grows.pop
  simp only [Draft.Owned, List.append_nil] at owned
  have body : Stmt.Scoped Binder.Among visible
      (Block.body ⟨σ₁.draft.popScope.1.stmts, e⟩) := Block.scoped_body.mpr ⟨holds, seen⟩
  -- Everything in the block was given out later than what is in force around it.
  have apart : Stmt.Apart visible σ₁.draft.popScope.1.stmts := by
    constructor
    case distinct =>
      have distinct := distinct_of_subperm grows.distinct owned
      rwa [List.map_map] at distinct
    case fresh =>
      intro b early c new same
      have late := (grows.range (owned.subset (List.mem_map_of_mem new))).1
      exact absurd (serves.inForce b early) (by rw [same]; exact Nat.not_lt.mpr late)
  obtain ⟨elided, fewer⟩ := Block.scoped_elide body apart
  refine ⟨⟨fits'.refs, fits'.codecs⟩, [], given, _, popped, .nil, ?_, rfl, rfl, elided⟩
  have kept := (fewer.map (·.var)).subperm.trans owned
  rw [Draft.Owned, Stmt.introduced_nil, List.map_nil, List.nil_append]
  exact (List.subperm_append_right waiting).mpr kept

/-- The statements of the initial value are spliced in, then the binding is introduced. -/
theorem Builds.declare {requested : String} {init : Gen Expr}
    (builds : Builds types visible [] init Yields) :
    Builds types visible waiting (declare requested init) fun x visible' waiting' =>
      waiting' = waiting ∧ Binder.fixed x ∈ visible' := by
  intro σ x τ ran fits serves
  obtain ⟨e, σ₁, d, inner, joined, rfl, rfl⟩ := runs_declare.mp ran
  obtain ⟨fits', added, given, left, grows, holds, owned, rfl, seen⟩ :=
    builds _ _ _ inner ⟨fits.refs, fits.codecs⟩ ⟨serves.inForce, nofun, serves.groups⟩
  -- The draft grows by the spliced statements, by the new binding and by its introduction.
  have spliced : σ.draft.Grows d added given := joined ▸ grows.join
  have whole := (spliced.trans (d.grows_alloc requested)).trans
    ((d.alloc requested).2.grows_emit (.bind (d.alloc requested).1 false (some e)))
  refine ⟨⟨fits'.refs, fits'.codecs⟩, _, _, waiting, whole, ?_, ?_, rfl, ?_⟩
  · rw [List.append_nil]
    refine Stmt.scoped_append.mpr ⟨holds, Stmt.scoped_single ?_ nofun nofun⟩
    simpa [Stmt.exprs] using seen
  · refine List.subperm_iff_count.mpr fun y => ?_
    have own := List.subperm_iff_count.mp owned y
    simp only [Stmt.introduced_append, Stmt.introduced_bind, List.map_append, List.map_cons,
      List.map_nil, List.append_nil, List.count_append] at own ⊢
    omega
  · rw [List.append_nil, Stmt.after, List.foldl_append]
    exact List.mem_cons_self

theorem builds_declareMut {requested : String} {init : Expr}
    (seen : init.Scoped Binder.Among visible) :
    Builds types visible waiting (declareMut requested init) fun x visible' waiting' =>
      waiting' = waiting ∧ ⟨x, true⟩ ∈ visible' := by
  refine builds_alloc.bind fun x _ _ _ => ?_
  rintro ⟨rfl, rfl⟩
  refine Builds.bind (builds_emit waiting ?_ ?_) fun _ _ _ _ => ?_
  · refine Stmt.scoped_single ?_ nofun nofun
    simpa [Stmt.exprs] using seen
  · simp [List.Subperm.refl]
  · rintro ⟨rfl, rfl⟩
    exact builds_pure ⟨rfl, by simp [Stmt.opened]⟩

theorem builds_declareDeferred {requested : String} :
    Builds types visible waiting (declareDeferred requested) fun x visible' waiting' =>
      waiting' = waiting ∧ ⟨x, true⟩ ∈ visible' := by
  refine builds_alloc.bind fun x _ _ _ => ?_
  rintro ⟨rfl, rfl⟩
  refine Builds.bind (builds_emit waiting ?_ ?_) fun _ _ _ _ => ?_
  · exact Stmt.scoped_single nofun nofun nofun
  · simp [List.Subperm.refl]
  · rintro ⟨rfl, rfl⟩
    exact builds_pure ⟨rfl, by simp [Stmt.opened]⟩

/-! ### Lists -/

theorem builds_mapM {f : α → Gen β} {items : List α} {Q : β → List Binder → Prop}
    (mono : ∀ b visible visible', (∀ x ∈ visible, x ∈ visible') → Q b visible → Q b visible')
    (each : ∀ a ∈ items, ∀ visible', (∀ b ∈ visible, b ∈ visible') →
      Builds types visible' [] (f a) fun b visible'' waiting => waiting = [] ∧ Q b visible'') :
    Builds types visible [] (items.mapM f) fun bs visible' waiting =>
      waiting = [] ∧ ∀ b ∈ bs, Q b visible' := by
  induction items generalizing visible with
  | nil =>
    rw [List.mapM_nil]
    exact builds_pure ⟨rfl, nofun⟩
  | cons first rest ih =>
    rw [List.mapM_cons]
    refine (each first (by simp) visible fun _ => id).bind fun b visible₁ _ wider => ?_
    rintro ⟨rfl, holds⟩
    refine (ih fun a member visible₂ wider' => ?_).bind fun bs visible₂ _ wider' => ?_
    · exact each a (by simp [member]) visible₂ fun b old => wider' b (wider b old)
    · rintro ⟨rfl, others⟩
      refine builds_pure ⟨rfl, ?_⟩
      simpa using ⟨mono _ _ _ wider' holds, others⟩

theorem builds_forM {f : α → Gen Unit} {items : List α}
    (each : ∀ a ∈ items, ∀ visible', (∀ b ∈ visible, b ∈ visible') →
      Builds types visible' [] (f a) Done) :
    Builds types visible [] (items.forM f) Done := by
  induction items generalizing visible with
  | nil => exact builds_pure rfl
  | cons first rest ih =>
    refine (each first (by simp) visible fun _ => id).bind fun _ visible₁ _ wider => ?_
    rintro rfl
    exact ih fun a member visible₂ wider' =>
      each a (by simp [member]) visible₂ fun b old => wider' b (wider b old)

/-! ### Functions -/

/-- The block of a function without parameters is hygienic. -/
theorem Builds.hygienic_decoder {act : Gen Expr} (builds : Builds types [] [] act Yields)
    {σ τ : Session} {b : Block} (ran : Runs (Gen.captureBlock act) σ b τ) (fits : σ.Fits types)
    (groups : σ.draft.groups = []) : τ.Fits types ∧ Stmt.Hygienic [] b.body := by
  have serves : σ.draft.Serves [] [] := ⟨nofun, nofun, by simp [groups]⟩
  obtain ⟨fits', added, given, waiting, grows, _, owned, _, rfl, holds⟩ :=
    builds.captureBlock σ b τ ran fits serves
  exact ⟨fits', grows.hygienic holds (by simpa using owned.rest) (.inl rfl)⟩

/-- The body of a function with one parameter is hygienic. -/
theorem Builds.hygienic_encoder {act : Gen Unit} {name : String} {σ σ₁ τ : Session} {x : Local}
    {stmts : List Stmt} {u : Unit} (plain : name ∈ ["value", "self"])
    (begun : Runs (param name) (mapDraft Draft.beginFunction σ) x σ₁)
    (ran : Runs (Gen.capture act) σ₁ (stmts, u) τ) (builds : Builds types [.fixed x] [] act Done)
    (fits : σ.Fits types) : τ.Fits types ∧ Stmt.Hygienic [.fixed x] stmts := by
  obtain ⟨rfl, rfl⟩ := runs_param.mp begun
  -- The parameter is the only binding of the new function that is in force.
  have serves : (σ.draft.beginFunction.fresh name).2.Serves
      [.fixed (σ.draft.beginFunction.fresh name).1] [] := by
    refine ⟨fun b member => ?_, nofun, nofun⟩
    rw [List.mem_singleton.mp member]
    exact Nat.lt_succ_self _
  obtain ⟨fits', added, given, waiting, grows, _, owned, _, rfl, holds⟩ :=
    Builds.capture [] builds nofun _ _ _ ran ⟨fits.refs, fits.codecs⟩ serves
  exact ⟨fits', grows.hygienic holds (by simpa using owned.rest)
    (.inr ⟨_, rfl, Nat.lt_succ_self _, plain⟩)⟩

end Gen

end WireSchema
