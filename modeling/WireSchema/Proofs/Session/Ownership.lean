import WireSchema.Proofs.Machine.Transfer
import WireSchema.Proofs.Session.Emission

/-!
# What generation emits is its own

In the middle of a function, what a computation emits introduces and sets only bindings that were
given out on the way. So emitted code can be run anywhere after the code before it, and leaves alone
what that code has bound.
-/

namespace WireSchema

open Ir

/-- A session in the middle of a function: there is a scope to emit to, and the integers of the bit
groups at hand refer to bindings that were given out. -/
structure Session.Ready (types : Refs) (σ : Session) : Prop extends σ.Fits types where
  opened : σ.draft.scopes ≠ []
  groups : ∀ g ∈ σ.draft.groups, ∀ raw, g.raw = some raw → ∀ x ∈ raw.locals, x < σ.draft.nextLocal

/-- From the first session to the second the statements were emitted, and the bindings they
introduce and set were given out. -/
structure Session.Emits (types : Refs) (σ τ : Session) (stmts : List Stmt) : Prop where
  ready : τ.Ready types
  grows : ∃ given, σ.draft.Grows τ.draft stmts given
  owns : Stmt.Owns σ.draft.nextLocal τ.draft.nextLocal stmts

namespace Draft

variable {d d' : Draft}

theorem Grows.opened {added : List Stmt} {given : List Local} (grows : d.Grows d' added given)
    (opened : d.scopes ≠ []) : d'.scopes ≠ [] := by
  obtain ⟨scope, outer, same⟩ := List.exists_cons_of_ne_nil opened
  obtain ⟨names, same'⟩ := grows.scopes scope outer same
  rw [same']
  exact List.cons_ne_nil _ _

/-- A draft tells what was added to it. -/
theorem Grows.unique {added added' : List Stmt} {given given' : List Local}
    (grows : d.Grows d' added given) (grows' : d.Grows d' added' given') (opened : d.scopes ≠ []) :
    added = added' := by
  obtain ⟨scope, outer, same⟩ := List.exists_cons_of_ne_nil opened
  obtain ⟨names, first⟩ := grows.scopes scope outer same
  obtain ⟨names', second⟩ := grows'.scopes scope outer same
  rw [first] at second
  simp only [List.cons.injEq, Scope.mk.injEq] at second
  exact List.append_cancel_left second.1.1

/-- What is in force at least: what the integers of bit groups and the given expressions refer to,
none of which is ever set. -/
def inForce (d : Draft) (es : List Expr) : List Binder :=
  (d.groups.filterMap (·.raw) ++ es).flatMap fun e => e.vars.map .fixed

theorem scoped_inForce {es : List Expr} {e : Expr} (member : e ∈ d.groups.filterMap (·.raw) ++ es) :
    e.Scoped Binder.Among (d.inForce es) := fun _ used =>
  ⟨false, List.mem_flatMap.mpr ⟨e, member, List.mem_map_of_mem used⟩⟩

theorem fixed_of_inForce {es : List Expr} {b : Binder} (member : b ∈ d.inForce es) :
    b.settable = false := by
  obtain ⟨e, _, member⟩ := List.mem_flatMap.mp member
  obtain ⟨x, _, rfl⟩ := List.mem_map.mp member
  rfl

end Draft

namespace Session

variable {types : Refs} {σ τ : Session}

theorem Ready.serves (ready : σ.Ready types) {es : List Expr}
    (known : ∀ e ∈ es, ∀ x ∈ e.locals, x < σ.draft.nextLocal) :
    σ.draft.Serves (σ.draft.inForce es) [] := by
  constructor
  case inForce =>
    intro b member
    obtain ⟨e, source, member⟩ := List.mem_flatMap.mp member
    obtain ⟨x, used, rfl⟩ := List.mem_map.mp member
    have used := Expr.mem_locals_of_vars used
    rcases List.mem_append.mp source with group | given
    · obtain ⟨g, among, found⟩ := List.mem_filterMap.mp group
      exact ready.groups g among e found _ used
    · exact known e given _ used
  case known => exact nofun
  case groups =>
    intro g member raw found
    exact Draft.scoped_inForce (List.mem_append_left _ (List.mem_filterMap.mpr ⟨g, member, found⟩))

theorem Ready.grow (ready : σ.Ready types) (fits : τ.Fits types) {added : List Stmt}
    {given : List Local} (grows : σ.draft.Grows τ.draft added given) : τ.Ready types where
  toFits := fits
  opened := grows.opened ready.opened
  groups g member raw found x used :=
    Nat.lt_of_lt_of_le (ready.groups g (grows.groups ▸ member) raw found x used) grows.mono

theorem Ready.pushScope (ready : σ.Ready types) : (Gen.mapDraft Draft.pushScope σ).Ready types :=
  ⟨⟨ready.refs, ready.codecs⟩, List.cons_ne_nil _ _, ready.groups⟩

theorem Ready.withHints (ready : σ.Ready types) (hints : List String) :
    Session.Ready types { σ with draft.hints := hints } :=
  ⟨⟨ready.refs, ready.codecs⟩, ready.opened, ready.groups⟩

theorem Ready.withGroup (ready : σ.Ready types) {group : Nat} {raw : Option Expr}
    (known : ∀ e, raw = some e → ∀ x ∈ e.locals, x < σ.draft.nextLocal) :
    Session.Ready types { σ with draft.groups := ⟨group, raw⟩ :: σ.draft.groups } := by
  refine ⟨⟨ready.refs, ready.codecs⟩, ready.opened, fun g member e found => ?_⟩
  rcases List.mem_cons.mp member with rfl | old
  · exact known e found
  · exact ready.groups g old e found

/-- Hints and bit groups do not matter to what is emitted. -/
theorem Emits.redraft {stmts : List Stmt} (emits : σ.Emits types τ stmts) {σ' τ' : Session}
    (before : σ'.draft.scopes = σ.draft.scopes ∧ σ'.draft.nextLocal = σ.draft.nextLocal ∧
      σ'.draft.taken = σ.draft.taken)
    (after : τ'.draft.scopes = τ.draft.scopes ∧ τ'.draft.nextLocal = τ.draft.nextLocal ∧
      τ'.draft.taken = τ.draft.taken)
    (ready : τ'.Ready types) (groups : τ'.draft.groups = σ'.draft.groups) :
    σ'.Emits types τ' stmts := by
  obtain ⟨given, grows⟩ := emits.grows
  refine ⟨ready, ⟨given, ⟨?_, ?_, ?_, grows.names, ?_⟩, ?_, groups⟩, ?_⟩
  · rw [before.2.1, after.2.1, grows.next]
  · rw [before.2.1, grows.ids]
  · rw [before.2.2, after.2.2, grows.taken]
  · intro x member
    have free := grows.free x member
    rwa [Draft.isTaken, ← before.2.2] at free
  · rw [before.1, after.1]
    exact grows.scopes
  · rw [before.2.1, after.2.1]
    exact emits.owns

end Session

namespace Gen

variable {types : Refs} {σ τ : Session} {α : Type}

theorem ready_alloc {requested : String} {x : Local} (ran : Runs (alloc requested) σ x τ)
    (ready : σ.Ready types) : τ.Ready types ∧ (∃ given, σ.draft.Grows τ.draft [] given) ∧
      x.id = σ.draft.nextLocal ∧ τ.draft.nextLocal = x.id + 1 := by
  obtain ⟨rfl, rfl⟩ := runs_alloc.mp ran
  have grows := σ.draft.grows_alloc requested
  exact ⟨ready.grow ⟨ready.refs, ready.codecs⟩ grows, ⟨_, grows⟩, rfl, grows.next⟩

theorem ready_emit {stmt : Stmt} {u : Unit} (ran : Runs (emit stmt) σ u τ) (ready : σ.Ready types) :
    τ.Ready types ∧ (∃ given, σ.draft.Grows τ.draft [stmt] given) ∧
      τ.draft.nextLocal = σ.draft.nextLocal := by
  cases runs_emit.mp ran
  have grows := σ.draft.grows_emit stmt
  exact ⟨ready.grow ⟨ready.refs, ready.codecs⟩ grows, ⟨_, grows⟩, grows.next⟩

/-- The bindings that are introduced and set were given out: nothing else in force may be set. -/
theorem emits_of_builds {act : Gen α} {a : α} {es : List Expr} (ran : Runs act σ a τ)
    (ready : σ.Ready types) (known : ∀ e ∈ es, ∀ x ∈ e.locals, x < σ.draft.nextLocal)
    (builds : ∀ visible, (∀ e ∈ es, e.Scoped Binder.Among visible) →
      Builds types visible [] act Done) : ∃ stmts, σ.Emits types τ stmts := by
  have serves := ready.serves known
  have seen : ∀ e ∈ es, e.Scoped Binder.Among (σ.draft.inForce es) :=
    fun e member => Draft.scoped_inForce (List.mem_append_right _ member)
  obtain ⟨fits, added, given, _, grows, holds, owned, rfl⟩ :=
    builds _ seen σ a τ ran ready.toFits serves
  simp only [Draft.Owned, List.append_nil] at owned
  have range {b : Binder} (new : b ∈ Stmt.introduced added) :
      σ.draft.nextLocal ≤ b.var.id ∧ b.var.id < τ.draft.nextLocal :=
    grows.range (owned.subset (List.mem_map_of_mem new))
  -- Locals are numbered in order, so new ones differ from all that is in force.
  have apart : Stmt.Apart (σ.draft.inForce es) added := by
    constructor
    case distinct =>
      have distinct := distinct_of_subperm grows.distinct owned
      rwa [List.map_map] at distinct
    case fresh =>
      intro b early c new same
      have old := serves.inForce b early
      have late := (range new).1
      omega
  refine ⟨added, ready.grow fits grows, ⟨given, grows⟩, grows.mono, ?_, ?_, holds.tidy apart⟩
  · intro x member
    rw [Stmt.bound_eq_introduced] at member
    obtain ⟨b, new, rfl⟩ := List.mem_map.mp member
    exact range new
  · intro x member
    obtain ⟨b, place, settable, rfl⟩ := holds.settable_of_assigned member
    rcases place with old | new
    · rw [Draft.fixed_of_inForce old] at settable
      cases settable
    · exact range new

/-- A computation that yields an expression emits what the expression needs. -/
theorem emits_of_yields {act : Gen Expr} {e : Expr} (ran : Runs act σ e τ) (ready : σ.Ready types)
    (builds : ∀ visible, Builds types visible [] act Yields) : ∃ stmts, σ.Emits types τ stmts := by
  have none : ∀ e ∈ ([] : List Expr), ∀ x ∈ e.locals, x < σ.draft.nextLocal := nofun
  exact emits_of_builds ran ready none fun visible _ =>
    (builds visible).weaken fun _ _ _ _ => And.left

/-- A declaration emits what its initial value needs, then the binding. -/
theorem emits_declare {requested : String} {init : Gen Expr} {x : Local}
    (ran : Runs (declare requested init) σ x τ) (ready : σ.Ready types)
    (builds : ∀ visible, Builds types visible [] init Yields) :
    ∃ e σ₁ stmts, Runs init (mapDraft Draft.pushScope σ) e σ₁ ∧
      (mapDraft Draft.pushScope σ).Emits types σ₁ stmts ∧ (∃ d, τ = { σ₁ with draft := d }) ∧
      σ.Emits types τ (stmts ++ [.bind x false (some e)]) ∧ σ₁.draft.nextLocal = x.id ∧
      τ.draft.nextLocal = x.id + 1 := by
  have none : ∀ e ∈ ([] : List Expr), ∀ x ∈ e.locals, x < σ.draft.nextLocal := nofun
  obtain ⟨all, emits⟩ := emits_of_builds ran ready none fun visible _ =>
    (builds visible).declare.weaken fun _ _ _ _ => And.left
  obtain ⟨e, σ₁, d, inner, joined, rfl, rfl⟩ := runs_declare.mp ran
  obtain ⟨stmts, emits₁⟩ := emits_of_yields inner ready.pushScope builds
  obtain ⟨given, grows⟩ := emits₁.grows
  have spliced : σ.draft.Grows d stmts given := joined ▸ grows.join
  have next : σ₁.draft.nextLocal = d.nextLocal := by rw [spliced.next, grows.next]; rfl
  -- The scope of the initial value is joined to the one around it before the binding is made.
  have grown := (spliced.trans (d.grows_alloc requested)).trans
    ((d.alloc requested).2.grows_emit (.bind (d.alloc requested).1 false (some e)))
  rw [List.append_nil] at grown
  obtain ⟨_, grows'⟩ := emits.grows
  rw [grows'.unique grown ready.opened] at emits
  refine ⟨e, σ₁, stmts, inner, emits₁, ⟨_, rfl⟩, emits, next, ?_⟩
  exact (Draft.nextLocal_updateScope _ _).trans (Draft.nextLocal_updateScope _ _)

/-- A block holds what was emitted for it, elided. -/
theorem emits_captureBlock {act : Gen Expr} {b : Block}
    (ran : Runs (captureBlock act) σ b τ) (ready : σ.Ready types)
    (builds : ∀ visible, Builds types visible [] act Yields) :
    ∃ e σ₁ stmts, Runs act (mapDraft Draft.pushScope σ) e σ₁ ∧
      (mapDraft Draft.pushScope σ).Emits types σ₁ stmts ∧ b = Block.elide ⟨stmts, e⟩ ∧
      τ = mapDraft (·.popScope.2) σ₁ ∧ τ.Ready types ∧ ∃ given, σ.draft.Grows τ.draft [] given := by
  obtain ⟨e, σ₁, inner, rfl, rfl⟩ := runs_captureBlock.mp ran
  obtain ⟨stmts, emits⟩ := emits_of_yields inner ready.pushScope builds
  obtain ⟨given, grows⟩ := emits.grows
  obtain ⟨rfl, popped⟩ := grows.pop
  have fits : (mapDraft (·.popScope.2) σ₁).Fits types := ⟨emits.ready.refs, emits.ready.codecs⟩
  exact ⟨e, σ₁, _, inner, emits, rfl, rfl, ready.grow fits popped, given, popped⟩

/-- Captured statements are those that were emitted. -/
theorem emits_capture {act : Gen Unit} {body : List Stmt} {u : Unit} {es : List Expr}
    (ran : Runs (capture act) σ (body, u) τ) (ready : σ.Ready types)
    (known : ∀ e ∈ es, ∀ x ∈ e.locals, x < σ.draft.nextLocal)
    (builds : ∀ visible, (∀ e ∈ es, e.Scoped Binder.Among visible) →
      Builds types visible [] act Done) :
    ∃ σ₁, Runs act (mapDraft Draft.pushScope σ) () σ₁ ∧
      (mapDraft Draft.pushScope σ).Emits types σ₁ body ∧ τ = mapDraft (·.popScope.2) σ₁ ∧
      τ.Ready types ∧ ∃ given, σ.draft.Grows τ.draft [] given := by
  obtain ⟨σ₁, inner, rfl, rfl⟩ := runs_capture.mp ran
  obtain ⟨stmts, emits⟩ := emits_of_builds inner ready.pushScope known builds
  obtain ⟨given, grows⟩ := emits.grows
  obtain ⟨rfl, popped⟩ := grows.pop
  have fits : (mapDraft (·.popScope.2) σ₁).Fits types := ⟨emits.ready.refs, emits.ready.codecs⟩
  exact ⟨σ₁, inner, emits, rfl, ready.grow fits popped, given, popped⟩

end Gen

end WireSchema
