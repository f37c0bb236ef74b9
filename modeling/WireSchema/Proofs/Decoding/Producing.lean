import WireSchema.Proofs.Decoding.Fragments
import WireSchema.Proofs.Lowering.Quiet
import WireSchema.Proofs.Lowering.Orderly
import WireSchema.Proofs.Session.Hygiene

/-!
# Computations that produce fragments

A computation of a session emits statements, numbers locals and yields something. A judgement says
what these are, for whatever registry generation ends with: names that are given to enumerations stay,
so what is known of a fragment once is known of it in the end. There is one rule for each operation
of a session.
-/

namespace WireSchema

open Ir Wire Lowering

namespace Decoding

/-- The types of a schema, as code sees them that calls the codecs of types of lower rank only. -/
structure Scene where
  hooks : Hooks
  types : Refs
  rank : String → Nat
  bound : Nat
  order : ByteOrder
  ordered : types.Ordered rank
  separate : types.Separate

namespace Scene

variable (S : Scene)

/-- How the shape behind a label is read. -/
def target (label : String) : Layout.Part := Layout.part S.order S.types (.ref label)

/-- How values of a shape are read. -/
abbrev value (s : Shape) : Read Value := Layout.valueWith S.order S.target s

/-- How the stored members of a struct are read. -/
abbrev members (s : Shape) : Read (List (String × Value)) := Layout.membersWith S.order S.target s

theorem part_eq (s : Shape) :
    Layout.part S.order S.types s = ⟨S.value s, S.members s⟩ := by
  change _ = Layout.partWith S.order S.target s
  unfold target Layout.part
  cases S.types.length <;> rfl

/-- The program has the enumerations that the registry names. -/
structure Knows (r : Registry) (p : Program) : Prop where
  isolated : p.Isolated
  order : p.order = S.order
  enums : ∀ backing entries signature name,
    Registry.IsEnumSignature S.types backing entries signature →
    r.constants.lookup signature = some name →
    Run.enumOf p.code name = pure ⟨name, backing, entries⟩

/-- Besides, the codecs of the program read the exported types of lower rank. -/
structure Serves (r : Registry) (p : Program) : Prop extends S.Knows r p where
  codecs : ∀ name inner, (name, .exported name inner) ∈ S.types → S.rank name < S.bound →
    ∀ m reader, m.stream = .input reader →
      Probe.Mirrors (Probe.effect (p.calls.decode (codecBase name)) m)
        ((S.value inner).run reader) fun v w _ => v = w

def programs (r : Registry) : Programs := ⟨S.Serves r, fun _ serves => serves.isolated⟩

theorem orders (r : Registry) (p : Program) (serves : (S.programs r).holds p) :
    p.order = S.order := serves.order

/-! ### The judgement -/

/-- While these bit groups are at hand the computation makes sessions go on. Of the locals from the
first number to the second, the statements that it emits and what it yields `Q` holds, whatever
registry comes later. -/
def Produces {α : Type} (groups : List ActiveGroup) (act : Gen α)
    (Q : Registry → Nat → Nat → List Stmt → α → Prop) : Prop :=
  ∀ σ a τ, Gen.Runs act σ a τ → σ.refs = S.types → σ.draft.groups = groups →
    Advances S.hooks S.types σ τ ∧ ∃ stmts given, σ.draft.Grows τ.draft stmts given ∧
      ∀ r, τ.registry.Keeps r → Q r σ.draft.nextLocal τ.draft.nextLocal stmts a

variable {S} {α β : Type} {γ : List ActiveGroup} {act : Gen α} {next : α → Gen β}
  {Q Q' : Registry → Nat → Nat → List Stmt → α → Prop}

theorem Produces.weaken (produces : S.Produces γ act Q)
    (weaker : ∀ r low high stmts a, Q r low high stmts a → Q' r low high stmts a) :
    S.Produces γ act Q' := by
  intro σ a τ ran refs groups
  obtain ⟨step, stmts, given, grows, holds⟩ := produces σ a τ ran refs groups
  exact ⟨step, stmts, given, grows, fun r keeps => weaker _ _ _ _ _ (holds r keeps)⟩

/-- Something that is known of every run. -/
theorem Produces.also (produces : S.Produces γ act Q) {P : α → Prop}
    (known : ∀ σ a τ, Gen.Runs act σ a τ → σ.refs = S.types → P a) :
    S.Produces γ act fun r low high stmts a => Q r low high stmts a ∧ P a := by
  intro σ a τ ran refs groups
  obtain ⟨step, stmts, given, grows, holds⟩ := produces σ a τ ran refs groups
  exact ⟨step, stmts, given, grows, fun r keeps => ⟨holds r keeps, known σ a τ ran refs⟩⟩

theorem produces_pure {a : α} (holds : ∀ r n, Q r n n [] a) : S.Produces γ (pure a) Q := by
  intro σ b τ ran refs _
  obtain ⟨rfl, rfl⟩ := Gen.runs_pure.mp ran
  exact ⟨advances_draft refs rfl rfl, [], [], .refl _, fun r _ => holds r _⟩

theorem produces_throw {e : SchemaError} : S.Produces γ (throw e : Gen α) Q :=
  fun _ _ _ ran => (Gen.runs_throw.mp ran).elim

/-- What the second computation emits comes after what the first one does. -/
theorem Produces.bind {Q' : Registry → Nat → Nat → List Stmt → β → Prop}
    (first : S.Produces γ act Q)
    (second : ∀ a, S.Produces γ (next a) fun r mid high back b =>
      ∀ low front, Q r low mid front a → Q' r low high (front ++ back) b) :
    S.Produces γ (act >>= next) Q' := by
  intro σ b τ ran refs groups
  obtain ⟨a, σ₁, ran₁, ran₂⟩ := Gen.runs_bind.mp ran
  obtain ⟨step, front, given, grows, holds⟩ := first σ a σ₁ ran₁ refs groups
  obtain ⟨step', back, given', grows', holds'⟩ :=
    second a σ₁ b τ ran₂ step.refs (grows.groups.trans groups)
  refine ⟨step.trans step', front ++ back, given ++ given', grows.trans grows', fun r keeps => ?_⟩
  exact holds' r keeps _ _ (holds r (step'.grows.keeps.trans keeps))

/-- A computation that leaves the draft alone emits nothing. -/
theorem produces_quiet {P : Registry → α → Prop} (quiet : Gen.Quiet act)
    (advances : ∀ σ a τ, Gen.Runs act σ a τ → σ.refs = S.types →
      Advances S.hooks S.types σ τ ∧ ∀ r, τ.registry.Keeps r → P r a) :
    S.Produces γ act fun r low high stmts a => (high = low ∧ stmts = []) ∧ P r a := by
  intro σ a τ ran refs _
  obtain ⟨step, known⟩ := advances σ a τ ran refs
  have same := quiet σ a τ ran
  refine ⟨step, [], [], ?_, fun r keeps => ⟨⟨by rw [same], rfl⟩, known r keeps⟩⟩
  rw [same]
  exact .refl _

/-- A look at the session, or a declaration. -/
theorem Produces.look {P : α → Prop} {Q : Registry → Nat → Nat → List Stmt → β → Prop}
    (quiet : Gen.Quiet act) (tame : Tame S.hooks S.types act P)
    (later : ∀ a, P a → S.Produces γ (next a) Q) : S.Produces γ (act >>= next) Q := by
  intro σ b τ ran refs groups
  obtain ⟨a, σ₁, ran₁, ran₂⟩ := Gen.runs_bind.mp ran
  obtain ⟨step, known⟩ := tame σ a σ₁ ran₁ refs
  have same := quiet σ a σ₁ ran₁
  obtain ⟨step', stmts, given, grows, holds⟩ :=
    later a known σ₁ b τ ran₂ step.refs (same ▸ groups)
  rw [same] at grows holds
  exact ⟨step.trans step', stmts, given, grows, holds⟩

theorem Produces.discard (produces : S.Produces γ act Q) :
    S.Produces γ (discard act) fun r low high stmts _ => ∃ a, Q r low high stmts a := by
  intro σ u τ ran refs groups
  obtain ⟨a, ran⟩ := Gen.runs_discard.mp ran
  obtain ⟨step, stmts, given, grows, holds⟩ := produces σ a τ ran refs groups
  exact ⟨step, stmts, given, grows, fun r keeps => ⟨a, holds r keeps⟩⟩

/-! ### Operations of a session -/

/-- Hints do not matter to what is emitted. -/
theorem Produces.withHint {hint : String} (produces : S.Produces γ act Q) :
    S.Produces γ (Gen.withHint hint act) Q := by
  intro σ a τ ran refs groups
  obtain ⟨σ₁, within, rfl⟩ := Gen.runs_withHint.mp ran
  obtain ⟨step, stmts, given, grows, holds⟩ := produces _ a σ₁ within refs groups
  refine ⟨⟨step.refs, step.grows, step.sound⟩, stmts, given, ?_, holds⟩
  exact ⟨⟨grows.next, grows.ids, grows.taken, grows.names, grows.free⟩, grows.scopes, grows.groups⟩

theorem Produces.withGroup {group : Nat} {raw : Option Expr}
    (produces : S.Produces (⟨group, raw⟩ :: γ) act Q) :
    S.Produces γ (Gen.withGroup group raw act) Q := by
  intro σ a τ ran refs groups
  obtain ⟨σ₁, within, rfl⟩ := Gen.runs_withGroup.mp ran
  obtain ⟨step, stmts, given, grows, holds⟩ :=
    produces _ a σ₁ within refs (congrArg (_ :: ·) groups)
  refine ⟨⟨step.refs, step.grows, step.sound⟩, stmts, given, ?_, holds⟩
  refine ⟨⟨grows.next, grows.ids, grows.taken, grows.names, grows.free⟩, grows.scopes, ?_⟩
  exact congrArg List.tail grows.groups

/-- The integer of a bit group is looked up. -/
theorem Produces.activeGroup? {group : Nat} {next : Option ActiveGroup → Gen β}
    {Q : Registry → Nat → Nat → List Stmt → β → Prop}
    (later : S.Produces γ (next (γ.find? (·.group == group))) Q) :
    S.Produces γ (Gen.activeGroup? group >>= next) Q := by
  intro σ b τ ran refs groups
  obtain ⟨found, σ₁, looked, ran⟩ := Gen.runs_bind.mp ran
  obtain ⟨rfl, rfl⟩ := Gen.runs_activeGroup?.mp looked
  rw [Draft.activeGroup?, groups] at ran
  exact later _ b τ ran refs groups

theorem produces_emit (s : Stmt) : S.Produces γ (Gen.emit s) fun _ low high stmts _ =>
    high = low ∧ stmts = [s] := by
  intro σ u τ ran refs _
  cases Gen.runs_emit.mp ran
  have grows := σ.draft.grows_emit s
  exact ⟨advances_draft refs rfl rfl, [s], [], grows, fun _ _ => ⟨grows.next, rfl⟩⟩

theorem produces_alloc (requested : String) :
    S.Produces γ (Gen.alloc requested) fun _ low high stmts x =>
      (x.id = low ∧ high = low + 1) ∧ stmts = [] := by
  intro σ x τ ran refs _
  obtain ⟨rfl, rfl⟩ := Gen.runs_alloc.mp ran
  have grows := σ.draft.grows_alloc requested
  exact ⟨advances_draft refs rfl rfl, [], _, grows, fun _ _ => ⟨⟨rfl, grows.next⟩, rfl⟩⟩

theorem produces_binding (requested : String) (mutable : Bool) (init : Option Expr) :
    S.Produces γ (do
      let x ← Gen.alloc requested
      Gen.emit (.bind x mutable init)
      return x) fun _ low high stmts x =>
      (x.id = low ∧ high = low + 1) ∧ stmts = [.bind x mutable init] := by
  refine (produces_alloc requested).bind fun x => (produces_emit _).bind fun _ => produces_pure ?_
  rintro r n mid front ⟨rfl, rfl⟩ low front' ⟨known, rfl⟩
  exact ⟨known, rfl⟩

theorem produces_declareMut (requested : String) (init : Expr) :
    S.Produces γ (Gen.declareMut requested init) fun _ low high stmts x =>
      (x.id = low ∧ high = low + 1) ∧ stmts = [.bind x true (some init)] :=
  produces_binding requested true (some init)

theorem produces_declareDeferred (requested : String) :
    S.Produces γ (Gen.declareDeferred requested) fun _ low high stmts x =>
      (x.id = low ∧ high = low + 1) ∧ stmts = [.bind x false none] :=
  produces_binding requested false none

/-- The statements of the initial value come right before the binding. -/
theorem Produces.init {requested : String} {init : Gen Expr}
    {Q : Registry → Nat → Nat → List Stmt → Expr → Prop} (produces : S.Produces γ init Q) :
    S.Produces γ (Gen.declare requested init) fun r low high stmts x => ∃ front e,
      Q r low x.id front e ∧ high = x.id + 1 ∧ stmts = front ++ [.bind x false (some e)] := by
  intro σ x τ ran refs groups
  obtain ⟨e, σ₁, d, within, rfl, rfl, rfl⟩ := Gen.runs_declare.mp ran
  obtain ⟨step, front, given, grows, holds⟩ := produces _ e σ₁ within refs groups
  have joined : σ.draft.Grows _ front given := Draft.Grows.join grows
  have next : σ₁.draft.nextLocal =
      (σ₁.draft.popScope.2.join σ₁.draft.popScope.1).nextLocal := by
    rw [joined.next, grows.next]
    rfl
  generalize σ₁.draft.popScope.2.join σ₁.draft.popScope.1 = d at joined next ⊢
  have grown := (joined.trans (d.grows_alloc requested)).trans
    ((d.alloc requested).2.grows_emit (.bind (d.alloc requested).1 false (some e)))
  rw [List.append_nil] at grown
  refine ⟨⟨step.refs, step.grows, step.sound⟩, _, _, grown, fun r keeps => ⟨front, e, ?_, ?_, rfl⟩⟩
  · have known := holds r keeps
    rw [next] at known
    exact known
  · exact (Draft.nextLocal_updateScope _ _).trans (Draft.nextLocal_updateScope _ _)

/-- Statements are taken out of the body that is emitted. -/
theorem Produces.capture (produces : S.Produces γ act Q) :
    S.Produces γ (Gen.capture act) fun r low high stmts out =>
      stmts = [] ∧ Q r low high out.1 out.2 := by
  rintro σ ⟨captured, a⟩ τ ran refs groups
  obtain ⟨σ₁, within, rfl, rfl⟩ := Gen.runs_capture.mp ran
  obtain ⟨step, stmts, given, grows, holds⟩ := produces _ a σ₁ within refs groups
  obtain ⟨rfl, popped⟩ := Draft.Grows.pop grows
  refine ⟨⟨step.refs, step.grows, step.sound⟩, [], given, popped, fun r keeps => ⟨rfl, ?_⟩⟩
  have next : σ₁.draft.popScope.2.nextLocal = σ₁.draft.nextLocal := by
    rw [popped.next, grows.next]
    rfl
  rw [next]
  exact holds r keeps

/-- What is read is bound right away. -/
theorem produces_declareRead (requested : String) (prim : Primitive) :
    S.Produces γ (Gen.declare requested (return .read prim)) fun _ low high stmts x =>
      (x.id = low ∧ high = low + 1) ∧ stmts = [.bind x false (some (.read prim))] := by
  have init : S.Produces γ (pure (.read prim)) fun _ low high stmts e =>
      (high = low ∧ stmts = []) ∧ e = Expr.read prim :=
    produces_pure fun _ _ => ⟨⟨rfl, rfl⟩, rfl⟩
  refine init.init.weaken ?_
  rintro r low high stmts x ⟨_, e, ⟨⟨own, rfl⟩, rfl⟩, rfl, rfl⟩
  exact ⟨⟨own, congrArg (· + 1) own⟩, rfl⟩

/-! ### Fragments -/

variable {read : Read Value}

/-- The computation emits and yields a fragment that reads a value. -/
abbrev Reads (S : Scene) (γ : List ActiveGroup) (act : Gen Expr) (read : Read Value) : Prop :=
  S.Produces γ act fun r low high stmts e => Decodes (S.programs r) read low high ⟨stmts, e⟩

/-- The computation emits a fragment that reads members, and yields their bindings. -/
abbrev Gathers (S : Scene) (γ : List ActiveGroup) (act : Gen (List (String × Local)))
    (reads : Read (List (String × Value))) : Prop :=
  S.Produces γ act fun r low high stmts bindings =>
    BindsAll (S.programs r) reads low high stmts bindings

theorem Produces.declare {requested : String} {init : Gen Expr} (reads : S.Reads γ init read) :
    S.Produces γ (Gen.declare requested init) fun r low high stmts x =>
      Binds (S.programs r) read low high stmts x := by
  refine reads.init.weaken fun r low high stmts x known => ?_
  obtain ⟨front, e, decodes, rfl, rfl⟩ := known
  exact decodes.declare rfl

/-- A block is taken out of the body that is emitted, and elided. -/
theorem Produces.captureBlock {act : Gen Expr} (reads : S.Reads γ act read) :
    S.Produces γ (Gen.captureBlock act) fun r low high stmts b =>
      stmts = [] ∧ Decodes (S.programs r) read low high b := by
  refine reads.capture.bind fun out => produces_pure fun r n low front known => ?_
  obtain ⟨rfl, decodes⟩ := known
  exact ⟨rfl, decodes.elide⟩

end Scene

end Decoding

end WireSchema
