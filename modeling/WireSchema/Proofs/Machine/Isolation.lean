import WireSchema.Proofs.Machine.Relation

/-!
# What runs do to bindings

Reads, writes and calls neither look at bindings nor change them. So two runs of the same code on
equal streams stay in step as long as a relation between their bindings is kept by what the code
itself does to bindings.
-/

namespace WireSchema

open Ir

/-! ### Steps that leave the bindings alone -/

/-- The step neither looks at the bindings nor changes them. -/
def Run.Isolated {α : Type} (act : Run α) : Prop :=
  ∀ (m : Machine) (env : Env),
    act { m with env } = (act m).map fun out => (out.1, { out.2 with env })

namespace Run

theorem Isolated.env_eq {α : Type} {act : Run α} (isolated : Isolated act) {m m' : Machine} {a : α}
    (ran : act m = .ok (a, m')) : m'.env = m.env := by
  have same := isolated m m.env
  rw [show ({ m with env := m.env } : Machine) = m from rfl, ran] at same
  simp only [Except.map, Except.ok.injEq, Prod.mk.injEq, true_and] at same
  rw [same]

theorem isolated_pure {α : Type} (a : α) : Isolated (pure a : Run α) := fun _ _ => rfl

theorem isolated_throw {α : Type} (e : RunError) : Isolated (throw e : Run α) := fun _ _ => rfl

theorem Settled.isolated {α : Type} {act : Run α} (settled : Settled act) : Isolated act := by
  cases settled with
  | value a => exact isolated_pure a
  | failure e => exact isolated_throw e

theorem bind_apply {α β : Type} (act : Run α) (next : α → Run β) (m : Machine) :
    (act >>= next) m = (act m).bind fun out => next out.1 out.2 := rfl

theorem Isolated.bind {α β : Type} {act : Run α} {next : α → Run β} (first : Isolated act)
    (second : ∀ a, Isolated (next a)) : Isolated (act >>= next) := by
  intro m env
  simp only [bind_apply]
  rw [first m env]
  cases ran : act m with
  | error e => rfl
  | ok out =>
    obtain ⟨a, m'⟩ := out
    exact second a m' env

theorem isolated_note (e : Event) : Isolated (note e) := fun _ _ => rfl

theorem isolated_read (order : Wire.ByteOrder) (p : Primitive) : Isolated (read order p) := by
  intro m env
  simp only [read, bind_apply, get, getThe, MonadStateOf.get, StateT.get, pure, Except.pure,
    Except.bind]
  cases m.stream with
  | output latest => rfl
  | input reader =>
    simp only
    cases (Wire.read order p).run reader with
    | mk result reader' => cases result <;> rfl

theorem isolated_write (order : Wire.ByteOrder) (p : Primitive) (v : Value) :
    Isolated (write order p v) := by
  intro m env
  simp only [write, bind_apply, get, getThe, MonadStateOf.get, StateT.get, pure, Except.pure,
    Except.bind]
  cases m.stream with
  | input reader => rfl
  | output latest =>
    simp only
    cases Wire.write order p v <;> rfl

theorem isolated_callHost (g : Generated) (path : String) (args : List Value) (fallible : Bool) :
    Isolated (callHost g path args fallible) := by
  unfold callHost
  split
  · exact isolated_throw _
  · refine (isolated_note _).bind fun _ => ?_
    split
    · exact isolated_pure _
    · exact isolated_throw _

theorem withEnv_apply {α : Type} (own : Env) (act : Run α) (m : Machine) : withEnv own act m =
    (act { m with env := own }).map fun out => (out.1, { out.2 with env := m.env }) := rfl

/-- A step on bindings of its own leaves the present ones alone. -/
theorem isolated_withEnv {α : Type} (own : Env) (act : Run α) : Isolated (withEnv own act) := by
  intro m env
  simp only [withEnv_apply]
  cases act { m with env := own } <;> rfl

end Run

/-- The calls of the program leave the bindings alone. -/
structure Program.Isolated (p : Program) : Prop where
  decode : ∀ codec : String, Run.Isolated (p.calls.decode codec)
  encode : ∀ (codec : String) (v : Value), Run.Isolated (p.calls.encode codec v)

theorem Calls.isolated_decodeWith (p : Program) (codec : String) :
    Run.Isolated (decodeWith p codec) := by
  unfold decodeWith
  split
  · exact Run.isolated_throw _
  · exact (Run.isolated_note _).bind fun _ => Run.isolated_withEnv _ _

theorem Calls.isolated_encodeWith (p : Program) (codec : String) (v : Value) :
    Run.Isolated (encodeWith p codec v) := by
  unfold encodeWith
  split
  · exact Run.isolated_throw _
  · exact (Run.isolated_note _).bind fun _ => Run.isolated_withEnv _ _

theorem Run.isolated_checkDepth (g : Generated) (size depth : Nat) :
    Isolated (checkDepth g size depth) := by
  intro m env
  unfold checkDepth
  by_cases shallow : depth < g.callDepth (size + m.stream.position)
  · rw [if_pos shallow, if_pos shallow]
    rfl
  · rw [if_neg shallow, if_neg shallow]
    rfl

/-- The code as a program that is `depth` calls deep in a run. -/
def Generated.programAt (g : Generated) (order : Wire.ByteOrder) (size fuel depth : Nat) :
    Program :=
  { code := g, order, calls := Calls.nested g order size fuel depth }

@[simp]
theorem Generated.code_programAt (g : Generated) (order : Wire.ByteOrder) (size fuel depth : Nat) :
    (g.programAt order size fuel depth).code = g := rfl

@[simp]
theorem Generated.order_programAt (g : Generated) (order : Wire.ByteOrder)
    (size fuel depth : Nat) : (g.programAt order size fuel depth).order = order := rfl

/-- Codecs run on bindings of their own. -/
theorem Calls.isolated_nested (g : Generated) (order : Wire.ByteOrder) (size fuel depth : Nat) :
    (g.programAt order size fuel depth).Isolated := by
  have checked := Run.isolated_checkDepth g size depth
  cases fuel with
  | zero => exact ⟨fun _ => Run.isolated_throw _, fun _ _ => Run.isolated_throw _⟩
  | succ fuel =>
    exact ⟨fun codec => checked.bind fun _ => isolated_decodeWith _ codec,
      fun codec v => checked.bind fun _ => isolated_encodeWith _ codec v⟩

/-! ### Runs in step -/

/-- Two machines that only differ in their bindings, which are related by `E`. -/
structure InStep (E : Env → Env → Prop) (m n : Machine) : Prop where
  stream : n.stream = m.stream
  events : n.events = m.events
  env : E m.env n.env

namespace Probe

/-- Two results that are alike: the same value from machines that are in step, or the same stop. -/
def Alike {α : Type} (E : Env → Env → Prop) :
    Except Stop (α × Machine) → Except Stop (α × Machine) → Prop
  | .ok (a, m), .ok (b, n) => b = a ∧ InStep E m n
  | .error s, .error t => t = s
  | _, _ => False

/-- Two probes keep machines in step. -/
def KeepsStep (E : Env → Env → Prop) : Relation := fun _ x y =>
  ∀ m n, InStep E m n → Alike E (x m) (y n)

theorem bind_apply {α β : Type} (act : Probe α) (next : α → Probe β) (m : Machine) :
    (act >>= next) m = (act m).bind fun out => next out.1 out.2 := rfl

/-- A decoder reads from the reader it stands at. -/
theorem effect_read (order : Wire.ByteOrder) (p : Primitive) (m : Machine) {reader : Wire.Reader}
    (stream : m.stream = .input reader) :
    effect (Run.read order p) m = match (Wire.read order p).run reader with
      | (.error cause, _) => .error ⟨.decode cause, false⟩
      | (.ok v, reader) =>
        .ok (v, { m with stream := .input reader, events := .read p v :: m.events }) := by
  simp only [effect, marked, Run.read, Run.bind_apply, get, getThe, MonadStateOf.get, StateT.get,
    pure, Except.pure, Except.bind, stream]
  cases (Wire.read order p).run reader with
  | mk result reader' => cases result <;> rfl

theorem Alike.of_ok {E : Env → Env → Prop} {α : Type} {y : Except Stop (α × Machine)} {a : α}
    {m : Machine} (alike : Alike E (.ok (a, m)) y) : ∃ n, y = .ok (a, n) ∧ InStep E m n := by
  cases y with
  | error s => exact alike.elim
  | ok out =>
    obtain ⟨b, n⟩ := out
    obtain ⟨rfl, inStep⟩ := alike
    exact ⟨n, rfl, inStep⟩

theorem Alike.of_error {E : Env → Env → Prop} {α : Type} {y : Except Stop (α × Machine)} {s : Stop}
    (alike : Alike E (.error s) y) : y = .error s := by
  cases y with
  | error t => exact congrArg _ alike
  | ok out => exact alike.elim

theorem Alike.mono {E F : Env → Env → Prop} {α : Type} {a b : Except Stop (α × Machine)}
    (alike : Alike E a b) (weaker : ∀ env₁ env₂, E env₁ env₂ → F env₁ env₂) : Alike F a b := by
  match a, b, alike with
  | .error _, .error _, same => exact same
  | .ok _, .ok _, ⟨same, step⟩ => exact ⟨same, step.stream, step.events, weaker _ _ step.env⟩

/-- Alike results go on alike. -/
theorem Alike.bind {E : Env → Env → Prop} {α β : Type} {x y : Except Stop (α × Machine)}
    {f g : α → Probe β} (first : Alike E x y) (second : ∀ a, KeepsStep E β (f a) (g a)) :
    Alike E (x.bind fun out => f out.1 out.2) (y.bind fun out => g out.1 out.2) := by
  match x, y, first with
  | .error _, .error _, same => exact same
  | .ok (_, m), .ok (b, n), ⟨rfl, inStep⟩ => exact second b m n inStep

theorem compatible_keepsStep (E : Env → Env → Prop) : Compatible (KeepsStep E) where
  pure _ := fun _ _ inStep => ⟨rfl, inStep⟩
  fault _ := fun _ _ _ => rfl
  bind first second := fun m n inStep => (first m n inStep).bind second

/-- Isolated steps keep any two machines in step. -/
theorem keepsStep_isolated {E : Env → Env → Prop} {α : Type} {act : Run α} (fault : Bool)
    (isolated : Run.Isolated act) : KeepsStep E α (marked fault act) (marked fault act) := by
  intro m n inStep
  have moved : n = { m with env := n.env } := by
    rw [← inStep.stream, ← inStep.events]
  have result := isolated m n.env
  rw [← moved] at result
  simp only [marked, result]
  cases ran : act m with
  | error e => rfl
  | ok out =>
    obtain ⟨a, m'⟩ := out
    refine ⟨rfl, rfl, rfl, ?_⟩
    rw [isolated.env_eq ran]
    exact inStep.env

variable {E : Env → Env → Prop} {p : Program} {r : Expr.Replacement} {good : Expr → Prop}
  {writable : Nat → Prop} {writer : String → Prop}

/-- Expressions keep machines in step if the uses of bindings do. -/
theorem steps_keepsStep (isolated : p.Isolated)
    (var : ∀ x : Local, good (.var x) →
      KeepsStep E _ (part (Run.valueOf x)) (eval p ((Expr.var x).subst r))) :
    Steps (KeepsStep E) p p r good where
  toCompatible := compatible_keepsStep E
  code := rfl
  order := rfl
  var := var
  read prim _ := keepsStep_isolated false (Run.isolated_read p.order prim)
  fromId type _ _ v := keepsStep_isolated false (Run.settled_nameOfId p.code type v).isolated
  decode codec _ := keepsStep_isolated false (isolated.decode codec)
  call path _ fallible _ values :=
    keepsStep_isolated false (Run.isolated_callHost p.code path values fallible)

/-- The cells of the bindings are set alike. -/
def SetsAlike (E : Env → Env → Prop) (x : Nat) : Prop :=
  ∀ (env₁ env₂ : Env), E env₁ env₂ → ∀ c : Cell, E (env₁.put x c) (env₂.put x c)

/-- Statements keep machines in step if the relation is kept by what they do to bindings. -/
theorem stmtSteps_keepsStep (isolated : p.Isolated)
    (var : ∀ x : Local, good (.var x) →
      KeepsStep E _ (part (Run.valueOf x)) (eval p ((Expr.var x).subst r)))
    (sets : ∀ x, writable x → SetsAlike E x)
    (cells : ∀ x, writable x → ∀ env₁ env₂ : Env, E env₁ env₂ → env₂.cell? x = env₁.cell? x) :
    StmtSteps (KeepsStep E) p p r good writable writer where
  toSteps := steps_keepsStep isolated var
  failure e := keepsStep_isolated false (Run.isolated_throw e)
  set x allowed v := by
    intro m n inStep
    exact ⟨rfl, inStep.stream, inStep.events, sets x.id allowed _ _ inStep.env _⟩
  push x allowed v := by
    intro m n inStep
    have same := cells x.id allowed _ _ inStep.env
    simp only [effect, marked, Run.push, Run.bind_apply, get, getThe, MonadStateOf.get,
      StateT.get, pure, Except.pure, Except.bind, same]
    cases m.env.cell? x.id with
    | none => rfl
    | some c =>
      simp only
      cases c.push v with
      | error e => rfl
      | ok c => exact ⟨rfl, inStep.stream, inStep.events, sets x.id allowed _ _ inStep.env _⟩
  write prim v := keepsStep_isolated false (Run.isolated_write p.order prim v)
  encode codec _ v := keepsStep_isolated false (isolated.encode codec v)

end Probe

end WireSchema
