import WireSchema.Proofs.Elision.Safety
import WireSchema.Proofs.Layout.Reading

/-!
# Runs that mirror reads

A run of code mirrors a read of a layout if it succeeds exactly when the read does, with a related
result and at the same place of the input, and fails with the same kind of error otherwise. Runs
mirror reads step by step.
-/

namespace WireSchema

open Ir Wire

namespace Probe

variable {α β γ δ : Type} {p : Program} {m : Machine} {reader : Reader}

/-- What a run comes to is what a read comes to, with results that are related by `Q`. -/
def Mirrors (outcome : Except Stop (α × Machine)) (expected : Except DecodeError β × Reader)
    (Q : α → β → Machine → Prop) : Prop :=
  match expected with
  | (.ok b, reader) => ∃ a m, outcome = .ok (a, m) ∧ m.stream = .input reader ∧ Q a b m
  | (.error e, _) => ∃ cause, outcome = .error ⟨.decode cause, false⟩ ∧ cause.outline = e.outline

theorem Mirrors.weaken {outcome : Except Stop (α × Machine)}
    {expected : Except DecodeError β × Reader} {Q Q' : α → β → Machine → Prop}
    (mirrors : Mirrors outcome expected Q)
    (weaker : ∀ a b m reader, outcome = .ok (a, m) → expected = (.ok b, reader) → Q a b m →
      Q' a b m) : Mirrors outcome expected Q' := by
  obtain ⟨result, reader⟩ := expected
  cases result with
  | error e => exact mirrors
  | ok b =>
    obtain ⟨a, m, ran, stream, holds⟩ := mirrors
    exact ⟨a, m, ran, stream, weaker a b m reader ran rfl holds⟩

/-- One step after another. -/
theorem Mirrors.bind {act : Probe α} {next : α → Probe γ} {read : Read β} {later : β → Read δ}
    {Q : α → β → Machine → Prop} {Q' : γ → δ → Machine → Prop}
    (first : Mirrors (act m) (read.run reader) Q)
    (second : ∀ a b m' reader', act m = .ok (a, m') → read.run reader = (.ok b, reader') →
      m'.stream = .input reader' → Q a b m' → Mirrors (next a m') ((later b).run reader') Q') :
    Mirrors ((act >>= next) m) ((read >>= later).run reader) Q' := by
  rw [bind_apply, bind_run]
  cases expected : read.run reader with
  | mk result reader' =>
    rw [expected] at first
    cases result with
    | error e =>
      obtain ⟨cause, ran, same⟩ := first
      rw [ran]
      exact ⟨cause, rfl, same⟩
    | ok b =>
      obtain ⟨a, m', ran, stream, holds⟩ := first
      rw [ran]
      exact second a b m' reader' ran expected stream holds

/-- A step that reads nothing. -/
theorem Mirrors.step {act : Probe α} {next : α → Probe γ} {expected : Except DecodeError δ × Reader}
    {Q : γ → δ → Machine → Prop} {a : α} {m' : Machine} (ran : act m = .ok (a, m'))
    (mirrors : Mirrors (next a m') expected Q) : Mirrors ((act >>= next) m) expected Q := by
  rw [bind_apply, ran]
  exact mirrors

theorem mirrors_pure {a : α} {b : β} {Q : α → β → Machine → Prop} (stream : m.stream = .input reader)
    (holds : Q a b m) : Mirrors ((pure a : Probe α) m) ((pure b : Read β).run reader) Q :=
  ⟨a, m, rfl, stream, holds⟩

theorem mirrors_throw {outcome : Except Stop (α × Machine)} {cause e : DecodeError}
    {Q : α → β → Machine → Prop} (stopped : outcome = .error ⟨.decode cause, false⟩)
    (same : cause.outline = e.outline) : Mirrors outcome ((throw e : Read β).run reader) Q :=
  ⟨cause, stopped, same⟩

/-- The read yields something more. -/
theorem mirrors_map {outcome : Except Stop (α × Machine)} {read : Read β} {f : β → δ}
    {Q : α → δ → Machine → Prop} :
    Mirrors outcome ((read >>= fun b => pure (f b)).run reader) Q ↔
      Mirrors outcome (read.run reader) fun a b m => Q a (f b) m := by
  rw [bind_run]
  cases read.run reader with
  | mk result reader' => cases result <;> exact Iff.rfl

/-- A step that reads nothing and succeeds comes last. -/
theorem Mirrors.settle {act : Probe α} {next : α → Probe γ} {read : Read β}
    {Q : α → β → Machine → Prop} {Q' : γ → β → Machine → Prop}
    (mirrors : Mirrors (act m) (read.run reader) Q)
    (settles : ∀ a b m', act m = .ok (a, m') → Q a b m' →
      ∃ c m'', next a m' = .ok (c, m'') ∧ m''.stream = m'.stream ∧ Q' c b m'') :
    Mirrors ((act >>= next) m) (read.run reader) Q' := by
  rw [bind_apply]
  cases expected : read.run reader with
  | mk result reader' =>
    rw [expected] at mirrors
    cases result with
    | error e =>
      obtain ⟨cause, ran, same⟩ := mirrors
      rw [ran]
      exact ⟨cause, rfl, same⟩
    | ok b =>
      obtain ⟨a, m', ran, stream, holds⟩ := mirrors
      obtain ⟨c, m'', ran', still, holds'⟩ := settles a b m' ran holds
      rw [ran]
      exact ⟨c, m'', ran', still.trans stream, holds'⟩

/-- A primitive is read as such. -/
theorem mirrors_read (prim : Primitive) (stream : m.stream = .input reader) :
    Mirrors (eval p (.read prim) m) ((Wire.read p.order prim).run reader) fun v w _ => v = w := by
  rw [eval, effect_read p.order prim m stream]
  cases (Wire.read p.order prim).run reader with
  | mk result reader' =>
    cases result with
    | error e => exact ⟨e, rfl, rfl⟩
    | ok v => exact ⟨v, _, rfl, rfl, rfl⟩

/-! ### Bindings -/

theorem eval_var {x : Local} {v : Value} (known : m.env.get? x.id = some v) :
    eval p (.var x) m = .ok (v, m) := by
  rw [eval, part_valueOf, known]

/-- The machine with a binding set. -/
abbrev setting (m : Machine) (x : Local) (v : Value) : Machine :=
  { m with env := m.env.set x.id v }

/-- What was read is put into a binding. -/
theorem Mirrors.set {act : Probe Value} {read : Read β} {f : β → Value}
    (mirrors : Mirrors (act m) (read.run reader) fun v b _ => v = f b) (x : Local) :
    Mirrors ((act >>= fun v => effect (Run.bind x v)) m) (read.run reader) fun _ b m' =>
      m'.env.get? x.id = some (f b) := by
  refine mirrors.settle fun v b m' _ same => ⟨(), setting m' x v, rfl, rfl, ?_⟩
  simp only [Env.get?_set, if_true, same]

/-- A failure shows the value of a binding. -/
theorem raise_literalMismatch {x : Local} {v : Value} (l : Literal)
    (known : m.env.get? x.id = some v) : raise p (.literalMismatch l (.var x)) m =
      .error ⟨.decode (.literalMismatch l.text v.describe), false⟩ := by
  rw [raise, errorOf, bind_assoc, bind_apply, eval_var known]
  rfl

theorem raise_unknownTag {x : Local} {v : Value} (type : String)
    (known : m.env.get? x.id = some v) : raise p (.unknownTag type (.var x)) m =
      .error ⟨.decode (.unknownTag type v.describe), false⟩ := by
  rw [raise, errorOf, bind_assoc, bind_apply, eval_var known]
  rfl

end Probe

end WireSchema
