import WireSchema.Error

/-!
# Why computations fail

A computation that is put together of others fails for no other reasons than they do.
-/

namespace WireSchema

variable {P : SchemaError → Prop} {α β : Type}

/-- If the computation fails, its error satisfies `P`. -/
def FailsOnly (P : SchemaError → Prop) {α : Type} (result : Except SchemaError α) : Prop :=
  ∀ e, result = .error e → P e

theorem failsOnly_ok (a : α) : FailsOnly P (.ok a) := fun _ same => nomatch same

theorem failsOnly_error {e : SchemaError} (holds : P e) :
    FailsOnly P (.error e : Except SchemaError α) := by
  intro other same
  rw [← Except.error.inj same]
  exact holds

theorem FailsOnly.bind {result : Except SchemaError α} {next : α → Except SchemaError β}
    (first : FailsOnly P result) (second : ∀ a, FailsOnly P (next a)) :
    FailsOnly P (result >>= next) := by
  cases result with
  | error e => exact failsOnly_error (first e rfl)
  | ok a => exact second a

/-- A check that may fail, and what comes after it. -/
theorem failsOnly_guard {c : Prop} [Decidable c] {e : SchemaError}
    {next : PUnit → Except SchemaError α} (failure : P e) (success : FailsOnly P (next ⟨⟩)) :
    FailsOnly P (if c then throw e >>= next else next ⟨⟩) := by
  split
  · exact failsOnly_error failure
  · exact success

theorem failsOnly_mapM {f : α → Except SchemaError β} {as : List α}
    (each : ∀ a ∈ as, FailsOnly P (f a)) : FailsOnly P (as.mapM f) := by
  induction as with
  | nil => exact failsOnly_ok []
  | cons a as ih =>
    rw [List.mapM_cons]
    refine (each a (List.mem_cons_self ..)).bind fun b => ?_
    exact (ih fun a later => each a (List.mem_cons_of_mem _ later)).bind fun bs => failsOnly_ok _

theorem failsOnly_foldlM {σ : Type} {step : σ → α → Except SchemaError σ} {as : List α}
    (each : ∀ a ∈ as, ∀ s, FailsOnly P (step s a)) (s : σ) : FailsOnly P (as.foldlM step s) := by
  induction as generalizing s with
  | nil => exact failsOnly_ok s
  | cons a as ih =>
    rw [List.foldlM_cons]
    exact (each a (List.mem_cons_self ..) s).bind fun s' =>
      ih (fun b later => each b (List.mem_cons_of_mem _ later)) s'

end WireSchema
