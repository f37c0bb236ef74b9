import WireSchema.Proofs.Wire.Locality

/-!
# The form of what is read

A primitive that holds integers yields integers of its type, and a boolean yields booleans.
-/

namespace WireSchema.Wire

variable {α β : Type}

/-- Whatever the read yields satisfies `Q`. -/
def Yields (act : Read α) (Q : α → Prop) : Prop :=
  ∀ reader a reader', act.run reader = (.ok a, reader') → Q a

theorem yields_pure {a : α} {Q : α → Prop} (holds : Q a) : Yields (pure a : Read α) Q := by
  intro reader b reader' ran
  cases ran
  exact holds

theorem yields_throw {e : DecodeError} {Q : α → Prop} : Yields (throw e : Read α) Q :=
  fun _ _ _ ran => nomatch ran

theorem Yields.after {act : Read α} {next : α → Read β} {P : α → Prop} {Q : β → Prop}
    (first : Yields act P) (second : ∀ a, P a → Yields (next a) Q) : Yields (act >>= next) Q := by
  intro reader b reader' ran
  rw [bind_run] at ran
  split at ran
  · next before => exact second _ (first _ _ _ before) _ b reader' ran
  · cases ran

theorem Yields.bind {act : Read α} {next : α → Read β} {Q : β → Prop}
    (second : ∀ a, Yields (next a) Q) : Yields (act >>= next) Q :=
  Yields.after (fun _ _ _ _ => trivial) fun a (_ : True) => second a

/-- The integers of a type. -/
def IsOf (kind : IntKind) (v : Value) : Prop := ∃ bits, v = .int kind bits

theorem yields_takeInt (order : ByteOrder) (kind : IntKind) :
    Yields (takeInt order kind) (IsOf kind) :=
  Yields.bind fun _ => yields_pure ⟨_, rfl⟩

/-- An integer primitive yields integers of its type. -/
theorem yields_read_int (order : ByteOrder) {p : Primitive} {kind : IntKind}
    (known : p.intKind? = some kind) : Yields (read order p) (IsOf kind) := by
  cases p with
  | i8 | u8 | i16 | u16 | i32 | u32 | i64 | u64 | u128 =>
    cases known
    exact yields_takeInt order _
  | varint | varlong =>
    cases known
    exact Yields.bind fun _ => yields_pure ⟨_, rfl⟩
  | bool | f32 | f64 | string | bytes | rest | fixedBytes _ => cases known

/-- What is read is an integer of the type of the primitive, or no integer at all. -/
theorem yields_kind (order : ByteOrder) (p : Primitive) :
    Yields (read order p) (·.intKind? = p.intKind?) := by
  cases known : p.intKind? with
  | some kind =>
    intro reader v reader' ran
    obtain ⟨bits, rfl⟩ := yields_read_int order known reader v reader' ran
    rfl
  | none =>
    cases p with
    | bool | f32 | f64 | bytes | rest | fixedBytes _ => exact Yields.bind fun _ => yields_pure rfl
    | string =>
      refine Yields.bind fun bytes => ?_
      split
      · exact yields_pure rfl
      · exact yields_throw
    | i8 | u8 | i16 | u16 | i32 | u32 | i64 | u64 | u128 | varint | varlong => cases known

theorem yields_read_bool (order : ByteOrder) : Yields (read order .bool) (∃ b, · = .bool b) :=
  Yields.bind fun _ => yields_pure ⟨_, rfl⟩

theorem yields_read_string (order : ByteOrder) : Yields (read order .string) (∃ s, · = .str s) := by
  refine Yields.bind fun bytes => ?_
  split
  · exact yields_pure ⟨_, rfl⟩
  · exact yields_throw

end WireSchema.Wire
