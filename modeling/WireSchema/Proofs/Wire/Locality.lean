import WireSchema.Wire.Reader

/-!
# Reads are local

A read that succeeds takes a piece from the front of the bytes. It takes the same piece and yields
the same from all bytes that start with the piece, and it wants more bytes on every beginning of the
piece. This holds of every primitive but the one that takes all that is left.
-/

namespace WireSchema.Wire

/-- A list that starts like `front ++ back` ends within `front`, or goes through it. -/
theorem prefix_append_cases {short front back : List UInt8} (begins : short <+: front ++ back) :
    (short <+: front ∧ short ≠ front) ∨ ∃ more, short = front ++ more ∧ more <+: back := by
  obtain ⟨tail, whole⟩ := begins
  rcases List.append_eq_append_iff.mp whole with ⟨rest, front_eq, -⟩ | ⟨rest, short_eq, back_eq⟩
  · cases rest with
    | nil => exact .inr ⟨[], by simpa using front_eq.symm, List.nil_prefix⟩
    | cons byte rest =>
      refine .inl ⟨⟨_, front_eq.symm⟩, fun same => ?_⟩
      rw [same] at front_eq
      simp at front_eq
  · exact .inr ⟨rest, short_eq, ⟨tail, back_eq.symm⟩⟩

/-- The read takes `used` and yields `a`. -/
structure Takes {α : Type} (act : Read α) (used : List UInt8) (a : α) : Prop where
  whole : ∀ tail position,
    act.run ⟨used ++ tail, position⟩ = (.ok a, ⟨tail, position + used.length⟩)
  short : ∀ front, front <+: used → front ≠ used → ∀ position,
    ∃ reader, act.run ⟨front, position⟩ = (.error .unexpectedEnd, reader)

/-- The read takes a piece from the front whenever it succeeds. -/
def Local {α : Type} (act : Read α) : Prop :=
  ∀ reader a reader', act.run reader = (.ok a, reader') →
    ∃ used, reader.rest = used ++ reader'.rest ∧ Takes act used a

variable {α β : Type}

theorem bind_run (act : Read α) (next : α → Read β) (reader : Reader) :
    (act >>= next).run reader = match act.run reader with
      | (.ok a, reader') => (next a).run reader'
      | (.error e, reader') => (.error e, reader') := by
  simp only [bind, ExceptT.bind, ExceptT.run, ExceptT.mk, StateT.bind, ExceptT.bindCont]
  cases act reader with
  | mk result next => cases result <;> rfl

theorem Takes.bind {act : Read α} {next : α → Read β} {used used' : List UInt8} {a : α} {b : β}
    (first : Takes act used a) (second : Takes (next a) used' b) :
    Takes (act >>= next) (used ++ used') b := by
  constructor
  · intro tail position
    rw [bind_run, List.append_assoc, first.whole]
    simp only
    rw [second.whole, List.length_append, Nat.add_assoc]
  · intro front begins strict position
    rw [bind_run]
    rcases prefix_append_cases begins with ⟨inside, less⟩ | ⟨more, rfl, begins'⟩
    · obtain ⟨reader, stopped⟩ := first.short front inside less position
      exact ⟨reader, by rw [stopped]⟩
    · rw [first.whole]
      exact second.short more begins' (fun same => strict (by rw [same])) _

theorem takes_pure (a : α) : Takes (pure a) [] a where
  whole _ _ := rfl
  short _ begins strict := absurd (List.prefix_nil.mp begins) strict

theorem Local.bind {act : Read α} {next : α → Read β} (first : Local act)
    (second : ∀ a, Local (next a)) : Local (act >>= next) := by
  intro reader b reader'' ran
  rw [bind_run] at ran
  split at ran
  case h_1 a reader' ran' =>
    obtain ⟨used, rest, takes⟩ := first reader a reader' ran'
    obtain ⟨used', rest', takes'⟩ := second a reader' b reader'' ran
    exact ⟨used ++ used', by rw [rest, rest', List.append_assoc], takes.bind takes'⟩
  case h_2 => cases ran

theorem local_pure (a : α) : Local (pure a) := by
  intro reader b reader' ran
  cases ran
  exact ⟨[], rfl, takes_pure a⟩

theorem local_throw (e : DecodeError) : Local (throw e : Read α) := by
  intro reader b reader' ran
  cases ran

/-- Taking bytes fails exactly when there are too few. -/
theorem take_run (count : Nat) (reader : Reader) :
    (take count).run reader =
      if count ≤ reader.rest.length then
        (.ok (reader.rest.take count), ⟨reader.rest.drop count, reader.position + count⟩)
      else (.error .unexpectedEnd, ⟨[], reader.position + reader.rest.length⟩) := by
  have enough : (reader.rest.take count).length = count ↔ count ≤ reader.rest.length := by
    rw [List.length_take]
    omega
  rw [take, bind_run]
  simp only [get, getThe, MonadStateOf.get, liftM, monadLift, MonadLift.monadLift, ExceptT.lift,
    ExceptT.run, ExceptT.mk, StateT.get, Functor.map, StateT.map, pure, bind]
  by_cases fits : count ≤ reader.rest.length
  · rw [if_pos (enough.mpr fits), if_pos fits]
    rfl
  · rw [if_neg (fun same => fits (enough.mp same)), if_neg fits]
    rfl

theorem local_take (count : Nat) : Local (take count) := by
  intro reader a reader' ran
  rw [take_run] at ran
  split at ran
  case isFalse => cases ran
  case isTrue fits =>
    cases ran
    have length : (reader.rest.take count).length = count := List.length_take_of_le fits
    refine ⟨_, (List.take_append_drop count reader.rest).symm, fun tail position => ?_, ?_⟩
    · rw [take_run, if_pos (by rw [List.length_append, length]; omega), length]
      simp only
      rw [List.take_append_of_le_length (by omega), List.drop_append_of_le_length (by omega)]
      simp [List.take_of_length_le (Nat.le_of_eq length), List.drop_of_length_le (Nat.le_of_eq length)]
    · intro front begins strict position
      have less : front.length < count := by
        rcases Nat.lt_or_ge front.length count with less | more
        · exact less
        · exact absurd (begins.eq_of_length_le (by omega)) strict
      exact ⟨_, by rw [take_run, if_neg (by simp; omega)]⟩

theorem local_takeNumber (order : ByteOrder) (count : Nat) : Local (takeNumber order count) :=
  (local_take count).bind fun _ => local_pure _

theorem local_takeGroups (limit fuel : Nat) : Local (takeGroups limit fuel) := by
  induction fuel with
  | zero => exact local_throw _
  | succ fuel ih =>
    refine (local_takeNumber .little 1).bind fun byte => ?_
    split
    · exact local_pure _
    · exact ih.bind fun _ => local_pure _

theorem local_takeCounted : Local takeCounted := by
  have varint : Local takeVarint := (local_takeGroups _ _).bind fun _ => local_pure _
  refine varint.bind fun length => ?_
  split
  · exact (local_throw _).bind fun _ => local_take _
  · exact (local_pure _).bind fun _ => local_take _

/-- Every primitive is read locally, except for all that is left. -/
theorem local_read (order : ByteOrder) (p : Primitive) (bounded : p ≠ .rest) :
    Local (read order p) := by
  have int (kind : IntKind) : Local (takeInt order kind) :=
    (local_takeNumber _ _).bind fun _ => local_pure _
  cases p with
  | rest => exact absurd rfl bounded
  | bool | f32 | f64 => exact (local_takeNumber _ _).bind fun _ => local_pure _
  | varint | varlong =>
    exact ((local_takeGroups _ _).bind fun _ => local_pure _).bind fun _ => local_pure _
  | string =>
    refine local_takeCounted.bind fun bytes => ?_
    split
    · exact local_pure _
    · exact local_throw _
  | bytes => exact local_takeCounted.bind fun _ => local_pure _
  | fixedBytes count => exact (local_take count).bind fun _ => local_pure _
  | i8 | u8 | i16 | u16 | i32 | u32 | i64 | u64 | u128 => exact int _

end WireSchema.Wire
