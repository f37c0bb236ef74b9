import WireSchema.RunError
import WireSchema.Value

/-!
# Environments

What the bindings of a running body hold. A binding has at most one cell, so setting it again
replaces what it held.

Decoders build collections item by item. A cell that grows keeps its items latest first, which makes
an addition take constant time; `value_push` says that nobody can tell the difference.
-/

namespace WireSchema

/-- The collection with `v` added to its end. A map takes pairs. -/
def Value.push (collection v : Value) : Except RunError Value :=
  match collection, v with
  | .list items, v => .ok (.list (items ++ [v]))
  | .map entries, .list [key, value] => .ok (.map (entries ++ [(key, value)]))
  | .map _, v => .error (.misfit "key/value pair" v)
  | other, _ => .error (.misfit "list" other)

/-- What a binding holds. -/
inductive Cell where
  | plain (v : Value)
  /-- A list that grows, the latest item first. -/
  | items (latest : List Value)
  /-- A map that grows, the latest entry first. -/
  | entries (latest : List (Value × Value))

namespace Cell

def value : Cell → Value
  | .plain v => v
  | .items latest => .list latest.reverse
  | .entries latest => .map latest.reverse

/-- The same cell, ready to grow. -/
def opened : Cell → Cell
  | .plain (.list vs) => .items vs.reverse
  | .plain (.map kvs) => .entries kvs.reverse
  | c => c

/-- The cell with `v` added to the end of its collection. -/
def push (c : Cell) (v : Value) : Except RunError Cell :=
  match c.opened, v with
  | .items latest, v => .ok (.items (v :: latest))
  | .entries latest, .list [key, value] => .ok (.entries ((key, value) :: latest))
  | .entries _, v => .error (.misfit "key/value pair" v)
  | .plain other, _ => .error (.misfit "list" other)

/-- A cell grows like the collection it holds. -/
theorem value_push (c : Cell) (v : Value) : (c.push v).map value = c.value.push v := by
  cases c with
  | items latest => simp [push, opened, value, Value.push, Except.map]
  | entries latest =>
    simp only [push, opened, value, Value.push]
    split <;> simp_all [Except.map, value]
  | plain w =>
    cases w with
    | list items => simp [push, opened, value, Value.push, Except.map]
    | map entries =>
      simp only [push, opened, value, Value.push]
      split <;> simp_all [Except.map, value, List.reverse_eq_iff]
    | _ => simp [push, opened, value, Value.push, Except.map]

end Cell

/-- The cells of bindings, by the number of the binding. -/
abbrev Env := List (Nat × Cell)

namespace Env

/-- The cell of a binding. -/
def cell? (env : Env) (x : Nat) : Option Cell := env.lookup x

/-- The value of a binding. -/
def get? (env : Env) (x : Nat) : Option Value := (env.cell? x).map Cell.value

/-- The environment in which `x` has the cell `c`. -/
def put (x : Nat) (c : Cell) : Env → Env
  | [] => [(x, c)]
  | (y, d) :: rest => if y = x then (x, c) :: rest else (y, d) :: put x c rest

/-- The environment in which `x` holds `v`. -/
def set (x : Nat) (v : Value) (env : Env) : Env := env.put x (.plain v)

/-- The environment with the single binding `x`. -/
def single (x : Nat) (v : Value) : Env := set x v []

theorem cell?_nil (x : Nat) : cell? [] x = none := rfl

theorem cell?_cons (env : Env) (y : Nat) (d : Cell) (x : Nat) :
    cell? ((y, d) :: env) x = if x = y then some d else env.cell? x := by
  by_cases same : x = y
  · simp only [cell?, List.lookup_cons, same, beq_self_eq_true, if_true]
  · simp only [cell?, List.lookup_cons, beq_false_of_ne same, if_neg same]

/-- A binding that was put has its cell, and the others have what they had. -/
theorem cell?_put (env : Env) (x : Nat) (c : Cell) (y : Nat) :
    (env.put x c).cell? y = if y = x then some c else env.cell? y := by
  induction env with
  | nil => simp [put, cell?_cons, cell?_nil]
  | cons entry rest ih =>
    obtain ⟨z, d⟩ := entry
    by_cases same : z = x
    · subst same
      by_cases found : y = z <;> simp [put, cell?_cons, found]
    · by_cases found : y = z
      · subst found
        simp [put, cell?_cons, same]
      · simp [put, cell?_cons, same, found, ih]

/-- A binding that was put holds the value of its cell, and the others hold what they held. -/
theorem get?_put (env : Env) (x : Nat) (c : Cell) (y : Nat) :
    (env.put x c).get? y = if y = x then some c.value else env.get? y := by
  by_cases same : y = x <;> simp [get?, cell?_put, same]

/-- A binding that was set holds its value, and the others hold what they held. -/
theorem get?_set (env : Env) (x : Nat) (v : Value) (y : Nat) :
    (env.set x v).get? y = if y = x then some v else env.get? y :=
  get?_put env x (.plain v) y

end Env

end WireSchema
