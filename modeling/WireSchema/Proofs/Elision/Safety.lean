import WireSchema.Proofs.Elision.Passes
import WireSchema.Proofs.Wire.Forms

/-!
# Well-sorted bodies do not fault

A run that keeps to the sorts of its bindings can only stop as an effect. So elision keeps the
meaning of a well-sorted body without any further condition on its runs.
-/

namespace WireSchema

open Ir

/-- The value is an integer. -/
def Value.IsInteger (v : Value) : Prop := ∃ kind bits, v = .int kind bits

/-- The bindings hold what is known of them. -/
structure Env.Fits (Γ : Sorts) (env : Env) : Prop where
  seen : ∀ x ∈ Γ.seen, ∃ v, env.get? x = some v
  ints : ∀ x ∈ Γ.ints, ∃ v, env.get? x = some v ∧ v.IsInteger

namespace Probe

variable {p : Program} {Γ : Sorts}

/-- On bindings that fit, the probe keeps them fitting, yields a value of which `Q` holds, or stops
as an effect. -/
def Mild (Γ : Sorts) {α : Type} (act : Probe α) (Q : α → Prop) : Prop :=
  ∀ m : Machine, m.env.Fits Γ → match act m with
    | .ok (a, m') => m'.env.Fits Γ ∧ Q a
    | .error stop => stop.fault = false

theorem Mild.pure {α : Type} {a : α} {Q : α → Prop} (holds : Q a) : Mild Γ (pure a) Q :=
  fun _ fits => ⟨fits, holds⟩

theorem Mild.bind {α β : Type} {act : Probe α} {next : α → Probe β} {Q : α → Prop}
    {Q' : β → Prop} (first : Mild Γ act Q) (second : ∀ a, Q a → Mild Γ (next a) Q') :
    Mild Γ (act >>= next) Q' := by
  intro m fits
  have start := first m fits
  rw [bind_apply]
  cases ran : act m with
  | error stop =>
    rw [ran] at start
    exact start
  | ok out =>
    obtain ⟨a, m'⟩ := out
    rw [ran] at start
    exact second a start.2 m' start.1

theorem Mild.weaken {α : Type} {act : Probe α} {Q Q' : α → Prop} (mild : Mild Γ act Q)
    (weaker : ∀ a, Q a → Q' a) : Mild Γ act Q' := by
  intro m fits
  have here := mild m fits
  cases ran : act m with
  | error stop =>
    rw [ran] at here
    exact here
  | ok out =>
    rw [ran] at here
    exact ⟨here.1, weaker _ here.2⟩

/-- A step that leaves the bindings alone is mild as an effect. -/
theorem mild_effect {α : Type} {act : Run α} (isolated : Run.Isolated act) :
    Mild Γ (effect act) (fun a => ∃ m m', act m = .ok (a, m')) := by
  intro m fits
  simp only [effect, marked]
  cases ran : act m with
  | error e => rfl
  | ok out =>
    obtain ⟨a, m'⟩ := out
    refine ⟨?_, m, m', ran⟩
    rw [isolated.env_eq ran]
    exact fits

theorem mild_valueOf {x : Local} (seen : x.id ∈ Γ.seen) :
    Mild Γ (part (Run.valueOf x)) (fun v => x.id ∈ Γ.ints → v.IsInteger) := by
  intro m fits
  rw [part_valueOf]
  obtain ⟨v, found⟩ := fits.seen x.id seen
  rw [found]
  refine ⟨fits, fun int => ?_⟩
  obtain ⟨w, found', integer⟩ := fits.ints x.id int
  rw [found] at found'
  cases found'
  exact integer

/-- What a decoder reads satisfies what every such read yields. -/
theorem mild_read (order : Wire.ByteOrder) {prim : Primitive} {Q : Value → Prop}
    (yields : Wire.Yields (Wire.read order prim) Q) :
    Mild Γ (effect (Run.read order prim)) Q := by
  refine (mild_effect (Run.isolated_read order prim)).weaken fun v ran => ?_
  obtain ⟨m, m', ran⟩ := ran
  have ran : effect (Run.read order prim) m = .ok (v, m') := by
    rw [effect, marked, ran]
  cases stream : m.stream with
  | output latest =>
    -- An encoder has nothing to read from.
    have stuck : effect (Run.read order prim) m =
        .error ⟨.shape "decode context" "encode context", false⟩ := by
      simp only [effect, marked, Run.read, Run.bind_apply, get, getThe, MonadStateOf.get,
        StateT.get, pure, Except.pure, Except.bind, stream]
      rfl
    rw [stuck] at ran
    cases ran
  | input reader =>
    rw [effect_read order prim m stream] at ran
    split at ran
    case h_1 => cases ran
    case h_2 read =>
      cases ran
      exact yields _ _ _ read

theorem yields_integer (order : Wire.ByteOrder) {prim : Primitive} (int : prim.isInteger = true) :
    Wire.Yields (Wire.read order prim) Value.IsInteger := by
  intro reader v reader' ran
  obtain ⟨kind, known⟩ := Option.isSome_iff_exists.mp int
  obtain ⟨bits, same⟩ := Wire.yields_read_int order known reader v reader' ran
  exact ⟨kind, bits, same⟩

theorem mild_leftOperand {op : BinOp} {v : Value}
    (usable : op = .eq ∨ op = .ne ∨ v.IsInteger) :
    Mild Γ (part (Run.leftOperand op v)) (fun _ => True) := by
  rcases usable with rfl | rfl | ⟨kind, bits, rfl⟩
  · exact .pure trivial
  · exact .pure trivial
  · cases op <;> exact .pure trivial

theorem mild_binary {op : BinOp} {v w : Value}
    (usable : op = .eq ∨ op = .ne ∨ v.IsInteger ∧ w.IsInteger) :
    Mild Γ (part (Run.binary op v w)) (fun u => op ≠ .eq → op ≠ .ne → u.IsInteger) := by
  rcases usable with rfl | rfl | ⟨⟨kind, bits, rfl⟩, ⟨kind', bits', rfl⟩⟩
  · exact .pure fun other => absurd rfl other
  · exact .pure fun _ other => absurd rfl other
  · cases op with
    | eq => exact .pure fun other => absurd rfl other
    | ne => exact .pure fun _ other => absurd rfl other
    | shl | shr | bitAnd | bitOr => exact .pure fun _ _ => ⟨_, _, rfl⟩

/-! ### Expressions -/

/-- What is known of a value of the expression. -/
def Expected (Γ : Sorts) (e : Expr) (v : Value) : Prop := e.isInt Γ = true → v.IsInteger

theorem Expr.WellSorted.here {e : Expr} (sorted : e.WellSorted Γ) : e.Safe Γ :=
  sorted e (by cases e <;> simp [Expr.nodes])

mutual

/-- Well-sorted expressions do not fault. -/
theorem mild_eval (isolated : p.Isolated) : ∀ e : Expr, e.WellSorted Γ →
    Mild Γ (eval p e) (Expected Γ e)
  | .lit l => fun _ => .pure fun int => by
    cases l with
    | int v kind => exact ⟨kind, _, rfl⟩
    | bool _ | str _ => cases int
  | .var x => fun sorted => by
    refine (mild_valueOf (Expr.WellSorted.here sorted)).weaken fun v integer int => ?_
    exact integer (by simpa [Expr.isInt] using int)
  | .read prim => fun _ => by
    rcases Bool.eq_false_or_eq_true prim.isInteger with int | other
    · exact (mild_read p.order (yields_integer p.order int)).weaken fun v integer _ => integer
    · refine (mild_effect (Run.isolated_read p.order prim)).weaken fun v _ int => ?_
      rw [Expr.isInt, other] at int
      cases int
  | .enumValue _ _ => fun _ => .pure nofun
  | .absent => fun _ => .pure nofun
  | .newList => fun _ => .pure nofun
  | .newMap => fun _ => .pure nofun
  | .callDecode codec => fun _ =>
    (mild_effect (isolated.decode codec)).weaken fun _ _ int => nomatch int
  | .deref e => fun sorted => (mild_eval isolated e fun n node => sorted n (by simp [Expr.nodes, node])).weaken fun _ _ int => nomatch int
  | .borrow e => fun sorted => (mild_eval isolated e fun n node => sorted n (by simp [Expr.nodes, node])).weaken fun _ _ int => nomatch int
  | .present e => fun sorted => (mild_eval isolated e fun n node => sorted n (by simp [Expr.nodes, node])).weaken fun _ _ int => nomatch int
  | .isPresent e => fun sorted =>
    (mild_eval isolated e fun n node => sorted n (by simp [Expr.nodes, node])).bind fun v _ => .pure nofun
  | .field e name => fun sorted => (Expr.WellSorted.here sorted).elim
  | .toId type e => fun sorted => (Expr.WellSorted.here sorted).elim
  | .cast e kind => fun sorted => (Expr.WellSorted.here sorted).elim
  | .len e => fun sorted => (Expr.WellSorted.here sorted).elim
  | .fromId type e => fun sorted => by
    refine (mild_eval isolated e fun n node => sorted n (by simp [Expr.nodes, node])).bind fun v _ => ?_
    exact (mild_effect (Run.settled_nameOfId p.code type v).isolated).weaken
      fun _ _ int => nomatch int
  | .struct type fields => fun sorted => by
    refine (mild_evalFields isolated fields fun n node => ?_).bind fun values _ => .pure nofun
    exact sorted n (by simp [Expr.nodes, node])
  | .variant type name payload => fun sorted => by
    refine (mild_evalOption isolated payload fun n node => ?_).bind fun value _ => .pure nofun
    exact sorted n (by simp [Expr.nodes, node])
  | .binary op a b => fun sorted => by
    have left := mild_eval isolated a fun n node => sorted n (by simp [Expr.nodes, node])
    have right := mild_eval isolated b fun n node => sorted n (by simp [Expr.nodes, node])
    have here := Expr.WellSorted.here sorted
    refine left.bind fun v known => ?_
    have usable : op = .eq ∨ op = .ne ∨ v.IsInteger :=
      here.imp_right (Or.imp_right fun ints => known ints.1)
    refine (mild_leftOperand usable).bind fun _ _ => right.bind fun w known' => ?_
    have usable : op = .eq ∨ op = .ne ∨ v.IsInteger ∧ w.IsInteger :=
      here.imp_right (Or.imp_right fun ints => ⟨known ints.1, known' ints.2⟩)
    refine (mild_binary usable).weaken fun u integer int => ?_
    simp only [Expr.isInt, Bool.and_eq_true, bne_iff_ne, ne_eq] at int
    exact integer int.1 int.2
  | .pair a b => fun sorted => by
    have left := mild_eval isolated a fun n node => sorted n (by simp [Expr.nodes, node])
    have right := mild_eval isolated b fun n node => sorted n (by simp [Expr.nodes, node])
    exact left.bind fun v _ => right.bind fun w _ => .pure nofun
  | .cond test yes no => fun sorted => by
    have onYes := mild_eval isolated yes fun n node => sorted n (by simp [Expr.nodes, node])
    have onNo := mild_eval isolated no fun n node => sorted n (by simp [Expr.nodes, node])
    cases (Expr.WellSorted.here sorted : test = .read .bool)
    refine (mild_read p.order (Wire.yields_read_bool p.order)).bind fun v known => ?_
    obtain ⟨b, rfl⟩ := known
    refine Mild.bind (Q := fun _ => True) (.pure trivial) fun b _ => ?_
    cases b with
    | true => exact onYes.weaken fun _ _ int => nomatch int
    | false => exact onNo.weaken fun _ _ int => nomatch int
  | .call path args fallible => fun sorted => by
    refine (mild_evalList isolated args fun n node => ?_).bind fun values _ => ?_
    · exact sorted n (by simp [Expr.nodes, node])
    · exact (mild_effect (Run.isolated_callHost p.code path values fallible)).weaken
        fun _ _ int => nomatch int

theorem mild_evalOption (isolated : p.Isolated) : ∀ e : Option Expr,
    (∀ n ∈ Expr.nodesOption e, n.Safe Γ) → Mild Γ (evalOption p e) (fun _ => True)
  | none => fun _ => .pure trivial
  | some e => fun sorted => (mild_eval isolated e sorted).bind fun _ _ => .pure trivial

theorem mild_evalList (isolated : p.Isolated) : ∀ es : List Expr,
    (∀ n ∈ Expr.nodesList es, n.Safe Γ) → Mild Γ (evalList p es) (fun _ => True)
  | [] => fun _ => .pure trivial
  | e :: rest => fun sorted => by
    have first := mild_eval isolated e fun n node => sorted n (by simp [Expr.nodesList, node])
    have others := mild_evalList isolated rest fun n node =>
      sorted n (by simp [Expr.nodesList, node])
    exact first.bind fun _ _ => others.bind fun _ _ => .pure trivial

theorem mild_evalFields (isolated : p.Isolated) : ∀ fields : List (String × Expr),
    (∀ n ∈ Expr.nodesFields fields, n.Safe Γ) → Mild Γ (evalFields p fields) (fun _ => True)
  | [] => fun _ => .pure trivial
  | (_, e) :: rest => fun sorted => by
    have first := mild_eval isolated e fun n node => sorted n (by simp [Expr.nodesFields, node])
    have others := mild_evalFields isolated rest fun n node =>
      sorted n (by simp [Expr.nodesFields, node])
    exact first.bind fun _ _ => others.bind fun _ _ => .pure trivial

end

/-! ### Statements -/

/-- Statements keep what their own bindings have no part in. -/
theorem keeps_execBlock (isolated : p.Isolated) {P : Env → Prop} {stmts : List Stmt}
    (puts : ∀ x, x ∈ Stmt.bound stmts ∨ x ∈ Stmt.assigned stmts → ∀ env c, P env → P (env.put x c))
    {m m' : Machine} (start : P m.env) (ran : execBlock p stmts m = .ok ((), m')) : P m'.env := by
  obtain ⟨fresh, absent⟩ := exists_fresh (Stmt.uses stmts)
  -- Both runs are the same one, so the relation is equality together with `P`.
  let still (env₁ env₂ : Env) : Prop := env₂ = env₁ ∧ P env₁
  have steps : StmtSteps (KeepsStep still) p p ⟨fresh, .absent⟩ (fun n => n.localId? ≠ some fresh)
      (fun x => x ∈ Stmt.bound stmts ∨ x ∈ Stmt.assigned stmts) (fun _ => True) := by
    refine stmtSteps_keepsStep isolated ?_ ?_ ?_
    · intro y other
      have other : y.id ≠ fresh := fun same => other (congrArg some same)
      simp only [Expr.subst, if_neg other, eval]
      exact keepsStep_valueOf y fun _ _ same => by rw [same.1]
    · intro x allowed env₁ env₂ same c
      exact ⟨by rw [same.1], puts x allowed env₁ c same.2⟩
    · intro x allowed env₁ env₂ same
      rw [same.1]
  have fits : ∀ t ∈ Stmt.flattenBlock stmts, Fits (fun n => n.localId? ≠ some fresh)
      (fun x => x ∈ Stmt.bound stmts ∨ x ∈ Stmt.assigned stmts) (fun _ => True) t :=
    fits_of_not_mem absent (fun _ => .inl) (fun _ => .inr)
  have related := steps.execBlock stmts fits m m ⟨rfl, rfl, rfl, start⟩
  rw [Stmt.substBlock_of_not_mem _ stmts absent, ran] at related
  exact related.2.env.2

/-- Statements do not touch a binding that they neither introduce nor set. -/
theorem cell?_execBlock (isolated : p.Isolated) {stmts : List Stmt} {x : Nat}
    (unbound : x ∉ Stmt.bound stmts) (unset : x ∉ Stmt.assigned stmts) {m m' : Machine}
    (ran : execBlock p stmts m = .ok ((), m')) : m'.env.cell? x = m.env.cell? x := by
  refine keeps_execBlock isolated (P := fun env => env.cell? x = m.env.cell? x) ?_ rfl ran
  intro y written env c same
  have other : x ≠ y := by
    rintro rfl
    exact written.elim unbound unset
  rw [Env.cell?_put, if_neg other, same]

/-- A binding that is set stays set. -/
theorem set_execBlock (isolated : p.Isolated) {stmts : List Stmt} {x : Nat} {m m' : Machine}
    (set : ∃ v, m.env.get? x = some v) (ran : execBlock p stmts m = .ok ((), m')) :
    ∃ v, m'.env.get? x = some v := by
  refine keeps_execBlock isolated (P := fun env => ∃ v, env.get? x = some v) ?_ set ran
  intro y _ env c set
  rw [Env.get?_put]
  split
  · exact ⟨_, rfl⟩
  · exact set

theorem execBlock_cons (s : Stmt) (rest : List Stmt) (m : Machine) :
    execBlock p (s :: rest) m = (exec p s m).bind fun out => execBlock p rest out.2 := rfl

/-- After a statement the bindings hold what is known after it, if it leaves the integers alone. -/
theorem fits_exec (isolated : p.Isolated) {s : Stmt}
    (sorted : ∀ x init, s.initialised? = some (x, init) → init.WellSorted Γ)
    (kept : ∀ x ∈ Γ.ints, x ∉ s.binds ∧ x ∉ s.sets) {m m' : Machine} (fits : m.env.Fits Γ)
    (ran : exec p s m = .ok ((), m')) : m'.env.Fits (s.sorts Γ) := by
  have ran' : execBlock p [s] m = .ok ((), m') := by
    rw [execBlock_cons, ran]
    rfl
  have still (x : Nat) (known : x ∈ Γ.ints) : m'.env.get? x = m.env.get? x := by
    obtain ⟨unbound, unset⟩ := kept x known
    rw [Env.get?, Env.get?, cell?_execBlock isolated (by simpa [Stmt.bound_cons] using unbound)
      (by simpa [Stmt.assigned_cons] using unset) ran']
  constructor
  · intro x known
    rcases List.mem_append.mp known with opened | earlier
    · cases s with
      | bind y mutable init =>
        cases List.mem_singleton.mp opened
        -- Whatever the initial value is, the binding holds it now.
        cases init with
        | none =>
          cases ran
          exact ⟨_, by rw [Env.get?_set, if_pos rfl]⟩
        | some init =>
          rw [exec, bind_apply] at ran
          cases value : eval p init m with
          | error stop =>
            rw [value] at ran
            cases ran
          | ok out =>
            rw [value] at ran
            cases ran
            exact ⟨_, by rw [Env.get?_set, if_pos rfl]⟩
      | _ => cases opened
    · exact set_execBlock isolated (fits.seen x earlier) ran'
  · intro x known
    rcases List.mem_append.mp known with opened | earlier
    · obtain ⟨y, init, found, int, rfl⟩ := Stmt.mem_opensInts.mp opened
      have mild := mild_eval isolated init (sorted y init found) m fits
      cases Stmt.eq_bind_of_initialised found
      rw [exec, bind_apply] at ran
      cases value : eval p init m with
      | error stop =>
        rw [value] at ran
        cases ran
      | ok out =>
        rw [value] at ran mild
        cases ran
        exact ⟨out.1, by rw [Env.get?_set, if_pos rfl], mild.2 int⟩
    · rw [still x earlier]
      exact fits.ints x earlier

theorem fits_execBlock (isolated : p.Isolated) {stmts : List Stmt} (tidy : Stmt.Tidy stmts)
    (sorted : Stmt.WellSorted Γ stmts)
    (kept : ∀ x ∈ Γ.ints, x ∉ Stmt.bound stmts ∧ x ∉ Stmt.assigned stmts) {m m' : Machine}
    (fits : m.env.Fits Γ) (ran : execBlock p stmts m = .ok ((), m')) :
    m'.env.Fits (Stmt.sortsAfter Γ stmts) := by
  induction stmts generalizing Γ m with
  | nil =>
    cases ran
    exact fits
  | cons s rest ih =>
    rw [execBlock_cons] at ran
    simp only [Stmt.bound_cons, Stmt.assigned_cons, List.mem_append, not_or] at kept
    cases first : exec p s m with
    | error stop =>
      rw [first] at ran
      cases ran
    | ok out =>
      rw [first] at ran
      have here := fits_exec isolated sorted.1
        (fun x known => ⟨(kept x known).1.1, (kept x known).2.1⟩) fits first
      refine ih tidy.2.2 sorted.2 (fun x known => ?_) here ran
      rcases List.mem_append.mp known with opened | earlier
      · obtain ⟨y, init, found, _, rfl⟩ := Stmt.mem_opensInts.mp opened
        refine ⟨tidy.1 y.id ?_, (tidy.2.1 y init found).1⟩
        cases Stmt.eq_bind_of_initialised found
        simp [Stmt.binds, Stmt.binders]
      · exact ⟨(kept x earlier).1.2, (kept x earlier).2.2⟩

/-- The result of a tidy and well-sorted body does not fault. -/
theorem not_lateFault (isolated : p.Isolated) {b : Block} (tidy : Stmt.Tidy b.stmts)
    (sorted : b.WellSorted {}) (m : Machine) : ¬ LateFault p b m := by
  rintro ⟨m', e, ran, fault⟩
  have fits : m.env.Fits {} := ⟨fun _ known => (nomatch known), fun _ known => (nomatch known)⟩
  have fits' := fits_execBlock isolated tidy sorted.1 (fun _ known => (nomatch known)) fits ran
  have mild := mild_eval isolated b.result sorted.2 m' fits'
  rw [fault] at mild
  cases mild

/-- Elision keeps the outcome of a tidy and well-sorted body that stops as an effect. -/
theorem stop_elide (isolated : p.Isolated) {b : Block} (tidy : Stmt.Tidy b.stmts)
    (sorted : b.WellSorted {}) {m : Machine} {e : RunError}
    (stopped : evalBlock p b m = .error ⟨e, false⟩) : evalBlock p b.elide m = .error ⟨e, false⟩ := by
  obtain ⟨refines, tidy'⟩ := refines_elide isolated b tidy
  have sorted' := refines.sorted {} (fun _ _ known => (nomatch known)) sorted
  rcases refines.stop m e stopped with same | late
  · exact same
  · exact absurd late (not_lateFault isolated tidy' sorted' m)

end Probe

end WireSchema
