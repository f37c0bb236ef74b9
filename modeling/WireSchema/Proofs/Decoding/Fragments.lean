import WireSchema.Proofs.Decoding.Mirrors

/-!
# Fragments of decoders

The code of a shape is a fragment of a body: it binds and sets only its own locals, in order, its
initial values do not fail, and its runs mirror the reads of the shape. Fragments are put together
from smaller ones, and elided.
-/

namespace WireSchema

open Ir Wire

namespace Decoding

/-! ### Closed fragments -/

/-- Statements that bind and set only locals from `low` to `high`, in order, and whose initial values
do not fail. -/
structure Closed (low high : Nat) (stmts : List Stmt) : Prop where
  le : low ≤ high
  bound : ∀ x ∈ Stmt.bound stmts, low ≤ x ∧ x < high
  assigned : ∀ x ∈ Stmt.assigned stmts, low ≤ x ∧ x < high
  tidy : Stmt.Tidy stmts
  sorted : Stmt.WellSorted {} stmts

variable {low mid high : Nat} {front back stmts : List Stmt}

theorem closed_nil (n : Nat) : Closed n n [] where
  le := Nat.le_refl n
  bound _ member := nomatch member
  assigned _ member := nomatch member
  tidy := trivial
  sorted := trivial

theorem Closed.widen {low' high' : Nat} (closed : Closed low high stmts) (le : low' ≤ low)
    (le' : high ≤ high') : Closed low' high' stmts where
  le := by
    have := closed.le
    omega
  bound x member := by
    have := closed.bound x member
    omega
  assigned x member := by
    have := closed.assigned x member
    omega
  tidy := closed.tidy
  sorted := closed.sorted

/-- Nothing known is less than anything. -/
theorem within_empty (Γ : Sorts) : Sorts.Within {} Γ :=
  ⟨fun _ known => (nomatch known), fun _ known => (nomatch known)⟩

/-- What a statement of the fragment binds can be used after it. -/
theorem seen_of_bind {Γ : Sorts} {x : Local} {mutable : Bool} {init : Option Expr}
    (member : Stmt.bind x mutable init ∈ stmts) : x.id ∈ (Stmt.sortsAfter Γ stmts).seen := by
  induction stmts generalizing Γ with
  | nil => cases member
  | cons s rest ih =>
    rcases List.mem_cons.mp member with rfl | later
    · exact (Stmt.within_sortsAfter _ rest).seen x.id (List.mem_append_left _ (by simp [Stmt.opens]))
    · exact ih later

theorem bound_of_bind {x : Local} {mutable : Bool} {init : Option Expr}
    (member : Stmt.bind x mutable init ∈ stmts) : x.id ∈ Stmt.bound stmts := by
  induction stmts with
  | nil => cases member
  | cons s rest ih =>
    rw [Stmt.bound_cons, List.mem_append]
    rcases List.mem_cons.mp member with rfl | later
    · exact .inl (by simp [Stmt.binds, Stmt.binders])
    · exact .inr (ih later)

/-- Statements that keep to locals of their own follow a fragment. -/
theorem tidy_append {Γ : Sorts} (seen : ∀ y ∈ Γ.seen, y < mid)
    (bound : ∀ y ∈ Stmt.bound front, y < mid) (tidy : Stmt.Tidy front)
    (sorted : Stmt.WellSorted Γ front) (bound' : ∀ y ∈ Stmt.bound back, mid ≤ y)
    (assigned' : ∀ y ∈ Stmt.assigned back, mid ≤ y) (tidy' : Stmt.Tidy back) :
    Stmt.Tidy (front ++ back) := by
  induction front generalizing Γ with
  | nil => exact tidy'
  | cons s rest ih =>
    have here (y : Nat) (member : y ∈ s.binds) : y < mid :=
      bound y (by simp [Stmt.bound_cons, member])
    rw [List.cons_append]
    refine ⟨fun y member => ?_, fun x init found => ?_, ?_⟩
    · rw [Stmt.bound_append, List.mem_append, not_or]
      refine ⟨tidy.1 y member, fun later => ?_⟩
      have := here y member
      have := bound' y later
      omega
    · obtain ⟨unset, unread⟩ := tidy.2.1 x init found
      cases Stmt.eq_bind_of_initialised found
      have own := here x.id (by simp [Stmt.binds, Stmt.binders])
      rw [Stmt.assigned_append, List.mem_append, not_or]
      refine ⟨⟨unset, fun later => ?_⟩, fun y read => ?_⟩
      · have := assigned' x.id later
        omega
      · rw [Stmt.bound_append, List.mem_append, not_or]
        refine ⟨unread y read, fun later => ?_⟩
        -- What an initial value reads was bound before.
        have := seen y ((sorted.1 x init found).seen y read)
        have := bound' y later
        omega
    · refine ih (fun y known => ?_) (fun y member => ?_) tidy.2.2 sorted.2
      · rcases List.mem_append.mp known with opened | earlier
        · exact here y (Stmt.opens_subset s y opened)
        · exact seen y earlier
      · exact bound y (by simp [Stmt.bound_cons, member])

theorem Closed.extend (closed : Closed low mid front) (le : mid ≤ high)
    (bound : ∀ x ∈ Stmt.bound back, mid ≤ x ∧ x < high)
    (assigned : ∀ x ∈ Stmt.assigned back, mid ≤ x ∧ x < high) (tidy : Stmt.Tidy back)
    (sorted : Stmt.WellSorted (Stmt.sortsAfter {} front) back) :
    Closed low high (front ++ back) where
  le := Nat.le_trans closed.le le
  bound x member := by
    rw [Stmt.bound_append, List.mem_append] at member
    have := closed.le
    rcases member with early | later
    · have := closed.bound x early
      omega
    · have := bound x later
      omega
  assigned x member := by
    rw [Stmt.assigned_append, List.mem_append] at member
    have := closed.le
    rcases member with early | later
    · have := closed.assigned x early
      omega
    · have := assigned x later
      omega
  tidy := tidy_append (Γ := {}) (fun _ known => nomatch known) (fun x member => (closed.bound x member).2)
    closed.tidy closed.sorted (fun x member => (bound x member).1)
    (fun x member => (assigned x member).1) tidy
  sorted := Stmt.wellSorted_append.mpr ⟨closed.sorted, sorted⟩

theorem Closed.append (closed : Closed low mid front) (closed' : Closed mid high back) :
    Closed low high (front ++ back) :=
  closed.extend closed'.le closed'.bound closed'.assigned closed'.tidy
    (closed'.sorted.mono (within_empty _))

/-- A binding with its initial value follows a fragment. -/
theorem Closed.declare (closed : Closed low mid stmts) {x : Local} (own : x.id = mid) {e : Expr}
    (sorted : e.WellSorted (Stmt.sortsAfter {} stmts)) :
    Closed low (mid + 1) (stmts ++ [.bind x false (some e)]) := by
  refine closed.extend (Nat.le_succ mid) (fun y member => ?_) (fun y member => ?_) ?_ ?_
  · have : y = x.id := by simpa [Stmt.bound_cons, Stmt.binds, Stmt.binders, Stmt.blocks] using member
    omega
  · simp [Stmt.assigned_cons, Stmt.sets, Stmt.target?, Stmt.blocks] at member
  · simp [Stmt.Tidy]
  · refine ⟨fun y init found => ?_, trivial⟩
    cases found
    exact sorted

/-! ### What fragments do -/

/-- A class of programs whose codecs leave the bindings of their callers alone. -/
structure Programs where
  holds : Program → Prop
  isolated : ∀ p, holds p → p.Isolated

/-- The fragment computes what the read yields. -/
structure Decodes (C : Programs) (read : Read Value) (low high : Nat) (b : Block) : Prop where
  closed : Closed low high b.stmts
  sorted : b.result.WellSorted (Stmt.sortsAfter {} b.stmts)
  run : ∀ p, C.holds p → ∀ m reader, m.stream = .input reader →
    Probe.Mirrors (Probe.evalBlock p b m) (read.run reader) fun v w _ => v = w

/-- After the fragment a local holds what the read yields. -/
structure Binds (C : Programs) (read : Read Value) (low high : Nat) (stmts : List Stmt) (x : Local) :
    Prop where
  closed : Closed low high stmts
  opened : ∃ mutable init, Stmt.bind x mutable init ∈ stmts
  run : ∀ p, C.holds p → ∀ m reader, m.stream = .input reader →
    Probe.Mirrors (Probe.execBlock p stmts m) (read.run reader) fun _ v m' =>
      m'.env.get? x.id = some v

/-- The locals hold the members, name by name. -/
def Holds (env : Env) (bindings : List (String × Local)) (members : List (String × Value)) : Prop :=
  (bindings.map fun b => (b.1, env.get? b.2.id)) = members.map fun v => (v.1, some v.2)

/-- After the fragment locals hold the members that the read yields. -/
structure BindsAll (C : Programs) (read : Read (List (String × Value))) (low high : Nat)
    (stmts : List Stmt) (bindings : List (String × Local)) : Prop where
  closed : Closed low high stmts
  opened : ∀ b ∈ bindings, ∃ mutable init, Stmt.bind b.2 mutable init ∈ stmts
  run : ∀ p, C.holds p → ∀ m reader, m.stream = .input reader →
    Probe.Mirrors (Probe.execBlock p stmts m) (read.run reader) fun _ members m' =>
      Holds m'.env bindings members

variable {C C' : Programs} {read : Read Value} {b : Block} {x : Local}

theorem Decodes.narrow (decodes : Decodes C read low high b) (fewer : ∀ p, C'.holds p → C.holds p) :
    Decodes C' read low high b :=
  ⟨decodes.closed, decodes.sorted, fun p holds => decodes.run p (fewer p holds)⟩

theorem Binds.narrow (binds : Binds C read low high stmts x) (fewer : ∀ p, C'.holds p → C.holds p) :
    Binds C' read low high stmts x :=
  ⟨binds.closed, binds.opened, fun p holds => binds.run p (fewer p holds)⟩

theorem BindsAll.narrow {members : Read (List (String × Value))} {bindings : List (String × Local)}
    (binds : BindsAll C members low high stmts bindings) (fewer : ∀ p, C'.holds p → C.holds p) :
    BindsAll C' members low high stmts bindings :=
  ⟨binds.closed, binds.opened, fun p holds => binds.run p (fewer p holds)⟩

/-- A fragment leaves the locals before it alone. -/
theorem Closed.cell?_eq (closed : Closed low high stmts) {p : Program} (isolated : p.Isolated)
    {m m' : Machine} (ran : Probe.execBlock p stmts m = .ok ((), m')) {y : Nat} (early : y < low) :
    m'.env.cell? y = m.env.cell? y := by
  refine Probe.cell?_execBlock isolated (fun member => ?_) (fun member => ?_) ran
  · have := closed.bound y member
    omega
  · have := closed.assigned y member
    omega

theorem Closed.get?_eq (closed : Closed low high stmts) {p : Program} (isolated : p.Isolated)
    {m m' : Machine} (ran : Probe.execBlock p stmts m = .ok ((), m')) {y : Nat} (early : y < low) :
    m'.env.get? y = m.env.get? y := by
  rw [Env.get?, Env.get?, closed.cell?_eq isolated ran early]

/-- What a fragment binds is still bound after statements that follow it. -/
theorem Closed.kept (first : Closed low mid front) (second : Closed mid high back) {p : Program}
    (isolated : p.Isolated) {m m' : Machine} (ran : Probe.execBlock p back m = .ok ((), m'))
    {y : Nat} (own : y ∈ Stmt.bound front) : m'.env.get? y = m.env.get? y :=
  second.get?_eq isolated ran (first.bound y own).2

theorem Binds.mem_bound (binds : Binds C read low high stmts x) : x.id ∈ Stmt.bound stmts := by
  obtain ⟨mutable, init, member⟩ := binds.opened
  exact bound_of_bind member

theorem BindsAll.mem_bound {members : Read (List (String × Value))}
    {bindings : List (String × Local)} (binds : BindsAll C members low high stmts bindings)
    {b : String × Local} (member : b ∈ bindings) : b.2.id ∈ Stmt.bound stmts := by
  obtain ⟨mutable, init, member⟩ := binds.opened b member
  exact bound_of_bind member

/-- A body leaves the locals before its own alone. -/
theorem Decodes.get?_eq (decodes : Decodes C read low high b) {p : Program}
    (isolated : p.Isolated) {m m' : Machine} {v : Value}
    (ran : Probe.evalBlock p b m = .ok (v, m')) {y : Nat} (early : y < low) :
    m'.env.get? y = m.env.get? y := by
  rw [Probe.evalBlock, Probe.bind_apply] at ran
  cases first : Probe.execBlock p b.stmts m with
  | error stop =>
    rw [first] at ran
    cases ran
  | ok out =>
    rw [first] at ran
    rw [Probe.env_of_eval isolated ran]
    exact decodes.closed.get?_eq isolated first early

/-! ### Putting fragments together -/

theorem execBlock_single (p : Program) (s : Stmt) : Probe.execBlock p [s] = Probe.exec p s := by
  funext m
  rw [Probe.execBlock_cons]
  cases Probe.exec p s m <;> rfl

theorem evalBlock_nil (p : Program) (e : Expr) : Probe.evalBlock p ⟨[], e⟩ = Probe.eval p e := rfl

/-- The value of a fragment is bound. -/
theorem Decodes.declare {e : Expr} (decodes : Decodes C read low mid ⟨stmts, e⟩) (own : x.id = mid) :
    Binds C read low (mid + 1) (stmts ++ [.bind x false (some e)]) x where
  closed := decodes.closed.declare own decodes.sorted
  opened := ⟨false, some e, by simp⟩
  run p holds m reader stream := by
    have whole : Probe.execBlock p (stmts ++ [.bind x false (some e)]) =
        Probe.evalBlock p ⟨stmts, e⟩ >>= fun v => Probe.effect (Run.bind x v) := by
      simp [Probe.execBlock_append, Probe.execBlock, Probe.exec, Probe.evalBlock]
    rw [whole]
    exact (decodes.run p holds m reader stream).set (f := id) x

/-- A local that a fragment binds is its value. -/
theorem Binds.value (binds : Binds C read low high stmts x) :
    Decodes C read low high ⟨stmts, .var x⟩ where
  closed := binds.closed
  sorted := by
    obtain ⟨mutable, init, member⟩ := binds.opened
    intro n node
    cases List.mem_singleton.mp (by simpa [Expr.nodes] using node)
    exact seen_of_bind member
  run p holds m reader stream := by
    have mirrors := binds.run p holds m reader stream
    rw [Probe.evalBlock, Probe.bind_apply]
    cases expected : read.run reader with
    | mk result reader' =>
      rw [expected] at mirrors
      cases result with
      | error e =>
        obtain ⟨cause, ran, same⟩ := mirrors
        rw [ran]
        exact ⟨cause, rfl, same⟩
      | ok v =>
        obtain ⟨_, m', ran, stream, known⟩ := mirrors
        rw [ran]
        exact ⟨v, m', Probe.eval_var (p := p) known, stream, rfl⟩

/-- A primitive is a fragment by itself. -/
theorem decodes_read {order : ByteOrder} (orders : ∀ p, C.holds p → p.order = order)
    (prim : Primitive) (n : Nat) : Decodes C (Wire.read order prim) n n ⟨[], .read prim⟩ where
  closed := closed_nil n
  sorted := by simp [Expr.WellSorted, Expr.nodes, Expr.Safe]
  run p holds m reader stream := by
    have mirrors := Probe.mirrors_read (p := p) prim stream
    rw [orders p holds] at mirrors
    exact mirrors

/-! ### Elision -/

/-- A program without code. -/
def idle : Program where
  code := ⟨[], [], []⟩
  order := .big
  calls := { decode := fun _ => throw .tooDeep, encode := fun _ _ => throw .tooDeep }

theorem isolated_idle : idle.Isolated :=
  ⟨fun _ => Run.isolated_throw _, fun _ _ => Run.isolated_throw _⟩

/-- Elision keeps what a fragment does. -/
theorem Decodes.elide (decodes : Decodes C read low high b) : Decodes C read low high b.elide := by
  have whole : b.WellSorted {} := ⟨decodes.closed.sorted, decodes.sorted⟩
  -- The parts of refinement that are about the text alone hold for any program.
  obtain ⟨refines, tidy⟩ := Probe.refines_elide isolated_idle b decodes.closed.tidy
  have sorted := refines.sorted {} (fun _ _ known => nomatch known) whole
  refine ⟨⟨decodes.closed.le, ?_, ?_, tidy, sorted.1⟩, sorted.2, ?_⟩
  · exact fun y member => decodes.closed.bound y (refines.bound y member)
  · exact fun y member => decodes.closed.assigned y (refines.assigned y member)
  · intro p holds m reader stream
    have isolated := C.isolated p holds
    have mirrors := decodes.run p holds m reader stream
    cases expected : read.run reader with
    | mk result reader' =>
      rw [expected] at mirrors
      cases result with
      | error e =>
        obtain ⟨cause, ran, same⟩ := mirrors
        exact ⟨cause, Probe.stop_elide isolated decodes.closed.tidy whole ran, same⟩
      | ok v =>
        obtain ⟨w, m', ran, stream, same⟩ := mirrors
        have refines := (Probe.refines_elide isolated b decodes.closed.tidy).1
        obtain ⟨n, ran', step⟩ := refines.value m w m' ran
        exact ⟨w, n, ran', step.stream.trans stream, same⟩

end Decoding

end WireSchema
