import WireSchema.Proofs.Machine.Transfer

/-!
# What elision retains

An integer that is read first and used for two fields of the result stays bound, and both fields go
on to be calculated from it. So a run that succeeds gives them the values that the integer has for
them, whatever elision does to the rest of the body. Refinement does not tell this much: a run may
succeed because elision has dropped the calculation at which it failed.
-/

namespace WireSchema

open Ir

namespace Ir

/-! ### Uses -/

theorem two_le_count_flatMap {α : Type} {f : α → List Nat} {items : List α} {a b : α}
    (first : a ∈ items) (second : b ∈ items) (differ : a ≠ b) {n : Nat} (here : n ∈ f a)
    (there : n ∈ f b) : 2 ≤ (items.flatMap f).count n := by
  induction items with
  | nil => cases first
  | cons c rest ih =>
    rw [List.flatMap_cons, List.count_append]
    have later {d : α} (member : d ∈ rest) (used : n ∈ f d) : 0 < (rest.flatMap f).count n :=
      List.count_pos_iff.mpr (List.mem_flatMap.mpr ⟨d, member, used⟩)
    rcases List.mem_cons.mp first with rfl | early
    · have one := List.count_pos_iff.mpr here
      rcases List.mem_cons.mp second with rfl | late
      · exact absurd rfl differ
      · have two := later late there
        omega
    · rcases List.mem_cons.mp second with rfl | late
      · have one := List.count_pos_iff.mpr there
        have two := later early here
        omega
      · have both := ih early late
        omega

theorem Stmt.uses_eq_flatMap (stmts : List Stmt) : Stmt.uses stmts = stmts.flatMap Stmt.used := by
  induction stmts with
  | nil => rfl
  | cons s rest ih => rw [Stmt.uses_cons, ih, List.flatMap_cons]

theorem Expr.localsFields_eq_flatMap (fields : List (String × Expr)) :
    Expr.localsFields fields = fields.flatMap (·.2.locals) := by
  induction fields with
  | nil => rfl
  | cons field rest ih => rw [List.flatMap_cons, ← ih, ← Expr.localsFields_cons]

theorem Expr.substFields_eq_map (r : Expr.Replacement) (fields : List (String × Expr)) :
    Expr.substFields r fields = fields.map fun f => (f.1, f.2.subst r) := by
  induction fields with
  | nil => rfl
  | cons field rest ih => rw [List.map_cons, ← ih, Expr.substFields]

/-- A binding has one binder. -/
theorem Stmt.Tidy.eq_of_binds {stmts : List Stmt} (tidy : Stmt.Tidy stmts) {s t : Stmt}
    (first : s ∈ stmts) (second : t ∈ stmts) {x : Nat} (here : x ∈ s.binds) (there : x ∈ t.binds) :
    s = t := by
  induction stmts with
  | nil => cases first
  | cons u rest ih =>
    have later {v : Stmt} (member : v ∈ rest) (own : x ∈ v.binds) : x ∈ Stmt.bound rest := by
      obtain ⟨front, back, rfl⟩ := List.append_of_mem member
      simp [Stmt.bound_append, Stmt.bound_cons, own]
    rcases List.mem_cons.mp first with rfl | early
    · rcases List.mem_cons.mp second with rfl | late
      · rfl
      · exact absurd (later late there) (tidy.1 x here)
    · rcases List.mem_cons.mp second with rfl | late
      · exact absurd (later early here) (tidy.1 x there)
      · exact ih tidy.2.2 early late

theorem Stmt.Tidy.eq_of_bind {stmts : List Stmt} (tidy : Stmt.Tidy stmts) {x y : Local}
    {e init : Expr} (first : .bind x false (some e) ∈ stmts)
    (second : .bind y false (some init) ∈ stmts) (same : x.id = y.id) : e = init := by
  have whole := tidy.eq_of_binds first second (x := x.id) (by simp [Stmt.binds, Stmt.binders])
    (by simp [Stmt.binds, Stmt.binders, same])
  cases whole
  rfl

/-! ### Retained fields -/

/-- The expression calculates something from one binding. -/
structure Expr.From (raw : Local) (e : Expr) : Prop where
  compound : ∀ x, e ≠ .var x
  uses : raw.id ∈ e.locals
  only : ∀ y ∈ e.locals, y = raw.id

/-- An expression stands for another: it is that expression, or a binding of it. -/
def Stmt.StandsFor (stmts : List Stmt) (found e : Expr) : Prop :=
  found = e ∨ ∃ x, found = .var x ∧ .bind x false (some e) ∈ stmts

/-- The body binds an integer first, and makes a struct with the given names, two fields of which are
calculated from that integer. -/
structure Block.Retains (raw : Local) (prim : Primitive) (names : List String)
    (f g : String × Expr) (b : Block) : Prop where
  head : ∃ rest, b.stmts = .bind raw false (some (.read prim)) :: rest
  fields : ∃ type entries e e', b.result = .struct type entries ∧ entries.map (·.1) = names ∧
    (f.1, e) ∈ entries ∧ (g.1, e') ∈ entries ∧ Stmt.StandsFor b.stmts e f.2 ∧
    Stmt.StandsFor b.stmts e' g.2 ∧ ∀ x y, e = .var x → e' = .var y → x.id ≠ y.id

namespace Block.Retains

variable {raw : Local} {prim : Primitive} {names : List String} {f g : String × Expr}

/-- The integer is used at least twice. -/
theorem two_le_uses {b : Block} (retains : b.Retains raw prim names f g) (differ : f.1 ≠ g.1)
    (first : f.2.From raw) (second : g.2.From raw) : 2 ≤ b.uses.count raw.id := by
  obtain ⟨type, entries, e, e', result, _, here, there, stands, stands', apart⟩ := retains.fields
  have bound {x : Local} {init : Expr} (uses : raw.id ∈ init.locals) :
      raw.id ∈ (Stmt.bind x false (some init)).used := by
    rwa [Stmt.used_bind_some]
  have before {x : Local} {init : Expr} (member : .bind x false (some init) ∈ b.stmts)
      (uses : raw.id ∈ init.locals) : 0 < (Stmt.uses b.stmts).count raw.id := by
    rw [Stmt.uses_eq_flatMap]
    exact List.count_pos_iff.mpr (List.mem_flatMap.mpr ⟨_, member, bound uses⟩)
  have after {name : String} {part : Expr} (member : (name, part) ∈ entries)
      (uses : raw.id ∈ part.locals) : 0 < (Expr.localsFields entries).count raw.id := by
    rw [Expr.localsFields_eq_flatMap]
    exact List.count_pos_iff.mpr (List.mem_flatMap.mpr ⟨_, member, uses⟩)
  rw [Block.uses, result, Expr.locals_struct, List.count_append]
  -- Each field uses the integer in the result itself or in a binding, and never in the same place.
  rcases stands with rfl | ⟨x, rfl, member⟩
  · rcases stands' with rfl | ⟨y, rfl, member'⟩
    · have both : 2 ≤ (Expr.localsFields entries).count raw.id := by
        rw [Expr.localsFields_eq_flatMap]
        exact two_le_count_flatMap here there (fun same => differ (congrArg Prod.fst same))
          first.uses second.uses
      omega
    · have one := after here first.uses
      have two := before member' second.uses
      omega
  · rcases stands' with rfl | ⟨y, rfl, member'⟩
    · have one := after there second.uses
      have two := before member first.uses
      omega
    · have both : 2 ≤ (Stmt.uses b.stmts).count raw.id := by
        rw [Stmt.uses_eq_flatMap]
        refine two_le_count_flatMap member member' ?_ (bound first.uses) (bound second.uses)
        intro same
        exact apart x y rfl rfl (congrArg Local.id (Stmt.bind.inj same).1)
      omega

/-! ### Unused bindings -/

/-- Bindings in use stay. -/
theorem mem_dropUnused {used : List Nat} {stmts : List Stmt} {x : Local} {init : Expr}
    (member : .bind x false (some init) ∈ stmts) (inUse : x.id ∈ used) :
    .bind x false (some init) ∈ stmts.flatMap (·.dropUnused used) := by
  refine List.mem_flatMap.mpr ⟨_, member, ?_⟩
  simp [Stmt.dropUnused, Stmt.initialised?, inUse]

theorem dropUnused {b : Block} (retains : b.Retains raw prim names f g) (differ : f.1 ≠ g.1)
    (first : f.2.From raw) (second : g.2.From raw) :
    Block.Retains raw prim names f g ⟨b.stmts.flatMap (·.dropUnused b.uses), b.result⟩ := by
  constructor
  case head =>
    obtain ⟨rest, same⟩ := retains.head
    have used : raw.id ∈ b.uses := by
      have twice := retains.two_le_uses differ first second
      exact List.count_pos_iff.mp (by omega)
    refine ⟨rest.flatMap (·.dropUnused b.uses), ?_⟩
    rw [same, List.flatMap_cons]
    simp [Stmt.dropUnused, Stmt.initialised?, used]
  case fields =>
    obtain ⟨type, entries, e, e', result, named, here, there, stands, stands', apart⟩ :=
      retains.fields
    -- A binding that stands for a field is used by the result.
    have kept {name : String} {found e : Expr} (member : (name, found) ∈ entries)
        (stands : Stmt.StandsFor b.stmts found e) :
        Stmt.StandsFor (b.stmts.flatMap (·.dropUnused b.uses)) found e := by
      rcases stands with rfl | ⟨x, rfl, bound⟩
      · exact .inl rfl
      · refine .inr ⟨x, rfl, mem_dropUnused bound ?_⟩
        rw [Block.uses, result, Expr.locals_struct, Expr.localsFields_eq_flatMap]
        exact List.mem_append_right _ (List.mem_flatMap.mpr ⟨_, member, List.mem_singleton_self _⟩)
    exact ⟨type, entries, e, e', result, named, here, there, kept here stands, kept there stands',
      apart⟩

theorem dropRounds {b : Block} (retains : b.Retains raw prim names f g) (differ : f.1 ≠ g.1)
    (first : f.2.From raw) (second : g.2.From raw) (fuel : Nat) :
    (b.dropRounds fuel).Retains raw prim names f g := by
  induction fuel generalizing b with
  | zero => exact retains
  | succ fuel ih =>
    rw [Block.dropRounds]
    split
    · exact ih (retains.dropUnused differ first second)
    · exact retains

/-! ### Replaced bindings -/

theorem standsFor_subst {front back : List Stmt} {y : Local} {init found e : Expr}
    (tidy : Stmt.Tidy (front ++ .bind y false (some init) :: back)) (derived : e.From raw)
    (other : y.id ≠ raw.id)
    (stands : Stmt.StandsFor (front ++ .bind y false (some init) :: back) found e) :
    Stmt.StandsFor (front ++ back) (found.subst ⟨y.id, init⟩) e ∧
      ∀ x, found.subst ⟨y.id, init⟩ = .var x → found = .var x := by
  rcases stands with rfl | ⟨x, rfl, member⟩
  · have same : found.subst ⟨y.id, init⟩ = found :=
      Expr.subst_of_not_mem _ found fun used => other (derived.only _ used)
    rw [same]
    exact ⟨.inl rfl, fun _ => id⟩
  -- A binding of the field may be the one that goes; then its initial value comes in its place.
  · by_cases here : x.id = y.id
    · have moved : (Expr.var x).subst ⟨y.id, init⟩ = init := if_pos here
      cases tidy.eq_of_bind member (List.mem_append_right _ List.mem_cons_self) here
      rw [moved]
      exact ⟨.inl rfl, fun z single => absurd single (derived.compound z)⟩
    · have same : (Expr.var x).subst ⟨y.id, init⟩ = .var x := if_neg here
      rw [same]
      refine ⟨.inr ⟨x, rfl, ?_⟩, fun _ => id⟩
      rcases List.mem_append.mp member with early | late
      · exact List.mem_append_left _ early
      · rcases List.mem_cons.mp late with own | late
        · cases own
          exact absurd rfl here
        · exact List.mem_append_right _ late

theorem head_of_other {front back : List Stmt} {y : Local} {init : Expr} (other : y.id ≠ raw.id)
    (head : ∃ rest, front ++ .bind y false (some init) :: back =
      .bind raw false (some (.read prim)) :: rest) (back' : List Stmt) :
    ∃ rest, front ++ back' = .bind raw false (some (.read prim)) :: rest := by
  obtain ⟨rest, same⟩ := head
  cases front with
  | nil =>
    cases same
    exact absurd rfl other
  | cons s front =>
    obtain ⟨rfl, _⟩ := List.cons.inj same
    exact ⟨front ++ back', rfl⟩

/-- A binding may make way for its initial value in the result. -/
theorem intoResult {front back : List Stmt} {y : Local} {init result : Expr}
    (retains : Block.Retains raw prim names f g ⟨front ++ .bind y false (some init) :: back, result⟩)
    (tidy : Stmt.Tidy (front ++ .bind y false (some init) :: back)) (first : f.2.From raw)
    (second : g.2.From raw) (other : y.id ≠ raw.id) :
    Block.Retains raw prim names f g ⟨front ++ back, result.subst ⟨y.id, init⟩⟩ := by
  obtain ⟨type, entries, e, e', rfl, rfl, here, there, stands, stands', apart⟩ := retains.fields
  obtain ⟨now, unchanged⟩ := standsFor_subst tidy first other stands
  obtain ⟨now', unchanged'⟩ := standsFor_subst tidy second other stands'
  refine ⟨head_of_other other retains.head back, type, Expr.substFields ⟨y.id, init⟩ entries, _, _,
    rfl, ?_, ?_, ?_, now, now',
    fun x z single single' => apart x z (unchanged x single) (unchanged' z single')⟩
  all_goals rw [Expr.substFields_eq_map]
  · rw [List.map_map]
    rfl
  · exact List.mem_map.mpr ⟨_, here, rfl⟩
  · exact List.mem_map.mpr ⟨_, there, rfl⟩

/-- Or in a statement, if the result does not use it. -/
theorem intoStmt {front mid after : List Stmt} {s : Stmt} {y : Local} {init result : Expr}
    (retains : Block.Retains raw prim names f g
      ⟨front ++ .bind y false (some init) :: (mid ++ s :: after), result⟩)
    (first : f.2.From raw) (second : g.2.From raw) (other : y.id ≠ raw.id)
    (unused : y.id ∉ result.locals) :
    Block.Retains raw prim names f g
      ⟨front ++ (mid ++ s.subst ⟨y.id, init⟩ :: after), result⟩ := by
  obtain ⟨type, entries, e, e', rfl, named, here, there, stands, stands', apart⟩ := retains.fields
  rw [Expr.locals_struct, Expr.localsFields_eq_flatMap] at unused
  have kept {name : String} {found e : Expr} (member : (name, found) ∈ entries)
      (derived : e.From raw)
      (stands : Stmt.StandsFor (front ++ .bind y false (some init) :: (mid ++ s :: after)) found e) :
      Stmt.StandsFor (front ++ (mid ++ s.subst ⟨y.id, init⟩ :: after)) found e := by
    rcases stands with rfl | ⟨x, rfl, bound⟩
    · exact .inl rfl
    · refine .inr ⟨x, rfl, ?_⟩
      have differ : x.id ≠ y.id := by
        intro same
        refine unused (List.mem_flatMap.mpr ⟨_, member, ?_⟩)
        rw [← same]
        exact List.mem_singleton_self _
      have same : e.subst ⟨y.id, init⟩ = e :=
        Expr.subst_of_not_mem _ e fun used => other (derived.only _ used)
      simp only [List.mem_append, List.mem_cons] at bound ⊢
      rcases bound with early | own | early | rfl | late
      · exact .inl early
      · cases own
        exact absurd rfl differ
      · exact .inr (.inl early)
      · refine .inr (.inr (.inl ?_))
        rw [Stmt.subst, same]
      · exact .inr (.inr (.inr late))
  exact ⟨head_of_other other retains.head _, type, entries, e, e', rfl, named, here, there,
    kept here first stands, kept there second stands', apart⟩

/-- What is read is not the initial value of a binding without effects. -/
theorem other_of_noEffect {b : Block} (retains : b.Retains raw prim names f g)
    (tidy : Stmt.Tidy b.stmts) {y : Local} {init : Expr}
    (member : .bind y false (some init) ∈ b.stmts) (noEffect : init.hasEffect = false) :
    y.id ≠ raw.id := by
  intro same
  obtain ⟨rest, whole⟩ := retains.head
  have bound : .bind raw false (some (.read prim)) ∈ b.stmts := by
    rw [whole]
    exact List.mem_cons_self
  cases tidy.eq_of_bind member bound same
  cases noEffect

theorem forwardInto {front : List Stmt} {x : Local} {init : Expr} {b b' : Block}
    (retains : Block.Retains raw prim names f g
      ⟨front ++ .bind x false (some init) :: b.stmts, b.result⟩)
    (tidy : Stmt.Tidy (front ++ .bind x false (some init) :: b.stmts)) (first : f.2.From raw)
    (second : g.2.From raw) (noEffect : init.hasEffect = false)
    (once : (Stmt.uses b.stmts ++ b.result.locals).count x.id ≤ 1)
    (forwarded : Ir.forwardInto x init b = some b') :
    Block.Retains raw prim names f g ⟨front ++ b'.stmts, b'.result⟩ := by
  have other := retains.other_of_noEffect tidy (List.mem_append_right _ List.mem_cons_self) noEffect
  obtain ⟨stmts, result⟩ := b
  obtain ⟨unset, _⟩ := tidy.drop.2.1 x init rfl
  have split := Probe.splitAtMention_eq x.id stmts unset
  simp only [Ir.forwardInto] at forwarded
  split at forwarded
  case h_1 before s after found =>
    rw [found] at split
    obtain ⟨rfl, _⟩ := split
    split at forwarded
    case isTrue => cases forwarded
    case isFalse =>
    obtain ⟨s', replaced, rfl⟩ := Option.map_eq_some_iff.mp forwarded
    rw [Stmt.assigned_append, Stmt.assigned_cons, List.mem_append, List.mem_append, not_or,
      not_or] at unset
    simp only [Stmt.uses_append, Stmt.uses_cons, List.append_assoc] at once
    have once := Expr.count_right_le once
    rw [s.substFirst_eq ⟨x.id, init⟩ unset.2.1 (Expr.count_left_le once)] at replaced
    obtain ⟨member, rfl⟩ := Probe.eq_of_replacedIn replaced
    -- The only use is in the statement, so the result has none.
    have later := Expr.not_mem_right once member
    exact retains.intoStmt first second other fun used => later (List.mem_append_right _ used)
  case h_2 found =>
    split at forwarded
    case isTrue => cases forwarded
    case isFalse =>
    obtain ⟨result', replaced, rfl⟩ := Option.map_eq_some_iff.mp forwarded
    rw [result.substFirst_eq ⟨x.id, init⟩ (Expr.count_right_le once)] at replaced
    obtain ⟨_, rfl⟩ := Probe.eq_of_replacedIn replaced
    exact retains.intoResult tidy first second other

theorem forwardFrom {before : List Stmt} {b : Block}
    (retains : Block.Retains raw prim names f g ⟨before.reverse ++ b.stmts, b.result⟩)
    (tidy : Stmt.Tidy (before.reverse ++ b.stmts)) (first : f.2.From raw) (second : g.2.From raw) :
    (Ir.forwardFrom before b).Retains raw prim names f g := by
  -- Statements go over from `before` to the block one by one; what both make up retains the fields.
  induction before generalizing b with
  | nil => exact retains
  | cons s before ih =>
    rw [List.reverse_cons, List.append_assoc, List.singleton_append] at tidy retains
    have kept : (Ir.forwardFrom before ⟨s :: b.stmts, b.result⟩).Retains raw prim names f g :=
      ih retains tidy
    simp only [Ir.forwardFrom]
    split
    case h_2 => exact kept
    case h_1 x init found =>
      split
      case isFalse => exact kept
      case isTrue fits =>
        cases forwarded : Ir.forwardInto x init b with
        | none => exact kept
        | some b' =>
          cases Stmt.eq_bind_of_initialised found
          simp only [Bool.and_eq_true, Bool.not_eq_true', beq_iff_eq] at fits
          have once : (Stmt.uses b.stmts ++ b.result.locals).count x.id ≤ 1 := by
            simp only [Block.uses, Stmt.uses_cons, List.count_append] at fits ⊢
            omega
          obtain ⟨refines, tidy', assigned⟩ :=
            Probe.refines_forwardInto Decoding.isolated_idle fits.1 tidy.drop once forwarded
          exact ih (retains.forwardInto tidy first second fits.1 once forwarded)
            (tidy.replace tidy' refines.bound fun y set => by simp [Stmt.assigned_cons, assigned y set])

/-- The integer is not moved into the result, since it is used twice. -/
theorem inlineFrom {uses : List Nat} {before : List Stmt} {result : Expr}
    (retains : Block.Retains raw prim names f g ⟨before.reverse, result⟩)
    (tidy : Stmt.Tidy before.reverse) (first : f.2.From raw) (second : g.2.From raw)
    (twice : 2 ≤ uses.count raw.id)
    (counted : ∀ y, (Stmt.uses before.reverse ++ result.locals).count y ≤ uses.count y) :
    (Ir.inlineFrom uses before result).Retains raw prim names f g := by
  induction before generalizing result with
  | nil => exact retains
  | cons s before ih =>
    rw [Ir.inlineFrom]
    split
    case h_2 => exact retains
    case h_1 x init found =>
      split
      case isFalse => exact retains
      case isTrue fits =>
        cases Stmt.eq_bind_of_initialised found
        simp only [Bool.and_eq_true, Bool.not_eq_true', beq_iff_eq, Expr.mentions_iff] at fits
        obtain ⟨⟨single, used⟩, _⟩ := fits
        rw [List.reverse_cons] at tidy counted retains
        obtain ⟨once, counted'⟩ := Probe.count_inlined counted single used
        rw [result.substFirst_eq ⟨x.id, init⟩ once, Expr.replacedIn, if_pos used, Option.getD_some]
        -- A binding that is moved is used once, which the integer is not.
        have other : x.id ≠ raw.id := by
          intro same
          rw [same] at single
          omega
        have shorter := tidy.replace (show Stmt.Tidy [] from trivial) (by simp) (by simp)
        have moved := retains.intoResult tidy first second other
        rw [List.append_nil] at shorter moved
        exact ih moved shorter counted'

/-- Elision retains the integer and the two fields. -/
theorem elide {b : Block} (retains : b.Retains raw prim names f g) (tidy : Stmt.Tidy b.stmts)
    (differ : f.1 ≠ g.1) (first : f.2.From raw) (second : g.2.From raw) :
    b.elide.Retains raw prim names f g := by
  have dropped := retains.dropRounds differ first second b.stmts.length
  have tidy₁ := (Probe.refines_dropRounds Decoding.isolated_idle b.stmts.length b tidy).2
  -- The three passes in turn: unused bindings, forwarding, then the ones that end up in the result.
  have start : Stmt.Tidy (b.dropUnused.stmts.reverse.reverse ++ []) := by
    simpa [Block.dropUnused] using tidy₁
  have tidy₂ := (Probe.refines_forwardFrom Decoding.isolated_idle b.dropUnused.stmts.reverse
    { b.dropUnused with stmts := [] } start).2
  have forwarded : b.dropUnused.forward.Retains raw prim names f g := by
    refine forwardFrom ?_ start first second
    rw [List.reverse_reverse, List.append_nil]
    exact dropped
  refine inlineFrom ?_ ?_ first second (forwarded.two_le_uses differ first second) fun _ => ?_
  all_goals rw [List.reverse_reverse]
  · exact forwarded
  · exact tidy₂
  · exact Nat.le_refl _

end Block.Retains

end Ir

/-! ### Runs -/

namespace Run

variable {p : Program} {m m' : Machine}

theorem get?_execBlock (isolated : p.Isolated) {stmts : List Stmt} {x : Nat}
    (unbound : x ∉ Stmt.bound stmts) (unset : x ∉ Stmt.assigned stmts)
    (ran : execBlock p stmts m = .ok ((), m')) : m'.env.get? x = m.env.get? x := by
  rw [← Probe.unmarked_execBlock] at ran
  rw [Env.get?, Env.get?, Probe.cell?_execBlock isolated unbound unset (Probe.ok_of_unmarked ran)]

/-- A binding that is calculated from another one holds what that gives, once the statements are
done. -/
theorem get?_of_bind (isolated : p.Isolated) {stmts : List Stmt} (tidy : Stmt.Tidy stmts)
    {raw x : Local} {e : Expr} {r w : Value} (member : .bind x false (some e) ∈ stmts)
    (unbound : raw.id ∉ Stmt.bound stmts) (unset : raw.id ∉ Stmt.assigned stmts)
    (value : ∀ m, m.env.get? raw.id = some r → eval p e m = .ok (w, m))
    (known : m.env.get? raw.id = some r) (ran : execBlock p stmts m = .ok ((), m')) :
    m'.env.get? x.id = some w := by
  -- The integer outlasts what comes before the binding, and the binding what comes after it.
  obtain ⟨front, back, rfl⟩ := List.append_of_mem member
  obtain ⟨binders, fixed, _⟩ := tidy.drop
  simp only [Stmt.bound_append, Stmt.assigned_append, List.mem_append, not_or] at unbound unset
  rw [execBlock_append] at ran
  cases first : execBlock p front m with
  | error e =>
    rw [first] at ran
    cases ran
  | ok out =>
    rw [first] at ran
    have still : out.2.env.get? raw.id = some r :=
      (get?_execBlock isolated unbound.1 unset.1 first).trans known
    have ran : execBlock p (.bind x false (some e) :: back) out.2 = .ok ((), m') := ran
    rw [execBlock_cons, exec_bind, value _ still] at ran
    have kept := get?_execBlock isolated
      (binders x.id (by simp [Stmt.binds, Stmt.binders])) (fixed x e rfl).1 ran
    rw [kept]
    exact (Env.get?_set _ _ _ _).trans (if_pos rfl)

/-- The fields of a struct are evaluated with the same bindings. -/
theorem mem_of_evalFields (isolated : p.Isolated) {entries : List (String × Expr)}
    {values : List (String × Value)} (ran : evalFields p entries m = .ok (values, m')) :
    values.map (·.1) = entries.map (·.1) ∧ ∀ name e w, (name, e) ∈ entries →
      (∀ n : Machine, n.env = m.env → eval p e n = .ok (w, n)) → (name, w) ∈ values := by
  induction entries generalizing m values with
  | nil =>
    cases ran
    exact ⟨rfl, fun _ _ _ member => nomatch member⟩
  | cons entry rest ih =>
    obtain ⟨own, part⟩ := entry
    rw [evalFields, bind_apply] at ran
    cases first : eval p part m with
    | error e =>
      rw [first] at ran
      cases ran
    | ok out =>
      rw [first] at ran
      change (evalFields p rest out.2).bind _ = _ at ran
      cases others : evalFields p rest out.2 with
      | error e =>
        rw [others] at ran
        cases ran
      | ok later =>
        rw [others] at ran
        cases ran
        have same : out.2.env = m.env := agrees_eval isolated first
        obtain ⟨names, found⟩ := ih others
        refine ⟨congrArg (own :: ·) names, fun name e w member value => ?_⟩
        rcases List.mem_cons.mp member with here | there
        · cases here
          rw [value m rfl] at first
          cases first
          exact List.mem_cons_self
        · exact List.mem_cons_of_mem _
            (found name e w there fun n env => value n (env.trans same))

end Run

/-- A run that succeeds gives a retained field the value that the integer has for it. -/
theorem Ir.Block.Retains.value {p : Program} (isolated : p.Isolated) {raw : Local} {prim : Primitive}
    {names : List String} {f g : String × Expr} {b : Block}
    (retains : b.Retains raw prim names f g) (tidy : Stmt.Tidy b.stmts) (second : g.2.From raw)
    {m m₁ m' : Machine} {r w v : Value} (read : Run.eval p (.read prim) m = .ok (r, m₁))
    (derived : ∀ m, m.env.get? raw.id = some r → Run.eval p g.2 m = .ok (w, m))
    (ran : Run.evalBlock p b m = .ok (v, m')) :
    ∃ values, v = .ofFields values ∧ values.map (·.1) = names ∧ (g.1, w) ∈ values := by
  obtain ⟨stmts, result⟩ := b
  obtain ⟨rest, rfl⟩ := retains.head
  obtain ⟨type, entries, _, e, rfl, rfl, _, member, _, stands, _⟩ := retains.fields
  have fresh : raw.id ∉ Stmt.bound rest := Probe.bound_head tidy
  have unset : raw.id ∉ Stmt.assigned rest := (tidy.2.1 raw _ rfl).1
  rw [Run.evalBlock_apply, Run.execBlock_cons, Run.exec_bind, read] at ran
  have start : { m₁ with env := m₁.env.set raw.id r : Machine }.env.get? raw.id = some r :=
    (Env.get?_set _ _ _ _).trans (if_pos rfl)
  change (Run.execBlock p rest _).bind _ = _ at ran
  cases first : Run.execBlock p rest { m₁ with env := m₁.env.set raw.id r } with
  | error e =>
    rw [first] at ran
    cases ran
  | ok out =>
    rw [first] at ran
    change Run.eval p (.struct type entries) out.2 = _ at ran
    have still : out.2.env.get? raw.id = some r :=
      (Run.get?_execBlock isolated fresh unset first).trans start
    -- Whether the field is calculated now or was bound before, it is what the integer gives.
    have here (n : Machine) (same : n.env = out.2.env) : Run.eval p e n = .ok (w, n) := by
      rcases stands with rfl | ⟨x, rfl, bound⟩
      · exact derived n (same ▸ still)
      · refine Run.eval_var ?_
        rw [same]
        rcases List.mem_cons.mp bound with own | later
        · have none : raw.id ∈ (Expr.read prim).locals :=
            Option.some.inj (Stmt.bind.inj own).2.2 ▸ second.uses
          cases none
        · exact Run.get?_of_bind isolated tidy.2.2 later fresh unset derived start first
    rw [Run.eval, Run.bind_apply] at ran
    cases fields : Run.evalFields p entries out.2 with
    | error e =>
      rw [fields] at ran
      cases ran
    | ok later =>
      rw [fields] at ran
      cases ran
      obtain ⟨names, found⟩ := Run.mem_of_evalFields isolated fields
      exact ⟨later.1, rfl, names, found g.1 e w member here⟩

end WireSchema
