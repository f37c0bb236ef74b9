import WireSchema.Proofs.Elision.HeldBindings

/-!
# The normal form that elision reaches

An elided body has no unused binding with a fixed initial value. A binding without effects that is
used once is left only where something that its initial value reads is set before the use. Both
passes that move an initial value replace a binding in what follows, and such a step uses every
other binding as often as before and lets no binding become free to move; so a second elision finds
nothing to do.

## Main results

* `Stmt.Reduced.replace`: what a step keeps.
* `settled_forwardFrom`, `settled_inlineFrom`: what the passes reach.
* `Block.elide_eq_self`: elision leaves a reduced body alone whose last bindings cannot move into
  the result.
* `elide_reaches_normal_form`: an elided body is in normal form and does not change any more.
-/

namespace WireSchema

namespace Ir

/-- No binding with a fixed initial value is unused, and one without effects that is used once is
held. -/
structure Block.Normal (b : Block) : Prop where
  used : ∀ before x init after, b.stmts = before ++ .bind x false (some init) :: after →
    x.id ∈ b.uses
  held : ∀ before x init after, b.stmts = before ++ .bind x false (some init) :: after →
    init.hasEffect = false → b.uses.count x.id = 1 → Stmt.Held x init after

/-! ### The passes -/

namespace Stmt

theorem fixed_dropUnused (used : List Nat) (stmts : List Stmt) :
    (fixed (stmts.flatMap (·.dropUnused used))).Sublist (fixed stmts) := by
  induction stmts with
  | nil => exact .slnil
  | cons s rest ih =>
    rw [List.flatMap_cons, fixed_append, fixed_cons]
    refine List.Sublist.append ?_ ih
    unfold dropUnused
    split
    case h_1 x init found =>
      split
      · simp [fixed_cons, found]
      · split
        · exact List.nil_sublist _
        · exact List.nil_sublist _
    case h_2 found => simp [fixed_cons, found]

/-- A round that finds an unused binding drops it. -/
theorem length_fixed_dropUnused {used : List Nat} {stmts : List Stmt}
    (some_ : stmts.any (·.isUnused used) = true) :
    (fixed (stmts.flatMap (·.dropUnused used))).length < (fixed stmts).length := by
  obtain ⟨s, member, unused⟩ := List.any_eq_true.mp some_
  -- One binding fewer at `s`, and no more than before on either side of it.
  obtain ⟨front, back, rfl⟩ := List.append_of_mem member
  have first := (fixed_dropUnused used front).length_le
  have last := (fixed_dropUnused used back).length_le
  unfold isUnused at unused
  split at unused
  case h_2 => cases unused
  case h_1 x init found =>
    have gone : fixed (s.dropUnused used) = [] := by
      rw [Bool.not_eq_true'] at unused
      rw [dropUnused, found]
      simp only [unused]
      split
      · cases ‹false = true›
      · split <;> rfl
    simp only [List.flatMap_append, List.flatMap_cons, fixed_append, fixed_cons, found, gone,
      List.length_append, Option.map_some, Option.toList_some, List.length_cons,
      List.length_nil]
    omega

theorem Sequenced.dropUnused (used : List Nat) {stmts tail : List Stmt}
    (sequenced : Sequenced (stmts ++ tail)) :
    Sequenced (stmts.flatMap (·.dropUnused used) ++ tail) := by
  obtain ⟨once, unset, ordered⟩ := sequenced
  have fewer : (fixed (stmts.flatMap (·.dropUnused used) ++ tail)).Sublist
      (fixed (stmts ++ tail)) := by
    rw [fixed_append, fixed_append]
    exact (fixed_dropUnused used stmts).append (List.Sublist.refl _)
  constructor
  case once => exact once.sublist fewer
  case unset =>
    intro x member set
    refine unset x (fewer.subset member) ?_
    rw [assigned_append, List.mem_append] at set ⊢
    exact set.imp_left (assigned_flatMap_dropUnused used stmts x)
  case ordered =>
    -- By induction: every statement that is left uses no more, and fewer bindings follow it.
    clear once unset fewer
    induction stmts with
    | nil => exact ordered
    | cons s rest ih =>
      have later : fixed (rest.flatMap (·.dropUnused used) ++ tail) ⊆ fixed (rest ++ tail) := by
        rw [fixed_append, fixed_append]
        exact ((fixed_dropUnused used rest).append (List.Sublist.refl _)).subset
      have kept : Ordered (s :: (rest.flatMap (·.dropUnused used) ++ tail)) := by
        refine ⟨fun y own member => ordered.1 y own ?_, ih ordered.2⟩
        rw [fixed_cons, List.mem_append] at member
        exact (fixed_cons s (rest ++ tail)) ▸ List.mem_append.mpr (member.imp_right (@later y))
      rw [List.flatMap_cons, List.append_assoc]
      unfold Stmt.dropUnused
      split
      case h_2 => exact kept
      case h_1 x init found =>
        cases eq_bind_of_initialised found
        split
        · exact kept
        · split
          · refine ⟨fun y own member => kept.1 y (by simpa using own) ?_, kept.2⟩
            rw [fixed_bind]
            exact List.mem_cons_of_mem _ member
          · exact kept.2

/-- All bindings of a body are used, and its last statements `back` are settled. -/
structure Reduced (body back : List Stmt) : Prop where
  sequenced : Sequenced body
  used : ∀ x ∈ fixed body, x ∈ uses body
  settled : Settled (uses body) back

section Reduced

variable {front back : List Stmt} {x : Local} {init : Expr}

/-- A binding that is used once makes way for its initial value. -/
theorem Reduced.replace (reduced : Reduced (front ++ .bind x false (some init) :: back) back)
    (once : (uses (front ++ .bind x false (some init) :: back)).count x.id = 1) :
    Reduced (front ++ substBlock ⟨x.id, init⟩ back) (substBlock ⟨x.id, init⟩ back) := by
  obtain ⟨sequenced, used, settled⟩ := reduced
  obtain ⟨notBefore, notAfter, unset, _, _, apart⟩ := sequenced.apart
  -- All other bindings are used as often as before, so used ones stay used and held ones held.
  have recount {y : Nat} (member : y ∈ fixed front ∨ y ∈ fixed back) :=
    count_replace sequenced once (y := y) (by rintro rfl; exact member.elim notBefore notAfter)
  constructor
  case sequenced => exact sequenced.replace
  case used =>
    intro y member
    rw [fixed_append, fixed_substBlock, List.mem_append] at member
    rw [← List.count_pos_iff, recount member, List.count_pos_iff]
    refine used y ?_
    simp only [fixed_append, fixed_bind, List.mem_append, List.mem_cons]
    exact member.imp_right .inr
  case settled =>
    refine (settled.subst unset apart).recount fun y member => ?_
    rw [fixed_substBlock] at member
    exact recount (.inr member)

/-- If all is settled and nothing is set after the binding, all stays settled. -/
theorem Reduced.replaceLast (reduced : Reduced (front ++ .bind x false (some init) :: back)
      (front ++ .bind x false (some init) :: back)) (idle : assigned back = [])
    (once : (uses (front ++ .bind x false (some init) :: back)).count x.id = 1) :
    Reduced (front ++ substBlock ⟨x.id, init⟩ back) (front ++ substBlock ⟨x.id, init⟩ back) := by
  obtain ⟨sequenced, used, settled⟩ := reduced
  obtain ⟨notBefore, notAfter, unset, _, _, apart⟩ := sequenced.apart
  have last := (settled_append settled).2
  have replaced := Reduced.replace ⟨sequenced, used, last⟩ once
  have idle' : assigned (.bind x false (some init) :: back) = [] := by
    rw [assigned_cons, idle]
    rfl
  refine ⟨replaced.sequenced, replaced.used, ?_⟩
  refine (settled.replaceLast idle' (last.subst unset apart)).recount fun y member => ?_
  rw [fixed_append, fixed_substBlock, List.mem_append] at member
  refine count_replace sequenced once ?_
  rintro rfl
  exact member.elim notBefore notAfter

end Reduced

end Stmt

namespace Block

variable {b : Block}

/-! #### Unused bindings -/

theorem used_dropRounds (fuel : Nat) (b : Block) (enough : (Stmt.fixed b.stmts).length ≤ fuel) :
    (b.dropRounds fuel).stmts.any (·.isUnused (b.dropRounds fuel).uses) = false := by
  induction fuel generalizing b with
  | zero =>
    rw [← Bool.not_eq_true, dropRounds]
    intro some_
    have fewer := Stmt.length_fixed_dropUnused some_
    omega
  | succ fuel ih =>
    rw [dropRounds]
    by_cases some_ : b.stmts.any (·.isUnused b.uses) = true
    · rw [if_pos some_]
      have fewer := Stmt.length_fixed_dropUnused some_
      exact ih ⟨_, b.result⟩ (by simp only; omega)
    · rw [if_neg some_]
      simpa using some_

theorem sequenced_dropRounds (fuel : Nat) (b : Block) (sequenced : Stmt.Sequenced b.body) :
    Stmt.Sequenced (b.dropRounds fuel).body := by
  induction fuel generalizing b with
  | zero => exact sequenced
  | succ fuel ih =>
    rw [dropRounds]
    split
    · exact ih ⟨_, b.result⟩ (sequenced.dropUnused b.uses)
    · exact sequenced

theorem any_isUnused_iff : b.stmts.any (·.isUnused b.uses) = false ↔
    ∀ x ∈ Stmt.fixed b.stmts, x ∈ b.uses := by
  simp only [List.any_eq_false, Stmt.fixed, List.mem_filterMap, Option.map_eq_some_iff]
  constructor
  · rintro all x ⟨s, member, ⟨y, init⟩, found, rfl⟩
    have used := all s member
    simpa [Stmt.isUnused, found] using used
  · intro all s member
    cases found : s.initialised? with
    | none => simp [Stmt.isUnused, found]
    | some entry =>
      have used := all entry.1.id ⟨s, member, entry, found, rfl⟩
      simpa [Stmt.isUnused, found] using used

/-- The first pass leaves no unused binding. -/
theorem used_dropUnused (b : Block) : ∀ x ∈ Stmt.fixed b.dropUnused.stmts, x ∈ b.dropUnused.uses :=
  any_isUnused_iff.mp (used_dropRounds _ b (List.length_filterMap_le ..))

theorem dropUnused_eq_self (used : ∀ x ∈ Stmt.fixed b.stmts, x ∈ b.uses) : b.dropUnused = b := by
  rw [dropUnused]
  cases b.stmts.length with
  | zero => rfl
  | succ fuel => simp [dropRounds, any_isUnused_iff.mpr used]

end Block

/-! #### Bindings without effects -/

theorem uses_forwarding (before : List Stmt) (s : Stmt) (b : Block) :
    Stmt.uses before.reverse ++ Block.uses { b with stmts := s :: b.stmts } =
      Stmt.uses (before.reverse ++ s :: b.body) := by
  rw [Stmt.uses_append, ← Block.uses_body]
  rfl

/-- The second pass settles a body statement by statement, from its end on. -/
theorem settled_forwardFrom (before : List Stmt) (b : Block)
    (reduced : Stmt.Reduced (before.reverse ++ b.body) b.body) :
    Stmt.Reduced (forwardFrom before b).body (forwardFrom before b).body := by
  -- `b` is what is settled already; the statements before it join it one by one.
  induction before generalizing b with
  | nil => exact reduced
  | cons s before ih =>
    rw [List.reverse_cons, List.append_assoc, List.singleton_append] at reduced
    have kept (held : ∀ x init, s.initialised? = some (x, init) → init.hasEffect = false →
        (Stmt.uses (before.reverse ++ s :: b.body)).count x.id = 1 → Stmt.Held x init b.body) :=
      ih { b with stmts := s :: b.stmts } ⟨reduced.sequenced, reduced.used, held, reduced.settled⟩
    simp only [forwardFrom, uses_forwarding]
    split
    case h_2 none =>
      exact kept fun x init found => by simp [none] at found
    case h_1 x init found =>
      have alone {y : Local} {e : Expr} (again : s.initialised? = some (y, e)) : y = x ∧ e = init := by
        rw [found] at again
        cases again
        exact ⟨rfl, rfl⟩
      split
      case isFalse stays =>
        refine kept fun y e again pure once => absurd ?_ stays
        obtain ⟨rfl, rfl⟩ := alone again
        rw [pure, once]
        rfl
      case isTrue fits =>
        simp only [Bool.and_eq_true, Bool.not_eq_true', beq_iff_eq] at fits
        cases Stmt.eq_bind_of_initialised found
        obtain ⟨_, _, unset, _⟩ := reduced.sequenced.apart
        have once : b.uses.count x.id = 1 := by
          rw [← b.uses_body, ← reduced.sequenced.count_uses, fits.2]
        rw [b.assigned_body] at unset
        cases forwarded : forwardInto x init b with
        | none =>
          -- The binding could not move because it is held.
          refine kept fun y e again pure _ => ?_
          obtain ⟨rfl, rfl⟩ := alone again
          obtain ⟨z, read, early, t, late, same, set, unused⟩ :=
            (forwardInto_eq_none_iff unset once).mp forwarded
          refine ⟨z, read, early, t, late ++ [.eval b.result], ?_, set, unused⟩
          rw [Block.body, same]
          simp
        | some b' =>
          have moved := Block.body_forwardInto unset (Nat.le_of_eq once) forwarded
          exact ih b' (moved ▸ reduced.replace fits.2)

/-- Nothing of a settled body is forwarded. -/
theorem forwardFrom_eq_self (before : List Stmt) (b : Block)
    (sequenced : Stmt.Sequenced (before.reverse ++ b.body))
    (settled : Stmt.Settled (Stmt.uses (before.reverse ++ b.body)) (before.reverse ++ b.stmts)) :
    forwardFrom before b = ⟨before.reverse ++ b.stmts, b.result⟩ := by
  induction before generalizing b with
  | nil => rfl
  | cons s before ih =>
    rw [List.reverse_cons, List.append_assoc, List.singleton_append] at sequenced settled ⊢
    rw [List.append_assoc, List.singleton_append] at settled
    have kept := ih { b with stmts := s :: b.stmts } sequenced settled
    simp only [forwardFrom, uses_forwarding]
    split
    case h_2 => exact kept
    case h_1 x init found =>
      split
      case isFalse => exact kept
      case isTrue fits =>
        simp only [Bool.and_eq_true, Bool.not_eq_true', beq_iff_eq] at fits
        cases Stmt.eq_bind_of_initialised found
        obtain ⟨_, _, unset, _⟩ := sequenced.apart
        rw [b.assigned_body] at unset
        have once : b.uses.count x.id = 1 := by
          rw [← b.uses_body, ← sequenced.count_uses, fits.2]
        -- It would move, but it is held.
        have held := (Stmt.settled_append settled).1 x init rfl fits.1 fits.2
        rw [(forwardInto_eq_none_iff unset once).mpr held]
        exact kept

/-! #### Trailing bindings -/

/-- The third pass keeps a body settled, and stops where it would stop again. -/
theorem settled_inlineFrom (names : List Nat) (before : List Stmt) (result : Expr)
    (reduced : Stmt.Reduced (Block.body ⟨before.reverse, result⟩)
      (Block.body ⟨before.reverse, result⟩))
    (counted : ∀ x ∈ Stmt.fixed before.reverse,
      names.count x = (Block.uses ⟨before.reverse, result⟩).count x) :
    Stmt.Reduced (inlineFrom names before result).body (inlineFrom names before result).body ∧
      (inlineFrom names before result).inlineTrailing = inlineFrom names before result := by
  -- The counts are those from before the pass. They stay right, since a binding with one use hands the
  -- uses in its initial value on and takes none away.
  induction before generalizing result with
  | nil => exact ⟨reduced, rfl⟩
  | cons s before ih =>
    rw [inlineFrom]
    split
    case h_2 none =>
      refine ⟨reduced, ?_⟩
      simp [Block.inlineTrailing, inlineFrom, none]
    case h_1 x init found =>
      have member : x.id ∈ Stmt.fixed (s :: before).reverse := by
        rw [List.reverse_cons, Stmt.fixed_append, Stmt.fixed_cons, found]
        simp
      split
      case isFalse stays =>
        refine ⟨reduced, ?_⟩
        rw [counted x.id member] at stays
        simp only [Block.inlineTrailing, List.reverse_reverse, inlineFrom, found]
        rw [if_neg stays]
      case isTrue fits =>
        simp only [Bool.and_eq_true, Bool.not_eq_true', beq_iff_eq, Expr.mentions_iff] at fits
        obtain ⟨⟨single, used⟩, _⟩ := fits
        rw [counted x.id member, ← Block.uses_body] at single
        cases Stmt.eq_bind_of_initialised found
        have shape : Block.body ⟨(Stmt.bind x false (some init) :: before).reverse, result⟩ =
            before.reverse ++ .bind x false (some init) :: [.eval result] := by
          simp [Block.body]
        rw [shape] at reduced single
        have once : result.locals.count x.id = 1 := by
          rw [reduced.sequenced.count_uses] at single
          simpa [Stmt.uses_cons] using single
        rw [result.substFirst_eq ⟨x.id, init⟩ (Nat.le_of_eq once), Expr.replacedIn, if_pos used,
          Option.getD_some]
        refine ih (result.subst ⟨x.id, init⟩) (reduced.replaceLast rfl single) fun y kept => ?_
        have other : y ≠ x.id := by
          rintro rfl
          exact reduced.sequenced.apart.1 kept
        have recount := Stmt.count_replace reduced.sequenced single other
        rw [counted y (by simp [kept]), ← Block.uses_body, ← Block.uses_body, shape, ← recount]
        rfl

/-! ### Normal forms -/

namespace Block

variable {b : Block}

theorem settled_stmts {names : List Nat} (settled : Stmt.Settled names b.body) :
    Stmt.Settled names b.stmts := by
  have shorter : Stmt.Settled names (b.stmts ++ []) :=
    Stmt.Settled.replaceLast settled rfl trivial
  rwa [List.append_nil] at shorter

theorem normal_of_reduced (reduced : Stmt.Reduced b.body b.body) : b.Normal := by
  have settled := settled_stmts reduced.settled
  rw [b.uses_body] at settled
  constructor
  case used =>
    intro before x init after same
    rw [← b.uses_body]
    refine reduced.used x.id ?_
    simp [same]
  case held => exact Stmt.settled_iff.mp settled

/-- Elision leaves a reduced body alone whose last bindings cannot move into the result. -/
theorem elide_eq_self (reduced : Stmt.Reduced b.body b.body) (ended : b.inlineTrailing = b) :
    b.elide = b := by
  have dropped : b.dropUnused = b := dropUnused_eq_self fun x member => by
    rw [← b.uses_body]
    exact reduced.used x (by simpa using member)
  have whole : b.stmts.reverse.reverse ++ body ⟨[], b.result⟩ = b.body := by
    rw [List.reverse_reverse]
    rfl
  have forwarded : b.forward = b := by
    rw [forward, forwardFrom_eq_self]
    · simp
    · rw [whole]
      exact reduced.sequenced
    · rw [whole]
      simpa using settled_stmts reduced.settled
  rw [elide, dropped, forwarded, ended]

theorem settled_elide (sequenced : Stmt.Sequenced b.body) :
    Stmt.Reduced b.elide.body b.elide.body ∧ b.elide.inlineTrailing = b.elide := by
  have dropped : Stmt.Sequenced b.dropUnused.body := sequenced_dropRounds _ b sequenced
  have whole : b.dropUnused.stmts.reverse.reverse ++ body ⟨[], b.dropUnused.result⟩ =
      b.dropUnused.body := by
    rw [List.reverse_reverse]
    rfl
  -- The result alone has no bindings, so it is settled.
  have start : Stmt.Reduced b.dropUnused.body (body ⟨[], b.dropUnused.result⟩) := by
    refine ⟨dropped, fun x member => ?_, nofun, trivial⟩
    rw [uses_body]
    exact b.used_dropUnused x (by simpa using member)
  have forwarded := settled_forwardFrom b.dropUnused.stmts.reverse ⟨[], b.dropUnused.result⟩
    (whole.symm ▸ start)
  refine settled_inlineFrom b.dropUnused.forward.uses b.dropUnused.forward.stmts.reverse
    b.dropUnused.forward.result ?_ ?_
  · rw [List.reverse_reverse]
    exact forwarded
  · rw [List.reverse_reverse]
    exact fun _ _ => rfl

end Block

end Ir

open Ir

/-- Elision brings a well-scoped body to a normal form and changes it no further. -/
theorem elide_reaches_normal_form (b : Block) (wellScoped : b.WellScoped) :
    b.elide.Normal ∧ b.elide.elide = b.elide := by
  obtain ⟨reduced, ended⟩ := Block.settled_elide wellScoped.sequenced
  exact ⟨Block.normal_of_reduced reduced, Block.elide_eq_self reduced ended⟩

/-- A body with an unused binding, one that is held by an assignment, and one that moves to its use
behind it. -/
def heldBody : Block :=
  { stmts :=
      [.bind ⟨0, "slot"⟩ true (some (.int 1 .u8)),
        .bind ⟨1, "unused"⟩ false (some (.cast (.var ⟨0, "slot"⟩) .i32)),
        .bind ⟨2, "held"⟩ false (some (.cast (.var ⟨0, "slot"⟩) .i32)),
        .assign ⟨0, "slot"⟩ (.read .u8),
        .bind ⟨3, "free"⟩ false (some (.cast (.var ⟨0, "slot"⟩) .i64)),
        .write .i32 (.var ⟨2, "held"⟩)]
    result := .var ⟨3, "free"⟩ }

/-- Of the three bindings with a fixed initial value, the one that is held stays. -/
theorem elide_reaches_normal_form_held :
    heldBody.WellScoped ∧ Stmt.fixed heldBody.elide.stmts = [2] ∧ heldBody.elide.Normal ∧
      heldBody.elide.elide = heldBody.elide := by
  have wellScoped : heldBody.WellScoped := ⟨by decide, by decide, by decide, by decide⟩
  exact ⟨wellScoped, by decide, elide_reaches_normal_form heldBody wellScoped⟩

end WireSchema
