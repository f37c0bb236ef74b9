import WireSchema.Proofs.Elision.Refinement

/-!
# The passes of elision

Each pass is a chain of refining steps. What makes the steps possible is that binders come before
uses and that initial values stay as they are; every pass keeps that.
-/

namespace WireSchema

open Ir

namespace Probe

variable {p : Program}

theorem bound_head {x : Local} {m : Bool} {init : Option Expr} {rest : List Stmt}
    (tidy : Stmt.Tidy (.bind x m init :: rest)) : x.id ∉ Stmt.bound rest :=
  tidy.1 x.id (by simp [Stmt.binds, Stmt.binders])

/-! ### Unused bindings -/

/-- What is left of an unused binding refines it. -/
theorem refines_dropUnused_head (isolated : p.Isolated) {used : List Nat} {s : Stmt}
    {rest : List Stmt} {result : Expr} (tidy : Stmt.Tidy (s :: rest))
    (covered : ∀ y ∈ Stmt.uses rest ++ result.locals, y ∈ used) :
    Refines p ⟨s :: rest, result⟩ ⟨s.dropUnused used ++ rest, result⟩ := by
  unfold Stmt.dropUnused
  split
  case h_2 => exact .refl _
  case h_1 x init found =>
    obtain ⟨unset, _⟩ := tidy.2.1 x init found
    cases Stmt.eq_bind_of_initialised found
    split
    case isTrue => exact .refl _
    case isFalse unused =>
      have unused : x.id ∉ Stmt.uses rest ++ result.locals := fun member =>
        unused (by simpa using covered x.id member)
      split
      case isTrue => exact refines_evalOnly isolated unused (bound_head tidy) unset
      case isFalse noEffect =>
        exact refines_drop isolated (by simpa using noEffect) unused (bound_head tidy) unset

theorem refines_dropUnused (isolated : p.Isolated) (used : List Nat) (result : Expr)
    (stmts : List Stmt) (tidy : Stmt.Tidy stmts)
    (covered : ∀ y ∈ Stmt.uses stmts ++ result.locals, y ∈ used) :
    Refines p ⟨stmts, result⟩ ⟨stmts.flatMap (·.dropUnused used), result⟩ := by
  induction stmts with
  | nil => exact .refl _
  | cons s rest ih =>
    have covered : ∀ y ∈ Stmt.uses rest ++ result.locals, y ∈ used := by
      intro y member
      refine covered y ?_
      rw [Stmt.uses_cons, List.append_assoc]
      exact List.mem_append_right _ member
    refine (refines_dropUnused_head isolated tidy covered).trans ?_
    refine (ih tidy.2.2 covered).prepend (s.dropUnused used) fun y member removed => ?_
    have whole := Stmt.bound_flatMap_dropUnused used [s] y (by simpa using member)
    exact tidy.1 y (by simpa [Stmt.bound_cons] using whole) removed.1

theorem refines_dropRounds (isolated : p.Isolated) (fuel : Nat) (b : Block)
    (tidy : Stmt.Tidy b.stmts) :
    Refines p b (b.dropRounds fuel) ∧ Stmt.Tidy (b.dropRounds fuel).stmts := by
  induction fuel generalizing b with
  | zero => exact ⟨.refl b, tidy⟩
  | succ fuel ih =>
    rw [Block.dropRounds]
    split
    · obtain ⟨refines, tidy'⟩ :=
        ih ⟨b.stmts.flatMap (·.dropUnused b.uses), b.result⟩ (tidy.dropUnused b.uses)
      exact ⟨(refines_dropUnused isolated b.uses b.result b.stmts tidy fun _ used => used).trans
        refines, tidy'⟩
    · exact ⟨.refl b, tidy⟩

/-! ### Bindings without effects -/

theorem mem_used_of_mentions {s : Stmt} {x : Nat} (unset : x ∉ s.sets)
    (absent : s.mentions x = false) : x ∉ s.used := by
  simp only [Stmt.mentions, Bool.or_eq_false_iff, List.any_eq_false] at absent
  obtain ⟨own, inner⟩ := absent
  simp only [Stmt.used, Stmt.ownUses, List.mem_append, List.mem_flatMap, not_or]
  refine ⟨⟨?_, ?_⟩, by simpa using inner⟩
  · rintro ⟨e, member, used⟩
    exact own e member ((e.mentions_iff x).mpr used)
  · intro pushed
    refine unset (List.mem_append_left _ ?_)
    cases s <;> simp_all [Stmt.pushed?, Stmt.target?]

/-- The statements before the first that mentions a binding do not use it. -/
theorem splitAtMention_eq (x : Nat) (stmts : List Stmt) (unset : x ∉ Stmt.assigned stmts) :
    match splitAtMention x stmts with
    | (before, some (s, after)) => stmts = before ++ s :: after ∧ x ∉ Stmt.uses before
    | (_, none) => x ∉ Stmt.uses stmts := by
  induction stmts with
  | nil => simp [splitAtMention]
  | cons s rest ih =>
    rw [Stmt.assigned_cons, List.mem_append, not_or] at unset
    rw [splitAtMention]
    by_cases here : s.mentions x = true
    · simp [here]
    · have absent := mem_used_of_mentions unset.1 (by simpa using here)
      have later := ih unset.2
      rw [if_neg here]
      cases found : splitAtMention x rest with
      | mk before next =>
        rw [found] at later
        cases next with
        | none => simpa [Stmt.uses_cons, absent] using later
        | some split =>
          simp only at later ⊢
          exact ⟨by rw [later.1]; rfl, by simpa [Stmt.uses_cons, absent] using later.2⟩

theorem eq_of_replacedIn {α : Type} {x : Nat} {names : List Nat} {a b : α}
    (replaced : Expr.replacedIn x names a = some b) : x ∈ names ∧ b = a := by
  unfold Expr.replacedIn at replaced
  split at replaced
  case isTrue member =>
    cases replaced
    exact ⟨member, rfl⟩
  case isFalse => cases replaced

theorem unread_of_any {set : List Nat} {init : Expr}
    (apart : ¬ set.any (init.locals.contains ·) = true) : ∀ y ∈ init.locals, y ∉ set := by
  intro y read member
  refine apart (List.any_eq_true.mpr ⟨y, member, ?_⟩)
  simpa using read

/-- A binding that is forwarded makes way for its initial value. -/
theorem refines_forwardInto (isolated : p.Isolated) {x : Local} {init : Expr} {b b' : Block}
    (noEffect : init.hasEffect = false) (tidy : Stmt.Tidy (.bind x false (some init) :: b.stmts))
    (once : (Stmt.uses b.stmts ++ b.result.locals).count x.id ≤ 1)
    (forwarded : forwardInto x init b = some b') :
    Refines p ⟨.bind x false (some init) :: b.stmts, b.result⟩ b' ∧ Stmt.Tidy b'.stmts ∧
      ∀ y ∈ Stmt.assigned b'.stmts, y ∈ Stmt.assigned b.stmts := by
  obtain ⟨stmts, result⟩ := b
  obtain ⟨unset, unbound⟩ := tidy.2.1 x init rfl
  have fresh := bound_head tidy
  have split := splitAtMention_eq x.id stmts unset
  simp only at tidy once unset unbound fresh ⊢
  simp only [forwardInto] at forwarded
  split at forwarded
  case h_1 before s after found =>
    rw [found] at split
    obtain ⟨rfl, unused⟩ := split
    split at forwarded
    case isTrue => cases forwarded
    case isFalse apart =>
    have unread := unread_of_any apart
    obtain ⟨s', replaced, rfl⟩ := Option.map_eq_some_iff.mp forwarded
    rw [Stmt.assigned_append, Stmt.assigned_cons, List.mem_append, List.mem_append, not_or,
      not_or] at unset
    rw [Stmt.uses_append, Stmt.uses_cons, List.append_assoc, List.append_assoc] at once
    have once := Expr.count_right_le once
    rw [s.substFirst_eq ⟨x.id, init⟩ unset.2.1 (Expr.count_left_le once)] at replaced
    obtain ⟨member, rfl⟩ := eq_of_replacedIn replaced
    -- The statements up to the use are one piece: those before it have nothing to replace.
    have pieces : before ++ s.subst ⟨x.id, init⟩ :: after =
        Stmt.substBlock ⟨x.id, init⟩ (before ++ [s]) ++ after := by
      simp [Stmt.substBlock, Stmt.substBlock_of_not_mem ⟨x.id, init⟩ before unused]
    have whole : before ++ s :: after = (before ++ [s]) ++ after := by simp
    have later := Expr.not_mem_right once member
    have rest : Stmt.substBlock ⟨x.id, init⟩ after = after :=
      Stmt.substBlock_of_not_mem _ after fun used => later (List.mem_append_left _ used)
    have tail : Stmt.Tidy (Stmt.substBlock ⟨x.id, init⟩ (before ++ s :: after)) :=
      tidy.2.2.subst unbound
    simp only [whole, pieces] at fresh unbound tail ⊢
    have inner : ∀ y ∈ init.locals, y ∉ Stmt.bound (before ++ [s]) := by
      intro y read member
      exact unbound y read (by rw [Stmt.bound_append]; exact List.mem_append_left _ member)
    refine ⟨refines_forward isolated noEffect later fresh ?_ inner unread, ?_, ?_⟩
    · simp [Stmt.assigned_cons, unset]
    · rwa [Stmt.substBlock_append, rest] at tail
    · simp [Stmt.assigned_cons]
  case h_2 found =>
    rw [found] at split
    split at forwarded
    case isTrue => cases forwarded
    case isFalse apart =>
    have unread := unread_of_any apart
    obtain ⟨result', replaced, rfl⟩ := Option.map_eq_some_iff.mp forwarded
    rw [result.substFirst_eq ⟨x.id, init⟩ (Expr.count_right_le once)] at replaced
    obtain ⟨_, rfl⟩ := eq_of_replacedIn replaced
    exact ⟨refines_forward_result isolated noEffect split fresh unset unbound unread, tidy.2.2,
      fun _ member => member⟩

theorem refines_forwardFrom (isolated : p.Isolated) (before : List Stmt) (b : Block)
    (tidy : Stmt.Tidy (before.reverse ++ b.stmts)) :
    Refines p ⟨before.reverse ++ b.stmts, b.result⟩ (forwardFrom before b) ∧
      Stmt.Tidy (forwardFrom before b).stmts := by
  induction before generalizing b with
  | nil => exact ⟨.refl b, tidy⟩
  | cons s before ih =>
    rw [List.reverse_cons, List.append_assoc, List.singleton_append] at tidy
    have kept := ih ⟨s :: b.stmts, b.result⟩ tidy
    rw [List.reverse_cons, List.append_assoc, List.singleton_append]
    simp only [forwardFrom]
    split
    case h_2 => exact kept
    case h_1 x init found =>
      split
      case isFalse => exact kept
      case isTrue fits =>
        cases forwarded : forwardInto x init b with
        | none => exact kept
        | some b' =>
          cases Stmt.eq_bind_of_initialised found
          simp only [Bool.and_eq_true, Bool.not_eq_true', beq_iff_eq] at fits
          have once : (Stmt.uses b.stmts ++ b.result.locals).count x.id ≤ 1 := by
            simp only [Block.uses, Stmt.uses_cons, List.count_append] at fits ⊢
            omega
          obtain ⟨refines, tidy', assigned⟩ :=
            refines_forwardInto isolated fits.1 tidy.drop once forwarded
          obtain ⟨refines', tidy''⟩ := ih b' (tidy.replace tidy' refines.bound fun y set => by
            simp [Stmt.assigned_cons, assigned y set])
          refine ⟨.trans ?_ refines', tidy''⟩
          exact refines.prepend before.reverse fun y member removed =>
            tidy.apart y member removed.1

/-! ### Trailing bindings -/

/-- A last binding can be inlined where the pass inlines it. -/
theorem refines_inlineLast (isolated : p.Isolated) {x : Local} {init result : Expr}
    (once : result.locals.count x.id ≤ 1)
    (inOrder : (init.hasEffect && result.effectPrecedes x.id) = false) :
    Refines p ⟨[.bind x false (some init)], result⟩ ⟨[], result.subst ⟨x.id, init⟩⟩ := by
  cases effect : init.hasEffect with
  | false =>
    refine refines_forward_result isolated effect ?_ ?_ ?_ ?_ ?_
    all_goals simp
  | true =>
    rw [effect, Bool.true_and, Expr.effectPrecedes] at inOrder
    refine refines_inline isolated ?_ once
    split at inOrder
    case h_1 late found => rw [found, inOrder]
    case h_2 => cases inOrder

/-- The use of a binding makes way for the uses in its initial value, which move along: nothing is
used more often. -/
theorem count_inlined {uses : List Nat} {before : List Stmt} {x : Local} {init result : Expr}
    (counted : ∀ y, (Stmt.uses (before ++ [.bind x false (some init)]) ++ result.locals).count y ≤
      uses.count y) (single : uses.count x.id = 1) (used : x.id ∈ result.locals) :
    result.locals.count x.id ≤ 1 ∧
      ∀ y, (Stmt.uses before ++ (result.subst ⟨x.id, init⟩).locals).count y ≤ uses.count y := by
  have once : result.locals.count x.id = 1 := by
    have bound := counted x.id
    have positive := List.count_pos_iff.mpr used
    rw [List.count_append] at bound
    omega
  refine ⟨Nat.le_of_eq once, fun y => ?_⟩
  have moved := Expr.count_locals_subst_le ⟨x.id, init⟩ y result
  have whole := counted y
  simp only [once, Nat.one_mul] at moved
  simp only [Stmt.uses_append, Stmt.uses_cons, Stmt.used_bind_some, Stmt.uses_nil,
    List.append_nil, List.count_append] at whole ⊢
  omega

theorem refines_inlineFrom (isolated : p.Isolated) (uses : List Nat) (before : List Stmt)
    (result : Expr) (tidy : Stmt.Tidy before.reverse)
    (counted : ∀ y, (Stmt.uses before.reverse ++ result.locals).count y ≤ uses.count y) :
    Refines p ⟨before.reverse, result⟩ (inlineFrom uses before result) ∧
      Stmt.Tidy (inlineFrom uses before result).stmts := by
  induction before generalizing result with
  | nil => exact ⟨.refl _, tidy⟩
  | cons s before ih =>
    rw [inlineFrom]
    split
    case h_2 => exact ⟨.refl _, tidy⟩
    case h_1 x init found =>
      split
      case isFalse => exact ⟨.refl _, tidy⟩
      case isTrue fits =>
        cases Stmt.eq_bind_of_initialised found
        simp only [Bool.and_eq_true, Bool.not_eq_true', beq_iff_eq, Expr.mentions_iff] at fits
        obtain ⟨⟨single, used⟩, inOrder⟩ := fits
        rw [List.reverse_cons] at tidy counted ⊢
        obtain ⟨once, counted'⟩ := count_inlined counted single used
        rw [result.substFirst_eq ⟨x.id, init⟩ once, Expr.replacedIn, if_pos used, Option.getD_some]
        have front := (refines_inlineLast isolated once inOrder).prepend before.reverse
          fun y member removed => tidy.apart y member removed.1
        rw [List.append_nil] at front
        refine (fun others => ⟨front.trans others.1, others.2⟩) (ih _ ?_ counted')
        have shorter := tidy.replace (show Stmt.Tidy [] from trivial) (by simp) (by simp)
        rwa [List.append_nil] at shorter

/-- Elision refines. -/
theorem refines_elide (isolated : p.Isolated) (b : Block) (tidy : Stmt.Tidy b.stmts) :
    Refines p b b.elide ∧ Stmt.Tidy b.elide.stmts := by
  obtain ⟨dropped, tidy₁⟩ := refines_dropRounds isolated b.stmts.length b tidy
  have start : Stmt.Tidy (b.dropUnused.stmts.reverse.reverse ++ []) := by
    simpa [Block.dropUnused] using tidy₁
  obtain ⟨forwarded, tidy₂⟩ := refines_forwardFrom isolated b.dropUnused.stmts.reverse
    { b.dropUnused with stmts := [] } start
  rw [List.reverse_reverse, List.append_nil] at forwarded
  obtain ⟨inlined, tidy₃⟩ := refines_inlineFrom isolated b.dropUnused.forward.uses
    b.dropUnused.forward.stmts.reverse b.dropUnused.forward.result
    (by rw [List.reverse_reverse]; exact tidy₂)
    (by rw [List.reverse_reverse]; exact fun _ => Nat.le_refl _)
  rw [List.reverse_reverse] at inlined
  exact ⟨(dropped.trans forwarded).trans inlined, tidy₃⟩

end Probe

end WireSchema
