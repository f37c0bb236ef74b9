import WireSchema.Proofs.Layout.WellFormed
import WireSchema.Proofs.Shape.Unfolding
import WireSchema.Proofs.Shape.Weight

/-!
# Shapes that come to an end

On the way down from a shape into its parts, behind aliases and references, every step ends up at a
shape that has no parts, and no reference is met that is not resolved. This is so if the labels of
the table are ranked and all of them that are met are in the table.

## Main results

* `grounded_of_ranked`: a height for shapes whose labels are ranked.
* `Grounded.acc`: going down from a grounded shape comes to an end.
-/

namespace WireSchema.Shape

variable {refs : Refs} {rank : String → Nat} {label : String} {n : Nat}

/-! ### Labels of parts -/

theorem mem_labelsOfFields_iff {fields : List Field} :
    label ∈ labelsOfFields fields ↔ ∃ f ∈ fields, label ∈ f.shape.labels := by
  induction fields with
  | nil => simp [labelsOfFields]
  | cons f rest ih =>
    obtain ⟨name, shape, doc⟩ := f
    simp [labelsOfFields, ih]

theorem mem_labelsOfParts_iff {parts : List Shape} :
    label ∈ labelsOfParts parts ↔ ∃ part ∈ parts, label ∈ part.labels := by
  induction parts with
  | nil => simp [labelsOfParts]
  | cons s rest ih => simp [labelsOfParts, ih]

theorem mem_labelsOfVariants_iff {variants : List (String × Shape)} :
    label ∈ labelsOfVariants variants ↔ ∃ v ∈ variants, label ∈ v.2.labels := by
  induction variants with
  | nil => simp [labelsOfVariants]
  | cons v rest ih =>
    obtain ⟨key, s⟩ := v
    simp only [labelsOfVariants, List.mem_append, ih, List.mem_cons, exists_eq_or_imp]

/-- The labels in a shape are those in its parts, unless it is a reference. -/
theorem mem_labels_iff {s : Shape} (plain : ∀ other, s ≠ .ref other) :
    label ∈ s.labels ↔ ∃ part ∈ s.subshapes refs, label ∈ part.labels := by
  cases s with
  | ref other => exact (plain other rfl).elim
  | prim | enum | slot | custom | literal => simp [labels, subshapes]
  | optional | map | list | «alias» | exported | transformed => simp [labels, subshapes]
  | struct | packed | flags =>
    rw [labels, mem_labelsOfFields_iff]
    constructor
    · rintro ⟨f, among, inside⟩
      exact ⟨f.shape, List.mem_map_of_mem among, inside⟩
    · rintro ⟨part, member, inside⟩
      obtain ⟨f, among, rfl⟩ := List.mem_map.mp member
      exact ⟨f, among, inside⟩
  | merged => exact mem_labelsOfParts_iff
  | union =>
    rw [labels, List.mem_append, mem_labelsOfVariants_iff]
    constructor
    · rintro (inTag | ⟨v, among, inside⟩)
      · exact ⟨_, List.mem_cons_self, inTag⟩
      · exact ⟨v.2, List.mem_cons_of_mem _ (List.mem_map_of_mem among), inside⟩
    · rintro ⟨part, member, inside⟩
      rcases List.mem_cons.mp member with rfl | payload
      · exact .inl inside
      · obtain ⟨v, among, rfl⟩ := List.mem_map.mp payload
        exact .inr ⟨v, among, inside⟩

/-- What is behind the labels in a shape is met on the way down. -/
theorem reaches_label {s : Shape} (member : label ∈ s.labels) : Reaches refs s (.ref label) := by
  -- A label in a shape is a label in one of its parts, which are lighter.
  induction size : s.weight using Nat.strongRecOn generalizing s with
  | ind w ih =>
    by_cases reference : ∃ other, s = .ref other
    · obtain ⟨other, same⟩ := reference
      subst same
      rw [List.mem_singleton.mp member]
      exact .refl
    · have plain : ∀ other, s ≠ .ref other := fun other same => reference ⟨other, same⟩
      obtain ⟨part, among, inside⟩ := (mem_labels_iff plain).mp member
      have lighter := weight_lt_of_part plain among
      exact .head among (ih part.weight (size ▸ lighter) inside rfl)

/-! ### Height -/

/-- The shape is no hook's, and if it is a reference, it is resolved. -/
def IsKnown (refs : Refs) : Shape → Prop
  | .ref label => ∃ target, refs.lookup label = some target
  | .custom _ _ _ => False
  | _ => True

/-- On every way down from the shape at most `n` shapes are met, all of them known. -/
inductive Grounded (refs : Refs) : Nat → Shape → Prop where
  | mk {n : Nat} {s : Shape} (known : s.IsKnown refs)
      (parts : ∀ part ∈ s.subshapes refs, Grounded refs n part) : Grounded refs (n + 1) s

namespace Grounded

variable {s t : Shape}

theorem known (grounded : Grounded refs n s) : s.IsKnown refs := by
  cases grounded with
  | mk known _ => exact known

theorem part (grounded : Grounded refs (n + 1) s) {part : Shape}
    (member : part ∈ s.subshapes refs) : Grounded refs n part := by
  cases grounded with
  | mk _ parts => exact parts part member

theorem mono {m : Nat} (grounded : Grounded refs n s) (le : n ≤ m) : Grounded refs m s := by
  induction grounded generalizing m with
  | mk known _ ih =>
    obtain ⟨m, rfl⟩ := Nat.exists_eq_add_of_le' (Nat.le_trans (Nat.succ_pos _) le)
    exact .mk known fun part member => ih part member (Nat.le_of_succ_le_succ le)

theorem reached (grounded : Grounded refs n s) (reaches : Reaches refs s t) :
    Grounded refs n t := by
  induction reaches with
  | refl => exact grounded
  | tail _ member ih =>
    cases n with
    | zero => cases ih
    | succ n => exact (ih.part member).mono (Nat.le_succ n)

theorem descended (grounded : Grounded refs (n + 1) s) (descends : Descends refs s t) :
    Grounded refs n t := by
  obtain ⟨part, member, reaches⟩ := descends
  exact (grounded.part member).reached reaches

theorem field {fields : List Field} (grounded : Grounded refs (n + 1) s)
    (own : s.subshapes refs = fields.map (·.shape)) {f : Field} (member : f ∈ fields) :
    Grounded refs n f.shape := by
  refine grounded.part ?_
  rw [own]
  exact List.mem_map_of_mem member

theorem stored (grounded : Grounded refs (n + 1) s) {fields : List Field}
    (found : s.storedFields refs = .ok fields) : ∀ f ∈ fields, Grounded refs n f.shape :=
  fun f member => grounded.descended (descends_storedFields found f member)

theorem resolved (grounded : Grounded refs n s) (found : s.resolved refs = .ok t) :
    Grounded refs n t := grounded.reached (reaches_resolved found)

/-- An alias or a reference stands for something below it. -/
theorem behind (grounded : Grounded refs (n + 1) s) (indirect : ¬ s.IsDirect)
    (found : s.resolved refs = .ok t) : Grounded refs n t := by
  rcases (reaches_resolved found).cases_head with same | ⟨part, member, reaches⟩
  · subst same
    exact (indirect (resolves_of_resolved found).isDirect).elim
  · exact grounded.descended ⟨part, member, reaches⟩

/-- Going down comes to an end. -/
theorem acc (grounded : Grounded refs n s) :
    Acc (fun part whole => part ∈ whole.subshapes refs) s := by
  induction grounded with
  | mk _ _ ih => exact ⟨_, fun part member => ih part member⟩

end Grounded

/-- Shapes whose labels are ranked are grounded: between two references that are followed the shapes
get lighter, and references lead to lower ranks. -/
theorem grounded_of_ranked (ranked : refs.Ranked rank) {heaviest : Nat}
    (light : ∀ label target, refs.lookup label = some target → target.weight ≤ heaviest)
    (bound : Nat) : ∀ s : Shape, (∀ label ∈ s.labels, rank label < bound) →
      (∀ t, Reaches refs s t → t.IsKnown refs) →
      Grounded refs (s.weight + bound * (heaviest + 1)) s := by
  -- Following a reference lowers the bound on ranks; going into a part keeps it and lowers the weight.
  induction bound using Nat.strongRecOn with
  | ind bound lower =>
    intro s below known
    induction size : s.weight using Nat.strongRecOn generalizing s with
    | ind w lighter =>
      obtain ⟨m, height⟩ : ∃ m, w + bound * (heaviest + 1) = m + 1 :=
        ⟨_, (Nat.sub_add_cancel (by have := s.weight_pos; omega)).symm⟩
      rw [height]
      refine .mk (known s .refl) fun part member => ?_
      have parts := fun t reaches => known t (.head member reaches)
      by_cases reference : ∃ label, s = .ref label
      · obtain ⟨label, same⟩ := reference
        subst same
        have found : refs.lookup label = some part := Option.mem_toList.mp member
        have less := below label (List.mem_singleton.mpr rfl)
        have step := lower (rank label) less part (ranked.lower label part found) parts
        -- The target may be heavier than the reference; the rank that is given up pays for it.
        have target := light label part found
        have rest : (rank label + 1) * (heaviest + 1) ≤ bound * (heaviest + 1) :=
          Nat.mul_le_mul_right _ less
        rw [Nat.succ_mul] at rest
        exact step.mono (by omega)
      · have plain : ∀ label, s ≠ .ref label := fun label same => reference ⟨label, same⟩
        have less := weight_lt_of_part plain member
        have inside := fun label among => below label ((mem_labels_iff plain).mpr ⟨part, member, among⟩)
        exact (lighter part.weight (size ▸ less) part inside parts rfl).mono (by omega)

end WireSchema.Shape
