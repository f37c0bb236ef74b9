import WireSchema.Proofs.Shape.HookFree

/-!
# Parts weigh less

A part of a shape weighs less than the shape, so what holds of the parts of a shape as far as it holds
of the parts of each lighter one holds of all shapes. References have no parts in an empty table.
-/

namespace WireSchema.Shape

theorem weight_pos (s : Shape) : 0 < s.weight := by
  cases s <;> rw [weight] <;> omega

theorem weight_lt_weightFields {fields : List Field} {f : Field} (member : f ∈ fields) :
    f.shape.weight < weightFields fields := by
  induction fields with
  | nil => cases member
  | cons first rest ih =>
    rw [weightFields]
    rcases List.mem_cons.mp member with rfl | later
    · omega
    · have lighter := ih later
      omega

theorem weight_le_weightList {parts : List Shape} {part : Shape} (member : part ∈ parts) :
    part.weight ≤ weightList parts := by
  induction parts with
  | nil => cases member
  | cons first rest ih =>
    rw [weightList]
    rcases List.mem_cons.mp member with rfl | later
    · omega
    · have lighter := ih later
      omega

theorem weight_lt_weightVariants {variants : List (String × Shape)} {v : String × Shape}
    (member : v ∈ variants) : v.2.weight < weightVariants variants := by
  induction variants with
  | nil => cases member
  | cons first rest ih =>
    rw [weightVariants]
    rcases List.mem_cons.mp member with rfl | later
    · omega
    · have lighter := ih later
      omega

/-- A part weighs less than the shape, unless it is behind a reference. -/
theorem weight_lt_of_part {refs : Refs} {s part : Shape} (plain : ∀ label, s ≠ .ref label)
    (member : part ∈ s.subshapes refs) : part.weight < s.weight := by
  cases s with
  | prim | enum | slot | custom | literal => cases member
  | ref label => exact (plain label rfl).elim
  | optional | map =>
    simp only [subshapes, List.mem_cons, List.not_mem_nil, or_false] at member
    rw [weight]
    rcases member with rfl | rfl <;> omega
  | list | «alias» | exported | transformed =>
    simp only [subshapes, List.mem_singleton] at member
    rw [weight, member]
    omega
  | struct | packed | flags =>
    obtain ⟨f, among, rfl⟩ := List.mem_map.mp member
    have lighter := weight_lt_weightFields among
    rw [weight]
    omega
  | merged parts =>
    have lighter : part.weight ≤ weightList parts := weight_le_weightList member
    rw [weight]
    omega
  | union =>
    rw [weight]
    rcases List.mem_cons.mp member with rfl | payload
    · omega
    · obtain ⟨v, among, rfl⟩ := List.mem_map.mp payload
      have lighter := weight_lt_weightVariants among
      omega

end WireSchema.Shape
