import WireSchema.Proofs.Lowering.Orderly
import WireSchema.Proofs.Shape.Settled
import WireSchema.Proofs.Shape.Weight

/-!
# Members named by identifiers

In the shapes of a text all members have identifiers for names. What is met on the way down from such
a shape is such a shape again.
-/

namespace WireSchema

namespace Shape

/-- The members of the shape itself are named by identifiers, and something is merged if anything is. -/
def OwnIdents : Shape → Prop
  | .struct fields | .packed _ _ fields _ => ∀ f ∈ fields, IsIdent f.name
  | .flags _ masks fields _ =>
    (∀ entry ∈ masks, IsIdent entry.1) ∧ ∀ f ∈ fields, IsIdent f.name
  | .merged parts => parts ≠ []
  | .union tagField _ variants _ => IsIdent tagField ∧ ∀ v ∈ variants, IsIdent v.1
  | _ => True

/-- All members in the shape are named by identifiers; references are not followed. -/
def IdentMembers (s : Shape) : Prop := ∀ t, Reaches [] s t → t.OwnIdents

theorem identMembers_of_parts {s : Shape} (own : s.OwnIdents)
    (parts : ∀ part ∈ s.subshapes [], part.IdentMembers) : s.IdentMembers := by
  intro t reaches
  rcases reaches.cases_head with rfl | ⟨part, member, further⟩
  · exact own
  · exact parts part member t further

theorem IdentMembers.part {s part : Shape} (idents : s.IdentMembers)
    (member : part ∈ s.subshapes []) : part.IdentMembers :=
  fun t reaches => idents t (.head member reaches)

/-- The parts of a shape do not depend on the table, unless it is a reference. -/
theorem subshapes_eq {s : Shape} (plain : ∀ label, s ≠ .ref label) (refs refs' : Refs) :
    s.subshapes refs = s.subshapes refs' := by
  cases s with
  | ref label => exact absurd rfl (plain label)
  | _ => rfl

end Shape

/-- The declared types are those of a text. -/
structure Refs.Written (types : Refs) (rank : String → Nat) : Prop where
  ordered : types.Ordered rank
  idents : ∀ entry ∈ types, entry.2.IdentMembers

namespace Shape

variable {types : Refs} {rank : String → Nat} {s t : Shape} {fields : List Field}

/-- The shape is that of a field in a text. -/
structure IsWritten (types : Refs) (rank : String → Nat) (s : Shape) : Prop where
  field : s.IsFieldShape types rank
  idents : s.IdentMembers

namespace IsWritten

theorem own (written : s.IsWritten types rank) : s.OwnIdents := written.idents s .refl

theorem part (whole : types.Written rank) (written : s.IsWritten types rank)
    (member : t ∈ s.subshapes types) : t.IsWritten types rank := by
  refine ⟨Lowering.fieldShape_subshapes whole.ordered written.field member, ?_⟩
  by_cases behind : ∃ label, s = .ref label
  · obtain ⟨label, rfl⟩ := behind
    exact whole.idents _ (mem_of_lookup (Option.mem_toList.mp member))
  · refine written.idents.part ?_
    rwa [subshapes_eq (fun label same => behind ⟨label, same⟩) [] types]

theorem reached (whole : types.Written rank) (written : s.IsWritten types rank)
    (reaches : Reaches types s t) : t.IsWritten types rank := by
  induction reaches with
  | refl => exact written
  | tail _ member ih => exact ih.part whole member

theorem resolved (whole : types.Written rank) (written : s.IsWritten types rank)
    (ran : s.resolved types = .ok t) : t.IsWritten types rank :=
  written.reached whole (reaches_resolved ran)

theorem stored (whole : types.Written rank) (written : s.IsWritten types rank)
    (ran : s.storedFields types = .ok fields) : ∀ f ∈ fields, f.shape.IsWritten types rank :=
  fun f member => written.reached whole (descends_storedFields ran f member).reaches

theorem member (whole : types.Written rank) (written : s.IsWritten types rank)
    (parts : s.subshapes types = fields.map (·.shape)) :
    ∀ f ∈ fields, f.shape.IsWritten types rank :=
  fun _ inside => written.part whole (parts ▸ List.mem_map_of_mem inside)

end IsWritten

end Shape

theorem Refs.Written.entry {types : Refs} {rank : String → Nat} (whole : types.Written rank)
    {entry : String × Shape} (member : entry ∈ types) : entry.2.IsWritten types rank :=
  ⟨Lowering.fieldShape_target whole.ordered (lookup_of_mem whole.ordered.nodup member),
    whole.idents entry member⟩

end WireSchema
