import Mathlib.Data.List.Forall2
import Mathlib.Data.List.Induction
import Mathlib.Data.List.Nodup
import Mathlib.Data.List.Perm.Subperm

/-!
# Searching lists

What a search finds in lists whose elements are related, or have distinct keys.
-/

namespace WireSchema

/-- The first elements with a property, in lists whose elements are related and have it alike. -/
theorem rel_find? {α β : Type} {R : α → β → Prop} {as : List α} {bs : List β}
    (paired : List.Forall₂ R as bs) {p : α → Bool} {q : β → Bool}
    (alike : ∀ a b, R a b → q b = p a) : Option.Rel R (as.find? p) (bs.find? q) := by
  induction paired with
  | nil => exact .none
  | @cons a b _ _ first _ ih =>
    rw [List.find?_cons, List.find?_cons, alike a b first]
    cases p a with
    | true => exact .some first
    | false => exact ih

/-- An element of the second list is related to one of the first. -/
theorem exists_rel_of_mem {α β : Type} {R : α → β → Prop} {as : List α} {bs : List β} {b : β}
    (paired : List.Forall₂ R as bs) (member : b ∈ bs) : ∃ a ∈ as, R a b := by
  induction paired with
  | nil => cases member
  | @cons a _ _ _ first _ ih =>
    rcases List.mem_cons.mp member with rfl | later
    · exact ⟨a, List.mem_cons_self .., first⟩
    · obtain ⟨a, inside, related⟩ := ih later
      exact ⟨a, List.mem_cons_of_mem _ inside, related⟩

/-- Related elements with the same keys make for the same list of keys. -/
theorem map_eq_of_rel {α β γ : Type} {R : α → β → Prop} {as : List α} {bs : List β}
    (paired : List.Forall₂ R as bs) {f : α → γ} {g : β → γ} (same : ∀ a b, R a b → f a = g b) :
    as.map f = bs.map g := by
  have keys : List.Forall₂ (· = ·) (as.map f) (bs.map g) :=
    List.forall₂_map_left_iff.mpr (List.forall₂_map_right_iff.mpr (paired.imp same))
  rwa [List.forall₂_eq_eq_eq] at keys

section Keys

variable {α β : Type} {key : α → β} {l : List α} {a : α}

theorem key_of_find? [BEq β] [LawfulBEq β] {k : β} (found : l.find? (key · == k) = some a) :
    key a = k :=
  eq_of_beq (List.find?_some (p := (key · == k)) found)

/-- Where keys are distinct, the search for a key finds its only owner. -/
theorem find?_of_distinct [BEq β] [LawfulBEq β] (distinct : (l.map key).Nodup) (member : a ∈ l) :
    l.find? (key · == key a) = some a := by
  have present : (l.find? (key · == key a)).isSome :=
    List.find?_isSome.mpr ⟨a, member, beq_self_eq_true _⟩
  obtain ⟨b, found⟩ := Option.isSome_iff_exists.mp present
  rw [found, List.inj_on_of_nodup_map distinct (List.mem_of_find?_eq_some found) member
    (key_of_find? found)]

/-- A part of a list with distinct keys has distinct keys, in whatever order it comes. -/
theorem distinct_of_subperm {l' : List α} (distinct : (l.map key).Nodup) (part : l'.Subperm l) :
    (l'.map key).Nodup := by
  obtain ⟨ordered, same, sub⟩ := part
  exact (same.map key).nodup_iff.mp (distinct.sublist (sub.map key))

/-- Keys are distinct exactly when every element brings one that none before it has. -/
theorem nodup_iff_fresh :
    (l.map key).Nodup ↔ ∀ front a back, l = front ++ a :: back → key a ∉ front.map key := by
  constructor
  · rintro distinct front a back rfl used
    rw [List.map_append, List.map_cons, List.nodup_append] at distinct
    exact distinct.2.2 _ used _ (List.mem_cons_self ..) rfl
  · intro fresh
    induction l using List.reverseRecOn with
    | nil => exact List.nodup_nil
    | append_singleton l last ih =>
      rw [List.map_append, List.map_singleton, ← List.concat_eq_append]
      refine .concat (fresh l last [] rfl) (ih fun front a back split => ?_)
      exact fresh front a (back ++ [last]) (by rw [split, List.append_assoc, List.cons_append])

end Keys

end WireSchema
