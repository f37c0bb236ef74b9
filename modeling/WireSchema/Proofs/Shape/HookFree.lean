import Mathlib.Logic.Relation
import WireSchema.Shape.Reference

/-!
# Shapes without hooks

Generation descends from a shape into its parts, behind its aliases and references, and into the
fields of merged structs. It meets a hook only at a custom shape. A shape is free of hooks if none
can be reached.
-/

namespace WireSchema.Shape

variable {refs : Refs}

/-- The second shape is met on the way down from the first. -/
def Reaches (refs : Refs) : Shape → Shape → Prop :=
  Relation.ReflTransGen fun s part => part ∈ s.subshapes refs

/-- The second shape is met below the first. -/
def Descends (refs : Refs) (s t : Shape) : Prop := ∃ part ∈ s.subshapes refs, Reaches refs part t

theorem Descends.reaches {s t : Shape} (descends : Descends refs s t) : Reaches refs s t := by
  obtain ⟨part, member, reaches⟩ := descends
  exact .head member reaches

/-- No custom shape is met on the way down. -/
def HookFree (refs : Refs) (s : Shape) : Prop :=
  ∀ signature definition hook, ¬ Reaches refs s (.custom signature definition hook)

theorem HookFree.reached {s t : Shape} (free : s.HookFree refs) (reaches : Reaches refs s t) :
    t.HookFree refs :=
  fun signature definition hook further => free signature definition hook (reaches.trans further)

theorem HookFree.part {s part : Shape} (free : s.HookFree refs) (member : part ∈ s.subshapes refs) :
    part.HookFree refs := free.reached (.single member)

theorem not_hookFree_custom (signature : String) (definition : Ir.TypeExpr) (hook : String) :
    ¬ (custom signature definition hook).HookFree refs :=
  fun free => free signature definition hook .refl

/-- A shape is free of hooks if it is none itself and its parts are free of them. -/
theorem hookFree_of_parts {s : Shape}
    (plain : ∀ signature definition hook, s ≠ .custom signature definition hook)
    (parts : ∀ part ∈ s.subshapes refs, part.HookFree refs) : s.HookFree refs := by
  intro signature definition hook reaches
  rcases reaches.cases_head with same | ⟨part, member, further⟩
  · exact plain _ _ _ same
  · exact parts part member _ _ _ further

theorem hookFree_prim (p : Primitive) : (prim p).HookFree refs := hookFree_of_parts nofun nofun

theorem hookFree_struct {fields : List Field} (free : ∀ f ∈ fields, f.shape.HookFree refs) :
    (struct fields).HookFree refs :=
  hookFree_of_parts nofun (List.forall_mem_map.mpr free)

theorem HookFree.field {fields : List Field} (free : (struct fields).HookFree refs) {f : Field}
    (member : f ∈ fields) : f.shape.HookFree refs := free.part (List.mem_map_of_mem member)

/-! ### Behind aliases and references -/

theorem reaches_resolvedWith {target : String → Except SchemaError Shape}
    (behind : ∀ label t, target label = .ok t → Reaches refs (.ref label) t) {s t : Shape}
    (found : s.resolvedWith target = .ok t) : Reaches refs s t := by
  induction s using resolvedWith.induct with
  | case1 name inner ih =>
    rw [resolvedWith] at found
    exact .head List.mem_cons_self (ih found)
  | case2 name inner ih =>
    rw [resolvedWith] at found
    exact .head List.mem_cons_self (ih found)
  | case3 label =>
    rw [resolvedWith] at found
    exact behind label t found
  | case4 s notAlias notExported notRef =>
    rw [resolvedWith] at found
    · cases found
      exact .refl
    all_goals assumption

theorem reaches_resolved {s t : Shape} (found : s.resolved refs = .ok t) : Reaches refs s t := by
  unfold resolved at found
  generalize refs.length = fuel at found
  induction fuel generalizing s t with
  | zero => exact reaches_resolvedWith (fun _ _ lost => by cases lost) found
  | succ fuel ih =>
    refine reaches_resolvedWith (fun label t found => ?_) found
    split at found
    case h_1 target known => exact .head (by simp [subshapes, known]) (ih found)
    case h_2 => cases found

theorem HookFree.resolved {s t : Shape} (free : s.HookFree refs) (found : s.resolved refs = .ok t) :
    t.HookFree refs := free.reached (reaches_resolved found)

/-! ### Stored fields -/

/-- Of some of its fields, each is a part of the struct. -/
theorem descends_field {s : Shape} {own : List Field} (parts : s.subshapes refs = own.map (·.shape))
    {keep : Field → Bool} {fields : List Field} (found : Except.ok (own.filter keep) =
      (.ok fields : Except SchemaError (List Field))) : ∀ f ∈ fields, Descends refs s f.shape := by
  cases found
  intro f member
  refine ⟨f.shape, ?_, .refl⟩
  rw [parts]
  exact List.mem_map_of_mem (List.mem_filter.mp member).1

mutual

theorem descends_storedFieldsWith {fieldsOf : String → Except SchemaError (List Field)}
    (behind : ∀ label fields, fieldsOf label = .ok fields →
      ∀ f ∈ fields, Descends refs (.ref label) f.shape) : ∀ (s : Shape) {fields : List Field},
    s.storedFieldsWith refs fieldsOf = .ok fields → ∀ f ∈ fields, Descends refs s f.shape
  | .struct _, _, found | .packed _ _ _ _, _, found | .flags _ _ _ _, _, found =>
    descends_field rfl found
  | .merged parts, _, found => by
    intro f member
    obtain ⟨part, among, descends⟩ := descends_storedFieldsOfParts behind parts found f member
    exact ⟨part, among, descends.reaches⟩
  | .alias _ inner, _, found | .exported _ inner, _, found => fun f member =>
    ⟨inner, List.mem_cons_self, (descends_storedFieldsWith behind inner found f member).reaches⟩
  | .ref label, fields, found => behind label fields found
  | .prim _, _, found | .optional _ _, _, found | .list _ _, _, found | .map _ _ _, _, found
  | .enum _ _, _, found | .union _ _ _ _, _, found | .slot _ _ _, _, found
  | .custom _ _ _, _, found | .transformed _ _ _ _ _ _, _, found | .literal _ _, _, found =>
    nomatch found

theorem descends_storedFieldsOfParts {fieldsOf : String → Except SchemaError (List Field)}
    (behind : ∀ label fields, fieldsOf label = .ok fields →
      ∀ f ∈ fields, Descends refs (.ref label) f.shape) :
    ∀ (parts : List Shape) {fields : List Field},
      storedFieldsOfParts refs fieldsOf parts = .ok fields →
      ∀ f ∈ fields, ∃ part ∈ parts, Descends refs part f.shape
  | [], _, found => by
    cases found
    exact nofun
  | part :: rest, _, found => by
    simp only [storedFieldsOfParts, bind, Except.bind] at found
    split at found
    case h_1 => cases found
    case h_2 first early =>
      split at found
      case h_1 => cases found
      case h_2 others late =>
        cases found
        intro f member
        rcases List.mem_append.mp member with here | later
        · exact ⟨part, List.mem_cons_self, descends_storedFieldsWith behind part early f here⟩
        · obtain ⟨other, among, descends⟩ := descends_storedFieldsOfParts behind rest late f later
          exact ⟨other, List.mem_cons_of_mem _ among, descends⟩

end

/-- The shape of a stored field is met below the struct. -/
theorem descends_storedFields {s : Shape} {fields : List Field}
    (found : s.storedFields refs = .ok fields) : ∀ f ∈ fields, Descends refs s f.shape := by
  unfold storedFields at found
  generalize refs.length = fuel at found
  induction fuel generalizing s fields with
  | zero => exact descends_storedFieldsWith (fun _ _ lost => by cases lost) s found
  | succ fuel ih =>
    refine descends_storedFieldsWith (fun label fields found f member => ?_) s found
    split at found
    case h_1 target known => exact ⟨target, by simp [subshapes, known], (ih found f member).reaches⟩
    case h_2 => cases found

theorem HookFree.stored {s : Shape} (free : s.HookFree refs) {fields : List Field}
    (found : s.storedFields refs = .ok fields) : ∀ f ∈ fields, f.shape.HookFree refs :=
  fun f member => free.reached (descends_storedFields found f member).reaches

end WireSchema.Shape
