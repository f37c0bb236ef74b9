import WireSchema.Proofs.Layout.Reading
import WireSchema.Source.Token

/-!
# Shapes that texts describe

The shapes of a schema text use types that are declared once, by name, and never in a circle: each
declared type has a rank above those of the types it mentions. So following references comes to an
end, and a reference is read like the shape behind it.
-/

namespace WireSchema

/-- The characters are those of identifiers. -/
def IsIdent (name : String) : Prop := ∀ c ∈ name.toList, Source.Parser.isIdentRest c = true

namespace Shape

/-- The field is a slot of a packed struct with the given widths. -/
def IsPackedField (backing : Primitive) (widths : List Nat) (group : Nat) (f : Field) : Prop :=
  ∃ index width, widths[index]? = some width ∧
    f.shape = .slot group index (.bits (total (widths.drop (index + 1))) width backing)

/-- The field is a slot of a flag struct with the given masks. -/
def IsFlagField (backing : Primitive) (masks : List (String × Int)) (group : Nat) (f : Field) :
    Prop :=
  ∃ index mask, masks[index]? = some (f.name, mask) ∧
    f.shape = .slot group index (.flag mask backing)

/-- An integer literal has the type of its backing. -/
def IsTyped (value : Literal) (backing : Option Primitive) : Prop :=
  ∀ p kind, backing = some p → p.intKind? = some kind → ∀ v own, value = .int v own → own = kind

section

variable (types : Refs) (rank : String → Nat) (bound : Nat)

mutual

/-- The shape is one that a text describes, and mentions only declared types whose rank is below
`bound`. -/
def WellFormed : Shape → Prop
  | .prim _ => True
  | .literal value backing => IsTyped value backing
  | .optional value presence => presence = .prim .bool ∧ WellFormed value
  | .list item _ => WellFormed item
  | .map key value _ => WellFormed key ∧ WellFormed value
  | .struct fields => WellFormedFields fields
  | .merged parts => WellFormedParts parts
  | .enum _ entries => (entries.map (·.1)).Nodup ∧ ∀ entry ∈ entries, IsIdent entry.1
  | .union _ tag variants _ =>
    WellFormed tag ∧ (variants.map (·.1)).Nodup ∧ WellFormedVariants variants
  | .packed backing widths fields group =>
    (∀ kind ∈ backing.intKind?, total widths ≤ kind.bits) ∧ 0 ∉ widths ∧
      ∀ f ∈ fields, IsPackedField backing widths group f
  | .flags backing masks fields group =>
    (∀ kind ∈ backing.intKind?, ∀ entry ∈ masks, 0 < entry.2 ∧ entry.2 ≤ IntKind.mask kind.bits) ∧
      ∀ f ∈ fields, IsFlagField backing masks group f
  | .alias name inner => (name, .alias name inner) ∈ types ∧ rank name < bound
  | .exported name inner => (name, .exported name inner) ∈ types ∧ rank name < bound
  | .ref label => label ∈ types.map (·.1) ∧ rank label < bound
  | .slot _ _ _ | .custom _ _ _ | .transformed _ _ _ _ _ _ => False

def WellFormedFields : List (Member Shape) → Prop
  | [] => True
  | f :: rest => WellFormed f.shape ∧ WellFormedFields rest

def WellFormedParts : List Shape → Prop
  | [] => True
  | s :: rest => WellFormed s ∧ WellFormedParts rest

def WellFormedVariants : List (String × Shape) → Prop
  | [] => True
  | (_, s) :: rest => (∃ fields, s = .struct fields) ∧ WellFormed s ∧ WellFormedVariants rest

end

end

end Shape

/-- The declared types are named once, are described by a text, and mention types of lower rank. -/
structure Refs.Ordered (types : Refs) (rank : String → Nat) : Prop where
  nodup : (types.map (·.1)).Nodup
  idents : ∀ entry ∈ types, IsIdent entry.1
  shapes : ∀ entry ∈ types, ∃ inner : Shape,
    (entry.2 = .alias entry.1 inner ∨ entry.2 = .exported entry.1 inner) ∧
      inner.WellFormed types rank (rank entry.1)
  ranks : ∀ entry ∈ types, rank entry.1 < types.length

variable {types : Refs} {rank : String → Nat} {bound : Nat}

theorem lookup_of_mem {α : Type} {entries : List (String × α)} {name : String} {a : α}
    (nodup : (entries.map (·.1)).Nodup) (member : (name, a) ∈ entries) :
    entries.lookup name = some a := by
  induction entries with
  | nil => cases member
  | cons entry rest ih =>
    obtain ⟨other, b⟩ := entry
    rw [List.map_cons, List.nodup_cons] at nodup
    rw [List.lookup_cons]
    rcases List.mem_cons.mp member with here | later
    · cases here
      rw [beq_self_eq_true]
    · -- The name comes later, so it is not that of the first entry.
      have different : name ≠ other := fun same => nodup.1
        (List.mem_map.mpr ⟨(name, a), later, same⟩)
      rw [beq_false_of_ne different]
      exact ih nodup.2 later

theorem mem_of_lookup {α : Type} {entries : List (String × α)} {name : String} {a : α}
    (found : entries.lookup name = some a) : (name, a) ∈ entries := by
  induction entries with
  | nil => cases found
  | cons entry rest ih =>
    obtain ⟨other, b⟩ := entry
    rw [List.lookup_cons] at found
    by_cases same : name = other
    · rw [same, beq_self_eq_true] at found
      cases found
      rw [same]
      exact List.mem_cons_self ..
    · rw [beq_false_of_ne same] at found
      exact List.mem_cons_of_mem _ (ih found)

namespace Refs.Ordered

/-- A declared type is an alias or an exported type of a shape that mentions types of lower rank. -/
theorem target (ordered : types.Ordered rank) {label : String} (declared : label ∈ types.map (·.1)) :
    ∃ s inner, types.lookup label = some s ∧ (label, s) ∈ types ∧
      (s = .alias label inner ∨ s = .exported label inner) ∧
      inner.WellFormed types rank (rank label) ∧ rank label < types.length := by
  obtain ⟨⟨name, s⟩, member, rfl⟩ := List.mem_map.mp declared
  obtain ⟨inner, form, wellFormed⟩ := ordered.shapes _ member
  exact ⟨s, inner, lookup_of_mem ordered.nodup member, member, form, wellFormed,
    ordered.ranks _ member⟩

/-- The target of a label mentions types of no higher rank than the label's. -/
theorem wellFormed_target (ordered : types.Ordered rank) {label : String} {s : Shape}
    (found : types.lookup label = some s) : s.WellFormed types rank (rank label + 1) := by
  have declared : label ∈ types.map (·.1) := List.mem_map.mpr ⟨_, mem_of_lookup found, rfl⟩
  obtain ⟨s', inner, found', member, form, _, _⟩ := ordered.target declared
  rw [found] at found'
  cases found'
  rcases form with rfl | rfl
  · exact ⟨member, Nat.lt_succ_self _⟩
  · exact ⟨member, Nat.lt_succ_self _⟩

theorem inner_alias (ordered : types.Ordered rank) {name : String} {inner : Shape}
    (member : (name, .alias name inner) ∈ types) : inner.WellFormed types rank (rank name) := by
  obtain ⟨other, form, wellFormed⟩ := ordered.shapes _ member
  rcases form with same | same
  · cases same
    exact wellFormed
  · cases same

theorem inner_exported (ordered : types.Ordered rank) {name : String} {inner : Shape}
    (member : (name, .exported name inner) ∈ types) : inner.WellFormed types rank (rank name) := by
  obtain ⟨other, form, wellFormed⟩ := ordered.shapes _ member
  rcases form with same | same
  · cases same
  · cases same
    exact wellFormed

end Refs.Ordered

namespace Shape

mutual

theorem WellFormed.mono {bound' : Nat} (le : bound ≤ bound') : ∀ s : Shape,
    s.WellFormed types rank bound → s.WellFormed types rank bound'
  | .prim _ | .literal _ _ | .enum _ _ | .packed _ _ _ _ | .flags _ _ _ _ => id
  | .optional value _ => fun ⟨same, wf⟩ => ⟨same, WellFormed.mono le value wf⟩
  | .list item _ => WellFormed.mono le item
  | .map key value _ => fun ⟨wf, wf'⟩ => ⟨WellFormed.mono le key wf, WellFormed.mono le value wf'⟩
  | .struct fields => WellFormedFields.mono le fields
  | .merged parts => WellFormedParts.mono le parts
  | .union _ tag variants _ => fun ⟨wf, nodup, wf'⟩ =>
    ⟨WellFormed.mono le tag wf, nodup, WellFormedVariants.mono le variants wf'⟩
  | .alias _ _ | .exported _ _ | .ref _ => fun ⟨member, below⟩ => ⟨member, Nat.lt_of_lt_of_le below le⟩
  | .slot _ _ _ | .custom _ _ _ | .transformed _ _ _ _ _ _ => id

theorem WellFormedFields.mono {bound' : Nat} (le : bound ≤ bound') : ∀ fields : List Field,
    WellFormedFields types rank bound fields → WellFormedFields types rank bound' fields
  | [] => id
  | f :: rest => fun ⟨wf, wf'⟩ => ⟨WellFormed.mono le f.shape wf, WellFormedFields.mono le rest wf'⟩

theorem WellFormedParts.mono {bound' : Nat} (le : bound ≤ bound') : ∀ parts : List Shape,
    WellFormedParts types rank bound parts → WellFormedParts types rank bound' parts
  | [] => id
  | s :: rest => fun ⟨wf, wf'⟩ => ⟨WellFormed.mono le s wf, WellFormedParts.mono le rest wf'⟩

theorem WellFormedVariants.mono {bound' : Nat} (le : bound ≤ bound') :
    ∀ variants : List (String × Shape),
    WellFormedVariants types rank bound variants → WellFormedVariants types rank bound' variants
  | [] => id
  | (_, s) :: rest => fun ⟨form, wf, wf'⟩ =>
    ⟨form, WellFormed.mono le s wf, WellFormedVariants.mono le rest wf'⟩

end

end Shape

namespace Layout

open Wire

section Congruence

variable {order : ByteOrder} {target target' : String → Part}

/-- The two answers agree on declared types of rank below `bound`. -/
def AgreeBelow (types : Refs) (rank : String → Nat) (bound : Nat) (target target' : String → Part) :
    Prop :=
  ∀ label ∈ types.map (·.1), rank label < bound → target label = target' label

theorem AgreeBelow.mono {bound' : Nat} (agree : AgreeBelow types rank bound target target')
    (le : bound' ≤ bound) : AgreeBelow types rank bound' target target' :=
  fun label declared below => agree label declared (Nat.lt_of_lt_of_le below le)

mutual

/-- A shape is read alike if the parts behind its labels are alike. -/
theorem valueWith_congr (ordered : types.Ordered rank) : ∀ (s : Shape) (bound : Nat),
    s.WellFormed types rank bound → AgreeBelow types rank bound target target' →
    valueWith order target s = valueWith order target' s
  | .prim _, _, _, _ | .literal _ none, _, _, _ | .literal _ (some _), _, _, _
  | .enum _ _, _, _, _ | .packed _ _ _ _, _, _, _ | .flags _ _ _ _, _, _, _ => by
    simp only [valueWith]
  | .optional value presence, bound, ⟨same, wf⟩, agree => by
    subst same
    simp only [valueWith, valueWith_congr ordered value bound wf agree]
  | .list item _, bound, wf, agree => by
    simp only [valueWith, valueWith_congr ordered item bound wf agree]
  | .map key value _, bound, ⟨wf, wf'⟩, agree => by
    simp only [valueWith, valueWith_congr ordered key bound wf agree,
      valueWith_congr ordered value bound wf' agree]
  | .struct fields, bound, wf, agree => by
    simp only [valueWith, fieldsWith_congr ordered fields bound wf agree]
  | .merged parts, bound, wf, agree => by
    simp only [valueWith, partsWith_congr ordered parts bound wf agree]
  | .union _ tag variants tags, bound, ⟨wf, _, wf'⟩, agree => by
    simp only [valueWith, valueWith_congr ordered tag bound wf agree,
      variantsWith_congr ordered tags variants bound wf' agree]
  | .alias name inner, bound, ⟨member, below⟩, agree => by
    simp only [valueWith]
    exact valueWith_congr ordered inner (rank name) (ordered.inner_alias member)
      (agree.mono (Nat.le_of_lt below))
  | .exported name inner, bound, ⟨member, below⟩, agree => by
    simp only [valueWith]
    exact valueWith_congr ordered inner (rank name) (ordered.inner_exported member)
      (agree.mono (Nat.le_of_lt below))
  | .ref label, bound, ⟨declared, below⟩, agree => by
    simp only [valueWith, agree label declared below]

theorem membersWith_congr (ordered : types.Ordered rank) : ∀ (s : Shape) (bound : Nat),
    s.WellFormed types rank bound → AgreeBelow types rank bound target target' →
    membersWith order target s = membersWith order target' s
  | .prim _, _, _, _ | .literal _ _, _, _, _ | .enum _ _, _, _, _ | .packed _ _ _ _, _, _, _
  | .flags _ _ _ _, _, _, _ | .optional _ _, _, _, _ | .list _ _, _, _, _ | .map _ _ _, _, _, _
  | .union _ _ _ _, _, _, _ => by simp only [membersWith]
  | .struct fields, bound, wf, agree => by
    simp only [membersWith, fieldsWith_congr ordered fields bound wf agree]
  | .merged parts, bound, wf, agree => by
    simp only [membersWith, partsWith_congr ordered parts bound wf agree]
  | .alias name inner, bound, ⟨member, below⟩, agree => by
    simp only [membersWith]
    exact membersWith_congr ordered inner (rank name) (ordered.inner_alias member)
      (agree.mono (Nat.le_of_lt below))
  | .exported name inner, bound, ⟨member, below⟩, agree => by
    simp only [membersWith]
    exact membersWith_congr ordered inner (rank name) (ordered.inner_exported member)
      (agree.mono (Nat.le_of_lt below))
  | .ref label, bound, ⟨declared, below⟩, agree => by
    simp only [membersWith, agree label declared below]

theorem fieldsWith_congr (ordered : types.Ordered rank) : ∀ (fields : List Field) (bound : Nat),
    Shape.WellFormedFields types rank bound fields → AgreeBelow types rank bound target target' →
    fieldsWith order target fields = fieldsWith order target' fields
  | [], _, _, _ => rfl
  | f :: rest, bound, ⟨wf, wf'⟩, agree => by
    simp only [fieldsWith, valueWith_congr ordered f.shape bound wf agree,
      fieldsWith_congr ordered rest bound wf' agree]

theorem partsWith_congr (ordered : types.Ordered rank) : ∀ (parts : List Shape) (bound : Nat),
    Shape.WellFormedParts types rank bound parts → AgreeBelow types rank bound target target' →
    partsWith order target parts = partsWith order target' parts
  | [], _, _, _ => rfl
  | s :: rest, bound, ⟨wf, wf'⟩, agree => by
    simp only [partsWith, membersWith_congr ordered s bound wf agree,
      partsWith_congr ordered rest bound wf' agree]

theorem variantsWith_congr (ordered : types.Ordered rank) (tags : List (String × Literal)) :
    ∀ (variants : List (String × Shape)) (bound : Nat),
    Shape.WellFormedVariants types rank bound variants →
    AgreeBelow types rank bound target target' → ∀ (found : Value) (index : Nat),
    variantsWith order target found tags index variants =
      variantsWith order target' found tags index variants
  | [], _, _, _ => fun _ _ => rfl
  | (_, s) :: rest, bound, ⟨_, wf, wf'⟩, agree => by
    intro found index
    simp only [variantsWith, membersWith_congr ordered s bound wf agree,
      variantsWith_congr ordered tags rest bound wf' agree]

end

theorem partWith_congr (ordered : types.Ordered rank) {s : Shape}
    (wf : s.WellFormed types rank bound) (agree : AgreeBelow types rank bound target target') :
    partWith order target s = partWith order target' s := by
  rw [partWith, partWith, valueWith_congr ordered s bound wf agree,
    membersWith_congr ordered s bound wf agree]

end Congruence

/-! ### References -/

variable {order : ByteOrder}

/-- An alias is read like what it stands for. -/
theorem partWith_inner {target : String → Part} {s inner : Shape} {name : String}
    (form : s = .alias name inner ∨ s = .exported name inner) :
    partWith order target s = partWith order target inner := by
  rcases form with rfl | rfl <;> rfl

theorem partAt_inner {fuel : Nat} {s inner : Shape} {name : String}
    (form : s = .alias name inner ∨ s = .exported name inner) :
    partAt order types fuel s = partAt order types fuel inner := by
  cases fuel with
  | zero => exact partWith_inner form
  | succ fuel => exact partWith_inner form

/-- Following more references than the ranks allow changes nothing. -/
theorem partAt_stable (ordered : types.Ordered rank) : ∀ (fuel fuel' : Nat) (s : Shape),
    s.WellFormed types rank bound → bound ≤ fuel → bound ≤ fuel' →
    partAt order types fuel s = partAt order types fuel' s := by
  induction bound using Nat.strongRecOn with
  | ind bound ih =>
    intro fuel fuel' s wf le le'
    cases fuel with
    | zero =>
      -- No label has a rank below zero, so no answer for labels is asked for.
      have none : bound = 0 := by omega
      subst none
      cases fuel' with
      | zero => rfl
      | succ fuel' => exact partWith_congr ordered wf fun label _ below => by omega
    | succ fuel =>
      cases fuel' with
      | zero =>
        have none : bound = 0 := by omega
        subst none
        exact partWith_congr ordered wf fun label _ below => by omega
      | succ fuel' =>
        refine partWith_congr ordered wf fun label declared below => ?_
        obtain ⟨s, inner, found, _, form, wf', _⟩ := ordered.target declared
        have step := ih (rank label) below fuel fuel' inner wf' (by omega) (by omega)
        simp only [found]
        calc partAt order types fuel s
            _ = partAt order types fuel inner := partAt_inner form
            _ = partAt order types fuel' inner := step
            _ = partAt order types fuel' s := (partAt_inner form).symm

theorem part_inner {s inner : Shape} {name : String}
    (form : s = .alias name inner ∨ s = .exported name inner) :
    part order types s = part order types inner := partAt_inner form

/-- A reference is read like the shape behind it. -/
theorem part_ref (ordered : types.Ordered rank) {label : String} {s : Shape}
    (found : types.lookup label = some s) :
    part order types (.ref label) = part order types s := by
  have declared : label ∈ types.map (·.1) := List.mem_map.mpr ⟨_, mem_of_lookup found, rfl⟩
  obtain ⟨s', inner, found', _, form, wf, below⟩ := ordered.target declared
  rw [found] at found'
  cases found'
  obtain ⟨fuel, enough⟩ : ∃ fuel, types.length = fuel + 1 := ⟨types.length - 1, by omega⟩
  have step : partAt order types fuel inner = partAt order types (fuel + 1) inner :=
    partAt_stable ordered fuel (fuel + 1) inner wf (by omega) (by omega)
  unfold part
  rw [enough, partAt_inner form, ← step, ← partAt_inner form]
  simp only [partAt, Shape.following, partWith, valueWith, membersWith, found]

end Layout

namespace Shape

/-- The shape is neither an alias nor a reference. -/
def IsDirect : Shape → Prop
  | .alias _ _ | .exported _ _ | .ref _ => False
  | _ => True

/-- The first shape stands for the second, which is neither an alias nor a reference. -/
inductive Resolves (refs : Refs) : Shape → Shape → Prop where
  | direct {s : Shape} (direct : s.IsDirect) : Resolves refs s s
  | alias {name : String} {inner s : Shape} (resolves : Resolves refs inner s) :
      Resolves refs (.alias name inner) s
  | exported {name : String} {inner s : Shape} (resolves : Resolves refs inner s) :
      Resolves refs (.exported name inner) s
  | ref {label : String} {target s : Shape} (found : refs.lookup label = some target)
      (resolves : Resolves refs target s) : Resolves refs (.ref label) s

theorem resolves_of_resolvedWith {refs : Refs} {target : String → Except SchemaError Shape}
    (labels : ∀ label s, target label = .ok s → Resolves refs (.ref label) s) (s : Shape)
    {s' : Shape} (ran : resolvedWith target s = .ok s') : Resolves refs s s' := by
  match s with
  | .alias name inner => exact .alias (resolves_of_resolvedWith labels inner ran)
  | .exported name inner => exact .exported (resolves_of_resolvedWith labels inner ran)
  | .ref label => exact labels label s' ran
  | .prim _ | .optional _ _ | .list _ _ | .map _ _ _ | .struct _ | .merged _ | .enum _ _
  | .union _ _ _ _ | .packed _ _ _ _ | .flags _ _ _ _ | .slot _ _ _ | .custom _ _ _
  | .transformed _ _ _ _ _ _ | .literal _ _ =>
    cases ran
    exact .direct trivial

theorem resolves_of_resolved {refs : Refs} {s s' : Shape} (ran : s.resolved refs = .ok s') :
    Resolves refs s s' := by
  have all (fuel : Nat) : ∀ (s s' : Shape),
      following refs resolvedWith (.error <| .unresolvedReference ·) fuel s = .ok s' →
      Resolves refs s s' := by
    induction fuel with
    | zero => exact fun s s' => resolves_of_resolvedWith (fun label s ran => by cases ran) s
    | succ fuel ih =>
      refine fun s s' => resolves_of_resolvedWith (fun label t ran => ?_) s
      cases found : refs.lookup label with
      | none =>
        simp only [found] at ran
        cases ran
      | some target =>
        simp only [found] at ran
        exact .ref found (ih target t ran)
  exact all refs.length s s' ran

namespace Resolves

variable {s s' : Shape}

theorem isDirect (resolves : Resolves types s s') : s'.IsDirect := by
  induction resolves with
  | direct direct => exact direct
  | «alias» _ ih | exported _ ih | ref _ _ ih => exact ih

theorem wellFormed (ordered : types.Ordered rank) (resolves : Resolves types s s') {bound : Nat}
    (wf : s.WellFormed types rank bound) : s'.WellFormed types rank bound := by
  induction resolves generalizing bound with
  | direct => exact wf
  | «alias» _ ih =>
    have inner := ih (ordered.inner_alias wf.1)
    exact inner.mono (Nat.le_of_lt wf.2)
  | exported _ ih =>
    have inner := ih (ordered.inner_exported wf.1)
    exact inner.mono (Nat.le_of_lt wf.2)
  | ref found _ ih =>
    obtain ⟨target, inner, found', member, form, _, _⟩ := ordered.target wf.1
    rw [found] at found'
    cases found'
    rcases form with rfl | rfl
    · exact ih ⟨member, wf.2⟩
    · exact ih ⟨member, wf.2⟩

/-- A shape is read like the one it stands for. -/
theorem part_eq (ordered : types.Ordered rank) (order : Wire.ByteOrder)
    (resolves : Resolves types s s') : Layout.part order types s = Layout.part order types s' := by
  induction resolves with
  | direct => rfl
  | «alias» _ ih => rw [Layout.part_inner (.inl rfl), ih]
  | exported _ ih => rw [Layout.part_inner (.inr rfl), ih]
  | ref found _ ih => rw [Layout.part_ref ordered found, ih]

end Resolves

/-! ### Stored fields -/

theorem mem_wellFormedFields {fields : List Field} (wf : WellFormedFields types rank bound fields)
    {f : Field} (member : f ∈ fields) : f.shape.WellFormed types rank bound := by
  induction fields with
  | nil => cases member
  | cons first rest ih =>
    rcases List.mem_cons.mp member with rfl | later
    · exact wf.1
    · exact ih wf.2 later

theorem mem_wellFormedParts {parts : List Shape} (wf : WellFormedParts types rank bound parts)
    {s : Shape} (member : s ∈ parts) : s.WellFormed types rank bound := by
  induction parts with
  | nil => cases member
  | cons first rest ih =>
    rcases List.mem_cons.mp member with rfl | later
    · exact wf.1
    · exact ih wf.2 later

theorem mem_wellFormedVariants {variants : List (String × Shape)}
    (wf : WellFormedVariants types rank bound variants) {key : String} {s : Shape}
    (member : (key, s) ∈ variants) :
    (∃ fields, s = .struct fields) ∧ s.WellFormed types rank bound := by
  induction variants with
  | nil => cases member
  | cons first rest ih =>
    rcases List.mem_cons.mp member with rfl | later
    · exact ⟨wf.1, wf.2.1⟩
    · exact ih wf.2.2 later

/-- The shape of a field: one that a text describes, or a slot. -/
def IsFieldShape (types : Refs) (rank : String → Nat) (s : Shape) : Prop :=
  (∃ bound, s.WellFormed types rank bound) ∨ ∃ group index kind, s = .slot group index kind

section StoredFields

variable {fieldsOf : String → Except SchemaError (List Field)}

mutual

theorem fieldShapes_of_storedFieldsWith (ordered : types.Ordered rank)
    (labels : ∀ label fields, label ∈ types.map (·.1) → fieldsOf label = .ok fields →
      ∀ f ∈ fields, IsFieldShape types rank f.shape) : ∀ (s : Shape) (bound : Nat)
    (fields : List Field), s.WellFormed types rank bound →
    storedFieldsWith types fieldsOf s = .ok fields → ∀ f ∈ fields, IsFieldShape types rank f.shape
  | .struct fields, bound, _, wf, ran => by
    cases ran
    exact fun f member => .inl ⟨bound, mem_wellFormedFields wf (List.mem_filter.mp member).1⟩
  | .packed _ _ fields _, _, _, wf, ran => by
    cases ran
    intro f member
    obtain ⟨index, width, _, same⟩ := wf.2.2 f (List.mem_filter.mp member).1
    exact .inr ⟨_, _, _, same⟩
  | .flags _ _ fields _, _, _, wf, ran => by
    cases ran
    intro f member
    obtain ⟨index, mask, _, same⟩ := wf.2 f (List.mem_filter.mp member).1
    exact .inr ⟨_, _, _, same⟩
  | .merged parts, bound, _, wf, ran =>
    fieldShapes_of_storedFieldsOfParts ordered labels parts bound _ wf ran
  | .alias name inner, _, _, wf, ran =>
    fieldShapes_of_storedFieldsWith ordered labels inner _ _ (ordered.inner_alias wf.1) ran
  | .exported name inner, _, _, wf, ran =>
    fieldShapes_of_storedFieldsWith ordered labels inner _ _ (ordered.inner_exported wf.1) ran
  | .ref label, _, fields, wf, ran => labels label fields wf.1 ran
  | .prim _, _, _, _, ran | .optional _ _, _, _, _, ran | .list _ _, _, _, _, ran
  | .map _ _ _, _, _, _, ran | .enum _ _, _, _, _, ran | .union _ _ _ _, _, _, _, ran
  | .literal _ _, _, _, _, ran => by cases ran

theorem fieldShapes_of_storedFieldsOfParts (ordered : types.Ordered rank)
    (labels : ∀ label fields, label ∈ types.map (·.1) → fieldsOf label = .ok fields →
      ∀ f ∈ fields, IsFieldShape types rank f.shape) : ∀ (parts : List Shape) (bound : Nat)
    (fields : List Field), WellFormedParts types rank bound parts →
    storedFieldsOfParts types fieldsOf parts = .ok fields →
    ∀ f ∈ fields, IsFieldShape types rank f.shape
  | [], _, _, _, ran => by
    cases ran
    exact fun f member => nomatch member
  | s :: rest, bound, _, wf, ran => by
    simp only [storedFieldsOfParts, bind, Except.bind] at ran
    cases first : storedFieldsWith types fieldsOf s with
    | error e =>
      rw [first] at ran
      cases ran
    | ok front =>
      cases others : storedFieldsOfParts types fieldsOf rest with
      | error e =>
        rw [first, others] at ran
        cases ran
      | ok back =>
        rw [first, others] at ran
        cases ran
        intro f member
        rcases List.mem_append.mp member with early | later
        · exact fieldShapes_of_storedFieldsWith ordered labels s bound front wf.1 first f early
        · exact fieldShapes_of_storedFieldsOfParts ordered labels rest bound back wf.2 others f later

end

end StoredFields

/-- What a struct stores are shapes of fields. -/
theorem fieldShapes_of_storedFields (ordered : types.Ordered rank) {s : Shape} {fields : List Field}
    (wf : s.WellFormed types rank bound) (ran : s.storedFields types = .ok fields) :
    ∀ f ∈ fields, IsFieldShape types rank f.shape := by
  have all (fuel : Nat) : ∀ (s : Shape) (bound : Nat) (fields : List Field),
      s.WellFormed types rank bound →
      following types (storedFieldsWith types) (.error <| .unresolvedReference ·) fuel s =
        .ok fields → ∀ f ∈ fields, IsFieldShape types rank f.shape := by
    induction fuel with
    | zero => exact fieldShapes_of_storedFieldsWith ordered fun label fields _ ran => by cases ran
    | succ fuel ih =>
      refine fieldShapes_of_storedFieldsWith ordered fun label fields declared ran => ?_
      obtain ⟨target, _, found, _⟩ := ordered.target declared
      simp only [found] at ran
      exact ih target _ fields (ordered.wellFormed_target found) ran
  exact all types.length s bound fields wf ran

end Shape

end WireSchema
