import Mathlib.Data.List.Forall2
import WireSchema.Proofs.Layout.WellFormed
import WireSchema.Proofs.Shape.Unfolding

/-!
# Shapes that stand for the same

Two tables may hold the same types with references in different places. Shapes of the two tables
correspond if they unfold to one shape. Layer by layer they are built alike, except that either may
have a reference where the other has the shape behind it.
-/

namespace WireSchema

/-- Ordered types whose references stand for the given targets. -/
structure Refs.Solves (target : String → Shape) (rank : String → Nat) (types : Refs) : Prop where
  ordered : types.Ordered rank
  targets : ∀ entry ∈ types, entry.2.unfoldWith target = target entry.1

namespace Shape

section

variable (target : String → Shape) (types types' : Refs) (rank rank' : String → Nat) (bound : Nat)

/-- Shapes of two tables that unfold to one shape. -/
structure Corresponds (s s' : Shape) : Prop where
  left : s.WellFormed types rank bound
  right : ∃ bound', s'.WellFormed types' rank' bound'
  same : s.unfoldWith target = s'.unfoldWith target

/-- The slots are the same, but for the numbers of their groups. -/
def SameSlot (group group' : Nat) (f f' : Field) : Prop :=
  f.name = f'.name ∧ ∃ index kind, f.shape = .slot group index kind ∧
    f'.shape = .slot group' index kind

/-- The variants have one key and payloads that are related structs. -/
def SameVariant (R : Shape → Shape → Prop) (v v' : String × Shape) : Prop :=
  v.1 = v'.1 ∧ R v.2 v'.2 ∧ ∃ fields fields', v.2 = .struct fields ∧ v'.2 = .struct fields'

end

/-- The outermost layer of shapes whose parts are related by `R`; the ranks of exported types are
below the bound. -/
inductive Layer (types types' : Refs) (rank : String → Nat) (bound : Nat)
    (R : Shape → Shape → Prop) : Shape → Shape → Prop where
  | left {label : String} {t s' : Shape} (found : types.lookup label = some t) (inner : R t s') :
      Layer types types' rank bound R (.ref label) s'
  | right {label : String} {s t' : Shape} (found : types'.lookup label = some t')
      (inner : R s t') : Layer types types' rank bound R s (.ref label)
  | prim (p : Primitive) : Layer types types' rank bound R (.prim p) (.prim p)
  | optional {value value' : Shape} (inner : R value value') : Layer types types' rank bound R
      (.optional value (.prim .bool)) (.optional value' (.prim .bool))
  | list {item item' : Shape} {length : Primitive} (inner : R item item') :
      Layer types types' rank bound R (.list item length) (.list item' length)
  | map {key key' value value' : Shape} {length : Primitive} (first : R key key')
      (second : R value value') :
      Layer types types' rank bound R (.map key value length) (.map key' value' length)
  | struct {fields fields' : List Field}
      (each : List.Forall₂ (fun f f' => f.name = f'.name ∧ R f.shape f'.shape) fields fields') :
      Layer types types' rank bound R (.struct fields) (.struct fields')
  | merged {parts parts' : List Shape} (each : List.Forall₂ R parts parts') :
      Layer types types' rank bound R (.merged parts) (.merged parts')
  | enum {backing : Primitive} {entries : List (String × Int)}
      (idents : ∀ entry ∈ entries, IsIdent entry.1) :
      Layer types types' rank bound R (.enum backing entries) (.enum backing entries)
  | union {tagField : String} {tag tag' : Shape} {variants variants' : List (String × Shape)}
      {tags : List (String × Literal)} (ofTag : R tag tag')
      (each : List.Forall₂ (SameVariant R) variants variants') :
      Layer types types' rank bound R (.union tagField tag variants tags)
        (.union tagField tag' variants' tags)
  | packed {backing : Primitive} {widths : List Nat} {fields fields' : List Field}
      {group group' : Nat} (each : List.Forall₂ (SameSlot group group') fields fields') :
      Layer types types' rank bound R (.packed backing widths fields group)
        (.packed backing widths fields' group')
  | flags {backing : Primitive} {masks : List (String × Int)} {fields fields' : List Field}
      {group group' : Nat} (each : List.Forall₂ (SameSlot group group') fields fields') :
      Layer types types' rank bound R (.flags backing masks fields group)
        (.flags backing masks fields' group')
  | alias {name : String} {inner inner' : Shape} (inside : R inner inner') :
      Layer types types' rank bound R (.alias name inner) (.alias name inner')
  | exported {name : String} {inner inner' : Shape} (member : (name, .exported name inner) ∈ types)
      (below : rank name < bound) (inside : R inner inner') :
      Layer types types' rank bound R (.exported name inner) (.exported name inner')
  | literal (value : Literal) (backing : Option Primitive) :
      Layer types types' rank bound R (.literal value backing) (.literal value backing)

variable {target : String → Shape} {types types' : Refs} {rank rank' : String → Nat} {bound : Nat}

theorem forall₂_fields : ∀ {fields fields' : List Field} {bound' : Nat},
    WellFormedFields types rank bound fields → WellFormedFields types' rank' bound' fields' →
    unfoldFields target fields = unfoldFields target fields' →
    List.Forall₂ (fun f f' => f.name = f'.name ∧
      Corresponds target types types' rank rank' bound f.shape f'.shape) fields fields'
  | [], [], _, _, _, _ => .nil
  | [], _ :: _, _, _, _, same => by cases same
  | _ :: _, [], _, _, _, same => by cases same
  | f :: rest, f' :: rest', bound', wf, wf', same => by
    obtain ⟨first, others⟩ := List.cons.inj same
    obtain ⟨name, shape, _⟩ := Member.mk.inj first
    exact .cons ⟨name, wf.1, ⟨_, wf'.1⟩, shape⟩ (forall₂_fields wf.2 wf'.2 others)

theorem forall₂_parts : ∀ {parts parts' : List Shape} {bound' : Nat},
    WellFormedParts types rank bound parts → WellFormedParts types' rank' bound' parts' →
    unfoldParts target parts = unfoldParts target parts' →
    List.Forall₂ (Corresponds target types types' rank rank' bound) parts parts'
  | [], [], _, _, _, _ => .nil
  | [], _ :: _, _, _, _, same => by cases same
  | _ :: _, [], _, _, _, same => by cases same
  | _ :: rest, _ :: rest', _, wf, wf', same => by
    obtain ⟨shape, others⟩ := List.cons.inj same
    exact .cons ⟨wf.1, ⟨_, wf'.1⟩, shape⟩ (forall₂_parts wf.2 wf'.2 others)

theorem forall₂_variants : ∀ {variants variants' : List (String × Shape)} {bound' : Nat},
    WellFormedVariants types rank bound variants →
    WellFormedVariants types' rank' bound' variants' →
    unfoldVariants target variants = unfoldVariants target variants' →
    List.Forall₂ (SameVariant (Corresponds target types types' rank rank' bound)) variants
      variants'
  | [], [], _, _, _, _ => .nil
  | [], _ :: _, _, _, _, same => by cases same
  | _ :: _, [], _, _, _, same => by cases same
  | (_, _) :: rest, (_, _) :: rest', _, wf, wf', same => by
    obtain ⟨first, others⟩ := List.cons.inj same
    obtain ⟨key, shape⟩ := Prod.mk.inj first
    obtain ⟨⟨fields, struct⟩, inner, later⟩ := wf
    obtain ⟨⟨fields', struct'⟩, inner', later'⟩ := wf'
    exact .cons ⟨key, ⟨inner, ⟨_, inner'⟩, shape⟩, fields, fields', struct, struct'⟩
      (forall₂_variants later later' others)

theorem forall₂_slots {group group' : Nat} : ∀ {fields fields' : List Field},
    (∀ f ∈ fields, ∃ index kind, f.shape = .slot group index kind) →
    (∀ f ∈ fields', ∃ index kind, f.shape = .slot group' index kind) →
    unfoldFields target fields = unfoldFields target fields' →
    List.Forall₂ (SameSlot group group') fields fields'
  | [], [], _, _, _ => .nil
  | [], _ :: _, _, _, same => by cases same
  | _ :: _, [], _, _, same => by cases same
  | f :: rest, f' :: rest', slots, slots', same => by
    obtain ⟨first, others⟩ := List.cons.inj same
    obtain ⟨name, shape, _⟩ := Member.mk.inj first
    obtain ⟨index, kind, isSlot⟩ := slots f (List.mem_cons_self ..)
    obtain ⟨index', kind', isSlot'⟩ := slots' f' (List.mem_cons_self ..)
    rw [isSlot, isSlot'] at shape
    cases shape
    refine .cons ⟨name, index, kind, isSlot, isSlot'⟩ (forall₂_slots ?_ ?_ others)
    · exact fun f member => slots f (List.mem_cons_of_mem _ member)
    · exact fun f member => slots' f (List.mem_cons_of_mem _ member)

theorem IsPackedField.slot {backing : Primitive} {widths : List Nat} {group : Nat} {f : Field}
    (is : IsPackedField backing widths group f) :
    ∃ index kind, f.shape = .slot group index kind := by
  obtain ⟨index, width, _, same⟩ := is
  exact ⟨index, _, same⟩

theorem IsFlagField.slot {backing : Primitive} {masks : List (String × Int)} {group : Nat}
    {f : Field} (is : IsFlagField backing masks group f) :
    ∃ index kind, f.shape = .slot group index kind := by
  obtain ⟨index, mask, _, same⟩ := is
  exact ⟨index, _, same⟩

namespace Corresponds

variable {s s' : Shape}

/-- A reference corresponds to a shape like the shape behind it. -/
theorem behind (solves : types.Solves target rank) {label : String}
    (corresponds : Corresponds target types types' rank rank' bound (.ref label) s') :
    ∃ t, types.lookup label = some t ∧ Corresponds target types types' rank rank' bound t s' := by
  obtain ⟨⟨declared, below⟩, right, same⟩ := corresponds
  obtain ⟨t, inner, found, member, form, _, _⟩ := solves.ordered.target declared
  have behind := solves.targets _ member
  refine ⟨t, found, ?_, right, ?_⟩
  · rcases form with rfl | rfl
    · exact ⟨member, below⟩
    · exact ⟨member, below⟩
  · exact behind.trans same

theorem behind' (solves' : types'.Solves target rank') {label : String}
    (corresponds : Corresponds target types types' rank rank' bound s (.ref label)) :
    ∃ t', types'.lookup label = some t' ∧
      Corresponds target types types' rank rank' bound s t' := by
  obtain ⟨left, ⟨bound', declared, below⟩, same⟩ := corresponds
  obtain ⟨t, inner, found, member, form, _, _⟩ := solves'.ordered.target declared
  have behind := solves'.targets _ member
  refine ⟨t, found, left, ⟨bound', ?_⟩, ?_⟩
  · rcases form with rfl | rfl
    · exact ⟨member, below⟩
    · exact ⟨member, below⟩
  · exact same.trans behind.symm

/-- The case of `layer` in which the first shape is no reference. -/
theorem layer_direct (solves : types.Solves target rank) (solves' : types'.Solves target rank')
    (corresponds : Corresponds target types types' rank rank' bound s s')
    (direct : ∀ label, s ≠ .ref label) :
    Layer types types' rank bound (Corresponds target types types' rank rank' bound) s s' := by
  cases s' with
  | ref label =>
    obtain ⟨t', found, inner⟩ := corresponds.behind' solves'
    exact .right found inner
  | prim p =>
    cases s with
    | prim p =>
      cases corresponds.same
      exact .prim p
    | _ => first | cases corresponds.same | exact absurd rfl (direct _)
  | optional value' presence' =>
    cases s with
    | optional value presence =>
      obtain ⟨⟨rfl, wf⟩, ⟨bound', rfl, wf'⟩, same⟩ := corresponds
      exact .optional ⟨wf, ⟨bound', wf'⟩, (Shape.optional.inj same).1⟩
    | _ => first | cases corresponds.same | exact absurd rfl (direct _)
  | list item' length' =>
    cases s with
    | list item length =>
      obtain ⟨wf, ⟨bound', wf'⟩, same⟩ := corresponds
      obtain ⟨inner, rfl⟩ := Shape.list.inj same
      exact .list ⟨wf, ⟨bound', wf'⟩, inner⟩
    | _ => first | cases corresponds.same | exact absurd rfl (direct _)
  | map key' value' length' =>
    cases s with
    | map key value length =>
      obtain ⟨wf, ⟨bound', wf'⟩, same⟩ := corresponds
      obtain ⟨first, second, rfl⟩ := Shape.map.inj same
      exact .map ⟨wf.1, ⟨bound', wf'.1⟩, first⟩ ⟨wf.2, ⟨bound', wf'.2⟩, second⟩
    | _ => first | cases corresponds.same | exact absurd rfl (direct _)
  | struct fields' =>
    cases s with
    | struct fields =>
      obtain ⟨wf, ⟨bound', wf'⟩, same⟩ := corresponds
      exact .struct (forall₂_fields wf wf' (Shape.struct.inj same))
    | _ => first | cases corresponds.same | exact absurd rfl (direct _)
  | merged parts' =>
    cases s with
    | merged parts =>
      obtain ⟨wf, ⟨bound', wf'⟩, same⟩ := corresponds
      exact .merged (forall₂_parts wf wf' (Shape.merged.inj same))
    | _ => first | cases corresponds.same | exact absurd rfl (direct _)
  | enum backing' entries' =>
    cases s with
    | enum backing entries =>
      obtain ⟨wf, _, same⟩ := corresponds
      cases same
      exact .enum wf.2
    | _ => first | cases corresponds.same | exact absurd rfl (direct _)
  | union tagField' tag' variants' tags' =>
    cases s with
    | union tagField tag variants tags =>
      obtain ⟨wf, ⟨bound', wf'⟩, same⟩ := corresponds
      obtain ⟨rfl, ofTag, ofVariants, rfl⟩ := Shape.union.inj same
      exact .union ⟨wf.1, ⟨bound', wf'.1⟩, ofTag⟩ (forall₂_variants wf.2.2 wf'.2.2 ofVariants)
    | _ => first | cases corresponds.same | exact absurd rfl (direct _)
  | packed backing' widths' fields' group' =>
    cases s with
    | packed backing widths fields group =>
      obtain ⟨wf, ⟨bound', wf'⟩, same⟩ := corresponds
      obtain ⟨rfl, rfl, ofFields, _⟩ := Shape.packed.inj same
      exact .packed (forall₂_slots (fun f member => (wf.2.2 f member).slot)
        (fun f member => (wf'.2.2 f member).slot) ofFields)
    | _ => first | cases corresponds.same | exact absurd rfl (direct _)
  | flags backing' masks' fields' group' =>
    cases s with
    | flags backing masks fields group =>
      obtain ⟨wf, ⟨bound', wf'⟩, same⟩ := corresponds
      obtain ⟨rfl, rfl, ofFields, _⟩ := Shape.flags.inj same
      exact .flags (forall₂_slots (fun f member => (wf.2 f member).slot)
        (fun f member => (wf'.2 f member).slot) ofFields)
    | _ => first | cases corresponds.same | exact absurd rfl (direct _)
  | «alias» name' inner' =>
    cases s with
    | «alias» name inner =>
      obtain ⟨⟨member, below⟩, ⟨bound', member', _⟩, same⟩ := corresponds
      obtain ⟨rfl, inside⟩ := Shape.alias.inj same
      have wf := (solves.ordered.inner_alias member).mono (Nat.le_of_lt below)
      exact .alias ⟨wf, ⟨_, solves'.ordered.inner_alias member'⟩, inside⟩
    | _ => first | cases corresponds.same | exact absurd rfl (direct _)
  | exported name' inner' =>
    cases s with
    | exported name inner =>
      obtain ⟨⟨member, below⟩, ⟨bound', member', _⟩, same⟩ := corresponds
      obtain ⟨rfl, inside⟩ := Shape.exported.inj same
      have wf := (solves.ordered.inner_exported member).mono (Nat.le_of_lt below)
      exact .exported member below ⟨wf, ⟨_, solves'.ordered.inner_exported member'⟩, inside⟩
    | _ => first | cases corresponds.same | exact absurd rfl (direct _)
  | literal value' backing' =>
    cases s with
    | literal value backing =>
      cases corresponds.same
      exact .literal _ _
    | _ => first | cases corresponds.same | exact absurd rfl (direct _)
  | slot | custom | transformed =>
    obtain ⟨_, wf⟩ := corresponds.right
    exact wf.elim

/-- Corresponding shapes are built alike. -/
theorem layer (solves : types.Solves target rank) (solves' : types'.Solves target rank')
    (corresponds : Corresponds target types types' rank rank' bound s s') :
    Layer types types' rank bound (Corresponds target types types' rank rank' bound) s s' := by
  cases s with
  | ref label =>
    obtain ⟨t, found, inner⟩ := corresponds.behind solves
    exact .left found inner
  | _ => exact corresponds.layer_direct solves solves' fun _ same => by cases same

end Corresponds

/-! ### Resolution -/

/-- The shape behind aliases. -/
def stripped : Shape → Shape
  | .alias _ inner | .exported _ inner => stripped inner
  | s => s

theorem stripped_direct {s : Shape} (direct : s.IsDirect) :
    (s.unfoldWith target).stripped = s.unfoldWith target := by
  cases s <;> first | rfl | exact direct.elim

/-- Resolution goes behind the aliases of the unfolded shape. -/
theorem Resolves.unfold (solves : types.Solves target rank) {s t : Shape}
    (resolves : Resolves types s t) : (s.unfoldWith target).stripped = t.unfoldWith target := by
  induction resolves with
  | direct direct => exact stripped_direct direct
  | «alias» _ ih | exported _ ih => exact ih
  | ref found _ ih =>
    rw [← ih, solves.targets _ (mem_of_lookup found)]
    rfl

namespace Corresponds

variable {s s' t t' : Shape}

theorem resolved (solves : types.Solves target rank) (solves' : types'.Solves target rank')
    (corresponds : Corresponds target types types' rank rank' bound s s')
    (ran : s.resolved types = .ok t) (ran' : s'.resolved types' = .ok t') :
    Corresponds target types types' rank rank' bound t t' := by
  obtain ⟨wf, ⟨bound', wf'⟩, same⟩ := corresponds
  have resolves := resolves_of_resolved ran
  have resolves' := resolves_of_resolved ran'
  refine ⟨resolves.wellFormed solves.ordered wf, ⟨bound', resolves'.wellFormed solves'.ordered wf'⟩, ?_⟩
  rw [← resolves.unfold solves, same, resolves'.unfold solves']

theorem resolved_left (solves : types.Solves target rank)
    (corresponds : Corresponds target types types' rank rank' bound s s')
    (ran : s.resolved types = .ok t) (direct : s'.IsDirect) :
    Corresponds target types types' rank rank' bound t s' := by
  obtain ⟨wf, right, same⟩ := corresponds
  have resolves := resolves_of_resolved ran
  refine ⟨resolves.wellFormed solves.ordered wf, right, ?_⟩
  rw [← resolves.unfold solves, same, stripped_direct direct]

theorem resolved_right (solves' : types'.Solves target rank')
    (corresponds : Corresponds target types types' rank rank' bound s s')
    (direct : s.IsDirect) (ran : s'.resolved types' = .ok t') :
    Corresponds target types types' rank rank' bound s t' := by
  obtain ⟨left, ⟨bound', wf'⟩, same⟩ := corresponds
  have resolves' := resolves_of_resolved ran
  refine ⟨left, ⟨bound', resolves'.wellFormed solves'.ordered wf'⟩, ?_⟩
  rw [← resolves'.unfold solves', ← same, stripped_direct direct]

end Corresponds

/-! ### Stored fields -/

theorem isStored_unfold (solves : types.Solves target rank) {s : Shape}
    (wf : s.WellFormed types rank bound) : (s.unfoldWith target).isStored = s.isStored := by
  cases s with
  | ref label =>
    obtain ⟨t, inner, found, member, form, _, _⟩ := solves.ordered.target wf.1
    have behind := solves.targets _ member
    rw [unfoldWith, ← behind]
    rcases form with rfl | rfl <;> rfl
  | _ => rfl

theorem Corresponds.isStored (solves : types.Solves target rank)
    (solves' : types'.Solves target rank') {s s' : Shape}
    (corresponds : Corresponds target types types' rank rank' bound s s') :
    s.isStored = s'.isStored := by
  obtain ⟨wf, ⟨_, wf'⟩, same⟩ := corresponds
  rw [← isStored_unfold solves wf, same, isStored_unfold solves' wf']

theorem storedFields_struct (refs : Refs) (fields : List Field) :
    (Shape.struct fields).storedFields refs = .ok (fields.filter (·.shape.isStored)) := by
  unfold storedFields
  cases refs.length <;> rfl

/-- The stored fields among corresponding ones. -/
theorem Corresponds.stored (solves : types.Solves target rank)
    (solves' : types'.Solves target rank') {fields fields' : List Field}
    (each : List.Forall₂ (fun f f' => f.name = f'.name ∧
      Corresponds target types types' rank rank' bound f.shape f'.shape) fields fields') :
    List.Forall₂ (fun f f' => f.name = f'.name ∧
      Corresponds target types types' rank rank' bound f.shape f'.shape)
      (fields.filter (·.shape.isStored)) (fields'.filter (·.shape.isStored)) := by
  induction each with
  | nil => exact .nil
  | cons first _ ih =>
    rw [List.filter_cons, List.filter_cons, first.2.isStored solves solves']
    split
    · exact .cons first ih
    · exact ih

/-- Corresponding payloads both have stored fields, or neither has. -/
theorem Corresponds.stored_isEmpty (solves : types.Solves target rank)
    (solves' : types'.Solves target rank') {fields fields' : List Field}
    (corresponds : Corresponds target types types' rank rank' bound (.struct fields)
      (.struct fields')) :
    (fields.filter (·.shape.isStored)).isEmpty = (fields'.filter (·.shape.isStored)).isEmpty := by
  cases corresponds.layer solves solves' with
  | struct each =>
    have paired := stored solves solves' each
    generalize fields.filter _ = left, fields'.filter _ = right at paired ⊢
    cases paired <;> rfl

end Shape

end WireSchema
