import Mathlib.Data.Finset.Card
import WireSchema.Proofs.Generation.Coupling
import WireSchema.Proofs.Machine.Renaming

/-!
# The code of schemas that stand for the same

The codecs and enumerations of two schemas that stand for the same belong together: an enumeration
goes by its canonical name, a codec by its base name. So the packets of one schema run like those of
the other.
-/

namespace WireSchema

open Ir Lowering

/-! ### Schemas that stand for the same -/

/-- The schemas have the same types and packets once references are followed. -/
structure Schema.Counterparts (target : String → Shape) (rank rank' : String → Nat)
    (s s' : Schema) : Prop where
  wf : s.WellFormed rank
  wf' : s'.WellFormed rank'
  targets : ∀ entry ∈ s.refs, entry.2.unfoldWith target = target entry.1
  targets' : ∀ entry ∈ s'.refs, entry.2.unfoldWith target = target entry.1
  names : ∀ name, name ∈ s.refs.map (·.1) ↔ name ∈ s'.refs.map (·.1)
  protocols : s.SameProtocols target s'

namespace Schema.Counterparts

variable {target : String → Shape} {rank rank' : String → Nat} {s s' : Schema}

theorem symm (pair : Counterparts target rank rank' s s') :
    Counterparts target rank' rank s' s where
  wf := pair.wf'
  wf' := pair.wf
  targets := pair.targets'
  targets' := pair.targets
  names name := (pair.names name).symm
  protocols := pair.protocols.symm

theorem solves (pair : Counterparts target rank rank' s s') : s.refs.Solves target rank :=
  ⟨pair.wf.ordered, pair.targets⟩

theorem solves' (pair : Counterparts target rank rank' s s') : s'.refs.Solves target rank' :=
  ⟨pair.wf'.ordered, pair.targets'⟩

/-- An exported type is exported by both schemas, as the same. -/
theorem exported (pair : Counterparts target rank rank' s s') {name : String} {inner : Shape}
    (member : (name, .exported name inner) ∈ s.refs) :
    ∃ inner', (name, .exported name inner') ∈ s'.refs ∧
      inner.unfoldWith target = inner'.unfoldWith target := by
  have named : name ∈ s.refs.map (·.1) := List.mem_map.mpr ⟨_, member, rfl⟩
  obtain ⟨t, inner', _, member', form, _⟩ := pair.wf'.ordered.target ((pair.names name).mp named)
  have here := pair.targets _ member
  have there := pair.targets' _ member'
  have same := here.trans there.symm
  rcases form with rfl | rfl
  · cases same
  · exact ⟨inner', member', (Shape.exported.inj same).2⟩

theorem separate' (pair : Counterparts target rank rank' s s') (separate : s.refs.Separate) :
    s'.refs.Separate := by
  constructor
  case bases =>
    intro name name' inner inner' member member' same
    obtain ⟨_, other, _⟩ := pair.symm.exported member
    obtain ⟨_, other', _⟩ := pair.symm.exported member'
    exact separate.bases other other' same
  case apart =>
    intro name inner member clash
    obtain ⟨_, other, _⟩ := pair.symm.exported member
    exact separate.apart other ((pair.names _).mpr clash)

end Schema.Counterparts

/-! ### Levels of codecs -/

def Shape.isExported : Shape → Bool
  | .exported _ _ => true
  | _ => false

/-- The names of the exported types. -/
def Refs.exportedNames (types : Refs) : Finset String :=
  ((types.filter (·.2.isExported)).map (·.1)).toFinset

/-- The number of exported types of lower rank. -/
def Refs.level (types : Refs) (rank : String → Nat) (name : String) : Nat :=
  (types.exportedNames.filter fun other => rank other < rank name).card

/-- The codec is that of an exported type below a level. -/
def Refs.Callable (types : Refs) (rank : String → Nat) (bound : Nat) (codec : String) : Prop :=
  ∃ name ∈ types.exportedNames, codecBase name = codec ∧ types.level rank name < bound

instance (types : Refs) (rank : String → Nat) (bound : Nat) (codec : String) :
    Decidable (types.Callable rank bound codec) := by
  unfold Refs.Callable
  infer_instance

section

variable {types : Refs} {rank : String → Nat}

theorem Refs.mem_exportedNames (ordered : types.Ordered rank) {name : String} :
    name ∈ types.exportedNames ↔ ∃ inner, (name, .exported name inner) ∈ types := by
  simp only [exportedNames, List.mem_toFinset, List.mem_map, List.mem_filter]
  constructor
  · rintro ⟨⟨label, s⟩, ⟨member, is⟩, rfl⟩
    obtain ⟨inner, form, _⟩ := ordered.shapes _ member
    dsimp only at form is ⊢
    rcases form with rfl | rfl
    · cases is
    · exact ⟨inner, member⟩
  · rintro ⟨inner, member⟩
    exact ⟨_, ⟨member, rfl⟩, rfl⟩

theorem Refs.level_lt {name other : String} (member : other ∈ types.exportedNames)
    (lower : rank other < rank name) : types.level rank other < types.level rank name := by
  refine Finset.card_lt_card (Finset.ssubset_iff_of_subset ?_ |>.mpr ⟨other, ?_, ?_⟩)
  · intro n below
    rw [Finset.mem_filter] at below ⊢
    exact ⟨below.1, below.2.trans lower⟩
  · exact Finset.mem_filter.mpr ⟨member, lower⟩
  · intro below
    exact Nat.lt_irrefl _ (Finset.mem_filter.mp below).2

theorem Refs.level_lt_card {name : String} (member : name ∈ types.exportedNames) :
    types.level rank name < types.exportedNames.card :=
  Finset.card_lt_card (Finset.filter_ssubset.mpr ⟨name, member, Nat.lt_irrefl _⟩)

/-- There are no fewer declarations than exported types, each of which has a codec. -/
theorem Registry.Complete.card_le {hooks : Hooks} {types' : Refs} {r : Registry}
    (complete : r.Complete hooks types') (ordered : types.Ordered rank) (separate : types.Separate)
    (exported : ∀ name inner, (name, .exported name inner) ∈ types →
      ∃ inner', (name, .exported name inner') ∈ types') :
    types.exportedNames.card ≤ r.finished.length := by
  have all : r.finished.length = (r.slots.map (·.1)).length := by
    rw [Registry.finished, List.length_map, List.filterMap_length_eq_length]
    rintro ⟨name, o⟩ member
    cases o with
    | none => exact absurd member (complete.finished name)
    | some d => rfl
  calc types.exportedNames.card
      _ ≤ (r.slots.map (·.1)).toFinset.card := by
        refine Finset.card_le_card_of_injOn (fun name => readerName (codecBase name)) ?_ ?_
        · intro name member
          obtain ⟨inner, is⟩ := (Refs.mem_exportedNames ordered).mp member
          obtain ⟨inner', is'⟩ := exported name inner is
          rw [Finset.mem_coe, List.mem_toFinset]
          exact Registry.isDeclared_iff.mp (complete.codecs name inner' is')
        · intro name member name' member' same
          obtain ⟨_, is⟩ := (Refs.mem_exportedNames ordered).mp member
          obtain ⟨_, is'⟩ := (Refs.mem_exportedNames ordered).mp member'
          exact separate.bases is is' (readerName_unique same)
      _ ≤ (r.slots.map (·.1)).length := List.toFinset_card_le _
      _ = r.finished.length := all.symm

end

/-! ### Labels -/

/-- A label, or a mark where there is none. -/
def labelOr (mark : String) : Option String → String
  | some label => "=" ++ label
  | none => mark

/-- Under different marks only labels are equal. -/
theorem labelOr_eq {a b : Option String} (same : labelOr "<" a = labelOr ">" b) :
    ∃ label, a = some label ∧ b = some label := by
  have apart (label mark : String) (head : mark.toList.head? ≠ some '=') : "=" ++ label ≠ mark := by
    rintro rfl
    rw [String.toList_append] at head
    exact head rfl
  cases a with
  | none =>
    cases b with
    | none => exact absurd same (by decide)
    | some label => exact absurd same.symm (apart label "<" (by decide))
  | some label =>
    cases b with
    | none => exact absurd same (apart label ">" (by decide))
    | some label' =>
      have labels : label = label' := (String.append_right_inj _).mp same
      exact ⟨label, rfl, congrArg some labels.symm⟩

open Classical in
/-- The canonical name of the enumeration that is declared under a name. -/
noncomputable def Generated.enumLabel? (g : Generated) (type : String) : Option String :=
  match g.decl? type with
  | some (.enum d) =>
    if d.backing.isInteger = true ∧ ∀ entry ∈ d.entries, IsIdent entry.1 then
      some ((Shape.enum d.backing d.entries).canonicalName [])
    else none
  | _ => none

/-- The names of enumerations and of the codecs below a level, where a mark stands for others. -/
noncomputable def Generated.reading (g : Generated) (types : Refs) (rank : String → Nat)
    (mark : String) (bound : Nat) : Renaming where
  enum type := labelOr mark (g.enumLabel? type)
  codec codec := labelOr mark (if types.Callable rank bound codec then some codec else none)

/-- A label tells the enumeration. -/
theorem Generated.enumLabel?_some {g : Generated} {type label : String}
    (labelled : g.enumLabel? type = some label) : ∃ d : EnumDecl, g.decl? type = some (.enum d) ∧
      Registry.IsEnumSignature [] d.backing d.entries label := by
  unfold enumLabel? at labelled
  split at labelled
  · next d found =>
    split at labelled
    · next conditions =>
      cases labelled
      exact ⟨d, found, conditions.1, conditions.2, rfl⟩
    · cases labelled
  · cases labelled

theorem Generated.enumLabel?_of_decl {g : Generated} {type : String} {d : EnumDecl}
    {signature : String} (declared : g.decl? type = some (.enum d))
    (is : Registry.IsEnumSignature [] d.backing d.entries signature) :
    g.enumLabel? type = some signature := by
  rw [enumLabel?, declared]
  dsimp only
  rw [if_pos ⟨is.1, is.2.1⟩, is.2.2]

theorem Generated.enumOf_of_decl {g : Generated} {type : String} {d : EnumDecl}
    (declared : g.decl? type = some (.enum d)) : Run.enumOf g type = pure d := by
  rw [Run.enumOf, Run.enumeration, declared]

/-! ### The code of both schemas -/

/-- Counterparts with their code, and the registries that it was left in. -/
structure Schema.Generation (hooks : Hooks) (target : String → Shape) (rank rank' : String → Nat)
    (s s' : Schema) (r r' : Registry) (g g' : Generated) : Prop where
  pair : Counterparts target rank rank' s s'
  separate : s.refs.Separate
  complete : r.Complete hooks s.refs
  complete' : r'.Complete hooks s'.refs
  finished : g.types = r.finished
  finished' : g'.types = r'.finished
  functions : g.functions = r.functions
  functions' : g'.functions = r'.functions

namespace Schema.Generation

variable {hooks : Hooks} {target : String → Shape} {rank rank' : String → Nat} {s s' : Schema}
  {r r' : Registry} {g g' : Generated}

/-- The types side by side, where the codecs below a level may be called. -/
def sides (generation : Generation hooks target rank rank' s s' r r' g g') (bound level : Nat)
    (calls : ∀ name inner, (name, .exported name inner) ∈ s.refs → rank name < bound →
      s.refs.level rank name < level) : Sides where
  target := target
  types := s.refs
  types' := s'.refs
  rank := rank
  rank' := rank'
  bound := bound
  may := s.refs.Callable rank level
  solves := generation.pair.solves
  solves' := generation.pair.solves'
  separate := generation.separate
  separate' := generation.pair.separate' generation.separate
  calls name inner member below :=
    ⟨name, (Refs.mem_exportedNames generation.pair.wf.ordered).mpr ⟨inner, member⟩, rfl,
      calls name inner member below⟩

/-- The labels belong together as the registries say. -/
theorem admits (generation : Generation hooks target rank rank' s s' r r' g g') (level : Nat) :
    World.Admits (s.refs.Callable rank level) ⟨r, r'⟩ (g.reading s.refs rank "<" level)
      (g'.reading s.refs rank ">" level) := by
  constructor
  case codecs =>
    intro codec callable
    simp only [Generated.reading, if_pos callable, labelOr]
  case enums =>
    intro backing entries signature name name' is known known'
    have inTypes (types : Refs) : Registry.IsEnumSignature types backing entries signature := by
      refine ⟨is.1, is.2.1, ?_⟩
      rw [Shape.canonicalName_enum]
      exact is.2.2
    have declared := generation.complete.decl generation.finished (inTypes _) known
    have declared' := generation.complete'.decl generation.finished' (inTypes _) known'
    simp only [Generated.reading, Generated.enumLabel?_of_decl declared is,
      Generated.enumLabel?_of_decl declared' is, labelOr]

/-- The codecs of an exported type are equal up to names, and their own calls have lower levels. -/
theorem codecs (generation : Generation hooks target rank rank' s s' r r' g g') {name : String}
    (member : name ∈ s.refs.exportedNames) : ∃ c c' : CodecDecl,
      g.codec? (codecBase name) = some c ∧ g'.codec? (codecBase name) = some c' ∧
      c'.value = c.value ∧
      c.decode.rename (g.reading s.refs rank "<" (s.refs.level rank name)) =
        c'.decode.rename (g'.reading s.refs rank ">" (s.refs.level rank name)) ∧
      Stmt.renameBlock (g.reading s.refs rank "<" (s.refs.level rank name)) c.encode =
        Stmt.renameBlock (g'.reading s.refs rank ">" (s.refs.level rank name)) c'.encode := by
  have ordered := generation.pair.wf.ordered
  have ordered' := generation.pair.wf'.ordered
  have separate' := generation.pair.separate' generation.separate
  obtain ⟨inner, is⟩ := (Refs.mem_exportedNames ordered).mp member
  obtain ⟨inner', is', same⟩ := generation.pair.exported is
  obtain ⟨c, found, makes⟩ :=
    generation.complete.codec ordered generation.separate generation.finished is
  obtain ⟨c', found', makes'⟩ :=
    generation.complete'.codec ordered' separate' generation.finished' is'
  let S := generation.sides (rank name) (s.refs.level rank name) fun other _ exported lower =>
    Refs.level_lt ((Refs.mem_exportedNames ordered).mpr ⟨_, exported⟩) lower
  have corresponds : S.Corresponds inner inner' :=
    ⟨ordered.inner_exported is, ⟨_, ordered'.inner_exported is'⟩, same⟩
  obtain ⟨value, decodes, encodes⟩ := Sides.alike_codec S makes makes' corresponds
  have admits := generation.admits (s.refs.level rank name)
  exact ⟨c, c', found, found', value, decodes _ _ admits, encodes _ _ admits⟩

/-- Both modules of code read names alike. -/
noncomputable def twins (generation : Generation hooks target rank rank' s s' r r' g g') :
    g.Twins g' where
  left := g.reading s.refs rank "<"
  right := g'.reading s.refs rank ">"
  height := s.refs.exportedNames.card
  functions := by
    rw [generation.functions, generation.functions', generation.complete.functions,
      generation.complete'.functions]
  enums := by
    intro bound type type' same
    obtain ⟨label, here, there⟩ := labelOr_eq same
    obtain ⟨d, declared, is⟩ := Generated.enumLabel?_some here
    obtain ⟨d', declared', is'⟩ := Generated.enumLabel?_some there
    obtain ⟨backing, entries⟩ := Shape.canonicalName_enum_unique is.1 is'.1 is.2.1 is'.2.1
      (is.2.2.symm.trans is'.2.2)
    exact ⟨d, d', Generated.enumOf_of_decl declared, Generated.enumOf_of_decl declared', entries,
      backing⟩
  codecs := by
    intro bound codec codec' same
    obtain ⟨label, here, there⟩ := labelOr_eq same
    split at here
    · next callable =>
      split at there
      · cases here
        cases there
        obtain ⟨name, member, rfl, lower⟩ := callable
        exact ⟨rfl, s.refs.level rank name, lower, generation.codecs member⟩
      · cases there
    · cases here
  room := by
    have ordered := generation.pair.wf.ordered
    rw [generation.finished, generation.finished']
    refine ⟨generation.complete.card_le ordered generation.separate ?_,
      generation.complete'.card_le ordered generation.separate ?_⟩
    · exact fun name inner member => ⟨inner, member⟩
    · intro name inner member
      obtain ⟨inner', member', _⟩ := generation.pair.exported member
      exact ⟨inner', member'⟩

end Schema.Generation

end WireSchema
