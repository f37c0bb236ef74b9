import WireSchema.Proofs.Elision.Constructions
import WireSchema.Proofs.Session.Growth
import WireSchema.Proofs.Session.Quiet
import WireSchema.Proofs.Session.Spelling

/-!
# Where declarations come from

A registry is faithful if every declaration under a canonical name has the members of the shapes with
that name. It stays faithful when a declaration is begun and when it is finished: a name is given to
one key only, since names are free when they are given.
-/

namespace WireSchema

open Ir

variable {types : Refs} {rank : String → Nat}

/-! ### Fields behind references -/

namespace Shape

variable {s t : Shape}

theorem storedFields_resolved (ranked : types.Ranked rank) (ran : s.resolved types = .ok t) :
    s.storedFields types = t.storedFields types := by
  have resolves := resolves_of_resolved ran
  clear ran
  induction resolves with
  | direct => rfl
  | «alias» _ ih => rw [storedFields_inner ranked (.inl rfl), ih]
  | exported _ ih => rw [storedFields_inner ranked (.inr rfl), ih]
  | ref found _ ih => rw [storedFields_ref ranked found, ih]

theorem head_union (refs : Refs) (tagField : String) (tag : Shape) (variants : List (String × Shape))
    (tags : List (String × Literal)) :
    head ((Shape.union tagField tag variants tags).canonicalName refs) =
      ("Union".toList, some '<') := by
  obtain ⟨nameOf, same⟩ := canonicalName_eq refs (.union tagField tag variants tags)
  rw [same]
  simp only [nameWith, String.append_assoc]
  exact head_append "Union".toList '<' rfl (by decide) (by decide) _

variable (types) in
/-- The struct stores the field, or one of the structs merged in it does. -/
inductive Stores : Shape → Field → Prop
  | struct {fields : List Field} {f : Field} (member : f ∈ fields)
      (stored : f.shape.isStored = true) : Stores (.struct fields) f
  | packed {backing : Primitive} {widths : List Nat} {fields : List Field} {group : Nat} {f : Field}
      (member : f ∈ fields) (stored : f.shape.isStored = true) :
      Stores (.packed backing widths fields group) f
  | flags {backing : Primitive} {masks : List (String × Int)} {fields : List Field} {group : Nat}
      {f : Field} (member : f ∈ fields) (stored : f.shape.isStored = true) :
      Stores (.flags backing masks fields group) f
  | part {parts : List Shape} {part t : Shape} {f : Field} (member : part ∈ parts)
      (resolves : part.resolved types = .ok t) (stores : Stores t f) : Stores (.merged parts) f
  | behind {s t : Shape} {f : Field} (resolves : s.resolved types = .ok t) (stores : Stores t f) :
      Stores s f

theorem Stores.mem (ranked : types.Ranked rank) {f : Field} {fields : List Field}
    (stores : Stores types s f) (ran : s.storedFields types = .ok fields) : f ∈ fields := by
  induction stores generalizing fields with
  | struct member stored | packed member stored | flags member stored =>
    rw [storedFields_eq ranked] at ran
    cases ran
    exact List.mem_filter.mpr ⟨member, stored⟩
  | part member resolves _ ih =>
    obtain ⟨each, all, rfl⟩ := (storedFields_merged ranked).mp ran
    have swapped := List.Forall₂.flip
      (R := fun own (part : Shape) => part.storedFields types = .ok own) all
    obtain ⟨own, among, stored⟩ := exists_rel_of_mem swapped member
    rw [storedFields_resolved ranked resolves] at stored
    exact List.mem_flatten.mpr ⟨own, among, ih stored⟩
  | behind resolves _ ih =>
    rw [storedFields_resolved ranked resolves] at ran
    exact ih ran

end Shape

namespace Registry

variable {r r' r'' : Registry} {key name : String} {d : Decl}

/-! ### Registries that go on -/

/-- The second registry has the constants of the first, and others only under names that were free.
-/
structure Extends (r r' : Registry) : Prop where
  keeps : r.Keeps r'
  declared : ∀ name, r.isDeclared name = true → r'.isDeclared name = true
  fresh : ∀ key name, r'.constants.lookup key = some name →
    r.constants.lookup key = some name ∨ r.isDeclared name = false

theorem Extends.refl (r : Registry) : r.Extends r :=
  ⟨fun _ _ known => known, fun _ declared => declared, fun _ _ known => .inl known⟩

theorem Extends.trans (first : r.Extends r') (second : r'.Extends r'') : r.Extends r'' := by
  refine ⟨first.keeps.trans second.keeps, fun name declared => ?_, fun key name known => ?_⟩
  · exact second.declared name (first.declared name declared)
  · rcases second.fresh key name known with early | free
    · exact first.fresh key name early
    · refine .inr (Bool.eq_false_iff.mpr fun declared => ?_)
      rw [first.declared name declared] at free
      cases free

theorem extends_of_same (constants : r'.constants = r.constants)
    (names : r'.slots.map (·.1) = r.slots.map (·.1)) : r.Extends r' := by
  refine ⟨fun key name known => constants ▸ known, fun name declared => ?_,
    fun key name known => .inl (constants ▸ known)⟩
  rw [isDeclared_iff] at declared ⊢
  rwa [names]

theorem not_mem_of_free (free : r.isDeclared name = false) : name ∉ r.slots.map (·.1) := by
  rw [← isDeclared_iff, free]
  exact Bool.false_ne_true

theorem isDeclared_reserve : (r.reserve name).isDeclared name = true :=
  isDeclared_iff.mpr (by simp [reserve])

theorem extends_reserve (name : String) : r.Extends (r.reserve name) := by
  refine ⟨fun _ _ known => known, fun other declared => ?_, fun _ _ known => .inl known⟩
  rw [isDeclared_iff] at declared ⊢
  rw [reserve, List.map_append]
  exact List.mem_append_left _ declared

theorem extends_fill (name : String) (d : Decl) : r.Extends (r.fill name d) :=
  extends_of_same rfl (names_fill name d)

/-- A key has the name it had, or is the one that is added. -/
theorem lookup_addConstant {other called : String}
    (found : (r.addConstant key name).constants.lookup other = some called) :
    r.constants.lookup other = some called ∨ other = key ∧ called = name := by
  rw [addConstant, lookup_append] at found
  cases early : r.constants.lookup other with
  | some old =>
    rw [early] at found
    exact .inl found
  | none =>
    rw [early, Option.none_or, List.lookup_cons] at found
    split at found
    case h_1 same =>
      cases found
      exact .inr ⟨eq_of_beq same, rfl⟩
    case h_2 => cases found

/-- A key gets a name that is free. -/
theorem extends_constant (free : r.isDeclared name = false) :
    r.Extends ((r.addConstant key name).reserve name) := by
  suffices added : r.Extends (r.addConstant key name) from added.trans (extends_reserve name)
  constructor
  case keeps =>
    intro other known found
    rw [addConstant, lookup_append, found, Option.some_or]
  case declared => exact fun _ declared => declared
  case fresh =>
    intro other called found
    rcases lookup_addConstant found with early | ⟨_, rfl⟩
    · exact .inl early
    · exact .inr free

/-! ### Faithful registries -/

variable (types rank) in
/-- The declaration has the members of every struct with the canonical name. -/
def Describes (key : String) (d : Decl) : Prop :=
  ∀ (s : Shape) (fields : List Field), s.IsWritten types rank → s.isStructLike = true →
    s.canonicalName types = key → s.storedFields types = .ok fields →
    ∃ name members, d = .struct name members ∧ members.map (·.name) = fields.map (·.name)

variable (types rank) in
/-- The type is that of a struct, and the names are those of the fields it stores. -/
def Builds (r : Registry) (type : String) (names : List String) : Prop :=
  ∃ (s : Shape) (fields : List Field), s.IsWritten types rank ∧ s.isStructLike = true ∧
    s.storedFields types = .ok fields ∧ fields.map (·.name) = names ∧
    r.constants.lookup (s.canonicalName types) = some type

theorem Builds.mono {type : String} {names : List String} (builds : r.Builds types rank type names)
    (keeps : r.Keeps r') : r'.Builds types rank type names := by
  obtain ⟨s, fields, written, struct, stored, same, known⟩ := builds
  exact ⟨s, fields, written, struct, stored, same, keeps _ _ known⟩

variable (types rank) in
/-- The struct that the node constructs, if it does, has its type from the registry. -/
def Knows (r : Registry) (n : Expr) : Prop := n.Constructs (r.Builds types rank)

theorem Knows.mono {n : Expr} (knows : r.Knows types rank n) (keeps : r.Keeps r') :
    r'.Knows types rank n :=
  fun type members same => (knows type members same).mono keeps

/-- Entries are told apart by their names and by their ids, variants by their names. -/
def HasDistinctMembers : Decl → Prop
  | .enum d => (d.entries.map (·.1)).Nodup ∧ (d.entries.map (·.2)).Nodup
  | .union _ variants => (variants.map (·.name)).Nodup
  | .struct _ _ | .alias _ _ | .codec _ => True

variable (types rank) in
/-- A declaration that may stand under the name. The decoder of a codec builds structs of the types
that the registry knows. -/
def Suits (r : Registry) (name : String) : Decl → Prop
  | .codec c => Stmt.Each (r.Knows types rank) c.decode.stmts ∧
      c.decode.result.Each (r.Knows types rank)
  | d => d.name = name ∧ HasDistinctMembers d

/-- Under a key that no struct has, anything may be declared. -/
theorem describes_of_head (whole : types.Written rank) {word : List Char} {c : Char}
    (heads : head key = (word, some c)) (other : ∀ s : Shape, s.structHead ≠ some (word, c)) :
    Describes types rank key d := by
  intro s fields written _ same stored
  have own := written.structHead_eq whole stored
  rw [← written.canonicalName_eq whole, same, heads] at own
  exact absurd own (other s)

theorem Suits.mono (suits : r.Suits types rank name d) (keeps : r.Keeps r') :
    r'.Suits types rank name d := by
  cases d with
  | codec c => exact ⟨suits.1.imp fun _ knows => knows.mono keeps,
      suits.2.imp fun _ knows => knows.mono keeps⟩
  | _ => exact suits

variable (types rank) in
structure Faithful (r : Registry) : Prop where
  nodup : (r.slots.map (·.1)).Nodup
  suits : ∀ name d, (name, some d) ∈ r.slots → r.Suits types rank name d
  declared : ∀ key name, r.constants.lookup key = some name → r.isDeclared name = true
  describes : ∀ key name d, r.constants.lookup key = some name → (name, some d) ∈ r.slots →
    Describes types rank key d

theorem faithful_empty : Faithful types rank {} where
  nodup := List.nodup_nil
  suits _ _ member := nomatch member
  declared _ _ known := nomatch known
  describes _ _ _ known := nomatch known

theorem Faithful.reserve (faithful : r.Faithful types rank) (free : r.isDeclared name = false) :
    (r.reserve name).Faithful types rank := by
  have finished {other : String} {d : Decl} (member : (other, some d) ∈ (r.reserve name).slots) :
      (other, some d) ∈ r.slots := by
    rcases List.mem_append.mp member with early | here
    · exact early
    · cases List.mem_singleton.mp here
  constructor
  case nodup =>
    rw [Registry.reserve, List.map_append]
    refine List.nodup_append.mpr ⟨faithful.nodup, List.nodup_singleton _, ?_⟩
    rintro _ early _ here rfl
    cases List.mem_singleton.mp here
    exact not_mem_of_free free early
  case suits =>
    exact fun other d member => (faithful.suits other d (finished member)).mono fun _ _ known => known
  case declared =>
    exact fun key other known => (extends_reserve name).declared other
      (faithful.declared key other known)
  case describes =>
    exact fun key other d known member => faithful.describes key other d known (finished member)

/-- A key gets a name that is free; nothing is declared under it yet. -/
theorem Faithful.constant (faithful : r.Faithful types rank) (free : r.isDeclared name = false) :
    ((r.addConstant key name).reserve name).Faithful types rank := by
  have begun := faithful.reserve free
  have kept : (r.reserve name).Keeps ((r.addConstant key name).reserve name) :=
    (extends_constant free).keeps
  constructor
  case nodup => exact begun.nodup
  case suits => exact fun other d member => (begun.suits other d member).mono kept
  case declared =>
    intro other called found
    rcases lookup_addConstant found with early | ⟨_, rfl⟩
    · exact begun.declared other called early
    · exact isDeclared_reserve
  case describes =>
    intro other called d found member
    rcases lookup_addConstant found with early | ⟨_, rfl⟩
    · exact begun.describes other called d early member
    · -- Under a name that is free there is no declaration.
      rcases List.mem_append.mp member with early | here
      · exact absurd (List.mem_map.mpr ⟨_, early, rfl⟩) (not_mem_of_free free)
      · cases List.mem_singleton.mp here

/-- A declaration is finished. -/
theorem Faithful.fill (faithful : r.Faithful types rank) (suits : r.Suits types rank name d)
    (describes : ∀ key, r.constants.lookup key = some name → Describes types rank key d) :
    (r.fill name d).Faithful types rank := by
  constructor
  case nodup =>
    rw [names_fill]
    exact faithful.nodup
  case suits =>
    intro other d' member
    rcases mem_fill.mp member with ⟨_, early⟩ | ⟨same, _⟩
    · exact (faithful.suits other d' early).mono fun _ _ known => known
    · cases same
      exact suits.mono fun _ _ known => known
  case declared =>
    exact fun key other known => (extends_fill name d).declared other
      (faithful.declared key other known)
  case describes =>
    intro key other d' known member
    rcases mem_fill.mp member with ⟨_, early⟩ | ⟨same, _⟩
    · exact faithful.describes key other d' known early
    · cases same
      exact describes key known

/-- What is in neither the slots nor the constants does not matter. -/
theorem Faithful.congr (faithful : r.Faithful types rank) (slots : r'.slots = r.slots)
    (constants : r'.constants = r.constants) : r'.Faithful types rank := by
  obtain ⟨_, _, _, _⟩ := r
  obtain ⟨_, _, _, _⟩ := r'
  cases slots
  cases constants
  refine ⟨faithful.nodup, fun name d member => ?_, faithful.declared, faithful.describes⟩
  exact (faithful.suits name d member).mono fun _ _ known => known

end Registry

end WireSchema
