import WireSchema.Lowering.Tie
import WireSchema.Proofs.Session.Names
import WireSchema.Proofs.Session.Runs

/-!
# Registries only grow

What is declared stays declared, under its name. A sound registry holds under the name of an
enumeration that enumeration, and under the name of the reader of an exported type the codec that
generation makes of the type; no other declaration takes such a name.
-/

namespace WireSchema

open Ir Lowering

/-- The type with the given name is declared as the given shape. -/
def Refs.Declares (types : Refs) (name : String) (inner : Shape) : Prop :=
  (name, .alias name inner) ∈ types ∨ (name, .exported name inner) ∈ types

/-- The functions of exported types have names of their own. -/
structure Refs.Separate (types : Refs) : Prop where
  bases : ∀ {name name' : String} {inner inner' : Shape}, (name, .exported name inner) ∈ types →
    (name', .exported name' inner') ∈ types → codecBase name = codecBase name' → name = name'
  apart : ∀ {name : String} {inner : Shape}, (name, .exported name inner) ∈ types →
    readerName (codecBase name) ∉ types.map (·.1)

variable {types : Refs} {rank : String → Nat} {hooks : Hooks}

namespace Refs

theorem Declares.mem {name : String} {inner : Shape} (declares : types.Declares name inner) :
    name ∈ types.map (·.1) := by
  rcases declares with member | member <;> exact List.mem_map.mpr ⟨_, member, rfl⟩

/-- A type is declared as one shape. -/
theorem Ordered.declares_unique (ordered : types.Ordered rank) {name : String} {inner inner' : Shape}
    (declares : types.Declares name inner) (declares' : types.Declares name inner') :
    inner = inner' := by
  have only {s s' : Shape} (member : (name, s) ∈ types) (member' : (name, s') ∈ types) : s = s' := by
    have found := lookup_of_mem ordered.nodup member
    rw [lookup_of_mem ordered.nodup member'] at found
    exact (Option.some.inj found).symm
  rcases declares with member | member <;> rcases declares' with member' | member' <;>
    cases only member member' <;> rfl

theorem Ordered.inner (ordered : types.Ordered rank) {name : String} {inner : Shape}
    (declares : types.Declares name inner) : inner.WellFormed types rank (rank name) := by
  rcases declares with member | member
  · exact ordered.inner_alias member
  · exact ordered.inner_exported member

end Refs

theorem readerName_unique {base base' : String} (same : readerName base = readerName base') :
    base = base' := (String.append_right_inj _).mp same

theorem underscore_readerName (base : String) : '_' ∈ (readerName base).toList := by
  rw [readerName, String.toList_append, List.mem_append]
  exact .inl (by decide)

theorem lookup_append {α : Type} (entries more : List (String × α)) (key : String) :
    (entries ++ more).lookup key = (entries.lookup key).or (more.lookup key) := by
  induction entries with
  | nil => rfl
  | cons entry rest ih =>
    obtain ⟨other, a⟩ := entry
    rw [List.cons_append, List.lookup_cons, List.lookup_cons]
    cases key == other with
    | true => rfl
    | false => exact ih

namespace Registry

variable {r r' r'' : Registry}

/-- The constants of the first registry are those of the second. -/
def Keeps (r r' : Registry) : Prop :=
  ∀ key name, r.constants.lookup key = some name → r'.constants.lookup key = some name

theorem Keeps.trans (first : r.Keeps r') (second : r'.Keeps r'') : r.Keeps r'' :=
  fun key name known => second key name (first key name known)

/-- The second registry has what the first one has, and finished what it began since. -/
structure Grows (r r' : Registry) : Prop where
  slots : ∀ slot ∈ r.slots, slot ∈ r'.slots
  unfinished : ∀ name, (name, none) ∈ r'.slots → (name, none) ∈ r.slots
  keeps : r.Keeps r'
  functions : r'.functions = r.functions

theorem Grows.refl (r : Registry) : r.Grows r :=
  ⟨fun _ member => member, fun _ member => member, fun _ _ known => known, rfl⟩

theorem Grows.trans (first : r.Grows r') (second : r'.Grows r'') : r.Grows r'' :=
  ⟨fun slot member => second.slots slot (first.slots slot member),
    fun name member => first.unfinished name (second.unfinished name member),
    first.keeps.trans second.keeps, second.functions.trans first.functions⟩

theorem Grows.isDeclared (grows : r.Grows r') {name : String} (declared : r.isDeclared name = true) :
    r'.isDeclared name = true := by
  rw [isDeclared_iff] at declared ⊢
  obtain ⟨slot, member, rfl⟩ := List.mem_map.mp declared
  exact List.mem_map.mpr ⟨slot, grows.slots slot member, rfl⟩

/-- Other slots are as before. -/
theorem mem_fill {name : String} {d : Decl} {slot : String × Option Decl} :
    slot ∈ (r.fill name d).slots ↔
      slot.1 ≠ name ∧ slot ∈ r.slots ∨ slot = (name, some d) ∧ r.isDeclared name = true := by
  rw [isDeclared_iff]
  simp only [fill, List.mem_map]
  constructor
  · rintro ⟨⟨other, old⟩, member, rfl⟩
    by_cases same : other = name
    · subst same
      rw [if_pos (beq_self_eq_true other)]
      exact .inr ⟨rfl, _, member, rfl⟩
    · rw [if_neg (by simpa using same)]
      exact .inl ⟨same, member⟩
  · rintro (⟨other, member⟩ | ⟨rfl, ⟨other, old⟩, member, rfl⟩)
    · exact ⟨slot, member, by simp [other]⟩
    · exact ⟨_, member, by simp⟩

theorem names_fill (name : String) (d : Decl) :
    (r.fill name d).slots.map (·.1) = r.slots.map (·.1) := by
  simp only [fill, List.map_map]
  refine List.map_congr_left fun slot _ => ?_
  simp only [Function.comp]
  split <;> rfl

/-- A declaration that is finished as soon as it is begun. -/
theorem fill_reserve {name : String} (fresh : r.isDeclared name = false) (d : Decl) :
    (r.reserve name).fill name d = { r with slots := r.slots ++ [(name, some d)] } := by
  have other : ∀ slot ∈ r.slots, slot.1 ≠ name := by
    rintro slot member rfl
    rw [isDeclared_iff.mpr (List.mem_map.mpr ⟨slot, member, rfl⟩)] at fresh
    cases fresh
  simp only [fill, reserve, List.map_append, List.map_cons, List.map_nil, beq_self_eq_true, if_true]
  congr 2
  refine (List.map_congr_left fun slot member => ?_).trans (List.map_id _)
  simp [other slot member]

/-- A declaration is begun, others are made, and it is finished. -/
theorem grows_declare {name : String} {more : List (String × String)} {d : Decl}
    (fresh : r.isDeclared name = false)
    (grows : Grows { r with slots := r.slots ++ [(name, none)], constants := r.constants ++ more } r') :
    r.Grows (r'.fill name d) := by
  have other {slot : String × Option Decl} (member : slot ∈ r.slots) : slot.1 ≠ name := by
    rintro rfl
    rw [isDeclared_iff.mpr (List.mem_map.mpr ⟨slot, member, rfl⟩)] at fresh
    cases fresh
  refine ⟨fun slot member => ?_, fun name' member => ?_, fun key name' known => ?_, ?_⟩
  · exact mem_fill.mpr (.inl ⟨other member, grows.slots slot (List.mem_append_left _ member)⟩)
  · rcases mem_fill.mp member with ⟨different, member⟩ | ⟨same, _⟩
    · rcases List.mem_append.mp (grows.unfinished name' member) with early | here
      · exact early
      · cases List.mem_singleton.mp here
        exact absurd rfl different
    · cases same
  · refine grows.keeps key name' ?_
    simp only [lookup_append, known, Option.some_or]
  · exact grows.functions

/-! ### Sound registries -/

/-- The codec is what generation makes of an exported type, on a draft of its own, and the constants
of that generation are those of the registry. -/
structure Makes (hooks : Hooks) (types : Refs) (r : Registry) (name : String) (inner : Shape)
    (c : CodecDecl) : Prop where
  base : c.name = codecBase name
  made : ∃ depth s s₁ s₂ t, s.refs = types ∧ s.draft = Draft.named name ∧ t.registry.Keeps r ∧
    Gen.Runs (Gen.captureBlock ((emitter hooks depth).decodeExpr inner)) s c.decode s₁ ∧
    Gen.Runs (Gen.beginFunction *> Gen.param "value") s₁ c.value s₂ ∧
    Gen.Runs (Gen.capture ((emitter hooks depth).encode inner (.place c.value))) s₂ (c.encode, ()) t

/-- The declaration may stand under the name. -/
def Fits (hooks : Hooks) (types : Refs) (r : Registry) (name : String) : Decl → Prop
  | .codec c => ∃ exported inner, (exported, .exported exported inner) ∈ types ∧
    name = readerName (codecBase exported) ∧ Makes hooks types r exported inner c
  | d => d.name = name ∧ ∀ exported inner, (exported, .exported exported inner) ∈ types →
    name ≠ readerName (codecBase exported)

theorem Makes.mono {name : String} {inner : Shape} {c : CodecDecl}
    (makes : Makes hooks types r name inner c) (keeps : r.Keeps r') :
    Makes hooks types r' name inner c := by
  obtain ⟨base, depth, s, s₁, s₂, t, refs, draft, kept, runs⟩ := makes
  exact ⟨base, depth, s, s₁, s₂, t, refs, draft, kept.trans keeps, runs⟩

theorem Fits.mono {name : String} {d : Decl} (fits : Fits hooks types r name d)
    (keeps : r.Keeps r') : Fits hooks types r' name d := by
  cases d with
  | codec c =>
    obtain ⟨exported, inner, member, same, makes⟩ := fits
    exact ⟨exported, inner, member, same, makes.mono keeps⟩
  | _ => exact fits

/-- The signature of an enumeration that generation accepts. -/
def IsEnumSignature (types : Refs) (backing : Primitive) (entries : List (String × Int))
    (signature : String) : Prop :=
  backing.isInteger = true ∧ (∀ entry ∈ entries, IsIdent entry.1) ∧
    signature = (Shape.enum backing entries).canonicalName types

/-- The heads of the signatures of shapes with a declaration of their own. -/
abbrev nominalHeads : List (List Char × Option Char) := Shape.enumHead :: Shape.groupHeads

structure Sound (hooks : Hooks) (types : Refs) (r : Registry) : Prop where
  nodup : (r.slots.map (·.1)).Nodup
  fits : ∀ name d, (name, some d) ∈ r.slots → Fits hooks types r name d
  enums : ∀ backing entries signature name, IsEnumSignature types backing entries signature →
    r.constants.lookup signature = some name →
    (name, some (.enum ⟨name, backing, entries⟩)) ∈ r.slots
  /-- An alias of a declared shape is the name of that declaration, or will be. -/
  aliases : ∀ signature name, head signature ∈ nominalHeads →
    r.aliases.lookup signature = some name → (∃ known, r.constants.lookup signature = some known) ∨
      ∃ inner, types.Declares name inner ∧ inner.canonicalName types = signature
  /-- A name with an underscore comes from a declared type, whose shape is declared by then. -/
  underscores : ∀ name inner, '_' ∈ name.toList → r.isDeclared name = true →
    types.Declares name inner → inner.isNominal = true →
    ∃ known, r.constants.lookup (inner.canonicalName types) = some known

theorem sound_empty : Sound hooks types {} where
  nodup := List.nodup_nil
  fits _ _ member := nomatch member
  enums _ _ _ _ _ known := nomatch known
  aliases _ _ _ known := nomatch known
  underscores _ _ _ declared := nomatch declared

/-- Slots are told apart by their names. -/
theorem Sound.slot_unique (sound : Sound hooks types r) {name : String} {o o' : Option Decl}
    (member : (name, o) ∈ r.slots) (member' : (name, o') ∈ r.slots) : o = o' := by
  have found := lookup_of_mem sound.nodup member
  rw [lookup_of_mem sound.nodup member'] at found
  exact (Option.some.inj found).symm

/-- A slot and possibly a constant are added. -/
theorem Sound.extend (sound : Sound hooks types r) {name : String} {o : Option Decl}
    {more : List (String × String)} (fresh : r.isDeclared name = false)
    (fits : ∀ d, o = some d → Fits hooks types r name d)
    (enums : ∀ backing entries signature known, IsEnumSignature types backing entries signature →
      more.lookup signature = some known →
      (known, some (.enum ⟨known, backing, entries⟩)) ∈ r.slots ++ [(name, o)])
    (underscores : ∀ inner, '_' ∈ name.toList → types.Declares name inner →
      inner.isNominal = true →
      ∃ known, (r.constants ++ more).lookup (inner.canonicalName types) = some known) :
    Sound hooks types
      { r with slots := r.slots ++ [(name, o)], constants := r.constants ++ more } := by
  have kept : r.Keeps { r with slots := r.slots ++ [(name, o)], constants := r.constants ++ more } := by
    intro key known found
    simp only [lookup_append, found, Option.some_or]
  have absent : name ∉ r.slots.map (·.1) := by
    rw [← isDeclared_iff, fresh]
    exact Bool.false_ne_true
  constructor
  case nodup =>
    simp only [List.map_append, List.map_cons, List.map_nil]
    exact List.nodup_append.mpr ⟨sound.nodup, List.nodup_singleton _, fun x early y here => by
      rintro rfl
      exact absent (List.mem_singleton.mp here ▸ early)⟩
  case fits =>
    intro name' d member
    rcases List.mem_append.mp member with early | here
    · exact (sound.fits name' d early).mono kept
    · cases List.mem_singleton.mp here
      exact (fits d rfl).mono kept
  case enums =>
    intro backing entries signature known is found
    simp only [lookup_append] at found
    cases earlier : r.constants.lookup signature with
    | some old =>
      rw [earlier] at found
      cases found
      exact List.mem_append_left _ (sound.enums backing entries signature known is earlier)
    | none =>
      rw [earlier] at found
      exact enums backing entries signature known is found
  case aliases =>
    intro signature called isHead found
    rcases sound.aliases signature called isHead found with ⟨known, constant⟩ | declared
    · exact .inl ⟨known, kept _ _ constant⟩
    · exact .inr declared
  case underscores =>
    intro name' inner score declared declares nominal
    rw [isDeclared_iff] at declared
    simp only [List.map_append, List.mem_append, List.map_cons, List.map_nil,
      List.mem_singleton] at declared
    rcases declared with early | rfl
    · obtain ⟨known, found⟩ := sound.underscores name' inner score (isDeclared_iff.mpr early)
        declares nominal
      exact ⟨known, kept _ _ found⟩
    · exact underscores inner score declares nominal

/-- A declaration that was begun is finished. -/
theorem Sound.fill (sound : Sound hooks types r) {name : String} {d : Decl}
    (begun : (name, none) ∈ r.slots) (fits : Fits hooks types r name d) :
    Sound hooks types (r.fill name d) := by
  constructor
  case nodup =>
    rw [names_fill]
    exact sound.nodup
  case fits =>
    intro name' d' member
    rcases mem_fill.mp member with ⟨_, early⟩ | ⟨same, _⟩
    · exact (sound.fits name' d' early).mono fun _ _ known => known
    · cases same
      exact fits.mono fun _ _ known => known
  case enums =>
    intro backing entries signature known is found
    have early := sound.enums backing entries signature known is found
    -- An enumeration is never unfinished, so it is not what is finished now.
    have other : known ≠ name := by
      rintro rfl
      cases sound.slot_unique early begun
    exact mem_fill.mpr (.inl ⟨other, early⟩)
  case aliases => exact fun signature called isHead found => sound.aliases signature called isHead found
  case underscores =>
    intro name' inner score declared
    rw [isDeclared_iff, names_fill, ← isDeclared_iff] at declared
    exact sound.underscores name' inner score declared

/-- A signature gets an alias. -/
theorem Sound.addAlias (sound : Sound hooks types r) {signature name : String}
    (known : head signature ∈ nominalHeads →
      (∃ known, r.constants.lookup signature = some known) ∨
        ∃ inner, types.Declares name inner ∧ inner.canonicalName types = signature) :
    Sound hooks types (r.addAlias signature name).2 := by
  unfold Registry.addAlias
  split
  · exact sound
  case h_2 new =>
    refine ⟨sound.nodup, fun name' d member => ?_, sound.enums, ?_, sound.underscores⟩
    · exact (sound.fits name' d member).mono fun _ _ known => known
    · intro signature' name' isHead found
      simp only [lookup_append] at found
      cases earlier : r.aliases.lookup signature' with
      | some old =>
        rw [earlier] at found
        cases found
        exact sound.aliases signature' name' isHead earlier
      | none =>
        rw [earlier, Option.none_or, List.lookup_cons] at found
        split at found
        case h_1 same =>
          cases found
          rw [eq_of_beq same] at isHead ⊢
          exact known isHead
        case h_2 => cases found

end Registry

end WireSchema
