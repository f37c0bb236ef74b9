import Mathlib.Logic.Relation
import WireSchema.Proofs.Refusals
import WireSchema.Proofs.Source.Assembling

/-!
# Declarations that refer to themselves

A declaration refers to a declared type if the name of the type stands for a type anywhere in its
definition. A text whose types can all be built is refused as recursive if and only if a declaration
is reached from itself along such references: everything else that can be wrong with it is reported
in other words.

## Main results

* `mem_mentions_iff`: what a written type mentions are the names in it that are no primitives.
* `recursive_iff`: when declarations are refused as recursive.
-/

namespace WireSchema.Source

variable {name : String}

/-- The name stands for a type somewhere in the written type. -/
inductive TypeSpec.Names (name : String) : TypeSpec → Prop where
  | named : Names name (.named name)
  | optional {value : TypeSpec} (inside : Names name value) : Names name (.optional value)
  | item {item : TypeSpec} {length : Option String} (inside : Names name item) :
      Names name (.list item length)
  | key {key value : TypeSpec} {length : Option String} (inside : Names name key) :
      Names name (.map key value length)
  | value {key value : TypeSpec} {length : Option String} (inside : Names name value) :
      Names name (.map key value length)
  | tag {tagField : String} {tag : TypeSpec} {arms : List (ArmSpec TypeSpec)}
      (inside : Names name tag) : Names name (.union tagField tag arms)
  | arm {tagField : String} {tag : TypeSpec} {arms : List (ArmSpec TypeSpec)}
      {arm : ArmSpec TypeSpec} {field : FieldSpec TypeSpec} (among : arm ∈ arms)
      (within : field ∈ arm.fields) (inside : Names name field.type) :
      Names name (.union tagField tag arms)
  | field {fields : List (FieldSpec TypeSpec)} {field : FieldSpec TypeSpec}
      (among : field ∈ fields) (inside : Names name field.type) : Names name (.struct fields)
  | part {parts : List TypeSpec} {part : TypeSpec} (among : part ∈ parts)
      (inside : Names name part) : Names name (.merge parts)

/-- The declaration of the first name has the second name in it, which is that of a declared type and
not of a primitive. -/
def RefersTo (types : List TypeDecl) (a b : String) : Prop :=
  ∃ d ∈ types, d.name = a ∧ d.type.Names b ∧ Primitive.ofName? b = none ∧ b ∈ types.map (·.name)

/-- The declaration of the name is reached from itself. -/
def Circular (types : List TypeDecl) (name : String) : Prop :=
  Relation.TransGen (RefersTo types) name name

/-! ### Mentions -/

namespace TypeSpec

theorem mem_mentionsFields {fields : List (FieldSpec TypeSpec)} {f : FieldSpec TypeSpec}
    (member : f ∈ fields) (mentioned : name ∈ f.type.mentions) : name ∈ mentionsFields fields := by
  induction fields with
  | nil => cases member
  | cons first rest ih =>
    rw [mentionsFields]
    rcases List.mem_cons.mp member with rfl | later
    · exact List.mem_append_left _ mentioned
    · exact List.mem_append_right _ (ih later)

theorem mem_mentionsParts {parts : List TypeSpec} {part : TypeSpec} (member : part ∈ parts)
    (mentioned : name ∈ part.mentions) : name ∈ mentionsParts parts := by
  induction parts with
  | nil => cases member
  | cons first rest ih =>
    rw [mentionsParts]
    rcases List.mem_cons.mp member with rfl | later
    · exact List.mem_append_left _ mentioned
    · exact List.mem_append_right _ (ih later)

theorem mem_mentionsArms {arms : List (ArmSpec TypeSpec)} {arm : ArmSpec TypeSpec}
    (member : arm ∈ arms) (mentioned : name ∈ mentionsFields arm.fields) :
    name ∈ mentionsArms arms := by
  induction arms with
  | nil => cases member
  | cons first rest ih =>
    rw [mentionsArms]
    rcases List.mem_cons.mp member with rfl | later
    · exact List.mem_append_left _ mentioned
    · exact List.mem_append_right _ (ih later)

mutual

theorem names_of_mentions : ∀ t : TypeSpec, name ∈ t.mentions →
    t.Names name ∧ Primitive.ofName? name = none
  | .named other, member => by
    rw [mentions] at member
    cases known : Primitive.ofName? other with
    | some p =>
      rw [known] at member
      cases member
    | none =>
      rw [known] at member
      cases List.mem_singleton.mp member
      exact ⟨.named, known⟩
  | .optional value, member => (names_of_mentions value member).imp .optional id
  | .list item _, member => (names_of_mentions item member).imp .item id
  | .map key value _, member => by
    rcases List.mem_append.mp member with inKey | inValue
    · exact (names_of_mentions key inKey).imp .key id
    · exact (names_of_mentions value inValue).imp .value id
  | .union _ tag arms, member => by
    rcases List.mem_append.mp member with inTag | inArms
    · exact (names_of_mentions tag inTag).imp .tag id
    · obtain ⟨arm, among, f, within, inside, plain⟩ := names_of_mentionsArms arms inArms
      exact ⟨.arm among within inside, plain⟩
  | .struct fields, member => by
    obtain ⟨f, among, inside, plain⟩ := names_of_mentionsFields fields member
    exact ⟨.field among inside, plain⟩
  | .merge parts, member => by
    obtain ⟨part, among, inside, plain⟩ := names_of_mentionsParts parts member
    exact ⟨.part among inside, plain⟩
  | .bytes _, member | .enum _ _, member | .packed _ _ _, member | .flags _ _, member
  | .literal _ _, member => nomatch member

theorem names_of_mentionsFields : ∀ fields : List (FieldSpec TypeSpec),
    name ∈ mentionsFields fields →
    ∃ f ∈ fields, f.type.Names name ∧ Primitive.ofName? name = none
  | [], member => nomatch member
  | ⟨_, _, type⟩ :: rest, member => by
    rcases List.mem_append.mp member with here | later
    · exact ⟨_, List.mem_cons_self, names_of_mentions type here⟩
    · obtain ⟨f, among, inside⟩ := names_of_mentionsFields rest later
      exact ⟨f, List.mem_cons_of_mem _ among, inside⟩

theorem names_of_mentionsParts : ∀ parts : List TypeSpec, name ∈ mentionsParts parts →
    ∃ part ∈ parts, part.Names name ∧ Primitive.ofName? name = none
  | [], member => nomatch member
  | part :: rest, member => by
    rcases List.mem_append.mp member with here | later
    · exact ⟨_, List.mem_cons_self, names_of_mentions part here⟩
    · obtain ⟨other, among, inside⟩ := names_of_mentionsParts rest later
      exact ⟨other, List.mem_cons_of_mem _ among, inside⟩

theorem names_of_mentionsArms : ∀ arms : List (ArmSpec TypeSpec), name ∈ mentionsArms arms →
    ∃ arm ∈ arms, ∃ f ∈ arm.fields, f.type.Names name ∧ Primitive.ofName? name = none
  | [], member => nomatch member
  | ⟨_, _, fields⟩ :: rest, member => by
    rcases List.mem_append.mp member with here | later
    · exact ⟨_, List.mem_cons_self, names_of_mentionsFields fields here⟩
    · obtain ⟨arm, among, inside⟩ := names_of_mentionsArms rest later
      exact ⟨arm, List.mem_cons_of_mem _ among, inside⟩

end

/-- What a written type mentions are the names in it that are no primitives. -/
theorem mem_mentions_iff {t : TypeSpec} :
    name ∈ t.mentions ↔ t.Names name ∧ Primitive.ofName? name = none := by
  refine ⟨names_of_mentions t, ?_⟩
  rintro ⟨inside, plain⟩
  induction inside with
  | named =>
    rw [mentions, plain]
    exact List.mem_singleton.mpr rfl
  | optional _ ih | item _ ih => exact ih
  | key _ ih | tag _ ih => exact List.mem_append_left _ ih
  | value _ ih => exact List.mem_append_right _ ih
  | arm among within _ ih =>
    exact List.mem_append_right _ (mem_mentionsArms among (mem_mentionsFields within ih))
  | field among _ ih => exact mem_mentionsFields among ih
  | part among _ ih => exact mem_mentionsParts among ih

end TypeSpec

/-- The search goes along the references. -/
theorem edge_iff_refersTo {ds : List TypeDecl} (nodup : (ds.map (·.name)).Nodup)
    (declared : ∀ d ∈ ds, ∀ m ∈ d.type.mentions, m ∈ ds.map (·.name)) {a b : String} :
    (Mentions.ofDecls ds).Edge a b ↔ RefersTo ds a b := by
  constructor
  · intro edge
    obtain ⟨d, member, same, mentioned⟩ := mentions_of_edge edge
    obtain ⟨inside, plain⟩ := TypeSpec.mem_mentions_iff.mp mentioned
    exact ⟨d, member, same, inside, plain, declared d member b mentioned⟩
  · rintro ⟨d, member, rfl, inside, plain, _⟩
    exact edge_of_mentions nodup member (TypeSpec.mem_mentions_iff.mpr ⟨inside, plain⟩)

/-! ### Other refusals -/

/-- The message that a declaration is reached from itself. -/
abbrev recursive (name : String) : SchemaError := .parse ("recursive type " ++ name)

/-- The error says something else. -/
def IsOther : SchemaError → Prop
  | .parse message => ∀ name, message ≠ "recursive type " ++ name
  | _ => True

/-- The computation is never refused as recursive. -/
abbrev Spares {α : Type} (result : Except SchemaError α) : Prop := FailsOnly IsOther result

/-- The same, from whatever number bit groups are counted. -/
def BuildSpares {α : Type} (act : Build α) : Prop := ∀ g, Spares (act.run g)

section Sparing

variable {α β : Type}

/-- A message with another first character is not that of a circle. -/
theorem isOther_parse {message : String} {c : Char} (first : message.toList.head? = some c)
    (other : c ≠ 'r') : IsOther (.parse message) := by
  intro name same
  rw [same, String.toList_append] at first
  exact other (Option.some.inj first).symm

theorem buildSpares_pure (a : α) : BuildSpares (pure a) := fun g => failsOnly_ok (a, g)

theorem BuildSpares.bind {act : Build α} {next : α → Build β} (first : BuildSpares act)
    (second : ∀ a, BuildSpares (next a)) : BuildSpares (act >>= next) := by
  intro g
  rw [StateT.run_bind]
  exact (first g).bind fun out => second out.1 out.2

theorem BuildSpares.map {act : Build α} (spares : BuildSpares act) (f : α → β) :
    BuildSpares (f <$> act) := by
  rw [map_eq_pure_bind]
  exact spares.bind fun a => buildSpares_pure (f a)

theorem Spares.lift {result : Except SchemaError α} (spares : Spares result) :
    BuildSpares (liftM result) := by
  intro g
  cases result with
  | error e => exact failsOnly_error (spares e rfl)
  | ok a => exact failsOnly_ok (a, g)

theorem buildSpares_mapM {f : α → Build β} (each : ∀ a, BuildSpares (f a)) :
    ∀ as : List α, BuildSpares (as.mapM f)
  | [] => buildSpares_pure []
  | a :: as => by
    rw [List.mapM_cons]
    exact (each a).bind fun b => (buildSpares_mapM each as).bind fun bs => buildSpares_pure (b :: bs)

theorem buildSpares_guard {c : Prop} [Decidable c] {e : SchemaError} {next : PUnit → Build α}
    (failure : IsOther e) (success : BuildSpares (next ⟨⟩)) :
    BuildSpares (if c then throw e >>= next else next ⟨⟩) := by
  split
  · exact fun _ => failsOnly_error failure
  · exact success

theorem buildSpares_freshGroup : BuildSpares freshGroup := fun g => failsOnly_ok (g, g + 1)

/-! ### Numbers, packed and flag structs -/

theorem spares_value (n : Numeral) : Spares n.value := by
  unfold Numeral.value
  split
  · exact failsOnly_ok _
  · exact failsOnly_error (isOther_parse (c := 'b') (by simp [toString]) (by decide))

theorem spares_primitiveNamed (name : String) : Spares (primitiveNamed name) := by
  unfold primitiveNamed
  split
  · exact failsOnly_ok _
  · exact failsOnly_error trivial

theorem spares_integerNamed (name : String) : Spares (integerNamed name) := by
  refine (spares_primitiveNamed name).bind fun p => ?_
  split
  · exact failsOnly_ok p
  · exact failsOnly_error trivial

theorem spares_lengthNamed (length : Option String) : Spares (lengthNamed length) := by
  cases length with
  | some name => exact spares_integerNamed name
  | none => exact failsOnly_ok _

theorem spares_literal (kind : IntKind) (l : LiteralSpec) : Spares (l.literal kind) := by
  cases l with
  | int n => exact (spares_value n).bind fun v => failsOnly_ok _
  | bool | str => exact failsOnly_ok _

theorem spares_idAfter (id : Int) : Spares (idAfter id) := by
  unfold idAfter
  split
  · exact failsOnly_ok _
  · exact failsOnly_error trivial

theorem spares_enumIds (entries : List (String × Option Numeral)) (seen : List String)
    (next : Int) : Spares (enumIds seen next entries) := by
  induction entries generalizing seen next with
  | nil => exact failsOnly_ok _
  | cons entry rest ih =>
    obtain ⟨name, given⟩ := entry
    have numbered (id : Int) : Spares (do
        if seen.contains name then throw (.parse ("enum: duplicate entry " ++ name))
        let others ← enumIds (name :: seen) (← idAfter id) rest
        return (name, id) :: others) := by
      refine failsOnly_guard (isOther_parse (c := 'e') (by simp) (by decide)) ?_
      exact (spares_idAfter id).bind fun next => (ih _ next).bind fun others => failsOnly_ok _
    cases given with
    | some n => exact (spares_value n).bind numbered
    | none => exact numbered next

theorem spares_slotWidth (n : Numeral) : Spares (slotWidth n) := by
  refine (spares_value n).bind fun width => ?_
  split
  · exact failsOnly_ok _
  · exact failsOnly_error (isOther_parse (c := 'p') (by simp [toString]) (by decide))

theorem spares_checkOrder (names order seen : List String) :
    Spares (checkOrder names seen order) := by
  induction order generalizing seen with
  | nil => exact failsOnly_ok _
  | cons name rest ih =>
    rw [checkOrder]
    exact failsOnly_guard (isOther_parse (c := 'p') (by simp) (by decide)) (ih _)

theorem spares_backingKind (p : Primitive) : Spares (Shape.backingKind p) := by
  unfold Shape.backingKind
  split
  · exact failsOnly_ok _
  · exact failsOnly_error trivial

theorem spares_sumOfWidths (widths : List Nat) : Spares (Shape.sumOfWidths widths) := by
  unfold Shape.sumOfWidths
  split
  · exact failsOnly_ok _
  · exact failsOnly_error trivial

theorem spares_packedSlots (group : Nat) (backing : Primitive) (widths : List Nat) :
    Spares (Shape.packedSlots group backing widths) :=
  (spares_backingKind backing).bind fun _ => (spares_sumOfWidths widths).bind fun _ =>
    failsOnly_guard trivial (failsOnly_ok _)

theorem spares_flagStruct (group : Nat) (backing : Primitive) (masks : List (String × Int)) :
    Spares (Shape.flagStruct group backing masks) := by
  refine FailsOnly.bind ?_ fun slots => failsOnly_ok _
  refine (spares_backingKind backing).bind fun kind => ?_
  split
  · exact failsOnly_error trivial
  · exact failsOnly_ok _

theorem spares_bytesShape (n : Numeral) : Spares (bytesShape n) := by
  refine (spares_value n).bind fun length => ?_
  split
  · exact failsOnly_ok _
  · exact failsOnly_error (isOther_parse (c := 'b') (by simp [toString]) (by decide))

theorem spares_literalShape (backing : Option String) (value : LiteralSpec) :
    Spares (literalShape backing value) := by
  have known : Spares (backing.mapM primitiveNamed) := by
    cases backing with
    | none => exact failsOnly_ok none
    | some name => exact (spares_primitiveNamed name).bind fun p => failsOnly_ok (some p)
  exact known.bind fun p => (spares_literal _ value).bind fun l => failsOnly_ok _

theorem buildSpares_packedShape (backing : String) (slots : List (String × Numeral))
    (order : Option (List String)) : BuildSpares (packedShape backing slots order) := by
  unfold packedShape
  refine (spares_integerNamed backing).lift.bind fun p => ?_
  refine (buildSpares_mapM (fun slot => ?_) slots).bind fun widths => ?_
  · obtain ⟨name, width⟩ := slot
    exact (spares_slotWidth width).lift
  refine (spares_checkOrder _ _ _).lift.bind fun _ => buildSpares_freshGroup.bind fun group => ?_
  exact (spares_packedSlots group p widths).lift.bind fun made => buildSpares_pure _

theorem buildSpares_flagsShape (backing : String) (entries : List (String × Numeral)) :
    BuildSpares (flagsShape backing entries) := by
  unfold flagsShape
  refine (spares_integerNamed backing).lift.bind fun p => ?_
  refine (buildSpares_mapM (fun entry => ?_) entries).bind fun masks => ?_
  · obtain ⟨name, mask⟩ := entry
    exact Spares.lift ((spares_value mask).bind fun _ => failsOnly_ok _)
  exact buildSpares_freshGroup.bind fun group => (spares_flagStruct group p masks).lift

/-! ### Types and packets -/

variable {lookup : Lookup}

mutual

theorem buildSpares_shape (finds : ∀ name, Spares (lookup name)) :
    ∀ t : TypeSpec, BuildSpares (t.shape lookup)
  | .named name => by
    rw [TypeSpec.shape]
    split
    · exact buildSpares_pure _
    · exact (finds name).lift
  | .bytes n => by
    rw [TypeSpec.shape]
    exact (spares_bytesShape n).lift
  | .optional value => by
    rw [TypeSpec.shape]
    exact (buildSpares_shape finds value).bind fun s => buildSpares_pure _
  | .list item length => by
    rw [TypeSpec.shape]
    refine (buildSpares_shape finds item).bind fun s => ?_
    exact (spares_lengthNamed length).lift.bind fun p => buildSpares_pure _
  | .map key value length => by
    rw [TypeSpec.shape]
    refine (buildSpares_shape finds key).bind fun k => ?_
    refine (buildSpares_shape finds value).bind fun v => ?_
    exact (spares_lengthNamed length).lift.bind fun p => buildSpares_pure _
  | .enum backing entries => by
    rw [TypeSpec.shape]
    refine (spares_integerNamed backing).lift.bind fun p => ?_
    exact (spares_enumIds entries [] 0).lift.bind fun ids => buildSpares_pure _
  | .union _ tag arms => by
    rw [TypeSpec.shape]
    refine (buildSpares_shape finds tag).bind fun t => ?_
    exact (buildSpares_shapeArms finds (tagKind t) arms []).bind fun made => buildSpares_pure _
  | .struct fields => by
    rw [TypeSpec.shape]
    exact (buildSpares_shapeFields finds fields).bind fun made => buildSpares_pure _
  | .merge parts => by
    rw [TypeSpec.shape]
    exact (buildSpares_shapeParts finds parts).bind fun made => buildSpares_pure _
  | .packed backing slots order => by
    rw [TypeSpec.shape]
    exact buildSpares_packedShape backing slots order
  | .flags backing entries => by
    rw [TypeSpec.shape]
    exact buildSpares_flagsShape backing entries
  | .literal backing value => by
    rw [TypeSpec.shape]
    exact (spares_literalShape backing value).lift

theorem buildSpares_shapeFields (finds : ∀ name, Spares (lookup name)) :
    ∀ fields : List (FieldSpec TypeSpec), BuildSpares (TypeSpec.shapeFields lookup fields)
  | [] => by
    rw [TypeSpec.shapeFields]
    exact buildSpares_pure _
  | ⟨docs, name, type⟩ :: rest => by
    rw [TypeSpec.shapeFields]
    refine (buildSpares_shape finds type).bind fun shape => ?_
    exact (buildSpares_shapeFields finds rest).bind fun others => buildSpares_pure _

theorem buildSpares_shapeParts (finds : ∀ name, Spares (lookup name)) :
    ∀ parts : List TypeSpec, BuildSpares (TypeSpec.shapeParts lookup parts)
  | [] => by
    rw [TypeSpec.shapeParts]
    exact buildSpares_pure _
  | part :: rest => by
    rw [TypeSpec.shapeParts]
    refine (buildSpares_shape finds part).bind fun shape => ?_
    exact (buildSpares_shapeParts finds rest).bind fun others => buildSpares_pure _

theorem buildSpares_shapeArms (finds : ∀ name, Spares (lookup name)) (kind : IntKind) :
    ∀ (arms : List (ArmSpec TypeSpec)) (seen : List String),
      BuildSpares (TypeSpec.shapeArms lookup kind seen arms)
  | [], _ => by
    rw [TypeSpec.shapeArms]
    exact buildSpares_pure _
  | ⟨name, tag, fields⟩ :: rest, seen => by
    have tagged (given : Option Literal) : BuildSpares (do
        let fields ← TypeSpec.shapeFields lookup fields
        if seen.contains name then throw (.parse ("union: duplicate variant " ++ name))
        let others ← TypeSpec.shapeArms lookup kind (name :: seen) rest
        return (name, given, fields) :: others) := by
      refine (buildSpares_shapeFields finds fields).bind fun made => buildSpares_guard ?_ ?_
      · exact isOther_parse (c := 'u') (by simp) (by decide)
      · exact (buildSpares_shapeArms finds kind rest _).bind fun others => buildSpares_pure _
    cases tag with
    | none =>
      rw [TypeSpec.shapeArms]
      exact (buildSpares_pure none).bind tagged
    | some l =>
      rw [TypeSpec.shapeArms]
      exact ((spares_literal kind l).lift.map some).bind tagged

end

theorem spares_lookupIn (names : List String) (known : Refs) (name : String) :
    Spares (lookupIn names known name) := by
  unfold lookupIn
  split
  · exact failsOnly_ok _
  · split
    · exact failsOnly_ok _
    · exact failsOnly_error trivial

theorem spares_addPacket (finds : ∀ name, Spares (lookup name)) (protocol : String) (flow : Flow)
    (a : Assembly) (p : PacketSpec) : Spares (a.addPacket lookup protocol flow p) := by
  have built : Spares (a.building (TypeSpec.shapeFields lookup p.fields)) :=
    (buildSpares_shapeFields finds p.fields a.schema.nextGroup).bind fun _ => failsOnly_ok _
  refine built.bind fun out => FailsOnly.bind ?_ fun _ => failsOnly_ok _
  unfold Schema.addPacket
  split
  · exact failsOnly_ok _
  · refine FailsOnly.bind ?_ fun _ => failsOnly_ok _
    unfold Protocol.addPacket
    split
    · exact failsOnly_error trivial
    · exact failsOnly_ok _

theorem spares_addProtocol (finds : ∀ name, Spares (lookup name)) (a : Assembly) (d : ProtocolDecl) :
    Spares (a.addProtocol lookup d) := by
  refine FailsOnly.bind ?_ fun schema => ?_
  · unfold Schema.addProtocol
    split
    · exact failsOnly_error trivial
    · exact failsOnly_ok _
  · refine failsOnly_foldlM (fun block _ b => ?_) _
    exact failsOnly_foldlM (fun p _ c => spares_addPacket finds d.name block.flow c p) b

end Sparing

/-! ### Circles -/

/-- The type declarations can all be built, with their bit groups numbered from `firstGroup` on. -/
def TypesBuild (firstGroup : Nat) (types : List TypeDecl) : Prop :=
  checkNames [] types = .ok () ∧ ∃ assembly,
    types.foldlM (Assembly.addType (types.map (·.name))) { schema := { nextGroup := firstGroup } } =
      .ok assembly

theorem schemaOf_built {firstGroup : Nat} {items : List Item} {assembly : Assembly}
    (distinct : checkNames [] (items.filterMap Item.type?) = .ok ())
    (built : (items.filterMap Item.type?).foldlM
      (Assembly.addType ((items.filterMap Item.type?).map (·.name)))
      { schema := { nextGroup := firstGroup } } = .ok assembly) :
    schemaOf firstGroup items = do
      (Mentions.ofDecls (items.filterMap Item.type?)).check
      let assembly ← (items.filterMap Item.protocol?).foldlM (Assembly.addProtocol
        (lookupIn ((items.filterMap Item.type?).map (·.name)) assembly.known)) assembly
      return assembly.schema := by
  rw [schemaOf, distinct]
  simp only [built]
  rfl

/-- Declarations whose types can be built are refused as recursive if and only if one of them is
reached from itself, and the refusal names such a one. -/
theorem recursive_iff {firstGroup : Nat} {items : List Item}
    (build : TypesBuild firstGroup (items.filterMap Item.type?)) :
    ((∃ name, schemaOf firstGroup items = .error (recursive name)) ↔
      ∃ name, Circular (items.filterMap Item.type?) name) ∧
    ∀ name, schemaOf firstGroup items = .error (recursive name) →
      Circular (items.filterMap Item.type?) name := by
  obtain ⟨distinct, assembly, built⟩ := build
  have nodup := (checkNames_ok.mp distinct).1
  obtain ⟨table, g, builds, _⟩ := (addTypes_ok nodup fun d _ => by simp).mp built
  have declared := builds.declared (List.forall_mem_nil _)
    fun d member => List.mem_map.mpr ⟨d, member, rfl⟩
  -- What was recorded while types were read is what the declarations refer to.
  have edges : (Mentions.ofDecls (items.filterMap Item.type?)).Edge =
      RefersTo (items.filterMap Item.type?) := by
    funext a b
    exact propext (edge_iff_refersTo nodup declared)
  have whole := schemaOf_built distinct built
  cases checked : (Mentions.ofDecls (items.filterMap Item.type?)).check with
  | error e =>
    obtain ⟨culprit, rfl, circle⟩ := Mentions.circle_of_check checked
    rw [checked] at whole
    rw [edges] at circle
    refine ⟨⟨fun _ => ⟨culprit, circle⟩, fun _ => ⟨culprit, whole⟩⟩, fun name refused => ?_⟩
    -- The search fails first, so no other refusal is possible.
    have same : recursive name = recursive culprit := Except.error.inj (refused.symm.trans whole)
    rw [(String.append_right_inj _).mp (SchemaError.parse.inj same)]
    exact circle
  | ok =>
    have acyclic := Mentions.check_ok_iff.mp checked
    -- After the search only protocols are left to be read.
    have spared : Spares (schemaOf firstGroup items) := by
      rw [whole, checked]
      refine FailsOnly.bind (failsOnly_ok ()) fun _ => FailsOnly.bind ?_ fun _ => failsOnly_ok _
      exact failsOnly_foldlM (fun d _ a => spares_addProtocol (spares_lookupIn _ _) a d) assembly
    refine ⟨⟨fun ⟨name, refused⟩ => (spared _ refused name rfl).elim, fun ⟨name, circle⟩ => ?_⟩,
      fun name refused => (spared _ refused name rfl).elim⟩
    rw [Circular, ← edges] at circle
    exact (acyclic name circle).elim

end WireSchema.Source
