import Mathlib.Data.List.TakeWhile
import WireSchema.Proofs.Layout.WellFormed
import WireSchema.Source.Grammar

/-!
# Names that the parser gives

Whatever text is read, the names of types and of the entries of enumerations are identifiers.
-/

namespace WireSchema.Source

open WireSchema.Source.Parser

/-! ### Results of parsers -/

/-- Every result of the parser has the property. -/
def Yields {α : Type} (p : Parser α) (P : α → Prop) : Prop :=
  ∀ cs a rest, p cs = some (a, rest) → P a

section Combinators

variable {α β : Type} {p q : Parser α} {P : α → Prop} {Q : β → Prop}

theorem Yields.any (p : Parser α) : Yields p fun _ => True := fun _ _ _ _ => trivial

theorem Yields.failure : Yields (failure : Parser α) P := by
  intro cs a rest run
  cases run

theorem Yields.pure {a : α} (holds : P a) : Yields (pure a) P := by
  intro cs b rest run
  cases run
  exact holds

theorem Yields.bind {f : α → Parser β} (first : Yields p P) (next : ∀ a, P a → Yields (f a) Q) :
    Yields (p >>= f) Q := by
  intro cs b rest run
  change (p cs >>= fun r => f r.1 r.2) = _ at run
  obtain ⟨⟨a, middle⟩, early, late⟩ := Option.bind_eq_some_iff.mp run
  exact next a (first cs a middle early) middle b rest late

/-- Whatever the first parser gives. -/
theorem Yields.skip {f : α → Parser β} (next : ∀ a, Yields (f a) Q) : Yields (p >>= f) Q :=
  (Yields.any p).bind fun a _ => next a

theorem Yields.orElse (first : Yields p P) (second : Yields q P) : Yields (p <|> q) P := by
  intro cs a rest run
  change (p cs <|> q cs) = _ at run
  cases ran : p cs with
  | some result =>
    rw [ran] at run
    cases run
    exact first cs a rest ran
  | none =>
    rw [ran] at run
    exact second cs a rest run

theorem Yields.many (item : Yields p P) : ∀ bound : Nat,
    Yields (many p bound) fun as => ∀ a ∈ as, P a
  | 0 => .pure (List.forall_mem_nil _)
  | bound + 1 => by
    intro cs as rest run
    rw [Parser.many] at run
    cases first : p cs with
    | none =>
      simp only [first] at run
      cases run
      exact List.forall_mem_nil _
    | some result =>
      obtain ⟨a, middle⟩ := result
      simp only [first, Option.map_eq_some_iff] at run
      obtain ⟨⟨others, _⟩, later, same⟩ := run
      cases same
      intro b member
      rcases List.mem_cons.mp member with rfl | inOthers
      · exact item cs b middle first
      · exact Yields.many item bound middle others _ later b inOthers

theorem Yields.opt (item : Yields p P) : Yields (opt p) fun found => ∀ a ∈ found, P a := by
  intro cs found rest run
  rw [Parser.opt] at run
  cases first : p cs with
  | none =>
    simp only [first] at run
    cases run
    intro _ member
    cases member
  | some result =>
    simp only [first] at run
    cases run
    rintro b ⟨⟩
    exact item cs _ _ first

theorem Yields.commaSeparated (item : Yields p P) (bound : Nat) :
    Yields (commaSeparated bound p) fun as => ∀ a ∈ as, P a := by
  refine item.bind fun first holds => ?_
  have others : Yields (do word ","; p) P := Yields.skip fun _ => item
  refine (others.many bound).bind fun rest hold => .pure fun a member => ?_
  rcases List.mem_cons.mp member with rfl | later
  · exact holds
  · exact hold a later

theorem Yields.commaEnded (item : Yields p P) (bound : Nat) :
    Yields (commaEnded bound p) fun as => ∀ a ∈ as, P a :=
  (item.commaSeparated bound).bind fun _ hold => Yields.skip fun _ => .pure hold

theorem Yields.entries {items : Parser (List α)} (inner : Yields items fun as => ∀ a ∈ as, P a) :
    Yields (entries items) fun as => ∀ a ∈ as, P a := by
  refine Yields.skip fun _ => inner.opt.bind fun found hold => Yields.skip fun _ => .pure ?_
  cases found with
  | none => exact List.forall_mem_nil _
  | some as => exact hold as rfl

theorem yields_ident : Yields ident IsIdent := by
  intro cs name rest run
  obtain ⟨text, _, taken⟩ := Option.bind_eq_some_iff.mp run
  cases text with
  | nil => cases taken
  | cons c text =>
    rw [takeIdent] at taken
    split at taken
    · next start =>
      cases taken
      intro d member
      rw [String.toList_ofList] at member
      rcases List.mem_cons.mp member with rfl | later
      · -- What may start an identifier may also go on with it.
        simp only [isIdentStart, isIdentRest, Char.isAlphanum, Bool.or_eq_true] at start ⊢
        exact start.imp_left .inl
      · exact List.mem_takeWhile_imp later
    · cases taken

end Combinators

/-! ### Types -/

mutual

/-- The entries of all enumerations in the type are identifiers. -/
def TypeSpec.IdentEntries : TypeSpec → Prop
  | .optional value => value.IdentEntries
  | .list item _ => item.IdentEntries
  | .map key value _ => key.IdentEntries ∧ value.IdentEntries
  | .enum _ entries => ∀ entry ∈ entries, IsIdent entry.1
  | .union _ tag arms => tag.IdentEntries ∧ IdentArms arms
  | .struct fields => IdentFields fields
  | .merge parts => IdentParts parts
  | .packed _ _ _ | .flags _ _ | .literal _ _ | .bytes _ | .named _ => True

def IdentFields : List (FieldSpec TypeSpec) → Prop
  | [] => True
  | ⟨_, _, type⟩ :: rest => type.IdentEntries ∧ IdentFields rest

def IdentParts : List TypeSpec → Prop
  | [] => True
  | part :: rest => part.IdentEntries ∧ IdentParts rest

def IdentArms : List (ArmSpec TypeSpec) → Prop
  | [] => True
  | ⟨_, _, fields⟩ :: rest => IdentFields fields ∧ IdentArms rest

end

theorem identFields_of_forall : ∀ {fields : List (FieldSpec TypeSpec)},
    (∀ f ∈ fields, f.type.IdentEntries) → IdentFields fields
  | [], _ => trivial
  | _ :: _, hold => ⟨hold _ (List.mem_cons_self ..),
    identFields_of_forall fun f member => hold f (List.mem_cons_of_mem _ member)⟩

theorem identParts_of_forall : ∀ {parts : List TypeSpec},
    (∀ part ∈ parts, part.IdentEntries) → IdentParts parts
  | [], _ => trivial
  | _ :: _, hold => ⟨hold _ (List.mem_cons_self ..),
    identParts_of_forall fun f member => hold f (List.mem_cons_of_mem _ member)⟩

theorem identArms_of_forall : ∀ {arms : List (ArmSpec TypeSpec)},
    (∀ arm ∈ arms, IdentFields arm.fields) → IdentArms arms
  | [], _ => trivial
  | _ :: _, hold => ⟨hold _ (List.mem_cons_self ..),
    identArms_of_forall fun f member => hold f (List.mem_cons_of_mem _ member)⟩

theorem yields_field {type : Parser TypeSpec} (types : Yields type TypeSpec.IdentEntries)
    (bound : Nat) : Yields (many (field bound type) bound) IdentFields := by
  have one : Yields (field bound type) fun f => f.type.IdentEntries :=
    Yields.skip fun _ => Yields.skip fun _ => Yields.skip fun _ =>
      types.bind fun _ holds => Yields.skip fun _ => .pure holds
  exact fun cs fields rest run => identFields_of_forall (one.many bound cs fields rest run)

theorem yields_arms {type : Parser TypeSpec} (types : Yields type TypeSpec.IdentEntries)
    (bound : Nat) : Yields (entries (commaEnded bound (arm bound type))) IdentArms := by
  have one : Yields (arm bound type) fun a => IdentFields a.fields :=
    Yields.skip fun _ => Yields.skip fun _ => Yields.skip fun _ => Yields.skip fun _ =>
      Yields.skip fun _ => (yields_field types bound).bind fun _ holds =>
        Yields.skip fun _ => .pure holds
  exact fun cs arms rest run =>
    identArms_of_forall ((one.commaEnded bound).entries cs arms rest run)

theorem yields_enumEntries (bound : Nat) : Yields (entries (commaEnded bound enumEntry))
    fun found => ∀ entry ∈ found, IsIdent entry.1 := by
  have one : Yields enumEntry fun entry => IsIdent entry.1 :=
    yields_ident.bind fun _ holds => Yields.skip fun _ => .pure holds
  exact (one.commaEnded bound).entries

theorem yields_typeSpec (bound : Nat) : Yields (typeSpec bound) TypeSpec.IdentEntries := by
  induction bound with
  | zero => exact Yields.failure
  | succ bound types =>
    rw [typeSpec]
    refine .orElse ?optional <| .orElse ?list <| .orElse ?map <| .orElse ?enum <|
      .orElse ?union <| .orElse ?struct <| .orElse ?merge <| .orElse ?packed <|
      .orElse ?flags <| .orElse ?literal <| .orElse ?bytes ?named
    case optional =>
      exact Yields.skip fun _ => Yields.skip fun _ => types.bind fun _ holds =>
        Yields.skip fun _ => .pure holds
    case list =>
      exact Yields.skip fun _ => Yields.skip fun _ => types.bind fun _ holds =>
        Yields.skip fun _ => Yields.skip fun _ => .pure holds
    case map =>
      exact Yields.skip fun _ => Yields.skip fun _ => types.bind fun _ ofKey =>
        Yields.skip fun _ => types.bind fun _ ofValue => Yields.skip fun _ =>
        Yields.skip fun _ => .pure ⟨ofKey, ofValue⟩
    case enum =>
      exact Yields.skip fun _ => Yields.skip fun _ =>
        (yields_enumEntries bound).bind fun _ holds => .pure holds
    case union =>
      exact Yields.skip fun _ => Yields.skip fun _ => Yields.skip fun _ => Yields.skip fun _ =>
        types.bind fun _ ofTag => Yields.skip fun _ =>
        (yields_arms types bound).bind fun _ ofArms => .pure ⟨ofTag, ofArms⟩
    case struct =>
      exact Yields.skip fun _ => Yields.skip fun _ =>
        (yields_field types bound).bind fun _ holds => Yields.skip fun _ => .pure holds
    case merge =>
      exact Yields.skip fun _ => Yields.skip fun _ => (types.commaSeparated bound).bind
        fun _ holds => Yields.skip fun _ => .pure (identParts_of_forall holds)
    case packed =>
      exact Yields.skip fun _ => Yields.skip fun _ => Yields.skip fun _ => Yields.skip fun _ =>
        Yields.skip fun _ => Yields.skip fun _ => .pure trivial
    case flags =>
      exact Yields.skip fun _ => Yields.skip fun _ => Yields.skip fun _ => Yields.skip fun _ =>
        Yields.skip fun _ => .pure trivial
    case literal =>
      exact Yields.skip fun _ => Yields.skip fun _ => Yields.skip fun _ => Yields.skip fun _ =>
        Yields.skip fun _ => .pure trivial
    case bytes =>
      exact Yields.skip fun _ => Yields.skip fun _ => Yields.skip fun _ =>
        Yields.skip fun _ => .pure trivial
    case named => exact Yields.skip fun _ => .pure trivial

/-! ### Declarations -/

/-- The type and the entries of its enumerations are named by identifiers. -/
def TypeDecl.HasIdents (d : TypeDecl) : Prop := IsIdent d.name ∧ d.type.IdentEntries

/-- The types that a declaration is made of have identifiers for names. -/
def Item.HasIdents : Item → Prop
  | .type d => d.HasIdents
  | .protocol d => ∀ block ∈ d.flows, ∀ p ∈ block.packets, IdentFields p.fields

theorem yields_typeDecl (bound : Nat) (keyword : String) (exported : Bool) :
    Yields (typeDecl bound keyword exported) Item.HasIdents :=
  Yields.skip fun _ => Yields.skip fun _ => yields_ident.bind fun _ named =>
    Yields.skip fun _ => (yields_typeSpec bound).bind fun _ holds =>
    Yields.skip fun _ => .pure ⟨named, holds⟩

theorem yields_protocolDecl (bound : Nat) : Yields (protocolDecl bound) Item.HasIdents := by
  have packet : Yields (packetSpec bound) fun p => IdentFields p.fields :=
    Yields.skip fun _ => Yields.skip fun _ => Yields.skip fun _ => Yields.skip fun _ =>
      (yields_field (yields_typeSpec bound) bound).bind fun _ holds =>
      Yields.skip fun _ => .pure holds
  have flow : Yields (flowSpec bound) fun block => ∀ p ∈ block.packets, IdentFields p.fields :=
    Yields.skip fun _ => Yields.skip fun _ => (packet.many bound).bind fun _ holds =>
      Yields.skip fun _ => .pure holds
  exact Yields.skip fun _ => Yields.skip fun _ => Yields.skip fun _ => Yields.skip fun _ =>
    (flow.many bound).bind fun _ holds => Yields.skip fun _ => .pure holds

/-- Every name that matters is an identifier. -/
theorem idents_of_parseAll {text : String} {ds : List Item}
    (parsed : Item.parseAll? text = some ds) : ∀ d ∈ ds, d.HasIdents := by
  obtain ⟨⟨found, rest⟩, run, rfl⟩ := Option.map_eq_some_iff.mp parsed
  have item (bound : Nat) : Yields
      (typeDecl bound "type" false <|> typeDecl bound "export" true <|> protocolDecl bound)
      Item.HasIdents :=
    .orElse (yields_typeDecl bound _ _) <| .orElse (yields_typeDecl bound _ _) <|
      yields_protocolDecl bound
  have all (bound : Nat) : Yields (items bound) fun ds => ∀ d ∈ ds, d.HasIdents :=
    ((item bound).many bound).bind fun _ holds => Yields.skip fun _ => .pure holds
  exact all _ _ _ _ run

theorem typeIdents {items : List Item} (idents : ∀ d ∈ items, d.HasIdents) :
    ∀ d ∈ items.filterMap Item.type?, d.HasIdents := by
  intro d member
  obtain ⟨item, inside, same⟩ := List.mem_filterMap.mp member
  cases item with
  | type e =>
    cases same
    exact idents _ inside
  | protocol e => cases same

theorem protocolIdents {items : List Item} (idents : ∀ d ∈ items, d.HasIdents) :
    ∀ d ∈ items.filterMap Item.protocol?, ∀ block ∈ d.flows, ∀ p ∈ block.packets,
      IdentFields p.fields := by
  intro d member
  obtain ⟨item, inside, same⟩ := List.mem_filterMap.mp member
  cases item with
  | type e => cases same
  | protocol e =>
    cases same
    exact idents _ inside

theorem typeIdents_of_parseAll {text : String} {ds : List Item}
    (parsed : Item.parseAll? text = some ds) : ∀ d ∈ ds.filterMap Item.type?, d.HasIdents :=
  typeIdents (idents_of_parseAll parsed)

end WireSchema.Source
