import WireSchema.Proofs.Shape.Members
import WireSchema.Proofs.Source.Assembling
import WireSchema.Proofs.Text.Nesting

/-!
# Canonical names tell the members

The canonical name of a struct is a text with closed brackets, so it is taken apart in one way. It
tells which fields the struct stores: structs with one canonical name store fields of the same names,
in the same order, whatever merged parts and references they come from.

## Main results

* `IsWritten.skips`: canonical names have closed brackets.
* `storedNames_unique`: structs with one canonical name store fields of the same names.
-/

namespace WireSchema

open Text

namespace Shape

variable {types : Refs} {rank : String → Nat} {s t : Shape} {fields fields' : List Field}

/-- The canonical name of a shape whose labels stand for themselves. -/
abbrev spelling (s : Shape) : String := nameWith id s

/-- The text of a field in a canonical name. -/
def fieldText (f : Field) : String := f.name ++ ": " ++ f.shape.spelling

theorem namesOfFields_eq (fields : List Field) :
    namesOfFields id fields = fields.map fieldText := by
  induction fields with
  | nil => rfl
  | cons f rest ih => rw [namesOfFields, List.map_cons, ih, fieldText]

theorem namesOfParts_eq (parts : List Shape) :
    namesOfParts id parts = parts.map spelling := by
  induction parts with
  | nil => rfl
  | cons s rest ih => rw [namesOfParts, List.map_cons, ih]

/-- The text of a variant in a canonical name. -/
def variantText (tags : List (String × Literal)) (v : String × Shape) : String :=
  v.1 ++ ((tags.lookup v.1).elim "" ("=" ++ ·.text)) ++ "=>" ++ v.2.spelling

theorem namesOfVariants_eq (tags : List (String × Literal)) (variants : List (String × Shape)) :
    namesOfVariants id tags variants = variants.map (variantText tags) := by
  induction variants with
  | nil => rfl
  | cons v rest ih =>
    rw [namesOfVariants, List.map_cons, ih, variantText]
    cases tags.lookup v.1 <;> rfl

/-! ### Labels stand for themselves -/

theorem IsWritten.declared (written : (Shape.ref label).IsWritten types rank) :
    label ∈ types.map (·.1) := by
  rcases written.field with ⟨bound, wf⟩ | ⟨_, _, _, same⟩
  · exact wf.1
  · cases same

/-- Labels stand for themselves in canonical names. -/
theorem IsWritten.canonicalName_eq (whole : types.Written rank) (written : s.IsWritten types rank) :
    s.canonicalName types = s.spelling := by
  rw [canonicalName, following_eq nameWith_congr (Source.ranked_of_ordered whole.ordered)]
  refine nameWith_congr s fun label member => ?_
  have declared := (written.reached whole (reaches_label member)).declared
  obtain ⟨target, inner, found, _, form, _⟩ := whole.ordered.target declared
  have name := canonicalName_declared whole.ordered declared
  rw [canonicalName, following_eq nameWith_congr (Source.ranked_of_ordered whole.ordered)] at name
  exact name

/-! ### Closed brackets -/

theorem isSimple_of_isIdentRest {c : Char} (ident : Source.Parser.isIdentRest c = true) :
    isSimple c = true := by
  by_contra odd
  have special : c ∈ ['<', '[', '(', '\x7b', '>', ']', ')', '\x7d', ',', '=', '"'] := by
    simp only [isSimple, isStop, isOpening, isClosing, Bool.and_eq_true, Bool.not_eq_true',
      Bool.or_eq_false_iff, List.contains_eq_mem, decide_eq_false_iff_not, bne_iff_ne, ne_eq,
      beq_eq_false_iff_ne, List.mem_cons, List.not_mem_nil, or_false] at odd ⊢
    tauto
  have none : ['<', '[', '(', '\x7b', '>', ']', ')', '\x7d', ',', '=', '"'].all
      (!Source.Parser.isIdentRest ·) = true := by decide
  have other := List.all_eq_true.mp none c special
  rw [ident] at other
  cases other

theorem skips_ident {name : String} (ident : IsIdent name) : Skips name.toList :=
  skips_simple fun c member => isSimple_of_isIdentRest (ident c member)

theorem isSimple_of_isNumberChar {c : Char} (number : isNumberChar c = true) :
    isSimple c = true := by
  simp only [isNumberChar, Bool.or_eq_true, beq_iff_eq] at number
  rcases number with digit | rfl
  · exact isSimple_of_isIdentRest (by simp [Source.Parser.isIdentRest, Char.isAlphanum, digit])
  · decide

theorem skips_number (v : Int) : Skips (toString v).toList :=
  skips_simple fun c member => isSimple_of_isNumberChar (number_chars v c member)

theorem skips_nat (n : Nat) : Skips (toString n).toList := skips_number n

/-- The text is read over, and makes no arrow of an equals sign before it. -/
def IsOperand (text : String) : Prop :=
  ∃ c rest, text.toList = c :: rest ∧ c ≠ '>' ∧ Skips (c :: rest)

theorem isOperand_of_simple {text : String} (nonempty : text ≠ "")
    (simple : ∀ c ∈ text.toList, isSimple c = true) : IsOperand text := by
  cases chars : text.toList with
  | nil => exact absurd (String.toList_eq_nil_iff.mp chars) nonempty
  | cons c rest =>
    rw [chars] at simple
    refine ⟨c, rest, chars, ?_, skips_simple simple⟩
    rintro rfl
    exact absurd (simple '>' List.mem_cons_self) (by decide)

theorem toString_int_nonempty (v : Int) : toString v ≠ "" := by
  intro nothing
  have sign (rest : String) : "-" ++ rest ≠ "" := by
    intro same
    have chars := congrArg String.toList same
    simp at chars
  have digits (n : Nat) : n.repr ≠ "" := by
    intro same
    have chars := congrArg String.toList same
    rw [Nat.toList_repr] at chars
    exact Nat.toDigits_ne_nil chars
  rw [Int.toString_eq_repr, Int.repr_eq_if] at nothing
  split at nothing
  · exact digits _ nothing
  · exact sign _ nothing

theorem isOperand_literal (l : Literal) : IsOperand l.text := by
  cases l with
  | int v kind =>
    exact isOperand_of_simple (toString_int_nonempty v) fun c member =>
      isSimple_of_isNumberChar (number_chars v c member)
  | bool b => cases b <;> exact isOperand_of_simple (by decide) (List.all_eq_true.mp (by decide))
  | str text =>
    have skips := skips_quoted text
    have chars : (Literal.str text).text.toList =
        '"' :: (text.toList.flatMap quotedChar ++ ['"']) := by
      simp [Literal.text, quoted]
    refine ⟨'"', _, chars, by decide, ?_⟩
    rw [← chars]
    exact skips

theorem isOperand_hexLiteral (n : Nat) : IsOperand (Text.hexLiteral 0 n) := by
  refine isOperand_of_simple (fun nothing => ?_) fun c member => ?_
  · have chars := congrArg String.toList nothing
    simp [Text.hexLiteral] at chars
  · rw [Text.hexLiteral, String.toList_append, List.mem_append, Text.hex, Text.padZeros,
      Nat.zero_sub, List.replicate_zero, List.nil_append] at member
    rcases member with mark | digit
    · have marks : "0x".toList.all isSimple = true := by decide
      exact List.all_eq_true.mp marks c mark
    · rw [String.toList_ofList] at digit
      exact isSimple_of_isIdentRest (by
        simp [Source.Parser.isIdentRest, isAlphanum_hexDigits n c digit])

theorem skips_assigned {name value : String} (ident : IsIdent name) (operand : IsOperand value) :
    Skips (name ++ "=" ++ value).toList := by
  obtain ⟨c, rest, chars, other, skips⟩ := operand
  rw [String.append_assoc, String.toList_append, String.toList_append, chars]
  exact (skips_ident ident).append (skips.equals other)

/-- A word with something in angles. -/
theorem skips_applied {word inner : List Char} (simple : word.all isSimple = true)
    (fills : Fills inner) : Skips (word ++ '<' :: (inner ++ ['>'])) :=
  (skips_word simple).append (fills.bracketed rfl rfl)

theorem toList_braced (text : String) :
    (braced text).toList = '\x7b' :: (text.toList ++ ['\x7d']) := by
  simp [braced, String.toList_append]

theorem skips_braced {texts : List String} (skips : ∀ t ∈ texts, Skips t.toList) :
    Skips (braced (joined texts)).toList := by
  rw [toList_braced]
  exact (fills_joined skips).bracketed rfl rfl

theorem skips_fieldText {f : Field} (ident : IsIdent f.name) (skips : Skips f.shape.spelling.toList) :
    Skips (fieldText f).toList := by
  rw [fieldText, String.toList_append, String.toList_append]
  exact ((skips_ident ident).append (skips_word (by decide))).append skips

theorem skips_variantText {tags : List (String × Literal)} {v : String × Shape}
    (ident : IsIdent v.1) (skips : Skips v.2.spelling.toList) :
    Skips (variantText tags v).toList := by
  have tag : Skips ((tags.lookup v.1).elim "" ("=" ++ ·.text)).toList := by
    cases tags.lookup v.1 with
    | none => exact skips_nil
    | some l =>
      obtain ⟨c, rest, chars, other, skips⟩ := isOperand_literal l
      rw [Option.elim_some, String.toList_append, chars]
      exact skips.equals other
  simp only [variantText, String.toList_append]
  exact (((skips_ident ident).append tag).append skips_arrow).append skips

/-- The text of a mask in a canonical name. -/
def maskText (mask : String × Int) : String := mask.1 ++ "=" ++ Text.hexLiteral 0 mask.2.toNat

/-- The text of an entry of an enum in a canonical name. -/
def entryText (entry : String × Int) : String := entry.1 ++ "=" ++ toString entry.2

theorem toList_optional (value : Shape) : (optional value (.prim .bool)).spelling.toList =
    "Option".toList ++ '<' :: (value.spelling.toList ++ ['>']) := by
  simp [spelling, nameWith, String.toList_append]

theorem toList_list (item : Shape) (length : Primitive) : (list item length).spelling.toList =
    "List".toList ++ '<' :: ((joined [item.spelling, length.schemaName]).toList ++ ['>']) := by
  simp [spelling, nameWith, joined, String.intercalate_cons_cons, String.toList_append]

theorem toList_map (key value : Shape) (length : Primitive) :
    (map key value length).spelling.toList = "Map".toList ++
      '<' :: ((joined [key.spelling, value.spelling, length.schemaName]).toList ++ ['>']) := by
  simp [spelling, nameWith, joined, String.intercalate_cons_cons, String.toList_append]

theorem toList_merged (parts : List Shape) : (merged parts).spelling.toList =
    "Merge".toList ++ '<' :: ((joined (parts.map spelling)).toList ++ ['>']) := by
  simp [spelling, nameWith, namesOfParts_eq, String.toList_append]

theorem toList_enum (backing : Primitive) (entries : List (String × Int)) :
    (enum backing entries).spelling.toList =
      ("Enum".toList ++ '<' :: (backing.schemaName.toList ++ ['>'])) ++
        (braced (joined (entries.map entryText))).toList := by
  have texts : entries.map entryText =
      entries.map fun entry => entry.1 ++ "=" ++ toString entry.2 := rfl
  simp [spelling, nameWith, String.toList_append, texts]

theorem toList_union (tagField : String) (tag : Shape) (variants : List (String × Shape))
    (tags : List (String × Literal)) : (union tagField tag variants tags).spelling.toList =
      ("Union".toList ++ '<' :: ((tagField ++ ": " ++ tag.spelling).toList ++ ['>'])) ++
        (braced (joined (variants.map (variantText tags)))).toList := by
  simp [spelling, nameWith, namesOfVariants_eq, String.toList_append]

theorem toList_literal (value : Literal) : (literal value none).spelling.toList =
    "Literal".toList ++ '(' :: (value.text.toList ++ [')']) := by
  simp [spelling, nameWith, String.toList_append]

theorem toList_backed (value : Literal) (p : Primitive) :
    (literal value (some p)).spelling.toList =
      ("Literal".toList ++ '<' :: (p.schemaName.toList ++ ['>'])) ++
        '(' :: (value.text.toList ++ [')']) := by
  simp [spelling, nameWith, String.toList_append]

/-- The canonical name of a packed or flag struct: its word, its backing, its slots and its fields. -/
def groupText (word : List Char) (backing : Primitive) (slots fields : List String) : List Char :=
  word ++ '<' :: (backing.schemaName.toList ++ '>' :: '[' :: ((joined slots).toList ++
    ']' :: '\x7b' :: ((joined fields).toList ++ ['\x7d'])))

theorem toList_packed (backing : Primitive) (widths : List Nat) (fields : List Field) (group : Nat) :
    (packed backing widths fields group).spelling.toList =
      groupText "Packed".toList backing (widths.map toString) (fields.map fieldText) := by
  simp [spelling, nameWith, namesOfFields_eq, groupText, toList_braced, String.toList_append]

theorem toList_flags (backing : Primitive) (masks : List (String × Int)) (fields : List Field)
    (group : Nat) : (flags backing masks fields group).spelling.toList =
      groupText "Flags".toList backing (masks.map maskText) (fields.map fieldText) := by
  have texts : masks.map maskText =
      masks.map fun mask => mask.1 ++ "=" ++ Text.hexLiteral 0 mask.2.toNat := rfl
  simp [spelling, nameWith, namesOfFields_eq, groupText, toList_braced, String.toList_append, texts]

theorem skips_group {word : List Char} (simple : word.all isSimple = true)
    (backing : Primitive) {slots fields : List String} (own : ∀ t ∈ slots, Skips t.toList)
    (members : ∀ t ∈ fields, Skips t.toList) : Skips (groupText word backing slots fields) := by
  have slotted : Skips ('[' :: ((joined slots).toList ++ [']'])) :=
    (fills_joined own).bracketed rfl rfl
  have backed := skips_applied simple (skips_ident (isIdent_schemaName backing)).fills
  have whole := (backed.append slotted).append (skips_braced members)
  rw [toList_braced] at whole
  simpa [groupText] using whole

/-- Canonical names have closed brackets. -/
theorem IsWritten.skips (whole : types.Written rank) (written : s.IsWritten types rank) :
    Skips s.spelling.toList := by
  -- By the weight of the shape: what is behind a label is not looked at, all other parts are lighter.
  induction size : s.weight using Nat.strongRecOn generalizing s with
  | ind w ih =>
    subst size
    have parts (plain : ∀ label, s ≠ .ref label) (part : Shape) (member : part ∈ s.subshapes types) :
        Skips part.spelling.toList :=
      ih _ (weight_lt_of_part plain member) (written.part whole member) rfl
    have named {name : String} (declared : name ∈ types.map (·.1)) : Skips name.toList := by
      obtain ⟨entry, member, rfl⟩ := List.mem_map.mp declared
      exact skips_ident (whole.ordered.idents entry member)
    have own := written.own
    rcases written.field with ⟨bound, wf⟩ | ⟨group, index, kind, rfl⟩
    · cases s with
      | prim p => exact skips_ident (isIdent_schemaName p)
      | optional value presence =>
        cases wf.1
        have inner := parts (by simp) value List.mem_cons_self
        rw [toList_optional]
        exact skips_applied (by decide) inner.fills
      | list item length =>
        have texts : ∀ t ∈ [item.spelling, length.schemaName], Skips t.toList := by
          simp [parts (by simp) item List.mem_cons_self, skips_ident (isIdent_schemaName length)]
        rw [toList_list]
        exact skips_applied (by decide) (fills_joined texts)
      | map key value length =>
        have later := List.mem_cons_of_mem key (List.mem_singleton_self value)
        have texts : ∀ t ∈ [key.spelling, value.spelling, length.schemaName], Skips t.toList := by
          simp [parts (by simp) key List.mem_cons_self, parts (by simp) value later,
            skips_ident (isIdent_schemaName length)]
        rw [toList_map]
        exact skips_applied (by decide) (fills_joined texts)
      | struct fields =>
        rw [spelling, nameWith, namesOfFields_eq]
        refine skips_braced (List.forall_mem_map.mpr fun f member => ?_)
        exact skips_fieldText (own f member) (parts (by simp) _ (List.mem_map_of_mem member))
      | merged members =>
        have texts : ∀ t ∈ members.map spelling, Skips t.toList :=
          List.forall_mem_map.mpr (parts (by simp))
        rw [toList_merged]
        exact skips_applied (by decide) (fills_joined texts)
      | enum backing entries =>
        have texts : ∀ t ∈ entries.map entryText, Skips t.toList :=
          List.forall_mem_map.mpr fun entry member =>
            skips_assigned (wf.2 entry member) (isOperand_literal (.int entry.2 .i32))
        rw [toList_enum]
        exact (skips_applied (by decide) (skips_ident (isIdent_schemaName backing)).fills).append
          (skips_braced texts)
      | union tagField tag variants tags =>
        have head : Fills (tagField ++ ": " ++ tag.spelling).toList := by
          rw [String.toList_append, String.toList_append]
          exact (((skips_ident own.1).append (skips_word (by decide))).append
            (parts (by simp) tag List.mem_cons_self)).fills
        have texts : ∀ t ∈ variants.map (variantText tags), Skips t.toList :=
          List.forall_mem_map.mpr fun v member => skips_variantText (own.2 v member)
            (parts (by simp) _ (List.mem_cons_of_mem _ (List.mem_map_of_mem member)))
        rw [toList_union]
        exact (skips_applied (by decide) head).append (skips_braced texts)
      | packed backing widths fields group =>
        have sizes : ∀ t ∈ widths.map toString, Skips t.toList :=
          List.forall_mem_map.mpr fun n _ => skips_nat n
        have texts : ∀ t ∈ fields.map fieldText, Skips t.toList :=
          List.forall_mem_map.mpr fun f member =>
            skips_fieldText (own f member) (parts (by simp) _ (List.mem_map_of_mem member))
        rw [toList_packed]
        exact skips_group (by decide) backing sizes texts
      | flags backing masks fields group =>
        have values : ∀ t ∈ masks.map maskText, Skips t.toList :=
          List.forall_mem_map.mpr fun m member =>
            skips_assigned (own.1 m member) (isOperand_hexLiteral _)
        have texts : ∀ t ∈ fields.map fieldText, Skips t.toList :=
          List.forall_mem_map.mpr fun f member =>
            skips_fieldText (own.2 f member) (parts (by simp) _ (List.mem_map_of_mem member))
        rw [toList_flags]
        exact skips_group (by decide) backing values texts
      | «alias» name inner => exact named (List.mem_map.mpr ⟨_, wf.1, rfl⟩)
      | exported name inner => exact named (List.mem_map.mpr ⟨_, wf.1, rfl⟩)
      | ref label => exact named wf.1
      | literal value backing =>
        obtain ⟨c, rest, chars, _, skips⟩ := isOperand_literal value
        have inParens : Skips ('(' :: (value.text.toList ++ [')'])) :=
          Fills.bracketed (chars ▸ skips.fills) rfl rfl
        cases backing with
        | none =>
          rw [toList_literal]
          exact (skips_word (by decide)).append inParens
        | some p =>
          rw [toList_backed]
          exact (skips_applied (by decide) (skips_ident (isIdent_schemaName p)).fills).append inParens
      | slot | custom | transformed => exact wf.elim
    · have text : (slot group index kind).spelling.toList = '$' :: (toString index).toList := by
        simp [spelling, nameWith, String.toList_append]
      rw [text]
      exact (skips_nat index).cons (by decide)

/-! ### Stored fields -/

/-- The stored fields behind a label. -/
def fieldsBehind (types : Refs) (label : String) : Except SchemaError (List Field) :=
  match types.lookup label with
  | some target => target.storedFields types
  | none => .error (.unresolvedReference label)

theorem storedFields_eq (ranked : types.Ranked rank) (s : Shape) :
    s.storedFields types = storedFieldsWith types (fieldsBehind types) s :=
  following_eq storedFieldsWith_congr ranked _ s

/-- Merged parts store what each of them stores. -/
theorem storedFields_merged (ranked : types.Ranked rank) {parts : List Shape} :
    (merged parts).storedFields types = .ok fields ↔
      ∃ each, List.Forall₂ (fun part own => part.storedFields types = .ok own) parts each ∧
        fields = each.flatten := by
  have all (parts : List Shape) : ∀ fields, storedFieldsOfParts types (fieldsBehind types) parts =
      .ok fields ↔ ∃ each, List.Forall₂ (fun part own => part.storedFields types = .ok own) parts
        each ∧ fields = each.flatten := by
    induction parts with
    | nil =>
      intro fields
      constructor
      · intro ran
        cases ran
        exact ⟨[], .nil, rfl⟩
      · rintro ⟨_, ⟨⟩, rfl⟩
        rfl
    | cons part rest ih =>
      intro fields
      rw [storedFieldsOfParts, ← storedFields_eq ranked, Source.bind_ok]
      constructor
      · rintro ⟨own, first, ran⟩
        obtain ⟨others, later, same⟩ := Source.bind_ok.mp ran
        obtain ⟨each, all, rfl⟩ := (ih others).mp later
        cases same
        exact ⟨own :: each, .cons first all, rfl⟩
      · rintro ⟨_, _ | ⟨first, all⟩, rfl⟩
        exact ⟨_, first, Source.bind_ok.mpr ⟨_, (ih _).mpr ⟨_, all, rfl⟩, rfl⟩⟩
  rw [storedFields_eq ranked]
  exact all parts fields

theorem storedFields_inner (ranked : types.Ranked rank) {name : String}
    (form : s = .alias name t ∨ s = .exported name t) :
    s.storedFields types = t.storedFields types := by
  rw [storedFields_eq ranked, storedFields_eq ranked t]
  rcases form with rfl | rfl <;> rfl

theorem storedFields_ref (ranked : types.Ranked rank) {label : String}
    (found : types.lookup label = some t) :
    (ref label).storedFields types = t.storedFields types := by
  rw [storedFields_eq ranked]
  simp only [storedFieldsWith, fieldsBehind, found]

/-- A shape that is known by a name stores what the declared type of that name stores. -/
theorem IsWritten.storedFields_named (whole : types.Written rank) (written : s.IsWritten types rank)
    (named : ¬s.IsDirect) : ∃ inner, types.Declares s.spelling inner ∧
      s.storedFields types = inner.storedFields types := by
  have ranked := Source.ranked_of_ordered whole.ordered
  rcases written.field with ⟨bound, wf⟩ | ⟨_, _, _, rfl⟩
  · cases s with
    | «alias» name inner => exact ⟨inner, .inl wf.1, storedFields_inner ranked (.inl rfl)⟩
    | exported name inner => exact ⟨inner, .inr wf.1, storedFields_inner ranked (.inr rfl)⟩
    | ref label =>
      obtain ⟨target, inner, found, member, form, _⟩ := whole.ordered.target wf.1
      have same := (storedFields_ref ranked found).trans (storedFields_inner ranked form)
      rcases form with rfl | rfl
      · exact ⟨inner, .inl member, same⟩
      · exact ⟨inner, .inr member, same⟩
    | _ => exact absurd trivial named
  · exact absurd trivial named

/-! ### Heads -/

theorem head_of_chars {text : String} {word rest : List Char} {c : Char}
    (chars : text.toList = word ++ c :: rest)
    (idents : word.all Source.Parser.isIdentRest = true)
    (mark : Source.Parser.isIdentRest c = false) : head text = (word, some c) := by
  have whole : text = String.ofList (word ++ [c]) ++ String.ofList rest := by
    rw [← String.ofList_append, List.append_assoc, List.singleton_append, ← chars,
      String.ofList_toList]
  rw [whole]
  exact head_append word c String.toList_ofList idents mark _

/-- The heads of the canonical names of literals. -/
def literalHeads : List (List Char × Option Char) :=
  [("Literal".toList, some '<'), ("Literal".toList, some '(')]

/-- What is not stored is told by the head of its canonical name. -/
theorem IsWritten.isStored_iff (whole : types.Written rank) (written : s.IsWritten types rank) :
    s.isStored = true ↔ head s.spelling ∉ literalHeads := by
  have ident {text : String} (ident : IsIdent text) : head text ∉ literalHeads := by
    rw [head_of_ident ident]
    simp [literalHeads]
  have named {name : String} (declared : name ∈ types.map (·.1)) : head name ∉ literalHeads := by
    obtain ⟨entry, member, rfl⟩ := List.mem_map.mp declared
    exact ident (whole.ordered.idents entry member)
  have nominal {h : List Char × Option Char} (member : h ∈ enumHead :: groupHeads) :
      h ∉ literalHeads := by
    have apart : ∀ h ∈ enumHead :: groupHeads, h ∉ literalHeads := by decide
    exact apart h member
  have group (nominal' : s.isNominal = true) (other : ∀ backing entries, s ≠ .enum backing entries) :
      head s.spelling ∉ literalHeads := by
    rw [← written.canonicalName_eq whole]
    exact nominal (List.mem_cons_of_mem _ (head_group types nominal' other))
  have own := written.canonicalName_eq whole
  rcases written.field with ⟨bound, wf⟩ | ⟨index, number, kind, rfl⟩
  · cases s with
    | literal value backing =>
      refine iff_of_false Bool.false_ne_true fun other => other ?_
      cases backing with
      | none =>
        rw [head_of_chars (toList_literal value) (by decide) (by decide)]
        decide
      | some p =>
        simp only [spelling, nameWith, String.append_assoc]
        rw [head_append "Literal".toList '<' rfl (by decide) (by decide)]
        decide
    | prim p => exact iff_of_true rfl (ident (isIdent_schemaName p))
    | optional value presence =>
      cases wf.1
      refine iff_of_true rfl ?_
      rw [head_of_chars (toList_optional value) (by decide) (by decide)]
      decide
    | list item length =>
      refine iff_of_true rfl ?_
      rw [head_of_chars (toList_list item length) (by decide) (by decide)]
      decide
    | map key value length =>
      refine iff_of_true rfl ?_
      rw [head_of_chars (toList_map key value length) (by decide) (by decide)]
      decide
    | enum backing entries =>
      refine iff_of_true rfl ?_
      rw [← own, head_enum]
      decide
    | struct | merged | union | packed | flags => exact iff_of_true rfl (group rfl nofun)
    | «alias» name inner => exact iff_of_true rfl (named (List.mem_map.mpr ⟨_, wf.1, rfl⟩))
    | exported name inner => exact iff_of_true rfl (named (List.mem_map.mpr ⟨_, wf.1, rfl⟩))
    | ref label => exact iff_of_true rfl (named wf.1)
    | slot | custom | transformed => exact wf.elim
  · refine iff_of_true rfl ?_
    rw [spelling, nameWith, head_append [] '$' rfl (by decide) (by decide)]
    decide

/-- The heads of the canonical names of structs. -/
def structHead : Shape → Option (List Char × Char)
  | .struct _ => some ([], '\x7b')
  | .merged _ => some ("Merge".toList, '<')
  | .packed _ _ _ _ => some ("Packed".toList, '<')
  | .flags _ _ _ _ => some ("Flags".toList, '<')
  | _ => none

/-- What kind of struct a shape is, is told by the head of its canonical name. -/
theorem IsWritten.structHead_eq (whole : types.Written rank) (written : s.IsWritten types rank)
    (ran : s.storedFields types = .ok fields) :
    s.structHead = (head s.spelling).2.map fun c => ((head s.spelling).1, c) := by
  have named {name : String} (declared : name ∈ types.map (·.1)) : (head name).2 = none := by
    obtain ⟨entry, member, rfl⟩ := List.mem_map.mp declared
    rw [head_of_ident (whole.ordered.idents entry member)]
  have ranked := Source.ranked_of_ordered whole.ordered
  rcases written.field with ⟨bound, wf⟩ | ⟨_, _, _, rfl⟩
  · cases s with
    | struct fields =>
      rw [spelling, nameWith, braced, String.append_assoc,
        head_append [] '\x7b' rfl (by decide) (by decide)]
      rfl
    | merged parts =>
      rw [head_of_chars (toList_merged parts) (by decide) (by decide)]
      rfl
    | packed backing widths fields group =>
      rw [head_of_chars (toList_packed backing widths fields group) (by decide) (by decide)]
      rfl
    | flags backing masks fields group =>
      rw [head_of_chars (toList_flags backing masks fields group) (by decide) (by decide)]
      rfl
    | «alias» name inner =>
      have plain : (head name).2 = none := named (List.mem_map.mpr ⟨_, wf.1, rfl⟩)
      simp only [structHead, spelling, nameWith, plain, Option.map_none]
    | exported name inner =>
      have plain : (head name).2 = none := named (List.mem_map.mpr ⟨_, wf.1, rfl⟩)
      simp only [structHead, spelling, nameWith, plain, Option.map_none]
    | ref label =>
      have plain : (head label).2 = none := named wf.1
      simp only [structHead, spelling, nameWith, id, plain, Option.map_none]
    | _ =>
      rw [storedFields_eq ranked] at ran
      cases ran
  · rw [storedFields_eq ranked] at ran
    cases ran

/-! ### Structs with one name -/

/-- The text of a field tells its name and whether it is stored. -/
theorem fieldText_unique (whole : types.Written rank) {f f' : Field} (ident : IsIdent f.name)
    (ident' : IsIdent f'.name) (written : f.shape.IsWritten types rank)
    (written' : f'.shape.IsWritten types rank) (same : fieldText f = fieldText f') :
    f.name = f'.name ∧ f.shape.isStored = f'.shape.isStored := by
  have chars := congrArg String.toList same
  simp only [fieldText, String.toList_append, List.append_assoc] at chars
  have closing : Source.Parser.isIdentRest ':' = false := by decide
  obtain ⟨names, _, rest⟩ := WireSchema.cut_unique ident ident' closing closing chars
  have spelled : f.shape.spelling = f'.shape.spelling := by
    simpa [String.toList_inj] using rest
  refine ⟨String.toList_inj.mp names, Bool.eq_iff_iff.mpr ?_⟩
  rw [written.isStored_iff whole, written'.isStored_iff whole, spelled]

/-- The texts of fields tell the names of those that are stored. -/
theorem storedNames_of_texts (whole : types.Written rank)
    (idents : ∀ f ∈ fields, IsIdent f.name ∧ f.shape.IsWritten types rank)
    (idents' : ∀ f ∈ fields', IsIdent f.name ∧ f.shape.IsWritten types rank)
    (same : fields.map fieldText = fields'.map fieldText) :
    (fields.filter (·.shape.isStored)).map (·.name) =
      (fields'.filter (·.shape.isStored)).map (·.name) := by
  induction fields generalizing fields' with
  | nil =>
    cases fields' with
    | nil => rfl
    | cons => cases same
  | cons f rest ih =>
    cases fields' with
    | nil => cases same
    | cons f' rest' =>
      obtain ⟨text, texts⟩ := List.cons.inj same
      obtain ⟨⟨ident, written⟩, others⟩ := List.forall_mem_cons.mp idents
      obtain ⟨⟨ident', written'⟩, others'⟩ := List.forall_mem_cons.mp idents'
      obtain ⟨name, stored⟩ := fieldText_unique whole ident ident' written written' text
      have later := ih others others' texts
      simp only [List.filter_cons, stored]
      split
      · rw [List.map_cons, List.map_cons, name, later]
      · exact later

theorem isDirect_iff (ranked : types.Ranked rank) (ran : s.storedFields types = .ok fields) :
    s.IsDirect ↔ s.structHead ≠ none := by
  rw [storedFields_eq ranked] at ran
  cases s with
  | struct | merged | packed | flags => exact iff_of_true trivial nofun
  | «alias» | exported | ref => exact iff_of_false id fun other => other rfl
  | _ => cases ran

theorem joinedFields_unique (whole : types.Written rank) {rest rest' : List Char}
    (idents : ∀ f ∈ fields, IsIdent f.name ∧ f.shape.IsWritten types rank)
    (idents' : ∀ f ∈ fields', IsIdent f.name ∧ f.shape.IsWritten types rank)
    (same : (joined (fields.map fieldText)).toList ++ '\x7d' :: rest =
      (joined (fields'.map fieldText)).toList ++ '\x7d' :: rest') :
    (fields.filter (·.shape.isStored)).map (·.name) =
      (fields'.filter (·.shape.isStored)).map (·.name) := by
  have texts {fields : List Field}
      (idents : ∀ f ∈ fields, IsIdent f.name ∧ f.shape.IsWritten types rank) :
      ∀ t ∈ fields.map fieldText, Skips t.toList ∧ t ≠ "" := by
    refine List.forall_mem_map.mpr fun f member => ?_
    obtain ⟨ident, written⟩ := idents f member
    refine ⟨skips_fieldText ident (written.skips whole), fun nothing => ?_⟩
    have chars := congrArg String.toList nothing
    simp [fieldText] at chars
  exact storedNames_of_texts whole idents idents'
    (joined_unique (texts idents) (texts idents') rfl same).1

theorem IsWritten.members (whole : types.Written rank) (written : s.IsWritten types rank)
    (parts : s.subshapes types = fields.map (·.shape)) (own : ∀ f ∈ fields, IsIdent f.name) :
    ∀ f ∈ fields, IsIdent f.name ∧ f.shape.IsWritten types rank :=
  fun f member => ⟨own f member, written.member whole parts f member⟩

theorem groupText_unique (whole : types.Written rank) {word : List Char} {backing backing' : Primitive}
    {slots slots' : List String}
    (operands : ∀ t ∈ slots, Skips t.toList ∧ t ≠ "")
    (operands' : ∀ t ∈ slots', Skips t.toList ∧ t ≠ "")
    (idents : ∀ f ∈ fields, IsIdent f.name ∧ f.shape.IsWritten types rank)
    (idents' : ∀ f ∈ fields', IsIdent f.name ∧ f.shape.IsWritten types rank)
    (same : groupText word backing slots (fields.map fieldText) =
      groupText word backing' slots' (fields'.map fieldText)) :
    (fields.filter (·.shape.isStored)).map (·.name) =
      (fields'.filter (·.shape.isStored)).map (·.name) := by
  have afterWord := (List.cons.inj (List.append_cancel_left same)).2
  have backed (p : Primitive) : Skips p.schemaName.toList := skips_ident (isIdent_schemaName p)
  obtain ⟨_, _, afterBacking⟩ := (backed backing).cut_unique (backed backing') rfl rfl afterWord
  obtain ⟨_, afterSlots⟩ := joined_unique operands operands' rfl (List.cons.inj afterBacking).2
  exact joinedFields_unique whole idents idents' (List.cons.inj afterSlots).2

theorem maskTexts {masks : List (String × Int)} (idents : ∀ entry ∈ masks, IsIdent entry.1) :
    ∀ t ∈ masks.map maskText, Skips t.toList ∧ t ≠ "" := by
  refine List.forall_mem_map.mpr fun m member => ⟨?_, fun nothing => ?_⟩
  · exact skips_assigned (idents m member) (isOperand_hexLiteral _)
  · have chars := congrArg String.toList nothing
    simp [maskText] at chars

/-- Merged shapes with one canonical name have parts with the same canonical names. -/
theorem parts_unique (whole : types.Written rank) {parts parts' : List Shape}
    (written : (merged parts).IsWritten types rank) (written' : (merged parts').IsWritten types rank)
    (same : (merged parts).spelling = (merged parts').spelling) :
    parts.map spelling = parts'.map spelling := by
  have texts {parts : List Shape} (written : (merged parts).IsWritten types rank) :
      ∀ t ∈ parts.map spelling, Skips t.toList :=
    List.forall_mem_map.mpr fun part member => (written.part whole member).skips whole
  have skips := texts written
  have skips' := texts written'
  have chars := congrArg String.toList same
  rw [toList_merged, toList_merged] at chars
  have inner := (List.cons.inj (List.append_cancel_left chars)).2
  cases parts with
  | nil => exact absurd rfl written.own
  | cons first rest =>
    cases parts' with
    | nil => exact absurd rfl written'.own
    | cons first' rest' => exact (joined_cons_unique skips skips' rfl inner).1

theorem storedNames_of_parts {parts parts' : List Shape} {each each' : List (List Field)}
    (unique : ∀ p ∈ parts, ∀ p' ∈ parts', ∀ own own', p.spelling = p'.spelling →
      p.storedFields types = .ok own → p'.storedFields types = .ok own' →
      own.map (·.name) = own'.map (·.name))
    (all : List.Forall₂ (fun part own => part.storedFields types = .ok own) parts each)
    (all' : List.Forall₂ (fun part own => part.storedFields types = .ok own) parts' each')
    (same : parts.map spelling = parts'.map spelling) :
    each.flatten.map (·.name) = each'.flatten.map (·.name) := by
  induction all generalizing parts' each' with
  | nil =>
    cases all' with
    | nil => rfl
    | cons => cases same
  | cons first others ih =>
    cases all' with
    | nil => cases same
    | cons first' others' =>
      obtain ⟨spelled, later⟩ := List.cons.inj same
      have here := unique _ List.mem_cons_self _ List.mem_cons_self _ _ spelled first first'
      have rest := ih (fun p member p' member' => unique p (List.mem_cons_of_mem _ member) p'
        (List.mem_cons_of_mem _ member')) others' later
      rw [List.flatten_cons, List.flatten_cons, List.map_append, List.map_append, here, rest]

/-- Structs with one canonical name store fields of the same names. -/
theorem storedNames_unique (whole : types.Written rank) (written : s.IsWritten types rank)
    (written' : t.IsWritten types rank) (same : s.spelling = t.spelling)
    (ran : s.storedFields types = .ok fields) (ran' : t.storedFields types = .ok fields') :
    fields.map (·.name) = fields'.map (·.name) := by
  have ranked := Source.ranked_of_ordered whole.ordered
  -- By the weight of the first shape. Only parts of merged structs are gone into, and these are lighter.
  induction size : s.weight using Nat.strongRecOn generalizing s t fields fields' with
  | ind w ih =>
    subst size
    have heads : s.structHead = t.structHead := by
      rw [written.structHead_eq whole ran, written'.structHead_eq whole ran', same]
    by_cases direct : s.IsDirect
    · have direct' : t.IsDirect := by
        rw [isDirect_iff ranked ran', ← heads, ← isDirect_iff ranked ran]
        exact direct
      have chars := congrArg String.toList same
      cases s with
      | struct own =>
        cases t with
        | struct own' =>
          simp only [spelling, nameWith, namesOfFields_eq, toList_braced, List.cons.injEq,
            true_and] at chars
          rw [storedFields_eq ranked] at ran ran'
          cases ran
          cases ran'
          exact joinedFields_unique whole (written.members whole rfl written.own)
            (written'.members whole rfl written'.own) chars
        | _ => simp [structHead] at heads
      | merged parts =>
        cases t with
        | merged parts' =>
          obtain ⟨each, all, rfl⟩ := (storedFields_merged ranked).mp ran
          obtain ⟨each', all', rfl⟩ := (storedFields_merged ranked).mp ran'
          refine storedNames_of_parts (fun p member p' member' own own' spelled first first' => ?_)
            all all' (parts_unique whole written written' same)
          have among : p ∈ (merged parts).subshapes types := member
          exact ih _ (weight_lt_of_part nofun among) (written.part whole among)
            (written'.part whole member') spelled first first' rfl
        | _ => simp [structHead] at heads
      | packed backing widths own group =>
        cases t with
        | packed backing' widths' own' group' =>
          rw [toList_packed, toList_packed] at chars
          rw [storedFields_eq ranked] at ran ran'
          cases ran
          cases ran'
          have sizes (widths : List Nat) :
              ∀ t ∈ widths.map toString, Skips t.toList ∧ t ≠ "" :=
            List.forall_mem_map.mpr fun n _ => ⟨skips_nat n, toString_int_nonempty n⟩
          exact groupText_unique whole (sizes widths) (sizes widths')
            (written.members whole rfl written.own) (written'.members whole rfl written'.own) chars
        | _ => simp [structHead] at heads
      | flags backing masks own group =>
        cases t with
        | flags backing' masks' own' group' =>
          rw [toList_flags, toList_flags] at chars
          rw [storedFields_eq ranked] at ran ran'
          cases ran
          cases ran'
          exact groupText_unique whole (maskTexts written.own.1) (maskTexts written'.own.1)
            (written.members whole rfl written.own.2) (written'.members whole rfl written'.own.2)
            chars
        | _ => simp [structHead] at heads
      | «alias» | exported | ref => exact direct.elim
      | _ =>
        rw [storedFields_eq ranked] at ran
        cases ran
    · have direct' : ¬t.IsDirect := by
        rw [isDirect_iff ranked ran', ← heads, ← isDirect_iff ranked ran]
        exact direct
      -- Both are known by the name of one declared type.
      obtain ⟨inner, declares, stored⟩ := written.storedFields_named whole direct
      obtain ⟨inner', declares', stored'⟩ := written'.storedFields_named whole direct'
      rw [same] at declares
      cases whole.ordered.declares_unique declares declares'
      rw [stored', ← stored, ran] at ran'
      rw [Except.ok.inj ran']

end Shape

end WireSchema
