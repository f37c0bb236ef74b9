import WireSchema.Proofs.Layout.WellFormed

/-!
# Canonical names tell shapes apart

The canonical name of a struct, an enumeration or a union is never that of another kind of shape, and
that of an enumeration tells its backing and its entries.
-/

namespace WireSchema

open Source.Parser (isIdentRest)

/-- A text is cut in one way after the characters of a class. -/
theorem cut_unique {P : Char → Bool} {front front' back back' : List Char} {c c' : Char}
    (all : ∀ x ∈ front, P x = true) (all' : ∀ x ∈ front', P x = true) (stop : P c = false)
    (stop' : P c' = false) (same : front ++ c :: back = front' ++ c' :: back') :
    front = front' ∧ c = c' ∧ back = back' := by
  induction front generalizing front' with
  | nil =>
    cases front' with
    | nil => simpa using same
    | cons x rest =>
      rw [List.nil_append, List.cons_append, List.cons.injEq] at same
      rw [same.1, all' x (by simp)] at stop
      cases stop
  | cons x rest ih =>
    cases front' with
    | nil =>
      rw [List.nil_append, List.cons_append, List.cons.injEq] at same
      rw [← same.1, all x (by simp)] at stop'
      cases stop'
    | cons y rest' =>
      rw [List.cons_append, List.cons_append, List.cons.injEq] at same
      obtain ⟨rfl, same⟩ := same
      obtain ⟨rfl, rfl, rfl⟩ := ih (fun z member => all z (by simp [member]))
        (fun z member => all' z (by simp [member])) same
      exact ⟨rfl, rfl, rfl⟩

/-! ### Numbers -/

/-- The characters of decimal numbers. -/
def isNumberChar (c : Char) : Bool := c.isDigit || c == '-'

theorem Nat.repr_unique {m n : Nat} (same : m.repr = n.repr) : m = n := by
  have digits : Nat.toDigits 10 m = Nat.toDigits 10 n := by
    rw [← Nat.toList_repr, ← Nat.toList_repr, same]
  rw [← Nat.ofDigitChars_ten_toDigits (n := m), digits, Nat.ofDigitChars_ten_toDigits]

theorem digits_repr (n : Nat) : ∀ c ∈ n.repr.toList, c.isDigit = true := by
  intro c member
  rw [Nat.toList_repr] at member
  exact Nat.isDigit_of_mem_toDigits (by decide) (by decide) member

theorem number_chars (v : Int) : ∀ c ∈ (toString v).toList, isNumberChar c = true := by
  intro c member
  rw [Int.toString_eq_repr, Int.repr_eq_if] at member
  split at member
  · rw [isNumberChar, digits_repr _ c member, Bool.true_or]
  · rw [String.toList_append, List.mem_append] at member
    rcases member with sign | digit
    · have minus : c = '-' := by simpa using sign
      rw [isNumberChar, minus]
      decide
    · rw [isNumberChar, digits_repr _ c digit, Bool.true_or]

theorem toString_int_unique {v w : Int} (same : toString v = toString w) : v = w := by
  -- A number begins with the sign exactly if it is negative.
  have apart (n : Nat) (rest : String) (equal : n.repr = "-" ++ rest) : False := by
    have first : '-' ∈ n.repr.toList := by
      rw [equal, String.toList_append]
      exact List.mem_append_left _ (by simp)
    have digit := digits_repr n '-' first
    cases digit
  rw [Int.toString_eq_repr, Int.toString_eq_repr, Int.repr_eq_if, Int.repr_eq_if] at same
  split at same
  case isTrue positive =>
    split at same
    case isTrue positive' =>
      have equal := Nat.repr_unique same
      omega
    case isFalse => exact (apart _ _ same).elim
  case isFalse negative =>
    split at same
    case isTrue => exact (apart _ _ same.symm).elim
    case isFalse negative' =>
      have equal := Nat.repr_unique (String.append_right_inj _ |>.mp same)
      omega

/-! ### Heads -/

/-- The identifier that a text begins with, and the character after it. -/
def head (text : String) : List Char × Option Char :=
  (text.toList.takeWhile isIdentRest, (text.toList.dropWhile isIdentRest).head?)

/-- A word and a mark at the front are the head. -/
theorem head_append {front : String} (word : List Char) (c : Char)
    (begins : front.toList = word ++ [c]) (idents : word.all isIdentRest = true)
    (mark : isIdentRest c = false) (rest : String) : head (front ++ rest) = (word, some c) := by
  have all : ∀ x ∈ word, isIdentRest x = true := List.all_eq_true.mp idents
  have whole : (front ++ rest).toList = word ++ c :: rest.toList := by
    rw [String.toList_append, begins, List.append_assoc, List.singleton_append]
  rw [head, whole, List.takeWhile_append_of_pos all, List.dropWhile_append_of_pos all,
    List.takeWhile_cons_of_neg (by simp [mark]), List.dropWhile_cons_of_neg (by simp [mark]),
    List.append_nil, List.head?_cons]

theorem head_of_ident {text : String} (ident : IsIdent text) : head text = (text.toList, none) := by
  have whole : text.toList.takeWhile isIdentRest = text.toList := by
    rw [← List.append_nil text.toList, List.takeWhile_append_of_pos ident, List.takeWhile_nil]
  have nothing : text.toList.dropWhile isIdentRest = [] := by
    rw [← List.append_nil text.toList, List.dropWhile_append_of_pos ident, List.dropWhile_nil]
  rw [head, whole, nothing, List.head?_nil]

theorem isIdent_schemaName (p : Primitive) : IsIdent p.schemaName := by
  cases p with
  | fixedBytes n =>
    intro c member
    have spelled : (Primitive.fixedBytes n).schemaName = "FixedBytes" ++ n.repr := by
      simp [Primitive.schemaName, toString]
    rw [spelled, String.toList_append, List.mem_append] at member
    rcases member with word | digit
    · have letters : "FixedBytes".toList.all isIdentRest = true := by decide
      exact List.all_eq_true.mp letters c word
    · simp [isIdentRest, Char.isAlphanum, digits_repr n c digit]
  | _ => exact List.all_eq_true.mp (by decide)

namespace Shape

/-- The heads of the canonical names of shapes that are declared, without enumerations. -/
def groupHeads : List (List Char × Option Char) :=
  [([], some '\x7b'), ("Merge".toList, some '<'), ("Union".toList, some '<'),
    ("Packed".toList, some '<'), ("Flags".toList, some '<')]

/-- The head of the canonical names of enumerations. -/
def enumHead : List Char × Option Char := ("Enum".toList, some '<')

theorem canonicalName_eq (refs : Refs) (s : Shape) :
    ∃ nameOf, s.canonicalName refs = nameWith nameOf s := by
  unfold canonicalName
  cases refs.length with
  | zero => exact ⟨_, rfl⟩
  | succ fuel => exact ⟨_, rfl⟩

theorem head_enum (refs : Refs) (backing : Primitive) (entries : List (String × Int)) :
    head ((Shape.enum backing entries).canonicalName refs) = enumHead := by
  obtain ⟨nameOf, same⟩ := canonicalName_eq refs (.enum backing entries)
  rw [same, nameWith, String.append_assoc, String.append_assoc]
  exact head_append "Enum".toList '<' rfl (by decide) (by decide) _

theorem head_group (refs : Refs) {s : Shape} (nominal : s.isNominal = true)
    (other : ∀ backing entries, s ≠ .enum backing entries) :
    head (s.canonicalName refs) ∈ groupHeads := by
  obtain ⟨nameOf, same⟩ := canonicalName_eq refs s
  rw [same]
  cases s with
  | enum backing entries => exact absurd rfl (other backing entries)
  | struct fields =>
    rw [nameWith, braced, String.append_assoc,
      head_append [] '\x7b' rfl (by decide) (by decide)]
    decide
  | merged parts =>
    rw [nameWith, String.append_assoc,
      head_append "Merge".toList '<' rfl (by decide) (by decide)]
    decide
  | union tagField tag variants tags =>
    simp only [nameWith, String.append_assoc]
    rw [head_append "Union".toList '<' rfl (by decide) (by decide)]
    decide
  | packed backing widths fields group =>
    simp only [nameWith, String.append_assoc]
    rw [head_append "Packed".toList '<' rfl (by decide) (by decide)]
    decide
  | flags backing masks fields group =>
    simp only [nameWith, String.append_assoc]
    rw [head_append "Flags".toList '<' rfl (by decide) (by decide)]
    decide
  | _ => cases nominal

/-- The name of a declared type is its own canonical name. -/
theorem canonicalName_declared {types : Refs} {rank : String → Nat} (ordered : types.Ordered rank)
    {label : String} (declared : label ∈ types.map (·.1)) :
    (Shape.ref label).canonicalName types = label := by
  obtain ⟨s, inner, found, _, form, _, below⟩ := ordered.target declared
  obtain ⟨fuel, enough⟩ : ∃ fuel, types.length = fuel + 1 := ⟨types.length - 1, by omega⟩
  have name (nameOf : String → String) : nameWith nameOf s = label := by
    rcases form with rfl | rfl <;> simp only [nameWith]
  simp only [canonicalName, enough, following, nameWith, found]
  cases fuel with
  | zero => exact name _
  | succ fuel => exact name _

/-- The canonical names of shapes that are not declared have other heads. -/
theorem head_plain {types : Refs} {rank : String → Nat} {bound : Nat} (ordered : types.Ordered rank)
    {s : Shape} (wf : s.WellFormed types rank bound) (plain : s.isNominal = false) :
    head (s.canonicalName types) ∉ enumHead :: groupHeads := by
  have named {name : String} (declared : name ∈ types.map (·.1)) : IsIdent name := by
    obtain ⟨entry, member, rfl⟩ := List.mem_map.mp declared
    exact ordered.idents entry member
  have ident {text : String} (ident : IsIdent text) : head text ∉ enumHead :: groupHeads := by
    rw [head_of_ident ident]
    simp [enumHead, groupHeads]
  obtain ⟨nameOf, same⟩ := canonicalName_eq types s
  cases s with
  | prim p =>
    rw [same, nameWith]
    exact ident (isIdent_schemaName p)
  | optional value presence =>
    cases wf.1
    rw [same, nameWith, String.append_assoc,
      head_append "Option".toList '<' rfl (by decide) (by decide)]
    decide
  | list item length =>
    rw [same]
    simp only [nameWith, String.append_assoc]
    rw [head_append "List".toList '<' rfl (by decide) (by decide)]
    decide
  | map key value length =>
    rw [same]
    simp only [nameWith, String.append_assoc]
    rw [head_append "Map".toList '<' rfl (by decide) (by decide)]
    decide
  | «alias» name inner =>
    rw [same, nameWith]
    exact ident (named (List.mem_map.mpr ⟨_, wf.1, rfl⟩))
  | exported name inner =>
    rw [same, nameWith]
    exact ident (named (List.mem_map.mpr ⟨_, wf.1, rfl⟩))
  | ref label =>
    rw [canonicalName_declared ordered wf.1]
    exact ident (named wf.1)
  | literal value backing =>
    cases backing with
    | none =>
      rw [same]
      simp only [nameWith, String.append_assoc]
      rw [head_append "Literal".toList '(' rfl (by decide) (by decide)]
      decide
    | some p =>
      rw [same]
      simp only [nameWith, String.append_assoc]
      rw [head_append "Literal".toList '<' rfl (by decide) (by decide)]
      decide
  | slot | custom | transformed => exact wf.elim
  | struct | merged | enum | union | packed | flags => cases plain

/-! ### Enumerations -/

/-- The text of the entries of an enumeration, up to the closing brace. -/
def entriesText (entries : List (String × Int)) : List Char :=
  (joined (entries.map fun (n, v) => n ++ "=" ++ toString v)).toList ++ ['\x7d']

theorem entriesText_cons (name : String) (id : Int) (rest : List (String × Int)) :
    ∃ mark more, isNumberChar mark = false ∧
      entriesText ((name, id) :: rest) = name.toList ++ '=' :: ((toString id).toList ++ mark :: more) ∧
      (mark = '\x7d' ∧ rest = [] ∨ mark = ',' ∧ more = ' ' :: entriesText rest ∧ rest ≠ []) := by
  cases rest with
  | nil =>
    refine ⟨'\x7d', [], by decide, ?_, .inl ⟨rfl, rfl⟩⟩
    simp [entriesText, joined, String.toList_append]
  | cons entry rest =>
    refine ⟨',', ' ' :: entriesText (entry :: rest), by decide, ?_, .inr ⟨rfl, rfl, by simp⟩⟩
    simp [entriesText, joined, String.intercalate_cons_cons, String.toList_append]

theorem entriesText_unique (entries entries' : List (String × Int))
    (idents : ∀ entry ∈ entries, IsIdent entry.1) (idents' : ∀ entry ∈ entries', IsIdent entry.1)
    (same : entriesText entries = entriesText entries') : entries = entries' := by
  induction entries generalizing entries' with
  | nil =>
    cases entries' with
    | nil => rfl
    | cons entry rest =>
      obtain ⟨mark, more, _, spelled, _⟩ := entriesText_cons entry.1 entry.2 rest
      rw [spelled] at same
      have nothing : entriesText [] = [] ++ '\x7d' :: [] := by simp [entriesText, joined]
      rw [nothing] at same
      have cut := cut_unique (P := isIdentRest) (by simp) (idents' entry (by simp)) (by decide)
        (by decide) same
      exact absurd cut.2.1 (by decide)
  | cons entry rest ih =>
    obtain ⟨name, id⟩ := entry
    obtain ⟨mark, more, stop, spelled, ends⟩ := entriesText_cons name id rest
    cases entries' with
    | nil =>
      rw [spelled] at same
      have nothing : entriesText [] = [] ++ '\x7d' :: [] := by simp [entriesText, joined]
      rw [nothing] at same
      have cut := cut_unique (P := isIdentRest) (idents (name, id) (by simp)) (by simp) (by decide)
        (by decide) same
      exact absurd cut.2.1 (by decide)
    | cons entry' rest' =>
      obtain ⟨name', id'⟩ := entry'
      obtain ⟨mark', more', stop', spelled', ends'⟩ := entriesText_cons name' id' rest'
      rw [spelled, spelled'] at same
      obtain ⟨names, _, ids⟩ := cut_unique (P := isIdentRest) (idents (name, id) (by simp))
        (idents' (name', id') (by simp)) (by decide) (by decide) same
      obtain ⟨ids, marks, more_eq⟩ := cut_unique (P := isNumberChar) (number_chars id)
        (number_chars id') stop stop' ids
      have name_eq : name = name' := String.toList_inj.mp names
      have id_eq : id = id' := toString_int_unique (String.toList_inj.mp ids)
      have rest_eq : rest = rest' := by
        rcases ends with ⟨closed, none⟩ | ⟨comma, others, some⟩
        · rcases ends' with ⟨_, none'⟩ | ⟨comma', _, _⟩
          · rw [none, none']
          · rw [closed, comma'] at marks
            exact absurd marks (by decide)
        · rcases ends' with ⟨closed', _⟩ | ⟨_, others', _⟩
          · rw [comma, closed'] at marks
            exact absurd marks (by decide)
          · rw [others, others', List.cons.injEq] at more_eq
            exact ih rest' (fun entry member => idents entry (by simp [member]))
              (fun entry member => idents' entry (by simp [member])) more_eq.2
      rw [name_eq, id_eq, rest_eq]

theorem schemaName_unique {p q : Primitive} (int : p.isInteger = true) (int' : q.isInteger = true)
    (same : p.schemaName = q.schemaName) : p = q := by
  cases p <;> cases q <;>
    first
    | rfl
    | (exact absurd int Bool.false_ne_true)
    | (exact absurd int' Bool.false_ne_true)
    | (exact absurd same (by decide))

/-- The canonical name of an enumeration tells its backing and its entries. -/
theorem canonicalName_enum_unique {refs : Refs} {p q : Primitive}
    {entries entries' : List (String × Int)} (int : p.isInteger = true) (int' : q.isInteger = true)
    (idents : ∀ entry ∈ entries, IsIdent entry.1) (idents' : ∀ entry ∈ entries', IsIdent entry.1)
    (same : (Shape.enum p entries).canonicalName refs = (Shape.enum q entries').canonicalName refs) :
    p = q ∧ entries = entries' := by
  have spelled (p : Primitive) (entries : List (String × Int)) :
      ((Shape.enum p entries).canonicalName refs).toList =
        "Enum<".toList ++ (p.schemaName.toList ++ '>' :: ('\x7b' :: entriesText entries)) := by
    obtain ⟨nameOf, name⟩ := canonicalName_eq refs (.enum p entries)
    rw [name, nameWith, braced]
    simp [String.toList_append, entriesText]
  have texts := congrArg String.toList same
  rw [spelled, spelled, List.append_cancel_left_eq] at texts
  obtain ⟨backings, _, rest⟩ := cut_unique (P := isIdentRest) (isIdent_schemaName p)
    (isIdent_schemaName q) (by decide) (by decide) texts
  rw [List.cons.injEq] at rest
  exact ⟨schemaName_unique int int' (String.toList_inj.mp backings),
    entriesText_unique entries entries' idents idents' rest.2⟩

end Shape

end WireSchema
